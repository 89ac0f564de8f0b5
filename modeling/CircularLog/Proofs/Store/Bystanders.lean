import CircularLog.Proofs.Partition.Marred
import CircularLog.Proofs.Store.Host
import CircularLog.Proofs.Store.Lookup

/-!
# Appends that are interrupted, and the other partitions

An append that is interrupted by calls that fail without an effect leaves the latch open. Of its
partition some of the oldest items are gone, and all other partitions have what they had
(`spared_of_interrupted`). A page of the flash that was erased and could not be programmed again
takes with it what lies there of any partition, as nothing keeps a copy meanwhile
(`not_spared_of_leftErased`); the journal tells of it (`LeftErased`). Nothing is said of a partition
with a row that is half erased, as may be one that is not written in one piece.
-/

namespace CircularLog

variable {g : Geometry} {space : Space g} {parts : List Partition} {p : Partition}
  {slots base : Nat} {layouts : List Layout} {payload : Bytes}

/-- Of another partition with nothing in the page, what lies behind the header is still there. -/
theorem Partition.Holds.titled_apart {q : Partition} {image image' image'' : Bytes} {log : Log}
    {page : Option Nat} (h : q.Holds image log) (hlen : image.length = space.total)
    (fits : q.stop ≤ space.total) (apart : p.stop ≤ q.base ∨ q.stop ≤ p.base)
    (pages : ∀ first ∈ page, space.HasPage first) (spared : q.Spared space image page)
    (hconfined : p.Confined image image')
    (hconfined' : p.Confined (space.blot page image') image'') :
    q.Holds (q.titled image'') log := by
  have hlen' : (space.blot page image').length = space.total := by
    rw [Space.length_blot pages (hconfined.length.trans hlen), hconfined.length, hlen]
  refine (h.blot pages hlen fits spared).titled_congr
    (by rw [Space.length_blot pages hlen, hlen]; exact fits)
    (by rw [hconfined'.length, hlen', Space.length_blot pages hlen, hlen]) fun i hi hi' => ?_
  calc image''[i]?
      _ = (space.blot page image')[i]? := hconfined'.outside i (by omega)
      _ = (space.blot page image)[i]? :=
        Space.blot_congr pages hlen hconfined.length (hconfined.outside i (by omega))

namespace Store

variable {store after : Store g} {operations : List Operation}

/-- When the append had failed and had been rolled back, a row was half erased. -/
def HalfErasing (space : Space g) (p : Partition) (payload : Bytes) (store : Store g)
    (plan : List Fault) : Prop :=
  ∃ status e failed, store.status p.id = .ok status ∧
    p.appendOnce space payload (store.media.facing plan, status) = .error (.error e) failed ∧
    p.HalfErased space (space.image store.media) (space.image failed.1)

/-- An append to a store, after any operations, is interrupted by calls that fail without an effect.
The latch stays open then. There may be a page of the flash that was erased and not programmed
again; every partition that has nothing in it has the items that it had, with the same keys, but for
some of the oldest ones of the partition that was appended to. For this one, no row must have been
half erased. -/
theorem spared_of_interrupted {start stop : UInt32}
    (made : Space.create g g.eepromBytes g.flashBytes start stop = .ok space) (u : g.Uniform)
    (planned : space.plan slots base layouts = .ok parts) {m : Media g}
    (faultless : m.Under .clear)
    (blank : ∀ p ∈ parts, (space.image m).slice p.base headerBytes ≠ Partition.magic)
    (few : ∀ p ∈ parts, storedBy p operations < 0x1_0000_0000)
    {mounted : Store g} (mounts : mount space slots base layouts m = .ok mounted)
    (reaches : mounted.operateAll slots base layouts operations = some store)
    (hp : p ∈ parts) {plan : List Fault} (harmless : ∀ fault ∈ plan, fault.Harmless fun _ => True)
    {e : Error} (interrupts : e.isInterruption = true)
    (fails : append p.id payload (store.facing plan) = .error (.error e) after) :
    after.faulted = false ∧ Updates p store after ∧ ∃ page : Option Nat,
      (∀ first ∈ page, space.HasPage first ∧ LeftErased plan after.media.journal first) ∧
      (∀ q ∈ parts, q ≠ p → q.Spared space (space.image store.media) page →
        ∃ found, found.map Prod.snd = q.queue (payloadsIn q operations) ∧
          (store.facing []).Lists q found ∧ (after.facing []).Lists q found) ∧
      (p.Spared space (space.image store.media) page →
        HalfErasing space p payload store plan ∨
          ∃ found count, found.map Prod.snd = p.queue (payloadsIn p operations) ∧
            (store.facing []).Lists p found ∧ (after.facing []).Lists p (found.drop count)) := by
  have t := Space.truthful_of_create made
  have laid := laid_of_plan planned
  have c := Space.conduct_of_clear u t (space.around m)
  obtain ⟨logs, hsound, shelves, -⟩ :=
    shelves_of_operateAll made u planned faultless blank mounts reaches few
  obtain ⟨image, hopen, holds⟩ := hsound.exists_open
  have hlen : image.length = space.total := c.length hopen.media
  obtain rfl := hopen.media.image
  -- The store before the append, without faults and with them.
  have hclear : (store.facing []).Open (space.Exposes .clear (space.around m)) space store.volumes
      (space.image store.media) := ⟨hopen.space, rfl, hopen.faulted, hopen.media.facing rfl⟩
  have hfacing : (store.facing plan).Open (space.Exposes (.Marred plan none) (space.around m)) space
      store.volumes (space.image store.media) :=
    ⟨hopen.space, rfl, hopen.faulted, hopen.media.facing ⟨harmless, rfl, nofun⟩⟩
  have storable : p.Storable payload := by
    refine Decidable.byContradiction fun long => ?_
    rw [hfacing.append_of_long (hsound.known laid hp) (hsound.update_self p) long] at fails
    cases fails
    cases interrupts
  obtain ⟨m', status, happend, rfl⟩ := hfacing.append_eq_error (hsound.known laid hp) fails
  obtain ⟨page, failed, image', image'', honce, hpage, hconfined, hconfined', hexposes, hown⟩ :=
    Partition.append_marred u t (laid.inside p hp) hfacing.media (holds p hp) (hsound.settled p hp)
      storable (ids_lt_of_shelves (shelves p hp) (few p hp)) interrupts happend
  have pages (first : Nat) (hfirst : first ∈ page) : space.HasPage first := (hpage first hfirst).1
  have hopen' : decide (e = .inconsistent) = false := by
    refine decide_eq_false ?_
    rintro rfl
    cases interrupts
  -- What lies in a partition behind its header afterwards, a walk finds.
  have finds {q : Partition} {log : Log} (hq : q ∈ parts)
      (known : Volume.lookup q.id (Volume.update p.id status store.volumes) = some ⟨q, log.status⟩)
      (holds' : q.Holds (q.titled image'') log) :
      (Store.facing ⟨space, m', Volume.update p.id status store.volumes, e = .inconsistent⟩
        []).Lists q (q.listing log) :=
    Open.lists (Partition.conduct_titled c (laid.inside q hq)) known holds'
      ⟨rfl, rfl, hopen', image'', hexposes, rfl⟩
  refine ⟨hopen', fun _ hid => lookup_update hid _ _, page, hpage, fun q hq hne spared => ?_,
    fun spared => (hown spared).imp (fun hhalf => ?_) fun ⟨count, holds', hstatus⟩ => ?_⟩
  · -- What is left of another partition is what the page has left of it.
    have hfits := laid.inside q hq
    have hholds := (holds q hq).titled_apart hlen hfits (laid.apart_of_ne hp hq (Ne.symm hne)).bytes
      pages spared hconfined hconfined'
    have hid : q.id ≠ p.id := fun hid => hne (laid.eq_of_id hq hp hid)
    refine ⟨q.listing (logs q.id), by rw [q.map_snd_listing, (shelves q hq).queue],
      hclear.lists (c.part hfits) (hsound.known laid hq) (holds q hq), finds hq ?_ hholds⟩
    rw [lookup_update hid, hsound.known laid hq]
  · exact ⟨_, e, failed, status_of_lookup (hsound.known laid hp), honce, hhalf⟩
  · have hlisting : p.listing (p.popMany count (logs p.id)).found =
        (p.listing (logs p.id)).drop count := by
      rw [p.listing_found, p.listing_popMany]
    refine ⟨p.listing (logs p.id), count, by rw [p.map_snd_listing, (shelves p hp).queue],
      hclear.lists (c.part (laid.inside p hp)) (hsound.known laid hp) (holds p hp), ?_⟩
    rw [← hlisting]
    exact finds hp (hstatus ▸ lookup_update_self (hsound.known laid hp) status) holds'

end Store

/-! ## Small examples -/

/-- So many pages of flash with four words of two bytes each, and so many bytes of eeprom. -/
def Geometry.pagedWith (eepromBytes pages : Nat) : Geometry :=
  { Geometry.tiny with
    eepromBytes, pages, wordsPerPage := 4, scratchBytes := 8
    wordsPerPage_pos := Nat.zero_lt_succ _ }

namespace Store

/-- The items that a walk finds in a partition when there are no faults, two at most. -/
def walkedItems (store : Store g) (id : UInt8) : Option (List Bytes) :=
  match walk id 2 (store.facing []) with
  | .ok found _ => some (found.map Prod.snd)
  | .error _ _ => none

/-- What a walk finds in a partition before and after an append that is interrupted, to a store on
fresh memories after some operations; none if it is not interrupted, or latched. -/
def foundAround (eepromBytes pages : Nat) (layouts : List Layout) (operations : List Operation)
    (id : UInt8) (payload : Bytes) (plan : List Fault) (asked : UInt8) :
    Option (List Bytes × List Bytes) := do
  let g := Geometry.pagedWith eepromBytes pages
  let space ← (Space.create g eepromBytes g.flashBytes 0 (UInt32.ofNat g.flashBytes)).toOption
  let mounted ← (mount space 2 0 layouts (Media.fresh g)).toOption
  let store ← mounted.operateAll 2 0 layouts operations
  match append id payload (store.facing plan) with
  | .error (.error e) after =>
    guard (e.isInterruption ∧ ¬ after.faulted)
    return (← store.walkedItems asked, ← after.walkedItems asked)
  | _ => none

/-- Interrupted appends can do damage: a page that is not programmed again takes the item of another
partition with it, and the newest item of the same one. -/
theorem not_spared_of_leftErased :
    let unprogrammed := [Fault.refusing .flash .write 0 (some 2) .other]
    (∀ fault ∈ unprogrammed, fault.Harmless fun _ => True) ∧
    foundAround 16 3 [⟨7, 18, 1⟩, ⟨9, 18, 1⟩]
      [.request (.append 7 [1, 2]), .request (.append 9 [3])] 9 [4] unprogrammed 7 =
        some ([[1, 2]], [[255, 255]]) ∧
    foundAround 28 1 [⟨9, 32, 2⟩]
      [.request (.append 9 [1, 2]), .request (.append 9 [3, 4])] 9 [5] unprogrammed 9 =
        some ([[1, 2], [3, 4]], [[255, 255]]) ∧
    ¬ ([[255, 255]] : List Bytes) <:+ [[1, 2], [3, 4]] :=
  ⟨by decide, by decide +kernel, by decide +kernel, by decide⟩

/-- The flash takes no payload, behind the row of an item that takes the place of another one. -/
theorem spared_of_interrupted_small :
    ∃ mounted store after, mount Space.small 1 0 [⟨7, 28, 1⟩] (Media.fresh .small) = .ok mounted ∧
      mounted.operateAll 1 0 [⟨7, 28, 1⟩] [.request (.append 7 [1, 2, 3])] = some store ∧
      append 7 [4, 5] (store.facing [.refusing .flash .write 0 none .other]) =
        .error (.error (.device .flash .other)) after ∧
      after.faulted = false ∧ ∃ (found : List (Key × Bytes)) (count : Nat),
        found.map Prod.snd = [[1, 2, 3]] ∧
          (after.facing []).Lists Partition.small (found.drop count) := by
  have few : ∀ p ∈ [Partition.small],
      storedBy p [.request (.append 7 [1, 2, 3])] < 0x1_0000_0000 := by decide
  have harmless : ∀ fault ∈ [Fault.refusing .flash .write 0 none .other],
      fault.Harmless fun _ => True := by decide
  -- No page is erased on the way, and the one row lies in the eeprom.
  have run : ((mount Space.small 1 0 [⟨7, 28, 1⟩] (Media.fresh .small)).toOption.bind fun mounted =>
      (mounted.operateAll 1 0 [⟨7, 28, 1⟩] [.request (.append 7 [1, 2, 3])]).map fun store =>
        let failing := store.facing [.refusing .flash .write 0 none .other]
        ((append 7 [4, 5]).told failing,
          ((append 7 [4, 5]).leaves failing).media.journal.all fun call => call.access ≠ .erase)) =
      some (some (.error (.device .flash .other)), true) := by decide +kernel
  obtain ⟨mounted, hmounted, run⟩ := Option.bind_eq_some_iff.mp run
  obtain ⟨store, reaches, run⟩ := Option.map_eq_some_iff.mp run
  obtain ⟨told, programs⟩ := Prod.mk.inj run
  have mounts := mount_of_toOption hmounted
  have fails := Action.eq_error_of_told told
  obtain ⟨hopen, -, page, hpage, -, hown⟩ := spared_of_interrupted Space.create_small
    Geometry.uniform_small Space.plan_small (Media.under_clear_fresh _) Space.blank_small few mounts
    reaches (List.mem_singleton_self _) harmless rfl fails
  have programmed : page = none := by
    refine Option.eq_none_iff_forall_not_mem.mpr fun first hfirst => ?_
    obtain ⟨later, earlier, hjournal, _, call, length, older, -, -, -, h⟩ := (hpage first hfirst).2
    obtain ⟨before, h⟩ : ∃ before, earlier = before ++ ⟨.flash, .erase, first, length⟩ :: older :=
      h.elim (fun h => ⟨[call], h.1⟩) (⟨[call, call], ·⟩)
    rw [hjournal, h] at programs
    simp at programs
  subst programmed
  obtain ⟨-, -, failed, -, -, row, n, hrow, whole, -⟩ | ⟨found, count, hfound, -, hlists⟩ :=
    hown (by simp [Partition.Spared])
  · obtain rfl : row = 0 := Nat.lt_one_iff.mp hrow
    exact absurd (.inl (by decide)) whole
  · exact ⟨mounted, store, _, mounts, reaches, fails, hopen, found, count, hfound, hlists⟩

end Store

end CircularLog
