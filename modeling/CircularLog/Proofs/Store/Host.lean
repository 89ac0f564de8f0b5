import CircularLog.Proofs.Partition.Harmless
import CircularLog.Proofs.Store.Operate

/-!
# Runs with faults

A `Host` has a store, or the memories alone where none could be mounted. In a run, operations and
new plans of faults take turns, and mounting may fail and be tried again. What is known of one
partition in the eeprom, while failing calls have no effect, is followed here through such runs: the
partition boots with some log (`Host.Tracks`), and as long as the latch is open, the store knows
that log (`Store.Knows`). Each incident advances the log (`Host.Tracks.undergo`), so no more ids are
used up than there are appends that end with a key or set the latch (`Host.Tracks.undergoAll`). What
becomes of the other partitions, which may lie anywhere, has no part in it.
-/

namespace CircularLog

variable {g : Geometry} {space : Space g} {parts : List Partition} {p q : Partition}
  {slots base : Nat} {layouts : List Layout}

/-! ## Hosts -/

/-- The store, with the faults that driver calls meet from now on and no calls in the journal. -/
def Store.facing (store : Store g) (plan : List Fault) : Store g :=
  { store with media := store.media.facing plan }

/-- A store, or the memories alone where none could be mounted. -/
inductive Host (g : Geometry) where
  | mounted (store : Store g)
  | bare (media : Media g)

/-- What happens to a host: driver calls meet other faults from now on, or something is asked. -/
inductive Incident : Type 1 where
  | faults (plan : List Fault)
  | operation (asked : Store.Operation)

/-- The incident stores an item in the partition. -/
def Incident.stores (p : Partition) : Incident → Bool
  | faults _ => false
  | operation asked => asked.stores p

/-- The faults are harmless ones of these memories. -/
def Incident.Harmless (media : Medium → Prop) : Incident → Prop
  | faults plan => ∀ fault ∈ plan, fault.Harmless media
  | operation _ => True

instance (media : Medium → Prop) [DecidablePred media] : DecidablePred (Incident.Harmless media)
  | .faults plan => inferInstanceAs (Decidable (∀ fault ∈ plan, _))
  | .operation _ => .isTrue trivial

/-- The append ends with a key, or sets the latch. -/
def Store.uses (id : UInt8) (payload : Bytes) (store : Store g) : Bool :=
  match append id payload store with
  | .ok _ _ => true
  | .error _ after => !store.faulted && after.faulted

namespace Host

/-- The memories of a host. -/
def media : Host g → Media g
  | mounted store => store.media
  | bare media => media

/-- The store of a host, if it has one. -/
def store? : Host g → Option (Store g)
  | mounted store => some store
  | bare _ => none

/-- A host that has a store is one with that store. -/
theorem eq_mounted_of_store? {host : Host g} {store : Store g} (h : host.store? = some store) :
    host = mounted store := by
  cases host with
  | mounted _ => rw [Option.some.inj h]
  | bare m => cases h

/-- The host, with the faults that driver calls meet from now on. -/
def facing (plan : List Fault) : Host g → Host g
  | mounted store => mounted (store.facing plan)
  | bare m => bare (m.facing plan)

section Running

variable (space : Space g) (slots base : Nat) (layouts : List Layout)

/-- A host with a store of the memories, or with what mounting has left of them; none after a
defect. -/
def mounting (m : Media g) : Option (Host g) :=
  match Store.mount space slots base layouts m with
  | .ok store => some (mounted store)
  | .error (.error _, m) => some (bare m)
  | .error (.defect _, _) => none

/-- The host after an incident. Where there is no store, nothing can be done but to mount one. -/
def undergo : Host g → Incident → Option (Host g)
  | host, .faults plan => some (host.facing plan)
  | host, .operation (.request .remount) => mounting space slots base layouts host.media
  | mounted store, .operation asked => (store.operate slots base layouts asked).map mounted
  | bare m, .operation _ => some (bare m)

/-- The host after some incidents, one after the other. -/
def undergoAll (host : Host g) : List Incident → Option (Host g)
  | [] => some host
  | incident :: incidents =>
    (host.undergo space slots base layouts incident).bind fun next => next.undergoAll incidents

/-- An id of the partition is used up: an append there ends with a key, or sets the latch. -/
def takes (p : Partition) : Host g → Incident → Bool
  | mounted store, .operation (.request (.append id payload)) =>
    Store.Request.stores p (.append id payload) && store.uses id payload
  | _, _ => false

/-- How many ids of the partition are used up by some incidents. -/
def taken (p : Partition) (host : Host g) : List Incident → Nat
  | [] => 0
  | incident :: incidents => (host.takes p incident).toNat +
    ((host.undergo space slots base layouts incident).elim 0 fun next => next.taken p incidents)

end Running

end Host

/-! ## What a store knows of a partition -/

namespace Store

variable {phase : Phase} {around : Bytes × Bytes} {log : Log} {store after : Store g}
  {payload : Bytes} {request : Request} {number : Nat}

/-- The memories have the log in the partition. -/
def Keeping (space : Space g) (phase : Phase) (around : Bytes × Bytes) (p : Partition) (log : Log)
    (m : Media g) : Prop :=
  ∃ image, space.Exposes phase around image m ∧ p.Holds image log

/-- The memories have the log in the partition, and the store has its fill state. -/
structure Knows (space : Space g) (parts : List Partition) (phase : Phase) (around : Bytes × Bytes)
    (p : Partition) (log : Log) (store : Store g) : Prop where
  shaped : store.Shaped space parts (Keeping space phase around p log)
  known : Volume.lookup p.id store.volumes = some ⟨p, log.status⟩
  settled : log.Settled

/-- The partition boots with the log. -/
def Bootable (space : Space g) (phase : Phase) (around : Bytes × Bytes) (p : Partition) (log : Log)
    (m : Media g) : Prop :=
  ∃ image, space.Exposes phase around image m ∧ p.Boots image log

/-- What the memories have in a partition, the partition boots with. -/
theorem Keeping.bootable {m : Media g} (h : Keeping space phase around p log m) :
    Bootable space phase around p log m := by
  obtain ⟨image, hm, holds⟩ := h
  exact ⟨image, hm, .inl holds⟩

/-- It boots as well with what recovery finds of the log. -/
theorem Bootable.found {m : Media g} (h : Bootable space phase around p log m) :
    Bootable space phase around p log.found m := by
  obtain ⟨image, hm, boots⟩ := h
  exact ⟨image, hm, boots.found⟩

/-- Other faults make no difference to what the store knows. -/
theorem Knows.facing {phase' : Phase} {plan : List Fault}
    (h : store.Knows space parts phase around p log) (hplan : phase' plan []) :
    (store.facing plan).Knows space parts phase' around p log := by
  obtain ⟨image, hm, holds⟩ := h.shaped.media
  exact ⟨⟨h.shaped.space, h.shaped.partitions, h.shaped.rows, image, hm.facing hplan, holds⟩,
    h.known, h.settled⟩

/-- As long as the latch is open, the store is open with the image of its memories. -/
theorem Knows.exists_open (h : store.Knows space parts phase around p log)
    (unfaulted : store.faulted = false) :
    ∃ image, store.Open (space.Exposes phase around) space store.volumes image ∧
      p.Holds image log := by
  obtain ⟨image, hm, holds⟩ := h.shaped.media
  exact ⟨image, ⟨h.shaped.space, rfl, unfaulted, hm⟩, holds⟩

/-- Asking changes nothing of what the store knows. -/
theorem Knows.of_asked (h : store.Knows space parts phase around p log)
    (asked : after.Shaped space parts (Keeping space phase around p log) ∧
      after.volumes = store.volumes) : after.Knows space parts phase around p log :=
  ⟨asked.1, asked.2 ▸ h.known, h.settled⟩

/-- What is too long is refused, and the store is as it was. -/
theorem Knows.append_of_long (h : store.Knows space parts phase around p log)
    (laid : Laid space parts) (unfaulted : store.faulted = false) (long : ¬ p.Storable payload) :
    append p.id payload store = .error (.error .outOfRoom) store := by
  obtain ⟨image, hopen, -⟩ := h.exists_open unfaulted
  exact hopen.append_of_long h.known
    (Volume.update_of_lookup (h.shaped.distinct laid) h.known) long

section Steps

variable (o : Outage .clean phase phase fun _ => phase) (u : g.Uniform) (t : space.Truthful)
  (laid : Laid space parts) (hp : p ∈ parts) (eeprom : p.stop ≤ space.boundary)
include o u t

/-- Writes into a partition keep what is known of the memories but for their image. -/
theorem tends_shown (inside : q.stop ≤ space.total) :
    space.Tends q.base q.stop fun m => ∃ image, space.Exposes phase around image m ∧ True :=
  Space.tends_of_harmless o u t inside (fun _ _ _ _ => trivial) around

/-- Reading keeps the log. -/
theorem reads_keeping (log : Log) : space.Reads (Keeping space phase around p log) :=
  Space.reads_of_harmless o u t around fun image => p.Holds image log

include eeprom

/-- Writes into another partition keep what depends on the bytes of this one only. -/
theorem tends_apart (inside : q.stop ≤ space.total) (apart : q.stop ≤ p.base ∨ p.stop ≤ q.base)
    {good : Bytes → Prop}
    (closed : ∀ {image image' : Bytes}, p.stop ≤ image.length → p.stop ≤ image'.length →
      (∀ i, p.base ≤ i → i < p.stop → image'[i]? = image[i]?) → good image → good image') :
    space.Tends q.base q.stop fun m => ∃ image, space.Exposes phase around image m ∧
        good image := by
  have htotal : space.boundary ≤ space.total := Nat.le_add_right _ _
  refine Space.tends_of_harmless o u t inside (fun hlen hlen' same => ?_) around
  exact closed (by omega) (by omega) fun i _ _ => same i (by omega) (by omega)

include laid hp

/-- Writing into another partition keeps the log. -/
theorem tends_keeping (hq : q ∈ parts) (hne : q ≠ p) (log : Log) :
    space.Tends q.base q.stop (Keeping space phase around p log) :=
  tends_apart o u t eeprom (laid.inside q hq) (laid.apart_of_ne hq hp hne).bytes
    fun fits fits' same holds => holds.congr fits fits' same

/-! ## Operations on other partitions -/

/-- An operation that stores nothing in the partition changes nothing of what the store knows of
it. -/
theorem Knows.operate_other (h : store.Knows space parts phase around p log)
    (unfaulted : store.faulted = false) {operation : Operation}
    (hother : operation ≠ .request .remount) (none : operation.stores p = false)
    (operates : store.operate slots base layouts operation = some after) :
    after.Knows space parts phase around p log := by
  by_cases appends : ∃ id payload, operation = .request (.append id payload)
  · obtain ⟨id, payload, rfl⟩ := appends
    by_cases known : ∃ q ∈ parts, q.id = id
    · obtain ⟨q, hq, rfl⟩ := known
      by_cases hqp : q = p
      · -- Nothing is stored, as the payload is too long.
        subst hqp
        have long : ¬ q.Storable payload := fun storable => by
          simp [Operation.stores, Request.stores, storable] at none
        rw [operate, serve, left, h.append_of_long laid unfaulted long] at operates
        exact Option.some.inj operates ▸ h
      · have hyields := h.shaped.append_yields laid hq
          (tends_keeping o u t laid hp eeprom hq hqp log) payload
        obtain ⟨hshaped, hupdates⟩ := left_of_yields hyields operates
        have hid : p.id ≠ q.id := (laid.apart_of_ne hq hp hqp).ids.symm
        exact ⟨hshaped, (hupdates p.id hid).trans h.known, h.settled⟩
    · have unknown := h.shaped.lookup_eq_none known
      have hyields : (append id payload).Yields store (fun _ after => after = store)
          fun after => after = store :=
        (append_yields_unknown unknown payload).mono (fun _ _ h => h.elim) fun _ h => h
      exact left_of_yields hyields operates ▸ h
  · exact h.of_asked (operate_keeps laid (fun _ _ => reads_keeping o u t log)
      (fun id payload happend => appends ⟨id, payload, happend⟩) hother h.shaped operates)

/-! ## Appending -/

/-- What is left of an append that was interrupted: the log without some of the oldest items. -/
def Spared (space : Space g) (parts : List Partition) (phase : Phase) (around : Bytes × Bytes)
    (p : Partition) (log : Log) (store after : Store g) : Prop :=
  after.faulted = false ∧ p.Confined (space.image store.media) (space.image after.media) ∧
    ∃ count, after.Knows space parts phase around p (p.popMany count log).found

/-- An append puts the item behind the others; or it is interrupted, and some of the oldest items
are gone; or it sets the latch. -/
theorem Knows.append_ends
    (h : store.Knows space parts phase around p log) (unfaulted : store.faulted = false)
    (storable : p.Storable payload) (ids : log.id + log.items.length < 0x1_0000_0000) :
    (append p.id payload).Ends store
      (fun key after => key = ⟨p.id, p.freeRow log, UInt32.ofNat (log.id + log.items.length)⟩ ∧
        after.faulted = false ∧
        ∃ log', after.Knows space parts phase around p log' ∧ p.Appended log payload log')
      (fun e after => Updates p store after ∧
        (e.isInterruption = true ∧ Spared space parts phase around p log store after ∨
        e = .inconsistent ∧ after.faulted = true ∧ ∃ log', p.Advances 1 log log' ∧
          after.Shaped space parts (Bootable space phase around p log'))) := by
  have fits := laid.inside p hp
  obtain ⟨image, hopen, holds⟩ := h.exists_open unfaulted
  -- Whatever happens, the store stays shaped.
  have k : space.Tends p.base p.stop fun m => ∃ image, space.Exposes phase around image m ∧ True :=
    tends_shown o u t fits
  have hshaped : store.Shaped space parts fun m =>
      ∃ image, space.Exposes phase around image m ∧ True :=
    h.shaped.mono fun m ⟨image, hm, _⟩ => ⟨image, hm, trivial⟩
  have hends := hopen.append_ends h.known
    (p.append_harmless o u t eeprom hopen.media holds h.settled storable ids)
  have lookup (status : Status) : Volume.lookup p.id (Volume.update p.id status store.volumes) =
      some ⟨p, status⟩ := lookup_update_self h.known status
  refine (hends.and_yields (hshaped.append_yields laid hp k payload)).mono ?_ ?_
  · rintro key after ⟨⟨place, m', status, ⟨image', log', hm', -, holds', rfl, happended, rfl⟩, rfl,
      rfl⟩, hafter, -⟩
    exact ⟨rfl, rfl, log',
      ⟨⟨hafter.space, hafter.partitions, hafter.rows, image', hm', holds'⟩, lookup _,
      happended.settled⟩, happended⟩
  · rintro e after ⟨⟨m', status, h', rfl⟩, hafter, hupdates⟩
    refine ⟨hupdates, ?_⟩
    rcases h' with ⟨he, count, image', hm', hconfined, holds', rfl⟩ | ⟨rfl, hstrayed⟩
    · have hne : e ≠ .inconsistent := by
        rintro rfl
        cases he
      refine .inl ⟨he, decide_eq_false hne, ?_, count,
        ⟨hafter.space, hafter.partitions, hafter.rows, image', hm', holds'.found⟩, lookup _,
        (p.popMany count log).settled_found⟩
      show p.Confined (space.image store.media) (space.image m')
      rw [hopen.media.image, hm'.image]
      exact hconfined
    · obtain ⟨image', log', hm', holds', happending⟩ := hstrayed
      exact .inr ⟨rfl, by simp, _, happending.advances, hafter.space, hafter.partitions,
        hafter.rows, image', hm', .inl holds'.found⟩

/-- An append that is interrupted has left the latch open, and some of the oldest items are gone. -/
theorem Knows.spared (h : store.Knows space parts phase around p log)
    (unfaulted : store.faulted = false) (ids : log.id + log.items.length < 0x1_0000_0000)
    {e : Error} (interrupts : e.isInterruption = true)
    (fails : append p.id payload store = .error (.error e) after) :
    Updates p store after ∧ Spared space parts phase around p log store after := by
  have storable : p.Storable payload := by
    refine Decidable.byContradiction fun long => ?_
    rw [h.append_of_long laid unfaulted long] at fails
    cases fails
    cases interrupts
  obtain ⟨hupdates, ⟨-, hspared⟩ | ⟨rfl, -⟩⟩ :=
    (h.append_ends o u t laid hp eeprom unfaulted storable ids).of_error fails
  · exact ⟨hupdates, hspared⟩
  · cases interrupts

/-! ## Mounting -/

/-- Mounting partitions one after the other finds the log with which one of them boots. -/
theorem mountEach_boots {m : Media g} {image : Bytes} (hm : space.Exposes phase around image m)
    (boots : p.Boots image log) :
    (mountEach space parts).Yields m
      (fun volumes m' => Volume.lookup p.id volumes = some ⟨p, log.found.status⟩ ∧
        Keeping space phase around p log m')
      (fun m' => ∃ image, space.Exposes phase around image m' ∧ p.Boots image log) := by
  have c := (Space.conduct_of_harmless o u t around).within (Nat.zero_le p.base) eeprom
  -- From partition to partition, until it is the one.
  induction parts generalizing m image with
  | nil => cases hp
  | cons q rest ih =>
    obtain ⟨hq, hrest⟩ := List.pairwise_cons.mp laid.apart
    obtain ⟨fitsq, inside⟩ := List.forall_mem_cons.mp laid.inside
    simp only [mountEach, Action.yields_bind, Action.yields_pure]
    rcases List.mem_cons.mp hp with rfl | hp
    · have halts {images : Bytes → Prop} (weaker : ∀ image', images image' → p.Boots image' log)
          (e : Error) (m' : Media g)
          (h : Space.Halts (.harmless space phase around) images e m') :
          ∃ image, space.Exposes phase around image m' ∧ p.Boots image log := by
        obtain ⟨-, hnever | ⟨image', himage, h'⟩⟩ := h
        · exact hnever.elim
        · exact ⟨image', h', weaker image' himage⟩
      refine ((p.ensureFormatted_ends c hm boots).yields
        (halts fun _ h => h.2)).mono ?_ fun _ h => h
      rintro _ m₁ ⟨image₁, h₁, -, holds⟩
      have found : ((p.recover space).startingFrom Status.empty).Ends m₁
          (fun status m' => space.Exposes phase around image₁ m' ∧ status = log.found.status)
          (Space.Halts (.harmless space phase around) (· = image₁)) :=
        (Action.ends_startingFrom _ _).mpr (p.recover_ends
          (c.toLegible.within (Nat.le_add_right _ _) (Nat.le_refl _)) holds h₁ Status.empty)
      refine (found.yields (halts fun _ h => h ▸ .inl holds)).mono ?_ fun _ h => h
      rintro _ m₂ ⟨h₂, rfl⟩
      have k (r : Partition) (hr : r ∈ rest) :
          space.Tends r.base r.stop (Keeping space phase around p log) :=
        tends_apart o u t eeprom (inside r hr) (hq r hr).bytes.symm fun fits fits' same holds =>
          holds.congr fits fits' same
      refine (mountEach_yields k ⟨image₁, h₂, holds⟩).mono ?_ ?_
      · exact fun volumes m₃ h => ⟨by simp [Volume.lookup], h.2.2⟩
      · rintro m₃ ⟨image₃, h₃, holds₃⟩
        exact ⟨image₃, h₃, .inl holds₃⟩
    · have apart : q.Apart p := hq p hp
      have k : space.Tends q.base q.stop fun m =>
          ∃ image, space.Exposes phase around image m ∧ p.Boots image log :=
        tends_apart o u t eeprom fitsq apart.bytes fun fits fits' same boots =>
          boots.congr fits fits' same
      refine (Partition.keeps_ensureFormatted k m ⟨image, hm, boots⟩).mono ?_ fun _ h => h
      intro _ m₁ h₁
      refine (recover_yields k h₁).mono ?_ fun _ h => h
      rintro status m₂ ⟨-, image₂, h₂, boots₂⟩
      refine (ih ⟨inside, hrest⟩ hp h₂ boots₂).mono ?_ fun _ h => h
      rintro volumes m₃ ⟨hlookup, h₃⟩
      refine ⟨?_, h₃⟩
      rw [← hlookup, Volume.lookup, List.find?_cons,
        beq_eq_false_iff_ne.mpr apart.ids, Volume.lookup]

/-- A store that is mounted knows the log with which a partition boots; where mounting fails, it
boots as before. -/
theorem mount_boots (planned : space.plan slots base layouts = .ok parts) {m : Media g}
    {image : Bytes} (hm : space.Exposes phase around image m) (boots : p.Boots image log) :
    match mount space slots base layouts m with
    | .ok store => store.faulted = false ∧ store.Knows space parts phase around p log.found
    | .error (_, m') => ∃ image, space.Exposes phase around image m' ∧ p.Boots image log := by
  have hboots := mountEach_boots o u t laid hp eeprom hm boots
  have k (q : Partition) (hq : q ∈ parts) : space.Tends q.base q.stop fun m =>
      ∃ image, space.Exposes phase around image m ∧ True :=
    tends_shown o u t (laid.inside q hq)
  have hshaped := mountEach_yields k (m := m) ⟨image, hm, trivial⟩
  rw [mount_of_plan planned]
  unfold Action.Yields at hboots hshaped
  cases hrun : mountEach space parts m with
  | error stop m' =>
    rw [hrun] at hboots
    exact hboots
  | ok volumes m' =>
    rw [hrun] at hboots hshaped
    obtain ⟨hlookup, image', hm', holds⟩ := hboots
    exact ⟨rfl, ⟨rfl, hshaped.1, hshaped.2.1, image', hm', holds.found⟩, hlookup,
      log.settled_found⟩

end Steps

/-- Behind a set latch, requests but for mounting change nothing. -/
theorem serve_of_faulted (faulted : store.faulted = true) (hother : request ≠ .remount) :
    store.serve slots base layouts request = some store := by
  cases request with
  | remount => exact absurd rfl hother
  | append | oldestKey | successor | fetch =>
    simp [Store.serve, left, append, oldestKey, successor, fetch, Action.alone,
      latched_of_faulted _ _ faulted]

/-- A report leaves the latch alone. -/
theorem report_yields (id : UInt8) :
    (report id).Yields store (fun _ after => after.faulted = store.faulted)
      fun after => after.faulted = store.faulted := by
  obtain ⟨space, media, volumes, faulted⟩ := store
  rw [report, Action.yields_alone]
  unfold Action.Yields reading
  dsimp only
  cases Volume.lookup id volumes with
  | none => rfl
  | some volume =>
    dsimp only
    cases (volume.partition.report space volume.status).beside (media, ()) <;> rfl

/-- Only mounting opens a latch that is set. -/
theorem faulted_of_operate (faulted : store.faulted = true) {operation : Operation}
    (hother : operation ≠ .request .remount)
    (operates : store.operate slots base layouts operation = some after) :
    after.faulted = true := by
  cases operation with
  | request asked =>
    rw [operate, serve_of_faulted faulted fun h => hother (h ▸ rfl)] at operates
    exact Option.some.inj operates ▸ faulted
  | itemLength key =>
    rw [operate, left, itemLength, Action.alone, latched_of_faulted _ _ faulted] at operates
    exact Option.some.inj operates ▸ faulted
  | find id capacity test held =>
    rw [operate, left, Action.holding, find_eq, latched_of_faulted _ _ faulted] at operates
    exact Option.some.inj operates ▸ faulted
  | report id => exact (left_of_yields (report_yields id) operates).trans faulted

end Store

/-! ## Runs -/

namespace Host

open Store (Keeping Bootable)

variable {phase : Phase} {around : Bytes × Bytes} {number : Nat} {log : Log} {host after : Host g}
  {incident : Incident} {incidents : List Incident}

/-- All but a remount is done by the store. -/
theorem undergo_mounted {store : Store g} {asked : Store.Operation}
    (hother : asked ≠ .request .remount) :
    (mounted store).undergo space slots base layouts (.operation asked) =
      (store.operate slots base layouts asked).map mounted := by
  cases asked with
  | request asked =>
    cases asked with
    | remount => exact absurd rfl hother
    | _ => rfl
  | _ => rfl

/-- Where there is no store, nothing else is done. -/
theorem undergo_bare {m : Media g} {asked : Store.Operation} (hother : asked ≠ .request .remount) :
    (bare m).undergo space slots base layouts (.operation asked) = some (bare m) := by
  cases asked with
  | request asked =>
    cases asked with
    | remount => exact absurd rfl hother
    | _ => rfl
  | _ => rfl

/-- The partition boots with the log; and as long as the latch is open, the store knows it. -/
def Tracks (space : Space g) (parts : List Partition) (phase : Phase) (around : Bytes × Bytes)
    (p : Partition) (log : Log) : Host g → Prop
  | mounted store => store.Shaped space parts (Bootable space phase around p log) ∧
      (store.faulted = false → store.Knows space parts phase around p log)
  | bare m => Bootable space phase around p log m

/-- Tracked or not by a store, the partition boots with the log. -/
theorem Tracks.bootable (h : host.Tracks space parts phase around p log) :
    Bootable space phase around p log host.media := by
  cases host with
  | mounted store => exact h.1.media
  | bare m => exact h

/-- With what recovery finds of the log, the partition is tracked, too. -/
theorem Tracks.found (h : host.Tracks space parts phase around p log) :
    host.Tracks space parts phase around p log.found := by
  cases host with
  | mounted store =>
    exact ⟨h.1.mono fun _ h => h.found, fun hopen => (h.2 hopen).settled.found_eq.symm ▸ h.2 hopen⟩
  | bare m => exact Bootable.found h

/-- Other faults make no difference to what is known of the partition. -/
theorem Tracks.facing {phase' : Phase} {plan : List Fault}
    (h : host.Tracks space parts phase around p log) (hplan : phase' plan []) :
    (host.facing plan).Tracks space parts phase' around p log := by
  have bootable {m : Media g} (hm : Bootable space phase around p log m) :
      Bootable space phase' around p log (m.facing plan) := by
    obtain ⟨image, hm, boots⟩ := hm
    exact ⟨image, hm.facing hplan, boots⟩
  cases host with
  | mounted store =>
    obtain ⟨hshaped, hknows⟩ := h
    exact ⟨⟨hshaped.space, hshaped.partitions, hshaped.rows, bootable hshaped.media⟩,
      fun hopen => (hknows hopen).facing hplan⟩
  | bare m => exact bootable h

/-- What a store knows of a partition is tracked. -/
theorem tracks_of_knows {store : Store g} (h : store.Knows space parts phase around p log) :
    (mounted store).Tracks space parts phase around p log :=
  ⟨h.shaped.mono fun _ h => h.bootable, fun _ => h⟩

section Steps

variable (o : Outage .clean phase phase fun _ => phase) (u : g.Uniform) (t : space.Truthful)
  (planned : space.plan slots base layouts = .ok parts) (hp : p ∈ parts)
  (eeprom : p.stop ≤ space.boundary)
include o u t planned hp eeprom

/-- Mounting keeps track of the partition. -/
theorem tracks_of_mounting {m : Media g} (hm : Bootable space phase around p log m)
    (mounts : mounting space slots base layouts m = some after) :
    after.Tracks space parts phase around p log.found := by
  obtain ⟨image, hm, boots⟩ := hm
  have hmount := Store.mount_boots o u t (laid_of_plan planned) hp eeprom planned hm boots
  unfold mounting at mounts
  cases hcase : Store.mount space slots base layouts m with
  | ok store =>
    rw [hcase] at mounts hmount
    obtain rfl := Option.some.inj mounts
    exact tracks_of_knows hmount.2
  | error left =>
    obtain ⟨stop, m'⟩ := left
    rw [hcase] at mounts hmount
    cases stop with
    | error e =>
      obtain rfl := Option.some.inj mounts
      exact Bootable.found hmount
    | defect d => cases mounts

/-- An append to the partition keeps track of it, and may use up an id. -/
theorem tracks_of_append {store store' : Store g}
    (hknows : store.Knows space parts phase around p log) (hfaulted : store.faulted = false)
    {payload : Bytes} (storable : p.Storable payload)
    (few : log.id + log.items.length < 0x1_0000_0000)
    (serves : store.serve slots base layouts (.append p.id payload) = some store') :
    ∃ log', (mounted store').Tracks space parts phase around p log' ∧
      p.Advances (store.uses p.id payload).toNat log log' := by
  have hends := hknows.append_ends o u t (laid_of_plan planned) hp eeprom hfaulted storable few
  rw [Store.uses]
  rw [Store.serve, Store.left] at serves
  cases hrun : Store.append p.id payload store with
  | ok key after =>
    rw [hrun] at serves
    obtain rfl := Option.some.inj serves
    obtain ⟨-, -, log', hknows', happended⟩ := hends.of_ok hrun
    exact ⟨log', tracks_of_knows hknows', happended.advances⟩
  | error stop after =>
    rw [hrun] at serves
    cases stop with
    | defect d => cases serves
    | error e =>
      obtain rfl := Option.some.inj serves
      obtain ⟨-, ⟨-, -, -, count, hknows'⟩ | ⟨-, hset, log', hadvances, hshaped'⟩⟩ :=
        hends.of_error hrun
      · exact ⟨_, tracks_of_knows hknows', p.advances_popMany _ count log⟩
      · refine ⟨log', ⟨hshaped', fun hopen => ?_⟩, by simpa [hfaulted, hset] using hadvances⟩
        rw [hset] at hopen
        cases hopen

omit hp eeprom in
/-- While the latch is set, operations keep track of the partition, and change nothing of it. -/
theorem Tracks.operate_faulted {store store' : Store g}
    (h : (mounted store).Tracks space parts phase around p log) (hfaulted : store.faulted = true)
    {asked : Store.Operation} (hother : asked ≠ .request .remount)
    (operates : store.operate slots base layouts asked = some store') :
    (mounted store').Tracks space parts phase around p log.found := by
  have hset := Store.faulted_of_operate hfaulted hother operates
  refine ⟨?_, fun hopen => by rw [hset] at hopen; cases hopen⟩
  have hbootable := h.1.mono fun m h => Bootable.found h
  by_cases appends : ∃ id payload, asked = .request (.append id payload)
  · obtain ⟨id, payload, rfl⟩ := appends
    rw [Store.operate, Store.serve_of_faulted hfaulted (fun h => hother (h ▸ rfl))] at operates
    exact Option.some.inj operates ▸ hbootable
  · exact (Store.operate_keeps (laid_of_plan planned)
      (fun _ _ => Space.reads_of_harmless o u t around fun image => p.Boots image log.found)
      (fun id payload happend => appends ⟨id, payload, happend⟩) hother hbootable operates).1

/-- Operations keep track of the partition. An append there may use up an id; nothing else changes
the items. -/
theorem Tracks.operate {store store' : Store g}
    (h : (mounted store).Tracks space parts phase around p log) {asked : Store.Operation}
    (hother : asked ≠ .request .remount)
    (few : asked.stores p = true → log.id + log.items.length < 0x1_0000_0000)
    (operates : store.operate slots base layouts asked = some store') :
    ∃ log', (mounted store').Tracks space parts phase around p log' ∧
      p.Advances ((mounted store).takes p (.operation asked)).toNat log log' ∧
      (asked.stores p = false → log'.items = log.items) := by
  cases hfaulted : store.faulted with
  | true =>
    exact ⟨log.found, h.operate_faulted o u t planned hfaulted hother operates,
      p.advances_popMany _ 0 log, fun _ => log.items_found⟩
  | false =>
    have hknows := h.2 hfaulted
    by_cases hstores : asked.stores p = true
    · obtain ⟨payload, hpayload⟩ :=
        Option.isSome_iff_exists.mp ((asked.isSome_payload? p).trans hstores)
      obtain ⟨rfl, storable⟩ := Store.Operation.append_of_payload? hpayload
      obtain ⟨log', htracks, hadvances⟩ :=
        tracks_of_append o u t planned hp eeprom hknows hfaulted storable (few hstores) operates
      have htakes : (mounted store).takes p (.operation (.request (.append p.id payload))) =
          store.uses p.id payload := by
        rw [takes, show Store.Request.stores p (.append p.id payload) = true from hstores,
          Bool.true_and]
      exact ⟨log', htracks, htakes ▸ hadvances, fun hnot =>
        absurd hstores (hnot ▸ Bool.false_ne_true)⟩
    · have hknows' := hknows.operate_other o u t (laid_of_plan planned) hp eeprom hfaulted hother
        (Bool.eq_false_iff.mpr hstores) operates
      exact ⟨log.found, (tracks_of_knows hknows').found, p.advances_popMany _ 0 log,
        fun _ => log.items_found⟩

/-- An incident keeps track of the partition, and uses up no more ids than it should. Only appends
change the items. -/
theorem Tracks.undergo (hphase : ∀ plan, incident = .faults plan → phase plan [])
    (h : host.Tracks space parts phase around p log)
    (few : incident.stores p = true → log.id + log.items.length < 0x1_0000_0000)
    (undergoes : host.undergo space slots base layouts incident = some after) :
    ∃ log', after.Tracks space parts phase around p log' ∧
      p.Advances (host.takes p incident).toNat log log' ∧
      (incident.stores p = false → log'.items = log.items) := by
  have stays {more : Nat} {stores : Prop} :
      p.Advances more log log.found ∧ (stores → log.found.items = log.items) :=
    ⟨p.advances_popMany more 0 log, fun _ => log.items_found⟩
  cases incident with
  | faults plan =>
    obtain rfl := Option.some.inj undergoes
    exact ⟨log.found, (h.facing (hphase plan rfl)).found, stays⟩
  | operation asked =>
    by_cases hmounts : asked = .request .remount
    · subst hmounts
      exact ⟨log.found, tracks_of_mounting o u t planned hp eeprom h.bootable undergoes, stays⟩
    · cases host with
      | mounted store =>
        rw [undergo_mounted hmounts, Option.map_eq_some_iff] at undergoes
        obtain ⟨store', operates, rfl⟩ := undergoes
        exact h.operate o u t planned hp eeprom hmounts few operates
      | bare m =>
        rw [undergo_bare hmounts] at undergoes
        obtain rfl := Option.some.inj undergoes
        exact ⟨log.found, h.found, stays⟩

/-- Incidents keep track of the partition, however many there are. -/
theorem Tracks.undergoAll
    (hphase : ∀ plan, .faults plan ∈ incidents → phase plan [])
    (h : host.Tracks space parts phase around p log)
    (ids : log.id + log.items.length ≤ number)
    (few : number + host.taken space slots base layouts p incidents < 0x1_0000_0000)
    (undergoes : host.undergoAll space slots base layouts incidents = some after) :
    ∃ log', after.Tracks space parts phase around p log' ∧
      log'.id + log'.items.length ≤ number + host.taken space slots base layouts p incidents := by
  induction incidents generalizing host log number with
  | nil => exact ⟨log, Option.some.inj undergoes ▸ h, ids⟩
  | cons incident incidents ih =>
    obtain ⟨next, hstep, hrest⟩ := Option.bind_eq_some_iff.mp undergoes
    rw [taken, hstep, Option.elim_some, ← Nat.add_assoc] at few ⊢
    obtain ⟨log', hnext, hadvances, -⟩ := h.undergo o u t planned hp eeprom
      (fun plan hplan => hphase plan (hplan ▸ List.mem_cons_self)) (fun _ => by omega) hstep
    have hids := hadvances.ids_le
    exact ih (fun plan hplan => hphase plan (List.mem_cons_of_mem _ hplan)) hnext (by omega) few
      hrest

end Steps

end Host

end CircularLog
