import CircularLog.Proofs.Media.TornWrite
import CircularLog.Proofs.Partition.Reading
import CircularLog.Proofs.Partition.Rollback
import CircularLog.Proofs.Store.PowerLoss

/-!
# Appending while one write is torn

One write to the eeprom fails when it has stored some of its bytes, while an item is appended to a
partition in the eeprom. What the append has begun is rolled back then, and the fill state is found
again, so that some of the oldest items are gone and nothing else has changed
(`restored_of_tornWrite`). It is not so if the write was to erase the row of an item and has
stored some bytes, but none of the marker: a row that is still one says something else then, and the
store may be inconsistent from then on (`not_restored_of_tornErasing`). As one item is erased with
each write until there is room, the number of the write tells whether that was it.
-/

namespace CircularLog

variable {g : Geometry} {space : Space g} {parts : List Partition} {p : Partition} {image : Bytes}
  {around : Bytes × Bytes} {log : Log} {payload : Bytes} {number stored : Nat} {kind : FailureKind}

/-! ## Counting the writes -/

namespace Partition

/-- The writes to the eeprom that have been made, and those that take out the items there are. -/
def writesLeft (after : Media g × Status) : Nat := eepromWrites after.1.journal + after.2.stored

/-- Looking at a row writes nothing. -/
theorem keeps_readStored_eepromWrites (space : Space g) (p : Partition) (row n : Nat) :
    Action.Keeps (fun m => eepromWrites m.journal = n) (p.readStored space row) :=
  (p.driven_readStored space row).still.sparing.keepsUnwritten (Media.keptUnwritten_eepromWrites n)

/-- The oldest item is taken out with one write. -/
theorem evict_counts (space : Space g) (p : Partition) (s : Media g × Status) :
    (p.evict space).Yields s (fun _ after => writesLeft after ≤ writesLeft s)
      (fun after => writesLeft after ≤ writesLeft s + 1) := by
  obtain ⟨m, held⟩ := s
  simp only [evict, status, setStatus, eraseRow, writesLeft, Action.yields_bind, Action.yields_get,
    Action.yields_pure, Action.yields_ite, Action.yields_fail, Action.yields_beside,
    Action.yields_modify]
  refine ⟨fun _ => Nat.le_succ _, fun hpos => ?_⟩
  refine (keeps_readStored_eepromWrites space p held.oldestRow _ m rfl).mono ?_ fun _ _ => by omega
  intro entry m₁ h₁
  refine (settled_locateRow p held.oldestRow).yields (fun address => ?_) (by omega)
  refine (Space.write_counts space _ _ h₁).mono ?_ fun _ _ => by omega
  intro _ m₂ h₂
  have after :
      eepromWrites m₂.journal + held.stored ≤ eepromWrites m.journal + held.stored + 1 := by
    omega
  refine Action.yields_difference _ _ (fun hsome => ⟨fun _ => ?_, fun _ => ?_⟩) after
  · show eepromWrites m₂.journal + (held.stored - 1) ≤ _
    omega
  · refine (settled_stepRow p held.oldestRow).yields (fun _ => ?_) ?_
    all_goals
      show eepromWrites m₂.journal + (held.stored - 1) ≤ _
      omega

/-- Making room takes one write at most for each item that is taken out, and one more if it
fails. -/
theorem makeRoom_counts (space : Space g) (p : Partition) (length rounds : Nat)
    (s : Media g × Status) :
    (p.makeRoom space length rounds).Yields s (fun _ after => writesLeft after ≤ writesLeft s)
      (fun after => writesLeft after ≤ writesLeft s + 1) := by
  induction rounds generalizing s with
  | zero => exact Nat.le_succ _
  | succ rounds ih =>
    simp only [makeRoom, status, Action.sum, Action.ensure, Action.yields_bind, Action.yields_get,
      Action.yields_pure, Action.yields_ite, Action.yields_abort]
    refine ⟨fun _ => ⟨fun _ => ?_, fun _ => Nat.le_refl _⟩, fun _ => Nat.le_succ _⟩
    refine (evict_counts space p s).mono ?_ fun _ h => h
    exact fun _ after h => (ih after).mono (fun _ _ h' => by omega) fun _ h' => by omega

/-- Room is made with one write for each item that is taken out. -/
theorem prepare_counts (space : Space g) (p : Partition) (length : Nat) (m : Media g)
    (held : Status) :
    (p.prepare space length).Yields (m, held) (fun _ _ => True)
      (fun after => writesLeft after ≤ writesLeft (m, held) + 1) := by
  have found : Action.Keeps (fun m' => eepromWrites m'.journal = eepromWrites m.journal)
      (p.vacancy space held) :=
    .ite (Action.keeps_pure _) ((settled_newestRow p _ _).keeps.bind fun _ =>
      (settled_stepRow p _).keeps.bind fun _ => (keeps_readStored_eepromWrites space p _ _).bind
        fun entry => by
          rw [startBehind_eq]
          exact Action.keeps_pure _)
  simp only [prepare, status, Action.yields_bind, Action.yields_get, Action.yields_pure,
    Action.yields_beside, Action.yields_ite]
  have same {m₁ : Media g} (h₁ : eepromWrites m₁.journal = eepromWrites m.journal) :
      writesLeft (m₁, held) = writesLeft (m, held) := by
    rw [writesLeft, h₁, writesLeft]
  refine (found m rfl).mono ?_ fun _ h => by rw [same h]; exact Nat.le_succ _
  intro place m₁ h₁
  refine (makeRoom_counts space p _ _ (m₁, held)).mono ?_ fun _ h => same h₁ ▸ h
  rintro _ after h
  rw [same h₁] at h
  refine ⟨fun _ => ?_, fun _ => trivial⟩
  exact (evict_counts space p after).mono (fun _ _ _ => trivial) fun _ h' => by omega

/-! ## Room -/

/-- Where there is room, there is room without more of the oldest items. -/
theorem HasRoom.drop {items : List Bytes} {length fewer more : Nat}
    (h : p.HasRoom (items.drop fewer) length) (hle : fewer ≤ more) :
    p.HasRoom (items.drop more) length := by
  have hsplit : items.drop more = (items.drop fewer).drop (more - fewer) := by
    rw [List.drop_drop, Nat.add_sub_cancel' hle]
  have hflat := congrArg (List.length ∘ List.flatten)
    (List.take_append_drop (more - fewer) (items.drop fewer))
  simp only [Function.comp_apply, List.flatten_append, List.length_append] at hflat
  have hcount := (List.drop_sublist (more - fewer) (items.drop fewer)).length_le
  obtain ⟨hlength, hitems⟩ := h
  rw [hsplit]
  exact ⟨by omega, by omega⟩

/-- The torn write has not torn the marker alone off the row of an item: nothing was stored or the
marker was reached, or there was room already. -/
def Sharp (p : Partition) (items : List Bytes) (length number stored : Nat) : Prop :=
  stored = 0 ∨ 11 ≤ stored ∨ p.HasRoom (items.drop number) length

/-- While room is made, the torn write smears no row. -/
theorem prepare_tornWrite (u : g.Uniform) (t : space.Truthful) (fits : p.stop ≤ space.total)
    (eeprom : p.stop ≤ space.boundary) {m : Media g}
    (hm : space.Exposes (.armed number stored kind) around image m)
    (holds : p.Holds image log) (settled : log.Settled) (storable : p.Storable payload)
    (fresh : eepromWrites m.journal = 0)
    (sharp : p.Sharp log.items payload.length number stored) :
    (p.prepare space payload.length).Ends (m, log.status)
      (p.Prepared (space.Exposes (.armed number stored kind) around) image log payload.length)
      (fun e after => e = .device .eeprom kind ∧ ∃ image', p.Rolled image log image' ∧
        space.Exposes (.spent number stored kind) around image' after.1) := by
  have c := (Space.conduct_of_outage (Phase.outage_tornWrite number stored kind) u t around).part
    fits
  have hlen : p.stop ≤ image.length := c.length hm ▸ fits
  refine ((prepare_ends c holds settled hm storable.2 storable.1).and_yields
    (prepare_counts space p payload.length m log.status)).mono (fun _ _ h => h.1) ?_
  rintro e after ⟨⟨he, hnever | ⟨image', hrolled | hsmearing, hstuck⟩⟩, hcount⟩
  · exact hnever.elim fun _ h => h.phase.elim
  · exact ⟨he, image', hrolled, hstuck⟩
  · -- A smeared row was erased by the torn write, before there was room.
    obtain ⟨hsmeared, count, hstatus, hnone⟩ := hsmearing
    have hcut := hsmeared.cut_lt hlen eeprom
    have hspent := hstuck.under.phase.2
    have hstored : after.2.stored = log.items.length - count := by
      rw [hstatus]
      show (p.popMany count log).items.length = _
      rw [items_popMany, List.length_drop]
    have hroom := (sharp.resolve_left (Nat.ne_of_gt hcut.1)).resolve_left (Nat.not_le.mpr hcut.2)
    refine absurd (hroom.drop ?_) hnone
    simp only [writesLeft, fresh, hstored, Log.status] at hcount
    omega

/-- An append during which the write is torn ends with its failure, and restores the log without
some of the oldest items. -/
theorem append_tornWrite (u : g.Uniform) (t : space.Truthful) (fits : p.stop ≤ space.total)
    (eeprom : p.stop ≤ space.boundary) {m : Media g}
    (hm : space.Exposes (.armed number stored kind) around image m)
    (holds : p.Holds image log) (settled : log.Settled) (storable : p.Storable payload)
    (ids : log.id + log.items.length < 0x1_0000_0000) (fresh : eepromWrites m.journal = 0)
    (sharp : p.Sharp log.items payload.length number stored) :
    (p.append space payload).Ends (m, log.status)
      (p.Placed (space.Exposes (.armed number stored kind) around) image log payload)
      (fun e after => e = .device .eeprom kind ∧
        p.Restored (space.Exposes (.spent number stored kind) around) image log after) := by
  have c := (Space.conduct_of_outage (Phase.outage_tornWrite number stored kind) u t around).part
    fits
  -- Behind the torn write nothing fails.
  have c' := (Space.conduct_of_passing (Phase.outage_spent number stored kind) u t around).part fits
  refine (append_settles c c' (fun e he => by rw [show e = _ from he]; rfl)
    (prepare_tornWrite u t fits eeprom hm holds settled storable fresh sharp)
    (fun _ ⟨_, h⟩ => h.phase) (c.length hm ▸ fits) storable ids).mono (fun _ _ h => h) ?_
  rintro e after (⟨he, h⟩ | ⟨-, e', h⟩)
  · exact ⟨he, h⟩
  · exact (Space.not_halts h).elim

end Partition

/-! ## The store -/

namespace Store

variable {store : Store g} {logs : UInt8 → Log}

/-- The store before the write: so many writes to the eeprom pass, the next one is torn, and all
other calls pass. -/
def tearing (store : Store g) (number stored : Nat) (kind : FailureKind) : Store g :=
  { store with
    media := { store.media with faults := [.tornWrite number stored kind], journal := [] } }

/-- Appending to a sound store while the write is torn. -/
theorem Sound.append_tornWrite (u : g.Uniform) (t : space.Truthful) (laid : Laid space parts)
    (h : store.Sound (space.Exposes .clear around) space parts logs) (hp : p ∈ parts)
    (eeprom : p.stop ≤ space.boundary) (storable : p.Storable payload)
    (ids : (logs p.id).id + (logs p.id).items.length < 0x1_0000_0000)
    (sharp : p.Sharp (logs p.id).items payload.length number stored) :
    (append p.id payload).Ends (store.tearing number stored kind)
      (fun _ after => ∃ image', space.Exposes (.armed number stored kind) around image' after.media)
      (fun e after => e = .device .eeprom kind ∧ ∃ count,
        after.Sound (space.Exposes (.spent number stored kind) around) space parts
          (Function.update logs p.id (p.popMany count (logs p.id)).found)) := by
  obtain ⟨image, hopen, holds⟩ := h.exists_open
  have harmed : space.Exposes (.armed number stored kind) around image
      (store.tearing number stored kind).media :=
    hopen.media.shows ⟨rfl, rfl⟩ ⟨⟨hopen.media.under.able.1, hopen.media.under.able.2,
      hopen.media.under.able.3⟩, ⟨number, rfl, Nat.zero_add number⟩⟩
  have hopen' : (store.tearing number stored kind).Open
      (space.Exposes (.armed number stored kind) around) space store.volumes image :=
    ⟨hopen.space, rfl, hopen.faulted, harmed⟩
  refine (hopen'.append_ends (h.known laid hp) (p.append_tornWrite u t (laid.inside p hp) eeprom
    harmed (holds p hp) (h.settled p hp) storable ids rfl sharp)).mono ?_ ?_
  · rintro _ after ⟨place, m', status, ⟨image', log', h', -⟩, -, rfl⟩
    exact ⟨image', h'⟩
  · rintro _ after ⟨m', status, ⟨rfl, count, image', h', hconfined, holds', rfl⟩, rfl⟩
    refine ⟨rfl, count, rfl, ?_, rfl, ⟨image', h', ?_⟩, ?_⟩
    · rw [h.volumes, Volume.update_status]
    · refine laid.holds_update hp ?_ holds hconfined holds'.found
      rw [← harmed.image, space.length_image t]
    · exact laid.forall_update hp (motive := fun _ => Log.Settled)
        (p.popMany count (logs p.id)).settled_found fun q hq _ => h.settled q hq

/-- What is too long is refused before anything is written. -/
theorem Sound.append_of_long_tearing (laid : Laid space parts)
    (h : store.Sound (space.Exposes .clear around) space parts logs) (hp : p ∈ parts)
    (long : ¬ p.Storable payload) :
    (append p.id payload).leaves (store.tearing number stored kind) =
      store.tearing number stored kind := by
  obtain ⟨image, hopen, -⟩ := h.exists_open
  have hopen' :
      (store.tearing number stored kind).Open (fun _ _ => True) space store.volumes image :=
    ⟨hopen.space, rfl, hopen.faulted, trivial⟩
  rw [Action.leaves, hopen'.append_of_long (h.known laid hp) (h.update_self p) long]

/-- One write to the eeprom is torn while an item is appended to a partition in the eeprom, after
any operations. The append ends with the failure of that write, the latch stays open, and the
partition has the items that it had but for some of the oldest; so it has when the store is mounted
again, and all other partitions have what they had. The write must not tear the row of an item in
front of its marker. -/
theorem restored_of_tornWrite {start stop : UInt32}
    (made : Space.create g g.eepromBytes g.flashBytes start stop = .ok space) (u : g.Uniform)
    {slots base : Nat} {layouts : List Layout}
    (planned : space.plan slots base layouts = .ok parts) {m : Media g}
    (faultless : m.Under .clear)
    (blank : ∀ p ∈ parts, (space.image m).slice p.base headerBytes ≠ Partition.magic)
    {operations : List Operation} (few : ∀ p ∈ parts, storedBy p operations < 0x1_0000_0000)
    {mounted : Store g} (mounts : mount space slots base layouts m = .ok mounted)
    (reaches : mounted.operateAll slots base layouts operations = some store)
    (hp : p ∈ parts) (eeprom : p.stop ≤ space.boundary)
    (torn : number < eepromWrites
      ((append p.id payload).leaves (store.tearing number stored kind)).media.journal)
    (sharp : p.Sharp (p.queue (payloadsIn p operations)) payload.length number stored) :
    ∃ after count,
      append p.id payload (store.tearing number stored kind) =
        .error (.error (.device .eeprom kind)) after ∧
      after.faulted = false ∧ after.Finds p ((p.queue (payloadsIn p operations)).drop count) ∧
      ∃ again, mount space slots base layouts after.media = .ok again ∧
        again.Finds p ((p.queue (payloadsIn p operations)).drop count) ∧
        ∀ q ∈ parts, q ≠ p → again.Finds q (q.queue (payloadsIn q operations)) := by
  have t := Space.truthful_of_create made
  have laid := laid_of_plan planned
  have c := Space.conduct_of_passing (Phase.outage_spent number stored kind) u t (space.around m)
  obtain ⟨logs, hsound, shelves, -⟩ :=
    shelves_of_operateAll made u planned faultless blank mounts reaches few
  have hitems := (shelves p hp).queue
  have storable : p.Storable payload := by
    refine Decidable.byContradiction fun long => ?_
    rw [hsound.append_of_long_tearing laid hp long] at torn
    exact absurd torn (Nat.not_lt_zero number)
  have hends : (append p.id payload).Ends (store.tearing number stored kind) _ _ :=
    hsound.append_tornWrite u t laid hp eeprom storable
      (ids_lt_of_shelves (shelves p hp) (few p hp)) (hitems ▸ sharp)
  unfold Action.Ends at hends
  unfold Action.leaves at torn
  cases hrun : append p.id payload (store.tearing number stored kind) with
  | ok key after =>
    -- The write has been made, so it is not still to come.
    rw [hrun] at hends torn
    obtain ⟨image', h'⟩ := hends
    obtain ⟨passing, -, hcount⟩ := h'.under.phase
    exact absurd torn (by simp only; omega)
  | error stop after =>
    rw [hrun] at hends
    cases stop with
    | defect d => exact hends.elim
    | error e =>
      obtain ⟨rfl, count, hafter⟩ := hends
      have hfound : (p.popMany count (logs p.id)).found.items =
          (p.queue (payloadsIn p operations)).drop count := by
        rw [Log.items_found, Partition.items_popMany, hitems]
      obtain ⟨image', hopen', holds'⟩ := hafter.exists_open
      obtain ⟨again, hagain, hfinds⟩ := mount_finds c planned hopen'.media holds'
      have hself := hafter.finds c laid hp
      have hself' := hfinds p hp
      rw [Function.update_self, hfound] at hself hself'
      refine ⟨after, count, rfl, hafter.faulted, hself, again, hagain, hself', fun q hq hne => ?_⟩
      have hq' := hfinds q hq
      have hid : q.id ≠ p.id := fun hid => hne (laid.eq_of_id hq hp hid)
      rwa [Function.update_of_ne hid, (shelves q hq).queue] at hq'

end Store

/-! ## Small examples -/

namespace Store

/-- What an append tells while a write is torn, to a store on fresh memories after some operations,
and what a walk finds when the store has been mounted again; none if it could not be mounted. -/
def toldWhileTorn (eepromBytes : Nat) (layout : Layout) (operations : List Operation)
    (payload : Bytes) (number stored : Nat) :
    Option (Option (Stop Error) × Option (List Bytes)) := do
  let space ← (Space.create (.tinyWith eepromBytes) eepromBytes 8 0 8).toOption
  let mounted ← (mount space 1 0 [layout] (Media.fresh _)).toOption
  let store ← mounted.operateAll 1 0 [layout] operations
  let (told, after) :=
    match append layout.id payload (store.tearing number stored .other) with
    | .ok _ after => (none, after)
    | .error stop after => (some stop, after)
  let found :=
    match mount space 1 0 [layout] after.media with
    | .ok again =>
      match walk layout.id layout.maxItems.toNat again with
      | .ok found _ => some (found.map Prod.snd)
      | .error _ _ => none
    | .error _ => none
  return (told, found)

/-- A write that was to erase the row of an item and has stored five of its bytes leaves a row that
makes no sense: the append ends inconsistent, and the store cannot be mounted any more. -/
theorem not_restored_of_tornErasing :
    toldWhileTorn 20 ⟨7, 20, 1⟩ [.request (.append 7 [1, 2, 3])] [4, 5] 0 5 =
      some (some (.error .inconsistent), none) := by
  decide +kernel

/-- The row of an item that takes the place of another one is torn. -/
theorem restored_of_tornWrite_near :
    ∃ mounted store after count, mount Space.near 1 0 [⟨7, 20, 1⟩] (Media.fresh _) = .ok mounted ∧
      mounted.operateAll 1 0 [⟨7, 20, 1⟩] [.request (.append 7 [1, 2, 3])] = some store ∧
      append 7 [4, 5] (store.tearing 1 5 .other) =
        .error (.error (.device .eeprom .other)) after ∧
      after.Finds Partition.near (([[1, 2, 3]] : List Bytes).drop count) := by
  have few : ∀ p ∈ [Partition.near],
      storedBy p [.request (.append 7 [1, 2, 3])] < 0x1_0000_0000 := by decide
  have sharp : Partition.near.Sharp [[1, 2, 3]] 2 1 5 := .inr (.inr (by decide))
  -- The first write takes the old item out, and the second one is made.
  have run : ((mount Space.near 1 0 [⟨7, 20, 1⟩] (Media.fresh _)).toOption.bind fun mounted =>
      (mounted.operateAll 1 0 [⟨7, 20, 1⟩] [.request (.append 7 [1, 2, 3])]).map fun store =>
        decide (1 < eepromWrites
          ((append 7 [4, 5]).leaves (store.tearing 1 5 .other)).media.journal))
      = some true := by decide +kernel
  obtain ⟨mounted, hmounted, run⟩ := Option.bind_eq_some_iff.mp run
  obtain ⟨store, reaches, torn⟩ := Option.map_eq_some_iff.mp run
  have mounts := mount_of_toOption hmounted
  obtain ⟨after, count, htold, -, hfinds, -⟩ := restored_of_tornWrite Space.create_near
    (Geometry.uniform_tinyWith 20) Space.plan_near (Media.under_clear_fresh _) Space.blank_near few
    mounts reaches (List.mem_singleton_self _) (by decide) (of_decide_eq_true torn) sharp
  exact ⟨mounted, store, after, count, mounts, reaches, htold, hfinds⟩

end Store

end CircularLog
