import CircularLog.Proofs.Store.Endurance
import CircularLog.Proofs.Store.Lookup
import CircularLog.Proofs.Store.Unfailing

/-!
# Interrupted appends

In a run in which calls of the eeprom may fail without an effect, whenever they like, an append to a
partition in the eeprom may be interrupted (`restored_of_interrupted`). The latch stays open then;
of the items some of the oldest are gone, and the others have the keys and the bytes that they had.
The fill state is the one that mounting finds, nothing else has changed, and when the faults are
over the partition goes on as the queue of what is left, whatever is done with it and with the
others.
-/

namespace CircularLog

variable {g : Geometry} {space : Space g} {parts : List Partition} {p : Partition}
  {slots base : Nat} {layouts : List Layout} {log : Log} {around : Bytes × Bytes}
  {payload : Bytes} {runs : UInt8 → Run}

namespace Store

variable {store after : Store g} {operation : Operation} {operations : List Operation}

/-! ## Without faults -/

section Clear

variable (u : g.Uniform) (t : space.Truthful) (laid : Laid space parts) (hp : p ∈ parts)
  (h : store.Knows space parts .clear around p log) (unfaulted : store.faulted = false)
include u t laid hp h unfaulted

/-- A walk over the partition finds the items of the log. -/
theorem Knows.lists : store.Lists p (p.listing log) := by
  obtain ⟨image, hopen, holds⟩ := h.exists_open unfaulted
  exact hopen.lists ((Space.conduct_of_clear u t around).part (laid.inside p hp)) h.known holds

/-- An append puts the item behind the others. -/
theorem Knows.append_ok (eeprom : p.stop ≤ space.boundary) (storable : p.Storable payload)
    (ids : log.id + log.items.length < 0x1_0000_0000) :
    ∃ key after log', append p.id payload store = .ok key after ∧ after.faulted = false ∧
      after.Knows space parts .clear around p log' ∧ p.Appended log payload log' := by
  obtain ⟨image, hopen, holds⟩ := h.exists_open unfaulted
  have c := (Space.conduct_of_clear u t around).part (laid.inside p hp)
  obtain ⟨after, -, -, hrun, -⟩ := hopen.append_ok c h.known holds h.settled storable ids
  obtain ⟨-, hopen', log', hknows, happended⟩ :=
    (h.append_ends (Phase.outage_clear _ _) u t laid hp eeprom unfaulted storable ids).of_ok hrun
  exact ⟨_, after, log', hrun, hopen', hknows, happended⟩

/-- The partition answers as a queue with the items of the log. -/
theorem Knows.serves (eeprom : p.stop ≤ space.boundary)
    (ids : log.id + log.items.length < 0x1_0000_0000) : store.Serves p log.items := by
  obtain ⟨image, hopen, holds⟩ := h.exists_open unfaulted
  have c := (Space.conduct_of_clear u t around).part (laid.inside p hp)
  constructor
  case finds => exact hopen.finds c h.known holds
  case refuses => exact fun payload long => h.append_of_long laid unfaulted long
  case accepts =>
    intro payload storable
    obtain ⟨key, after, -, hrun, -⟩ := h.append_ok u t laid hp unfaulted eeprom storable ids
    exact ⟨key, after, hrun⟩

end Clear

section Operating

variable (u : g.Uniform) (t : space.Truthful) (planned : space.plan slots base layouts = .ok parts)
  (hp : p ∈ parts) (eeprom : p.stop ≤ space.boundary)
  (h : store.Knows space parts .clear around p log)
include u t planned hp eeprom h

/-- What the store knows of the partition, mounting finds again. -/
theorem Knows.of_mount {again : Store g}
    (mounts : mount space slots base layouts store.media = .ok again) :
    again.Knows space parts .clear around p log := by
  obtain ⟨image, hm, holds⟩ := h.shaped.media
  have hboots := mount_boots (Phase.outage_clear _ _) u t (laid_of_plan planned) hp eeprom planned
    hm (.inl holds)
  rw [mounts, h.settled.found_eq] at hboots
  exact hboots.2

/-- Mounting finds the fill state again that the store knows. -/
theorem Knows.mount_status (steady : store.Steady (space.Exposes .clear around) space parts runs) :
    ∃ status again, store.status p.id = .ok status ∧
      mount space slots base layouts store.media = .ok again ∧ again.status p.id = .ok status := by
  obtain ⟨again, -, hmount, -⟩ := steady.remount (Space.conduct_of_clear u t around) planned
  rw [steady.space] at hmount
  exact ⟨log.status, again, status_of_lookup h.known, hmount,
    status_of_lookup (h.of_mount u t planned hp eeprom hmount).known⟩

/-- An operation puts into the partition what it stores there, and changes the items in no other
way. -/
theorem Knows.operate (unfaulted : store.faulted = false)
    (ids : log.id + log.items.length + (if operation.stores p then 1 else 0) ≤ 0x1_0000_0000)
    (operates : store.operate slots base layouts operation = some after) :
    ∃ log', after.Knows space parts .clear around p log' ∧
      log'.items = (operation.payload? p).toList.foldl p.enqueue log.items ∧
      log'.id + log'.items.length =
        log.id + log.items.length + (if operation.stores p then 1 else 0) := by
  have laid := laid_of_plan planned
  have hstores := operation.isSome_payload? p
  -- An operation that stores nothing leaves the log; one that does is an append.
  cases hpayload : operation.payload? p with
  | none =>
    rw [hpayload] at hstores
    rw [← hstores]
    refine ⟨log, ?_, rfl, rfl⟩
    by_cases mounts : operation = .request .remount
    · subst mounts
      have hmount : mount store.space slots base layouts store.media = .ok after :=
        mount_of_toOption operates
      rw [h.shaped.space] at hmount
      exact h.of_mount u t planned hp eeprom hmount
    · exact h.operate_other (Phase.outage_clear _ _) u t laid hp eeprom unfaulted mounts
        hstores.symm operates
  | some payload =>
    obtain ⟨rfl, storable⟩ := Operation.append_of_payload? hpayload
    rw [hpayload] at hstores
    rw [← hstores] at ids ⊢
    simp only [Option.isSome_some, if_true] at ids ⊢
    obtain ⟨key, after', log', hrun, -, hknows, happended⟩ :=
      h.append_ok u t laid hp unfaulted eeprom storable (by omega)
    rw [Store.operate, serve, left, hrun] at operates
    obtain rfl := Option.some.inj operates
    exact ⟨log', hknows, happended.enqueue_eq storable, happended.ids⟩

/-- Operations on any partitions come to their end, and this one answers as the queue into which
they have put what they store in it. -/
theorem Knows.operateAll (steady : store.Steady (space.Exposes .clear around) space parts runs)
    (ids : log.id + log.items.length + storedBy p operations < 0x1_0000_0000) :
    ∃ later, store.operateAll slots base layouts operations = some later ∧ later.faulted = false ∧
      later.Serves p ((payloadsIn p operations).foldl p.enqueue log.items) := by
  -- On the operations: the store stays steady, so each of them leaves a store that is open.
  induction operations generalizing store log runs with
  | nil =>
    exact ⟨store, rfl, steady.faulted,
      h.serves u t (laid_of_plan planned) hp steady.faulted eeprom ids⟩
  | cons operation operations ih =>
    rw [storedBy_cons] at ids
    obtain ⟨next, runs', hnext, steady'⟩ :=
      steady.operate (Space.conduct_of_clear u t around) planned operation
    obtain ⟨log', hknows, hitems, hids⟩ :=
      h.operate u t planned hp eeprom steady.faulted (by omega) hnext
    obtain ⟨later, hrest, unfaulted, hserves⟩ := ih hknows steady' (by omega)
    refine ⟨later, by rw [Store.operateAll, hnext, Option.bind_some, hrest], unfaulted, ?_⟩
    rwa [payloadsIn_cons, List.foldl_append, ← hitems]

end Operating

/-! ## Behind an interruption -/

/-- If an append to a partition in the eeprom is interrupted, in a run in which calls of the eeprom
fail without an effect, the latch stays open. Some of the oldest items are gone, and the others have
the keys and bytes that they had; the fill state is the one that mounting finds; nothing else has
changed; and without further faults the partition goes on as the queue of what is left. -/
theorem restored_of_interrupted {start stop : UInt32}
    (made : Space.create g g.eepromBytes g.flashBytes start stop = .ok space) (u : g.Uniform)
    (planned : space.plan slots base layouts = .ok parts) {m : Media g} (able : m.Able)
    (harmless : ∀ fault ∈ m.faults, fault.Harmless (· = .eeprom)) (hp : p ∈ parts)
    (blank : (space.image m).slice p.base headerBytes ≠ Partition.magic)
    (eeprom : p.stop ≤ space.boundary) {incidents : List Incident}
    (all : ∀ incident ∈ incidents, incident.Harmless (· = .eeprom))
    (few : (Host.bare m).taken space slots base layouts p incidents < 0x1_0000_0000)
    (reaches : (Host.bare m).undergoAll space slots base layouts incidents = some (.mounted store))
    (unfaulted : store.faulted = false) {plan : List Fault}
    (failing : ∀ fault ∈ plan, fault.Harmless (· = .eeprom)) {e : Error}
    (interrupts : e.isInterruption = true)
    (fails : append p.id payload (store.facing plan) = .error (.error e) after) :
    after.faulted = false ∧ Updates p store after ∧
      p.Confined (space.image store.media) (space.image after.media) ∧
      space.around after.media = space.around store.media ∧
      ∃ found count, (store.facing []).Lists p found ∧
        (after.facing []).Lists p (found.drop count) ∧
        (∃ status again, after.status p.id = .ok status ∧
          mount space slots base layouts (after.facing []).media = .ok again ∧
          again.status p.id = .ok status) ∧
        ∀ operations, (Host.bare m).taken space slots base layouts p incidents +
            storedBy p operations < 0x1_0000_0000 →
          ∃ later, (after.facing []).operateAll slots base layouts operations = some later ∧
            later.faulted = false ∧ later.Serves p
              ((payloadsIn p operations).foldl p.enqueue ((found.drop count).map Prod.snd)) := by
  have t := Space.truthful_of_create made
  have laid := laid_of_plan planned
  have o := Phase.outage_harmless (· = .eeprom)
  have hphase (plan : List Fault) (hplan : .faults plan ∈ incidents) :
      Phase.harmless (· = .eeprom) plan [] := all (.faults plan) hplan
  have hm : space.Exposes (.harmless (· = .eeprom)) (space.around m) (space.image m) m :=
    ⟨⟨able, harmless⟩, rfl, rfl⟩
  -- What the store knows of the partition when the append begins, and when it has been interrupted.
  have htracks : (Host.bare m).Tracks space parts (.harmless (· = .eeprom)) (space.around m) p
      Log.empty := ⟨space.image m, hm, .inr ⟨blank, rfl⟩⟩
  obtain ⟨log, hlog, ids⟩ := htracks.undergoAll o u t planned hp eeprom hphase (Nat.le_refl 0)
    (by omega) reaches
  rw [Nat.zero_add] at ids
  have hknows := hlog.2 unfaulted
  obtain ⟨hupdates, hopen, hconfined, count, hafter⟩ :=
    (hknows.facing failing).spared o u t laid hp eeprom unfaulted (by omega) interrupts fails
  -- All partitions have their runs then, so that any of them can be worked on.
  have c := Space.conduct_of_outage Phase.outage_eeprom u t (space.around m)
  have mild := Space.Mishap.mild_piecewise space (.harmless (· = .eeprom)) (space.around m)
  have hbare : (Host.bare m).Endures (space.Exposes (.harmless (· = .eeprom)) (space.around m))
      space parts := ⟨_, hm⟩
  have hfailing : (store.facing plan).Endures
      (space.Exposes (.harmless (· = .eeprom)) (space.around m)) space parts :=
    (hbare.undergoAll c mild (fun _ h => h) planned hphase reaches).facing failing
  have operates : (store.facing plan).operate slots base layouts (.request (.append p.id payload)) =
      some after := by rw [Store.operate, serve, left, fails]
  obtain ⟨runs, hsteady⟩ := (hfailing.operate c mild (fun _ h => h) planned operates).2 hopen
  -- The faults are over.
  have hclear : (after.facing []).Knows space parts .clear (space.around m) p
      (p.popMany count log).found := hafter.facing rfl
  have steady : (after.facing []).Steady (space.Exposes .clear (space.around m)) space parts runs :=
    hsteady.facing rfl
  have hlisting : p.listing (p.popMany count log).found = (p.listing log).drop count := by
    rw [p.listing_found, p.listing_popMany]
  obtain ⟨image, hm, -⟩ := hknows.shaped.media
  obtain ⟨image', hm', -⟩ := hafter.shaped.media
  refine ⟨hopen, hupdates, hconfined, hm'.around.trans hm.around.symm, p.listing log, count, ?_, ?_,
    hclear.mount_status u t planned hp eeprom steady, fun operations hfew => ?_⟩
  · exact (hknows.facing rfl).lists u t laid hp unfaulted
  · rw [← hlisting]
    exact hclear.lists u t laid hp hopen
  · rw [← hlisting, p.map_snd_listing]
    refine hclear.operateAll u t planned hp eeprom steady ?_
    have hids := (p.popMany count log).ids_found_le
    have hpopped := (p.free_popMany count log).2.1
    omega

/-- The write of the row fails, when the old item has been taken out; and then an item is put. -/
theorem restored_of_interrupted_near :
    ∃ store after, (Host.bare (Media.fresh (.tinyWith 20))).undergoAll Space.near 1 0 [⟨7, 20, 1⟩]
          [.operation (.request .remount), .operation (.request (.append 7 [1, 2, 3]))] =
        some (.mounted store) ∧
      append 7 [4, 5] (store.facing [.refusing .eeprom .write 1 (some 1) .other]) =
        .error (.error (.device .eeprom .other)) after ∧
      after.faulted = false ∧ ∃ (found : List (Key × Bytes)) (count : Nat),
        (after.facing []).Lists Partition.near (found.drop count) ∧
        ∃ later, (after.facing []).operateAll 1 0 [⟨7, 20, 1⟩] [.request (.append 7 [6]),
            .report 7] = some later ∧ later.faulted = false ∧
          later.Serves Partition.near
            (Partition.near.enqueue ((found.drop count).map Prod.snd) [6]) := by
  have all : ∀ incident ∈ [Incident.operation (.request .remount),
      .operation (.request (.append 7 [1, 2, 3]))], incident.Harmless (· = .eeprom) := by decide
  have failing : ∀ fault ∈ [Fault.refusing .eeprom .write 1 (some 1) .other],
      fault.Harmless (· = .eeprom) := by decide
  have taken : (Host.bare (Media.fresh (.tinyWith 20))).taken Space.near 1 0 [⟨7, 20, 1⟩]
      Partition.near [.operation (.request .remount), .operation (.request (.append 7 [1, 2, 3]))] =
        1 := by decide +kernel
  have run : (((Host.bare (Media.fresh (.tinyWith 20))).undergoAll Space.near 1 0 [⟨7, 20, 1⟩]
        [.operation (.request .remount), .operation (.request (.append 7 [1, 2, 3]))]).bind
          Host.store?).map (fun store => (store.faulted,
        (append 7 [4, 5]).told (store.facing [.refusing .eeprom .write 1 (some 1) .other]))) =
      some (false, some (.error (.device .eeprom .other))) := by decide +kernel
  obtain ⟨store, hstore, run⟩ := Option.map_eq_some_iff.mp run
  obtain ⟨unfaulted, told⟩ := Prod.mk.inj run
  obtain ⟨host, reaches, hhost⟩ := Option.bind_eq_some_iff.mp hstore
  obtain rfl := Host.eq_mounted_of_store? hhost
  have fails := Action.eq_error_of_told told
  have hp := List.mem_singleton_self Partition.near
  obtain ⟨hopen, -, -, -, found, count, -, hlists, -, hlater⟩ := restored_of_interrupted
    Space.create_near (Geometry.uniform_tinyWith 20) Space.plan_near ⟨rfl, rfl, by decide⟩
    (List.forall_mem_nil _) hp (Space.blank_near _ hp) (by decide) all
      (by rw [taken]; decide) reaches
    unfaulted failing rfl fails
  refine ⟨store, _, reaches, fails, hopen, found, count, hlists, ?_⟩
  exact hlater [.request (.append 7 [6]), .report 7] (by rw [taken]; decide)

end Store

end CircularLog
