import CircularLog.Proofs.Store.Answers
import CircularLog.Proofs.Store.Start

/-!
# Without faults nothing fails

Once a store has been mounted, whatever the memories held before, its partitions have runs with the
fill states that it knows (`Steady`). Every operation keeps that (`Steady.operate`): an append leads
from run to run, mounting finds no partition corrupt that has a run, and what else is asked changes
nothing. In a steady store no operation ends with a defect or finds an inconsistency
(`Steady.unfailing`), so after any run the latch is open (`unfailing_of_operateAll`).
-/

namespace CircularLog

variable {g : Geometry} {space : Space g} {parts : List Partition} {p : Partition}
  {sound : Bytes → Media g → Prop} {m : Media g} {image : Bytes} {runs : UInt8 → Run}
  {slots base : Nat} {layouts : List Layout}

/-- The action ends, and not for an inconsistency. -/
def Action.Unbroken {σ α : Type} (x : Action Error σ α) (s : σ) : Prop :=
  x.Ends s (fun _ _ => True) fun e _ => e ≠ .inconsistent

namespace Store

variable {store : Store g}

/-- Whatever a caller does next, it ends, and not for an inconsistency. -/
structure Unfailing (slots base : Nat) (layouts : List Layout) (store : Store g) : Prop where
  append : ∀ id payload, (Store.append id payload).Unbroken store
  oldestKey : ∀ id, (Store.oldestKey id).Unbroken store
  successor : ∀ key, (Store.successor key).Unbroken store
  advance : ∀ key, Store.advance.Unbroken (store, key)
  itemLength : ∀ key, (Store.itemLength key).Unbroken store
  fetch : ∀ key capacity, (Store.fetch key capacity).Unbroken store
  load : ∀ key buffer, (Store.load key).Unbroken (store, buffer)
  find : ∀ {π : Type} id capacity (test : Bytes → StateM π Bool) held,
    (Store.find id capacity test).Unbroken (store, held)
  seek : ∀ {π : Type} id (test : Bytes → StateM π Bool) buffer held,
    (Store.seek id test).Unbroken (store, buffer, held)
  report : ∀ id, (Store.report id).Unbroken store
  remount : ∃ after, mount store.space slots base layouts store.media = .ok after
  /-- The items that stand in the way of the next one are evicted, and there are enough of them. -/
  makeRoom : ∀ id volume payload, Volume.lookup id store.volumes = some volume →
    volume.partition.Storable payload →
      (volume.partition.makeRoom store.space payload.length (volume.status.stored + 1)).Ends
        (store.media, volume.status)
        (fun _ after => after.2.stored ≤ volume.status.stored ∧
          after.2.filled + payload.length ≤ volume.partition.areaLength)
        fun _ _ => False

/-! ## Steady stores -/

/-- A steady store is open, and its volumes are backed. -/
theorem Steady.exists_open (h : store.Steady sound space parts runs) (laid : Laid space parts) :
    ∃ image, store.Open sound space store.volumes image ∧ Backed space store.volumes image ∧
      ∀ p ∈ parts, p.Tabled image (runs p.id) := by
  obtain ⟨image, hm, htabled⟩ := h.tables
  have backed := backed_of_tabled laid htabled
  rw [← h.volumes] at backed
  exact ⟨image, ⟨h.space, rfl, h.faulted, hm⟩, backed, htabled⟩

/-- What the store says is filled are the bytes of all rows that hold something. -/
theorem Steady.filled_eq {around : Bytes × Bytes}
    (h : store.Steady (space.Exposes .clear around) space parts runs) (laid : Laid space parts)
    (hp : p ∈ parts) : ∃ status, store.status p.id = .ok status ∧ status.filled =
      ∑ row ∈ Finset.range p.maxItems, p.bytesAt (space.image store.media) row := by
  obtain ⟨image, hm, htabled⟩ := h.tables
  obtain rfl := hm.image
  exact ⟨_, h.status_eq laid hp, (htabled p hp).bytesOf_eq⟩

section Steps

variable (c : space.Conduct 0 space.total sound .never)
  (planned : space.plan slots base layouts = .ok parts) (h : store.Steady sound space parts runs)
include c planned h

/-- An append leads from runs to runs, or it changes nothing. -/
theorem Steady.append_ends (id : UInt8) (payload : Bytes) :
    (append id payload).Ends store
      (fun _ after => ∃ runs, after.Steady sound space parts runs)
      fun e after => e ≠ .inconsistent ∧ after.Steady sound space parts runs := by
  have laid := laid_of_plan planned
  obtain ⟨image, hopen, -, htabled⟩ := h.exists_open laid
  by_cases known : ∃ p ∈ parts, p.id = id
  · obtain ⟨p, hp, rfl⟩ := known
    have hends := (htabled p hp).append_ends (c.part (laid.inside p hp)) hopen.media payload
    apply (hopen.append_ends (h.known laid hp) hends).mono
    · rintro _ _ ⟨place, m', status, ⟨storable, -, count, -, hm', htabled', rfl⟩, -, rfl⟩
      -- The other partitions lie elsewhere.
      have fits := Nat.le_trans (laid.inside p hp) (Nat.le_of_eq (c.length hopen.media).symm)
      have hconfined := (Partition.beneath_lengthened fits (htabled p hp).row_lt storable
        count).confined
      refine ⟨_, h.update laid hp hm' htabled' fun q hq hne => ?_⟩
      exact hconfined.tabled (laid.apart_of_ne hp hq (Ne.symm hne)).bytes (htabled q hq)
    · rintro e _ ⟨m', status, ⟨rfl, -, hsame⟩, rfl⟩
      obtain ⟨rfl, rfl⟩ := Prod.mk.inj hsame
      refine ⟨by decide, rfl, ?_, rfl, image, hopen.media, htabled⟩
      dsimp only
      rw [h.volumes, Volume.update_map Run.status, Function.update_eq_self]
  · have unknown : Volume.lookup id store.volumes = none := by
      rw [h.volumes]
      exact Volume.lookup_of_unknown (fun q hq hid => known ⟨q, hq, hid⟩) fun q =>
        (runs q.id).status
    rw [Action.Ends, hopen.append_unknown unknown payload]
    exact ⟨by decide, h⟩

/-- A partition that has a run is not corrupt, so mounting makes a store of it again. -/
theorem Steady.remount :
    ∃ after runs, mount store.space slots base layouts store.media = .ok after ∧
      after.Steady sound space parts runs := by
  obtain ⟨image, hm, htabled⟩ := h.tables
  rw [h.space]
  rcases mount_starts c planned hm with ⟨after, runs, hmount, hsteady, -⟩ | ⟨m', -, p, hp, -, hbad⟩
  · exact ⟨after, runs, hmount, hsteady⟩
  · rcases hbad with hmisfit | hfull
    · exact absurd hmisfit (htabled p hp).not_misfit
    · exact absurd hfull.overlong (htabled p hp).not_overlong

/-- Every operation leads from a steady store to a steady store. -/
theorem Steady.operate (operation : Operation) :
    ∃ after runs, store.operate slots base layouts operation = some after ∧
      after.Steady sound space parts runs := by
  have laid := laid_of_plan planned
  by_cases mounts : operation = .request .remount
  · subst mounts
    obtain ⟨after, runs, hmount, hafter⟩ := h.remount c planned
    exact ⟨after, runs, by rw [Store.operate, serve, hmount, Except.toOption], hafter⟩
  by_cases appends : ∃ id payload, operation = .request (.append id payload)
  · obtain ⟨id, payload, rfl⟩ := appends
    have hends : (append id payload).Ends store
        (fun _ after => (∃ runs, after.Steady sound space parts runs) ∧ True)
        fun e after => (∃ runs, after.Steady sound space parts runs) ∧ e ≠ .inconsistent :=
      (h.append_ends c planned id payload).mono (fun _ _ h => ⟨h, trivial⟩)
        fun _ _ h => ⟨⟨runs, h.2⟩, h.1⟩
    obtain ⟨after, hrun, runs, hafter⟩ := left_of_ends hends
    exact ⟨after, runs, hrun, hafter⟩
  · obtain ⟨image, hopen, backed, htabled⟩ := h.exists_open laid
    obtain ⟨after, hrun, h'⟩ := Backed.operate c backed hopen
      (fun id payload happend => appends ⟨id, payload, happend⟩) mounts
    exact ⟨after, runs, hrun, h'.space, h'.volumes.trans h.volumes, h'.faulted, image,
      h'.media, htabled⟩

/-- Every run leads from a steady store to a steady store. -/
theorem Steady.operateAll (operations : List Operation) :
    ∃ after runs, store.operateAll slots base layouts operations = some after ∧
      after.Steady sound space parts runs := by
  induction operations generalizing store runs with
  | nil => exact ⟨store, runs, rfl, h⟩
  | cons operation operations ih =>
    obtain ⟨next, runs₁, hnext, h₁⟩ := h.operate c planned operation
    obtain ⟨after, runs₂, hrest, h₂⟩ := ih h₁
    exact ⟨after, runs₂, by rw [Store.operateAll, hnext, Option.bind_some, hrest], h₂⟩

/-- Whatever a caller does with a steady store, it ends, and not for an inconsistency. -/
theorem Steady.unfailing : store.Unfailing slots base layouts := by
  have laid := laid_of_plan planned
  obtain ⟨image, hopen, backed, htabled⟩ := h.exists_open laid
  have unbroken {α : Type} {x : Action Error (Store g) α}
      (hx : Untroubled sound space store.volumes image x store) : x.Unbroken store :=
    hx.mono (fun _ _ _ => trivial) fun _ _ h => h.2
  have hsuccessor := untroubled_successor c backed hopen
  have hfetch := untroubled_fetch c backed hopen
  constructor
  case append =>
    intro id payload
    exact (h.append_ends c planned id payload).mono (fun _ _ _ => trivial) fun _ _ h => h.1
  case oldestKey => exact fun id => unbroken (untroubled_oldestKey c backed hopen id)
  case successor => exact fun key => unbroken (hsuccessor key)
  case advance =>
    intro key
    simp only [Action.Unbroken, Store.advance, Action.ends_bind, Action.ends_get,
      Action.ends_beside]
    exact (unbroken (hsuccessor key)).mono (fun _ _ _ => trivial) fun _ _ h => h
  case itemLength => exact fun key => unbroken (untroubled_itemLength c backed hopen key)
  case fetch => exact fun key capacity => unbroken (hfetch key capacity)
  case load =>
    intro key buffer
    simp only [Action.Unbroken, Store.load, Action.ends_bind, Action.ends_get, Action.ends_beside]
    exact (unbroken (hfetch key buffer.length)).mono (fun _ _ _ => trivial) fun _ _ h => h
  case find =>
    intro π id capacity test held
    exact (find_untroubled c backed hopen id capacity test held).mono (fun _ _ _ => trivial)
      fun _ _ h => h.2
  case seek =>
    intro π id test buffer held
    exact (seek_untroubled c backed hopen id test buffer held).mono (fun _ _ _ => trivial)
      fun _ _ h => h.2
  case report => exact fun id => unbroken (untroubled_report c backed hopen id)
  case remount =>
    obtain ⟨after, _, hmount, -⟩ := h.remount c planned
    exact ⟨after, hmount⟩
  case makeRoom =>
    intro id volume payload hlookup storable
    -- The run says which items the loop takes out: no more than there are.
    obtain ⟨inside, run, htabled, hstatus⟩ := backed id volume hlookup
    rw [h.space, hstatus]
    apply (htabled.makeRoom (c.part inside) hopen.media storable.2 storable.1
      (Nat.lt_succ_self _)).mono ?_ fun _ _ h => Space.not_halts h
    rintro _ ⟨m', status⟩ ⟨count, -, -, -, rfl, hroom, -⟩
    refine ⟨?_, hroom⟩
    show (run.entries.drop count).length ≤ run.entries.length
    rw [List.length_drop]
    exact Nat.sub_le _ _

end Steps

/-! ## Runs -/

/-- Whatever the memories held, once a store has been mounted every run of operations without faults
goes on to its end, and the latch stays open. Whatever a caller does then ends, and not for an
inconsistency, and what is said to be filled are the bytes of the rows that hold something. -/
theorem unfailing_of_operateAll {start stop : UInt32}
    (made : Space.create g g.eepromBytes g.flashBytes start stop = .ok space) (u : g.Uniform)
    (planned : space.plan slots base layouts = .ok parts) (faultless : m.Under .clear)
    {mounted : Store g} (mounts : mount space slots base layouts m = .ok mounted)
    (operations : List Operation) :
    ∃ store, mounted.operateAll slots base layouts operations = some store ∧
      store.faulted = false ∧ store.Unfailing slots base layouts ∧
      ∀ p ∈ parts, ∃ status, store.status p.id = .ok status ∧ status.filled =
        ∑ row ∈ Finset.range p.maxItems, p.bytesAt (space.image store.media) row := by
  have t := Space.truthful_of_create made
  have c := Space.conduct_of_clear u t (space.around m)
  have laid := laid_of_plan planned
  have hm : space.Exposes .clear (space.around m) (space.image m) m := ⟨faultless, rfl, rfl⟩
  rcases mount_starts c planned hm with ⟨store, runs, hmount, hsteady, -⟩ | ⟨m', hmount, -⟩
  · obtain rfl : store = mounted := Except.ok.inj (hmount.symm.trans mounts)
    obtain ⟨after, runs', hrun, h⟩ := hsteady.operateAll c planned operations
    exact ⟨after, hrun, h.faulted, h.unfailing c planned, fun p hp => h.filled_eq laid hp⟩
  · rw [hmount] at mounts
    cases mounts

/-- A store on memories with rows that do not follow each other is asked for items that are not
there. -/
theorem unfailing_of_operateAll_scattered :
    ∃ mounted store, mount Space.roomy 1 0 [⟨7, 32, 2⟩] Media.scattered = .ok mounted ∧
      mounted.operateAll 1 0 [⟨7, 32, 2⟩] [.itemLength ⟨7, 0, 9⟩, .request (.append 7 [1, 2, 3]),
        .request .remount, .request (.successor ⟨8, 9, 0⟩), .report 7] = some store ∧
      store.faulted = false ∧ store.Unfailing 1 0 [⟨7, 32, 2⟩] := by
  have isOk : (mount Space.roomy 1 0 [⟨7, 32, 2⟩] Media.scattered).toOption.isSome := by
    decide +kernel
  obtain ⟨mounted, hmounted⟩ := Option.isSome_iff_exists.mp isOk
  have hmount := mount_of_toOption hmounted
  obtain ⟨store, hrun, hfaulted, hunfailing, -⟩ := unfailing_of_operateAll Space.create_roomy
    (Geometry.uniform_tinyWith 32) Space.plan_roomy Media.under_clear_scattered hmount
    [.itemLength ⟨7, 0, 9⟩, .request (.append 7 [1, 2, 3]), .request .remount,
      .request (.successor ⟨8, 9, 0⟩), .report 7]
  exact ⟨mounted, store, hmount, hrun, hfaulted, hunfailing⟩

end Store

end CircularLog
