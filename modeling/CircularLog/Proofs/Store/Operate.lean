import CircularLog.Proofs.Store.Frame
import CircularLog.Proofs.Store.Seek

/-!
# All operations

Beside the requests that make a queue of a partition, a caller can ask for the length of an item,
look for one that passes a test, and get a report. An `Operation` is any of these things;
`successor` and `fetch` stand for `advance` and `load` too, which do the same to the store. Those
that are no requests leave the volumes and whatever reads keep (`operate_keeps`).
-/

namespace CircularLog

namespace Store

variable {g : Geometry} {space : Space g} {parts : List Partition} {kept : Media g → Prop}

open CircularLog.Action (Keeps alone)

/-- What a caller does with a store. A test that looks for an item starts with a state of its
own. -/
inductive Operation : Type 1 where
  | request (asked : Request)
  | itemLength (key : Key)
  | find {π : Type} (id : UInt8) (capacity : Nat) (test : Bytes → StateM π Bool) (held : π)
  | report (id : UInt8)

/-- The operation stores an item in the partition. -/
def Operation.stores (p : Partition) : Operation → Bool
  | request asked => asked.stores p
  | _ => false

/-- The payload that the operation stores in the partition, if it does so. -/
def Operation.payload? (p : Partition) : Operation → Option Bytes
  | request (.append id payload) => if id = p.id ∧ p.Storable payload then some payload else none
  | _ => none

/-- There is a payload exactly if the operation stores one. -/
theorem Operation.isSome_payload? (p : Partition) (operation : Operation) :
    (operation.payload? p).isSome = operation.stores p := by
  cases operation with
  | request asked =>
    cases asked with
    | append id payload =>
      rw [payload?, stores, Request.stores]
      split <;> simp_all
    | _ => rfl
  | _ => rfl

/-- What stores a payload is an append of it, and it can be stored. -/
theorem Operation.append_of_payload? {p : Partition} {operation : Operation} {payload : Bytes}
    (h : operation.payload? p = some payload) :
    operation = .request (.append p.id payload) ∧ p.Storable payload := by
  unfold Operation.payload? at h
  split at h
  · split at h
    · next hstores =>
      obtain rfl := Option.some.inj h
      exact ⟨by rw [hstores.1], hstores.2⟩
    · cases h
  · cases h

section Operating

variable (slots base : Nat) (layouts : List Layout)

/-- The store after an operation; none after a defect, or if it cannot be mounted again. -/
def operate (store : Store g) : Operation → Option (Store g)
  | .request asked => store.serve slots base layouts asked
  | .itemLength key => left (itemLength key) store
  | .find id capacity test held => left ((find id capacity test).holding held) store
  | .report id => left (report id) store

/-- The store after some operations, one after the other. -/
def operateAll (store : Store g) : List Operation → Option (Store g)
  | [] => some store
  | operation :: operations => (store.operate slots base layouts operation).bind fun store =>
    store.operateAll operations

/-- The later operations work on what the earlier ones have left. -/
theorem operateAll_append (store : Store g) (operations others : List Operation) :
    store.operateAll slots base layouts (operations ++ others) =
      (store.operateAll slots base layouts operations).bind fun next =>
        next.operateAll slots base layouts others := by
  induction operations generalizing store with
  | nil => rfl
  | cons operation operations ih =>
    rw [List.cons_append, operateAll, operateAll, Option.bind_assoc]
    exact congrArg _ (funext ih)

end Operating

section Others

variable (laid : Laid space parts) (r : ∀ p ∈ parts, space.Reads kept) {volumes : List Volume}
include laid r

/-- Asking for a length leaves the volumes, and what reads keep. -/
theorem keeps_itemLength (key : Key) :
    Keeps (fun after : Store g => after.Shaped space parts kept ∧ after.volumes = volumes)
      (itemLength key) :=
  keeps_asking laid fun p hp _ _ _ => Partition.keeps_itemLength (r p hp) (laid.inside p hp) key

/-- So does searching, whatever the test says. -/
theorem keeps_find {π : Type} (id : UInt8) (capacity : Nat) (test : Bytes → StateM π Bool)
    (held : π) :
    Keeps (fun after : Store g => after.Shaped space parts kept ∧ after.volumes = volumes)
      ((find id capacity test).holding held) := by
  have latched : Keeps (fun after : Store g × π =>
      after.1.Shaped space parts kept ∧ after.1.volumes = volumes) (find id capacity test) := by
    rw [find_eq]
    refine keeps_latched (keeps_reading laid fun p hp _ _ hstatus => ?_) fun _ h => ?_
    · exact Partition.keeps_find (r p hp) (laid.inside p hp) hstatus capacity test
    · exact ⟨⟨h.1.space, h.1.partitions, h.1.rows, h.1.media⟩, h.2⟩
  exact Action.Keeps.holding latched held

/-- So does a report. -/
theorem keeps_report (id : UInt8) :
    Keeps (fun after : Store g => after.Shaped space parts kept ∧ after.volumes = volumes)
      (report id) :=
  keeps_alone <| keeps_reading laid fun p hp _ status _ =>
    (Partition.keeps_report (r p hp) (laid.inside p hp) status).beside

/-- Operations that neither append nor mount leave the volumes, and what reads keep. -/
theorem operate_keeps {slots base : Nat} {layouts : List Layout} {store after : Store g}
    {operation : Operation} (appends : ∀ id payload, operation ≠ .request (.append id payload))
    (mounts : operation ≠ .request .remount) (h : store.Shaped space parts kept)
    (operates : store.operate slots base layouts operation = some after) :
    after.Shaped space parts kept ∧ after.volumes = store.volumes := by
  cases operation with
  | request asked =>
    cases asked with
    | append id payload => exact absurd rfl (appends id payload)
    | remount => exact absurd rfl mounts
    | oldestKey id => exact left_of_keeps (keeps_oldestKey laid r id) ⟨h, rfl⟩ operates
    | successor key => exact left_of_keeps (keeps_successor laid r key) ⟨h, rfl⟩ operates
    | fetch key capacity => exact left_of_keeps (keeps_fetch laid r key capacity) ⟨h, rfl⟩ operates
  | itemLength key => exact left_of_keeps (keeps_itemLength laid r key) ⟨h, rfl⟩ operates
  | find id capacity test held =>
    exact left_of_keeps (keeps_find laid r id capacity test held) ⟨h, rfl⟩ operates
  | report id => exact left_of_keeps (keeps_report laid r id) ⟨h, rfl⟩ operates

end Others

section Shaping

variable (laid : Laid space parts) (k : ∀ p ∈ parts, space.Tends p.base p.stop kept)
  {slots base : Nat} {layouts : List Layout} (planned : space.plan slots base layouts = .ok parts)
  {store after : Store g}
include laid k planned

/-- An operation leads from a shaped store to a shaped store. -/
theorem Shaped.operate (h : store.Shaped space parts kept) {operation : Operation}
    (operates : store.operate slots base layouts operation = some after) :
    after.Shaped space parts kept := by
  by_cases mounts : operation = .request .remount
  · subst mounts
    have hmount : mount store.space slots base layouts store.media = .ok after :=
      mount_of_toOption operates
    rw [h.space] at hmount
    exact shaped_of_mount planned k h.media hmount
  by_cases appends : ∃ id payload, operation = .request (.append id payload)
  · obtain ⟨id, payload, rfl⟩ := appends
    exact left_of_keeps (keeps_append laid k id payload) h operates
  · exact (operate_keeps laid (fun p hp => (k p hp).toReads)
      (fun id payload happend => appends ⟨id, payload, happend⟩) mounts h operates).1

/-- Operations lead from shaped stores to shaped stores, however many there are. -/
theorem Shaped.operateAll (h : store.Shaped space parts kept) {operations : List Operation}
    (operates : store.operateAll slots base layouts operations = some after) :
    after.Shaped space parts kept := by
  induction operations generalizing store with
  | nil => exact Option.some.inj operates ▸ h
  | cons operation operations ih =>
    obtain ⟨next, hnext, hrest⟩ := Option.bind_eq_some_iff.mp operates
    exact ih (h.operate laid k planned hnext) hrest

end Shaping

end Store

end CircularLog
