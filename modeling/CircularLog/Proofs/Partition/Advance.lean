import CircularLog.Proofs.Partition.Append
import CircularLog.Proofs.Partition.Lookup

/-!
# From log to log

Whatever becomes of an append, it `Advances` the log: some of the oldest items have been taken out,
and there may be one more behind the others. The items that are left keep their keys, and the ids go
on, as long as there are items at all (`Advances.listing`). So an item that has a key stays the only
one that ever had it (`Recalls.advances`): the key names it, or nothing any more
(`Recalls.eq_of_names`).
-/

namespace CircularLog

namespace Log

/-- The log with more items behind the others. -/
def extend (log : Log) (fresh : List Bytes) : Log := { log with items := log.items ++ fresh }

/-- No more items are no change. -/
theorem extend_nil (log : Log) : log.extend [] = log := by simp [extend]

/-- A log with items is found as it is. -/
theorem found_of_ne_nil {log : Log} (some : log.items ≠ []) : log.found = log :=
  Settled.found_eq fun none => absurd none some

end Log

namespace Partition

variable {p : Partition} {image : Bytes} {log log' : Log} {more number : Nat} {payload : Bytes}
  {key : Key}

/-! ## Advancing -/

/-- Some of the oldest items have been taken out, and so many new ones at most have been put behind
the others; where no item is left, it is as if there had never been one. -/
def Advances (p : Partition) (more : Nat) (log log' : Log) : Prop :=
  ∃ count fresh, fresh.length ≤ more ∧ log' = ((p.popMany count log).extend fresh).found

/-- Taking out some of the oldest items. -/
theorem advances_popMany (p : Partition) (more count : Nat) (log : Log) :
    p.Advances more log (p.popMany count log).found :=
  ⟨count, [], Nat.zero_le _, by rw [Log.extend_nil]⟩

/-- Taking out some of the oldest items, and putting a new one behind the others. -/
theorem advances_push (p : Partition) (count : Nat) (log : Log) (payload : Bytes) :
    p.Advances 1 log ((p.popMany count log).push payload).found :=
  ⟨count, [payload], Nat.le_refl _, rfl⟩

/-- An append does both. -/
theorem Appended.advances (h : p.Appended log payload log') : p.Advances 1 log log' := by
  obtain ⟨count, -, rfl⟩ := h
  have hpush := p.advances_push count log payload
  rwa [Log.found_of_ne_nil (by simp [Log.push])] at hpush

/-- So does one that was interrupted, as recovery finds it. -/
theorem Appending.advances (h : p.Appending image log payload log') :
    p.Advances 1 log log'.found := by
  obtain ⟨count, rfl | ⟨written, -, rfl⟩⟩ := h
  · exact p.advances_popMany 1 count log
  · exact p.advances_push count log _

/-- No more ids are used up than there are new items. -/
theorem Advances.ids_le (h : p.Advances more log log') :
    log'.id + log'.items.length ≤ log.id + log.items.length + more := by
  obtain ⟨count, fresh, hfresh, rfl⟩ := h
  have hids := (p.free_popMany count log).2.1
  refine Nat.le_trans (Log.ids_found_le _) ?_
  simp only [Log.extend, List.length_append]
  omega

/-- The items of a longer log keep their keys. -/
theorem listing_extend (p : Partition) (log : Log) (fresh : List Bytes) :
    ∃ keys, p.listing (log.extend fresh) = p.listing log ++ keys :=
  ⟨_, by rw [listing, Log.extend, List.mapIdx_append]; rfl⟩

/-- As long as there are items, the ids go on, and the items that are left keep their keys. -/
theorem Advances.listing (h : p.Advances more log log') (some : log'.items ≠ []) :
    ∃ count keys, log'.id = log.id + min count log.items.length ∧
      log.id + log.items.length ≤ log'.id + log'.items.length ∧
      p.listing log' = (p.listing log).drop count ++ keys := by
  obtain ⟨count, fresh, -, rfl⟩ := h
  rw [Log.items_found] at some
  rw [Log.found_of_ne_nil some]
  obtain ⟨keys, hkeys⟩ := p.listing_extend (p.popMany count log) fresh
  have hids := (p.free_popMany count log).2.1
  have hid : ((p.popMany count log).extend fresh).id = (p.popMany count log).id := rfl
  rw [items_popMany, List.length_drop] at hids
  refine ⟨count, keys, by omega, ?_, by rw [hkeys, listing_popMany]⟩
  simp only [Log.extend, items_popMany, List.length_append, List.length_drop]
  omega

/-! ## Keys -/

/-- There are items, the item of this number has been stored, and as long as it is there, it is this
one with this key. -/
structure Recalls (p : Partition) (log : Log) (number : Nat) (key : Key)
    (payload : Bytes) : Prop where
  nonempty : log.items ≠ []
  lt : number < log.id + log.items.length
  listed : log.id ≤ number → (p.listing log)[number - log.id]? = some (key, payload)

/-- An item of which that is true stays the only one with its number. -/
theorem Recalls.advances (h : p.Recalls log number key payload)
    (advances : p.Advances more log log') (some : log'.items ≠ []) :
    p.Recalls log' number key payload := by
  obtain ⟨count, keys, hid, hids, hlisting⟩ := advances.listing some
  have hlt := h.lt
  refine ⟨some, by omega, fun hle => ?_⟩
  -- An item that is left has not been taken out, so there are more than those that have.
  have hcount : log'.id = log.id + count := by omega
  have hplace : number - log.id = count + (number - log'.id) := by omega
  have hitem := h.listed (by omega)
  rw [hplace, ← List.getElem?_drop] at hitem
  rw [hlisting, List.getElem?_append_left (List.getElem?_eq_some_iff.mp hitem).1, hitem]

/-- The item that is appended has the next number, and the key of the free row. -/
theorem Appended.recalls (h : p.Appended log payload log') :
    p.Recalls log' (log.id + log.items.length)
      ⟨p.id, p.freeRow log, UInt32.ofNat (log.id + log.items.length)⟩ payload := by
  have hids := h.ids
  obtain ⟨count, -, rfl⟩ := h
  obtain ⟨hrow, hnumber, -⟩ := p.free_popMany count log
  rw [← hnumber] at hids
  rw [← hrow, ← hnumber]
  generalize p.popMany count log = left at *
  refine ⟨by simp [Log.push], by omega, fun _ => ?_⟩
  rw [Log.id_push, Nat.add_sub_cancel_left]
  simp [Partition.listing, Log.push, keyAt, freeRow]

/-- A key that names an item names the one that it was given for. -/
theorem Recalls.eq_of_names (h : p.Recalls log number key payload) (holds : p.Holds image log)
    (hid : key.id = UInt32.ofNat number) {count : Nat} (names : p.Names log key count)
    {item : Bytes} (hitem : log.items[count]? = some item) : item = payload := by
  have hle := holds.id_le
  have hlt := h.lt
  have hcount := names.lt
  -- Numbers are too small for two of them to have the same id.
  have hnumber : number = log.id + count := by
    have hsame := congrArg UInt32.toNat (hid.symm.trans names.id)
    rwa [UInt32.toNat_ofNat', UInt32.toNat_ofNat', Nat.mod_eq_of_lt (by omega),
      Nat.mod_eq_of_lt (by omega)] at hsame
  have hlisted := h.listed (by omega)
  rw [hnumber, Nat.add_sub_cancel_left, Partition.listing, List.getElem?_mapIdx, hitem] at hlisted
  exact (Prod.mk.inj (Option.some.inj hlisted)).2

end Partition

end CircularLog
