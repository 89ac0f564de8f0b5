import CircularLog.Proofs.Partition.Advance
import CircularLog.Proofs.Partition.Search
import CircularLog.Proofs.Partition.Table

/-!
# Iterating over a partition

A key that was once `Handed` out for an item leads on from that item, whatever has been appended
since: to the item with the smallest larger id (`Succeeds`), or nowhere if its id is the largest
(`Handed.successor_ends`). While its item is there, this is the next one of the log. When it has
been evicted, then so have all that are older, as the oldest item goes first; so every item that is
left has a larger id, and the oldest of them the smallest. What lies between two items one of which
follows the other has been evicted for good (`Holds.skips`, `Holds.lacks`).
-/

namespace CircularLog

namespace Partition

variable {g : Geometry} {space : Space g} {p : Partition} {m : Media g}
  {sound : Bytes → Media g → Prop} {image : Bytes} {log log' : Log} {key next : Key}
  {number count : Nat}

/-! ## Keys that have been handed out -/

/-- The key was given for the item of this number. -/
structure Handed (p : Partition) (log : Log) (key : Key) (number : Nat) : Prop where
  partition : key.partition = p.id
  row_lt : key.row < p.maxItems
  id : key.id = UInt32.ofNat number
  recalls : ∃ payload, p.Recalls log number key payload

/-- The key of an item can be handed out. -/
theorem handed_keyAt (hlt : count < log.items.length) :
    p.Handed log (p.keyAt log count) (log.id + count) where
  partition := rfl
  row_lt := p.rowBehind_lt _ _
  id := rfl
  recalls := by
    refine ⟨log.items[count], List.length_pos_iff.mp (Nat.zero_lt_of_lt hlt), by omega, fun _ => ?_⟩
    rw [Nat.add_sub_cancel_left, listing, List.getElem?_mapIdx, List.getElem?_eq_getElem hlt]
    rfl

/-- The item that is appended gets a key that is handed out. -/
theorem Appended.handed {payload : Bytes} (h : p.Appended log payload log') :
    p.Handed log' (p.keyAt log log.items.length) (log.id + log.items.length) :=
  ⟨rfl, p.rowBehind_lt _ _, rfl, payload, h.recalls⟩

/-- What becomes of a log when so many items are appended: ids go on, items are evicted from the
oldest one on, and a key that was handed out stays one. -/
structure Ages (p : Partition) (more : Nat) (log log' : Log) : Prop where
  ids : log'.id + log'.items.length = log.id + log.items.length + more
  id_le : log.id ≤ log'.id
  handed : ∀ {key number}, p.Handed log key number → p.Handed log' key number

/-- Without an append, nothing becomes of the log. -/
theorem Ages.refl (p : Partition) (log : Log) : p.Ages 0 log log :=
  ⟨rfl, Nat.le_refl _, fun handed => handed⟩

/-- Appends one after the other add up. -/
theorem Ages.trans {more more' : Nat} {log'' : Log} (h : p.Ages more log log')
    (h' : p.Ages more' log' log'') : p.Ages (more + more') log log'' where
  ids := by rw [h'.ids, h.ids, Nat.add_assoc]
  id_le := Nat.le_trans h.id_le h'.id_le
  handed := fun handed => h'.handed (h.handed handed)

/-- An append is one more item. -/
theorem Appended.ages {payload : Bytes} (h : p.Appended log payload log') : p.Ages 1 log log' where
  ids := h.ids
  id_le := by
    have hids := h.ids
    obtain ⟨count, -, hitems⟩ := h.items_eq
    rw [hitems, List.length_append, List.length_drop, List.length_singleton] at hids
    omega
  handed := by
    intro key number hhanded
    obtain ⟨item, hrecalls⟩ := hhanded.recalls
    have some : log'.items ≠ [] := by
      obtain ⟨count, -, hitems⟩ := h.items_eq
      rw [hitems]
      simp
    exact ⟨hhanded.partition, hhanded.row_lt, hhanded.id, item, hrecalls.advances h.advances some⟩

/-- The log with a payload appended, or the same one if there is none. -/
def Gains (p : Partition) (log log' : Log) : Option Bytes → Prop
  | none => log' = log
  | some payload => p.Appended log payload log'

/-- So is an operation that gains a payload; any other is none. -/
theorem Gains.ages {payload? : Option Bytes} (h : p.Gains log log' payload?) :
    p.Ages (if payload?.isSome then 1 else 0) log log' := by
  cases payload? with
  | none =>
    obtain rfl : log' = log := h
    exact .refl p _
  | some payload => exact Appended.ages h

/-- The key of an item that has been evicted has a smaller number than all that are left. -/
theorem Handed.lt_of_stale (h : p.Handed log key number)
    (stale : ∀ count, ¬ p.Names log key count) : number < log.id := by
  obtain ⟨payload, hrecalls⟩ := h.recalls
  refine Nat.lt_of_not_le fun hle => ?_
  have hlisted := hrecalls.listed hle
  rw [listing, List.getElem?_mapIdx] at hlisted
  obtain ⟨item, hitem, hsame⟩ := Option.map_eq_some_iff.mp hlisted
  have hlt := (List.getElem?_eq_some_iff.mp hitem).1
  exact stale _ ((Prod.mk.inj hsame).1 ▸ names_keyAt hlt)

/-! ## The order of the stored items -/

/-- The key of the stored item that has the smallest id larger than that of a key. -/
structure Succeeds (p : Partition) (image : Bytes) (key next : Key) : Prop where
  partition : next.partition = p.id
  row_lt : next.row < p.maxItems
  stored : ∃ entry, p.rowAt image next.row = some entry ∧ entry.id = next.id
  larger : key.id < next.id
  smallest : ∀ row entry, row < p.maxItems → p.rowAt image row = some entry → key.id < entry.id →
    next.id ≤ entry.id

/-- No stored item has a larger id. -/
def Exhausts (p : Partition) (image : Bytes) (key : Key) : Prop :=
  ∀ row entry, row < p.maxItems → p.rowAt image row = some entry → entry.id ≤ key.id

/-- The first item whose number is larger has the smallest larger id. -/
theorem Holds.succeeds (h : p.Holds image log) (hid : key.id = UInt32.ofNat number)
    (hcount : count < log.items.length) (larger : number < log.id + count)
    (smallest : ∀ other, number < log.id + other → count ≤ other) :
    p.Succeeds image key (p.keyAt log count) := by
  have hids := h.id_le
  have hle := h.count_le
  have hrow := h.rows count (by omega)
  rw [entryAt_of_getElem? (List.getElem?_eq_getElem hcount)] at hrow
  constructor
  · rfl
  · exact p.rowBehind_lt _ _
  · exact ⟨_, hrow, rfl⟩
  · rw [hid]
    exact (id_lt_iff (by omega) (by omega)).mpr larger
  · intro row entry hlt hentry hlarger
    obtain ⟨other, hother, -, hentryId⟩ := h.exists_of_rowAt hlt hentry
    rw [hid, hentryId] at hlarger
    have hother' := smallest other ((id_lt_iff (by omega) (by omega)).mp hlarger)
    rw [hentryId]
    exact (id_le_iff (by omega) (by omega)).mpr (by omega)

/-- No stored item has an id between those of the two keys. -/
def Lacks (p : Partition) (image : Bytes) (key next : Key) : Prop :=
  ∀ row entry, row < p.maxItems → p.rowAt image row = some entry →
    ¬ (key.id < entry.id ∧ entry.id < next.id)

/-- Whatever was stored between the items of these numbers has been evicted. -/
def Skips (log : Log) (number next : Nat) : Prop :=
  ∀ other, number < other → other < next → other < log.id

/-- It stays so. -/
theorem Skips.ages {more next' : Nat} (h : Skips log number next') (ages : p.Ages more log log') :
    Skips log' number next' :=
  fun other hlt hlt' => Nat.lt_of_lt_of_le (h other hlt hlt') ages.id_le

/-- Between the item of a key and the one with the smallest larger id nothing is left. -/
theorem Holds.skips (h : p.Holds image log) {number' : Nat} (handed : p.Handed log key number)
    (handed' : p.Handed log next number') (succeeds : p.Succeeds image key next) :
    Skips log number number' := by
  intro other hlt hlt'
  refine Nat.lt_of_not_le fun hle => ?_
  have hids := h.id_le
  have hcount := h.count_le
  obtain ⟨_, hrecalls⟩ := handed'.recalls
  have hbound := hrecalls.lt
  obtain ⟨count, rfl⟩ := Nat.exists_eq_add_of_le hle
  -- An item of that number is in its row.
  have hstored : count < log.items.length := by omega
  have hrow := h.rows count (by omega)
  rw [entryAt_of_getElem? (List.getElem?_eq_getElem hstored)] at hrow
  have hnext := succeeds.smallest _ _ (p.rowBehind_lt _ _) hrow <| by
    rw [handed.id]
    exact (id_lt_iff (by omega) (by omega)).mpr hlt
  rw [handed'.id] at hnext
  have := (id_le_iff (by omega) (by omega)).mp hnext
  omega

/-- Where everything between two items has been evicted, there is nothing between their keys. -/
theorem Holds.lacks (h : p.Holds image log) {number' : Nat} (handed : p.Handed log key number)
    (handed' : p.Handed log next number') (skips : Skips log number number') :
    p.Lacks image key next := by
  have hids := h.id_le
  obtain ⟨_, hrecalls⟩ := handed.recalls
  have hlt := hrecalls.lt
  obtain ⟨_, hrecalls'⟩ := handed'.recalls
  have hlt' := hrecalls'.lt
  rintro row entry hrow hentry ⟨hlarger, hsmaller⟩
  obtain ⟨count, hcount, -, hid⟩ := h.exists_of_rowAt hrow hentry
  rw [handed.id, hid] at hlarger
  rw [handed'.id, hid] at hsmaller
  have := skips (log.id + count) ((id_lt_iff (by omega) (by omega)).mp hlarger)
    ((id_lt_iff (by omega) (by omega)).mp hsmaller)
  omega

/-- The newest item has the largest id. -/
theorem Holds.exhausts (h : p.Holds image log) (hid : key.id = UInt32.ofNat number)
    (newest : number + 1 = log.id + log.items.length) : p.Exhausts image key := by
  have hids := h.id_le
  intro row entry hrow hentry
  obtain ⟨other, hother, -, hentryId⟩ := h.exists_of_rowAt hrow hentry
  rw [hid, hentryId]
  exact (id_le_iff (by omega) (by omega)).mpr (by omega)

/-! ## Steps -/

variable (c : space.Conduct p.table p.stop sound .never) (holds : p.Holds image log)
  (hm : sound image m)
include c holds hm

/-- From a key that was handed out one gets to the next item that is stored, or the key is that of
the newest one. -/
theorem Handed.successor_ends (h : p.Handed log key number) :
    (p.successor space log.status key).Ends m
      (fun next m' => sound image m' ∧ p.Succeeds image key next ∧
        ∃ number, p.Handed log next number)
      (fun e m' => sound image m' ∧ e = .notFound ∧ p.Exhausts image key) := by
  obtain ⟨payload, hrecalls⟩ := h.recalls
  have hids := holds.id_le
  have hlt := hrecalls.lt
  -- A key that names an item names the one that it was given for.
  have live {count : Nat} (hnames : p.Names log key count) : number = log.id + count := by
    have hcount := hnames.lt
    have hsame := congrArg UInt32.toNat (h.id.symm.trans hnames.id)
    rwa [UInt32.toNat_ofNat_of_lt' (by show _ < 4294967296; omega),
      UInt32.toNat_ofNat_of_lt' (by show _ < 4294967296; omega)] at hsame
  apply (p.successor_ends c holds hm key).mono
  · rintro next m' ⟨h', ⟨count, hnames, hnext, hpartition⟩ | ⟨stale, some, rfl⟩⟩
    · have hnumber := live hnames
      have hbehind := hnext.lt
      obtain rfl := hnext.eq_keyAt (hpartition.trans h.partition)
      have hsucceeds := holds.succeeds h.id hbehind (by omega) fun other hother => by omega
      exact ⟨h', hsucceeds, _, handed_keyAt hbehind⟩
    · have hfirst := List.length_pos_iff.mpr some
      have hnumber := h.lt_of_stale stale
      exact ⟨h', holds.succeeds h.id hfirst (by omega) fun _ _ => Nat.zero_le _, _,
        handed_keyAt hfirst⟩
  · rintro e m' (hhalts | ⟨h', ⟨-, hrow⟩ | ⟨he, -, hnil | ⟨count, hnames, hlast⟩⟩⟩)
    · exact (Space.not_halts hhalts).elim
    · exact absurd h.row_lt (Nat.not_lt.mpr hrow)
    · exact absurd hnil hrecalls.nonempty
    · have hnumber := live hnames
      exact ⟨h', he, holds.exhausts h.id (by omega)⟩

/-- What is found has a key that is handed out. -/
theorem Holds.find_ends {π : Type} (capacity : Nat) (test : Bytes → StateM π Bool) (held : π) :
    (p.find space log.status capacity test).Ends (m, held)
      (fun key after => sound image after.1 ∧ ∃ number, p.Handed log key number)
      (fun e after => sound image after.1 ∧ e ≠ .inconsistent) := by
  have hmem := mem_of_firstPassing capacity test (p.listing log) held
  apply (holds.find_performs c hm capacity test held).mono
  · rintro key after ⟨h', hfound⟩
    rw [hfound] at hmem
    obtain ⟨item, hmem⟩ := hmem
    obtain ⟨part, count, hnames, -⟩ := mem_listing.mp hmem
    exact ⟨h', _, hnames.eq_keyAt part ▸ handed_keyAt hnames.lt⟩
  · rintro e after ⟨h', hfound⟩
    rw [hfound] at hmem
    exact ⟨h', hmem⟩

end Partition

end CircularLog
