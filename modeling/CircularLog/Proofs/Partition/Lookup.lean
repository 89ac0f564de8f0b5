import CircularLog.Partition.Lookup
import CircularLog.Proofs.Partition.Survey

/-!
# Keys and the log

A key `Names` an item of a log if it has the row and the id of that item; no key names two
(`Names.unique`). Whatever the key, reading the row that it points to tells whether it names an
item (`current_ends`). From this come the answers to all requests for items: the oldest key
(`oldestKey_ends`), the next one (`successor_ends`) and the payload (`fetch_ends`), which give what
the log has and leave the image as it is.
-/

namespace CircularLog

namespace Partition

variable {g : Geometry} {space : Space g} {p : Partition} {m : Media g}
  {sound : Bytes → Media g → Prop} {mishap : Space.Mishap g} {image : Bytes} {log : Log}
  {key : Key} {count : Nat}

open Space (Halts)

/-! ## Names -/

/-- The key has the row and the id of the item so many places behind the oldest. -/
structure Names (p : Partition) (log : Log) (key : Key) (count : Nat) : Prop where
  lt : count < log.items.length
  row : key.row = p.rowBehind log.row count
  id : key.id = UInt32.ofNat (log.id + count)

/-- The key of the item so many places behind the oldest. -/
def keyAt (p : Partition) (log : Log) (count : Nat) : Key :=
  ⟨p.id, p.rowBehind log.row count, UInt32.ofNat (log.id + count)⟩

/-- Each item has a key that names it. -/
theorem names_keyAt (hlt : count < log.items.length) : p.Names log (p.keyAt log count) count :=
  ⟨hlt, rfl, rfl⟩

/-- There is no other key of the partition for an item. -/
theorem Names.eq_keyAt (h : p.Names log key count) (part : key.partition = p.id) :
    key = p.keyAt log count := by
  obtain ⟨partition, row, id⟩ := key
  obtain rfl : partition = p.id := part
  obtain rfl : row = _ := h.row
  obtain rfl : id = _ := h.id
  rfl

/-- The items with their keys, oldest first. -/
def listing (p : Partition) (log : Log) : List (Key × Bytes) :=
  log.items.mapIdx fun count item => (p.keyAt log count, item)

/-- The listing has all items of the log, -/
@[simp] theorem length_listing (p : Partition) (log : Log) :
    (p.listing log).length = log.items.length := List.length_mapIdx

/-- and has them in their order. -/
@[simp] theorem map_snd_listing (p : Partition) (log : Log) :
    (p.listing log).map Prod.snd = log.items := by
  refine List.ext_getElem? fun i => ?_
  simp [listing, Function.comp_def]

/-- The listing of a log has each item with the key that names it. -/
theorem mem_listing {item : Bytes} : (key, item) ∈ p.listing log ↔ key.partition = p.id ∧
    ∃ count, p.Names log key count ∧ log.items[count]? = some item := by
  rw [listing, List.mem_mapIdx]
  constructor
  · rintro ⟨count, hlt, hentry⟩
    obtain ⟨rfl, rfl⟩ := Prod.mk.inj hentry
    exact ⟨rfl, count, names_keyAt hlt, List.getElem?_eq_getElem hlt⟩
  · rintro ⟨part, count, hnames, hitem⟩
    obtain ⟨hlt, rfl⟩ := List.getElem?_eq_some_iff.mp hitem
    exact ⟨count, hlt, by rw [hnames.eq_keyAt part]⟩

/-- The items from one of them on. -/
theorem drop_listing (hlt : count < log.items.length) :
    (p.listing log).drop count =
      (p.keyAt log count, log.items[count]) :: (p.listing log).drop (count + 1) := by
  rw [List.drop_eq_getElem_cons (by rwa [length_listing])]
  simp [listing]

/-- The items that are left when the oldest one is taken out have the keys that they had. -/
theorem listing_pop (p : Partition) (log : Log) :
    p.listing (p.pop log) = (p.listing log).drop 1 := by
  unfold pop
  split
  · next hnil => simp [listing, hnil]
  · next item items hitems =>
    have hkey (count : Nat) : p.keyAt ⟨p.nextRow log.row, log.id + 1,
        (log.start + item.length) % p.areaLength, items⟩ count = p.keyAt log (count + 1) := by
      rw [keyAt, keyAt, rowBehind_nextRow, Nat.add_assoc, Nat.add_comm 1]
    simp only [listing, hitems, hkey, List.mapIdx_cons, List.drop_one, List.tail_cons]

/-- The items that are left when the oldest are taken out have the keys that they had. -/
theorem listing_popMany (p : Partition) (count : Nat) (log : Log) :
    p.listing (p.popMany count log) = (p.listing log).drop count := by
  induction count generalizing log with
  | zero => rfl
  | succ count ih => rw [popMany, ih, listing_pop, List.drop_drop, Nat.add_comm]

/-- Recovery finds the items with the keys that they have. -/
theorem listing_found (p : Partition) (log : Log) : p.listing log.found = p.listing log := by
  unfold Log.found
  split
  · next hnil => simp [listing, hnil, Log.empty]
  · rfl

/-- A key names one item at most. -/
theorem Names.unique (h : p.Names log key count) (holds : p.Holds image log) {other : Nat}
    (h' : p.Names log key other) : other = count := by
  have hle := holds.count_le
  have hlt := h.lt
  have hlt' := h'.lt
  refine Decidable.byContradiction fun hne => ?_
  exact rowBehind_ne holds.row_lt (by omega) (by omega) hne (h'.row.symm.trans h.row)

/-- A key that names an item is found with it. -/
theorem Holds.lookup_of_names (holds : p.Holds image log)
    (part : key.partition = p.id) {count : Nat} (hnames : p.Names log key count) {item : Bytes}
    (hitem : log.items[count]? = some item) :
    (p.listing log).lookup key = some item := by
  cases hlookup : (p.listing log).lookup key with
  | none =>
    have habsent := List.lookup_eq_none_iff.mp hlookup _
      (mem_listing.mpr ⟨part, count, hnames, hitem⟩)
    simp at habsent
  | some other =>
    obtain ⟨front, back, hsplit, -⟩ := List.lookup_eq_some_iff.mp hlookup
    have hmem : (key, other) ∈ p.listing log := by simp [hsplit]
    obtain ⟨-, count', hnames', hitem'⟩ := mem_listing.mp hmem
    obtain rfl := hnames.unique holds hnames'
    exact hitem'.symm.trans hitem

/-- A key that names no item is not found. -/
theorem lookup_of_not_names (hnone : ∀ count, ¬ p.Names log key count) :
    (p.listing log).lookup key = none := by
  refine List.lookup_eq_none_iff.mpr fun entry hentry => ?_
  obtain ⟨other, item⟩ := entry
  obtain ⟨-, count, hnames, -⟩ := mem_listing.mp hentry
  refine bne_iff_ne.mpr ?_
  rintro rfl
  exact hnone count hnames

/-- What is found in the row of a key that names an item. -/
theorem Holds.filter_of_names (holds : p.Holds image log) (h : p.Names log key count) {item : Bytes}
    (hitem : log.items[count]? = some item) :
    (p.rowAt image key.row).filter (·.id = key.id) =
      some (entry (log.id + count) (p.startOf log count) item.length) := by
  have hle := holds.count_le
  have hlt := h.lt
  rw [h.row, holds.rows count (by omega), entryAt_of_getElem? hitem, h.id]
  exact Option.filter_some_pos (by simp [entry])

/-- Nothing is found in the row of a key that names no item. -/
theorem Holds.filter_of_not_names (holds : p.Holds image log) (hrow : key.row < p.maxItems)
    (h : ∀ count, ¬ p.Names log key count) :
    (p.rowAt image key.row).filter (·.id = key.id) = none := by
  obtain ⟨count, hcount, hkey⟩ := exists_rowBehind holds.row_lt hrow
  rw [hkey, holds.rows count hcount]
  refine Option.filter_eq_none_iff.mpr fun found hfound hid => h count ?_
  obtain ⟨item, hitem, rfl⟩ := Option.map_eq_some_iff.mp hfound
  have hlt := (List.getElem?_eq_some_iff.mp hitem).1
  exact ⟨hlt, hkey, by simpa [entry, eq_comm] using hid⟩

/-- The key behind that of the newest item names nothing. -/
theorem Holds.not_names_behind (holds : p.Holds image log)
    (hid : key.id = UInt32.ofNat (log.id + log.items.length)) (count : Nat) :
    ¬ p.Names log key count := by
  intro h
  have hlt := h.lt
  have hle := holds.id_le
  have hcount := holds.count_le
  have hrows := p.maxItems_lt
  have hsame := congrArg UInt32.toNat (hid.symm.trans h.id)
  rw [UInt32.toNat_ofNat', UInt32.toNat_ofNat', Nat.mod_eq_of_lt (by omega : log.id + count < _)]
    at hsame
  -- The id behind the newest may be none any more, but then there are too many items.
  rcases Nat.lt_or_ge (log.id + log.items.length) 0x1_0000_0000 with hless | hmore
  · rw [Nat.mod_eq_of_lt hless] at hsame
    omega
  · rw [show log.id + log.items.length = 0x1_0000_0000 by omega, Nat.mod_self] at hsame
    omega

/-! ## Requests -/

/-- Looking into the row of a key. -/
theorem current_ends (c : space.Conduct p.table p.stop sound mishap)
    (holds : p.Holds image log) (hm : sound image m) (hrow : key.row < p.maxItems) :
    (p.current space key).Ends m
      (fun found m' => sound image m' ∧ found = (p.rowAt image key.row).filter (·.id = key.id))
      (Halts mishap (· = image)) := by
  simp only [current, Action.ends_bind, Action.ends_pure]
  refine (readRow_ends c.toLegible hm hrow fun _ h => holds.fits_rowAt hrow h).mono ?_
    fun _ _ h => h
  rintro _ m₁ ⟨h₁, rfl⟩
  exact ⟨h₁, rfl⟩

/-- The oldest key is that of the first item, if there is one. -/
theorem oldestKey_ends (c : space.Conduct p.table p.stop sound mishap)
    (holds : p.Holds image log) (hm : sound image m) :
    (p.oldestKey space log.status).Ends m
      (fun key m' => sound image m' ∧ log.items ≠ [] ∧ key = p.keyAt log 0)
      (fun e m' => Halts mishap (· = image) e m' ∨
        sound image m' ∧ e = .notFound ∧ log.items = []) := by
  rw [oldestKey, Action.ends_ite]
  refine ⟨fun hzero => ?_, fun hpos => ?_⟩
  · exact .inr ⟨hm, rfl, List.eq_nil_of_length_eq_zero hzero⟩
  · have hlt : 0 < log.items.length := Nat.pos_of_ne_zero hpos
    have hread := readStored_ends c holds hm (List.getElem?_eq_getElem hlt)
    rw [rowBehind_zero holds.row_lt] at hread
    simp only [Action.ends_bind, Action.ends_pure]
    refine hread.mono ?_ fun _ _ h => .inl h
    rintro _ m₁ ⟨h₁, rfl⟩
    refine ⟨h₁, List.length_pos_iff.mp hlt, ?_⟩
    rw [keyAt, rowBehind_zero holds.row_lt]
    rfl

/-- The row of a key is found if the key names an item. -/
theorem entryOf_ends (c : space.Conduct p.table p.stop sound mishap)
    (holds : p.Holds image log) (hm : sound image m) (key : Key) :
    (p.entryOf space key).Ends m
      (fun found m' => sound image m' ∧ ∃ count item, p.Names log key count ∧
        log.items[count]? = some item ∧
        found = entry (log.id + count) (p.startOf log count) item.length)
      (fun e m' => Halts mishap (· = image) e m' ∨ sound image m' ∧
        (e = .invalidRange ∧ p.maxItems ≤ key.row ∨
          e = .notFound ∧ key.row < p.maxItems ∧ ∀ count, ¬ p.Names log key count)) := by
  have fits := c.inside
  simp only [entryOf, requireRow, Action.ends_bind, Action.ends_ite, Action.ends_pure,
    Action.ends_fail]
  refine ⟨fun hrow => ?_, fun hrow => .inr ⟨hm, .inl ⟨trivial, by omega⟩⟩⟩
  refine (current_ends c holds hm hrow).mono ?_ fun _ _ h => .inl h
  rintro _ m₁ ⟨h₁, rfl⟩
  -- The row of the key holds an item with its id exactly if the key names one.
  by_cases hnames : ∃ count, p.Names log key count
  · obtain ⟨count, hnames⟩ := hnames
    have hitem := List.getElem?_eq_getElem hnames.lt
    rw [holds.filter_of_names hnames hitem]
    exact ⟨h₁, count, _, hnames, hitem, rfl⟩
  · rw [holds.filter_of_not_names hrow fun count h => hnames ⟨count, h⟩]
    exact .inr ⟨h₁, .inr ⟨rfl, hrow, fun count h => hnames ⟨count, h⟩⟩⟩

/-- The key behind a key is that of the next item; behind a key that names nothing it is that of
the oldest item. -/
theorem successor_ends (c : space.Conduct p.table p.stop sound mishap)
    (holds : p.Holds image log) (hm : sound image m) (key : Key) :
    (p.successor space log.status key).Ends m
      (fun next m' => sound image m' ∧
        ((∃ count, p.Names log key count ∧ p.Names log next (count + 1) ∧
            next.partition = key.partition) ∨
          (∀ count, ¬ p.Names log key count) ∧ log.items ≠ [] ∧ next = p.keyAt log 0))
      (fun e m' => Halts mishap (· = image) e m' ∨ sound image m' ∧
        (e = .invalidRange ∧ p.maxItems ≤ key.row ∨ e = .notFound ∧ key.row < p.maxItems ∧
          (log.items = [] ∨ ∃ count, p.Names log key count ∧ count + 1 = log.items.length))) := by
  have fits := c.inside
  rw [successor_eq]
  simp only [requireRow, Action.ends_bind, Action.ends_ite, Action.ends_pure, Action.ends_fail]
  refine ⟨fun hrow => ?_, fun hrow => .inr ⟨hm, .inl ⟨trivial, by omega⟩⟩⟩
  refine (current_ends c holds hm hrow).mono ?_ fun _ _ h => .inl h
  rintro _ m₁ ⟨h₁, rfl⟩
  by_cases hnames : ∃ count, p.Names log key count
  · obtain ⟨count, hnames⟩ := hnames
    have hitem := List.getElem?_eq_getElem hnames.lt
    rw [holds.filter_of_names hnames hitem]
    refine ⟨fun h => absurd h (by simp), fun _ => ?_⟩
    have hnext : p.nextRow key.row = p.rowBehind log.row (count + 1) := by
      rw [hnames.row, nextRow_rowBehind]
    have hid : key.id + 1 = UInt32.ofNat (log.id + (count + 1)) := by
      rw [hnames.id]
      exact (UInt32.ofNat_add (log.id + count) 1).symm
    refine (current_ends c holds h₁ (p.nextRow_lt key.row)).mono ?_ fun _ _ h => .inl h
    rintro _ m₂ ⟨h₂, rfl⟩
    -- The next row names the next item; behind the newest one it has another id or none.
    rcases Nat.lt_or_ge (count + 1) log.items.length with hlt | hge
    · have hnames' : p.Names log ⟨key.partition, p.nextRow key.row, key.id + 1⟩ (count + 1) :=
        ⟨hlt, hnext, hid⟩
      rw [holds.filter_of_names hnames' (List.getElem?_eq_getElem hlt)]
      exact ⟨fun h => absurd h (by simp), fun _ => ⟨h₂, .inl ⟨count, hnames, hnames', trivial⟩⟩⟩
    · have hlast : count + 1 = log.items.length := Nat.le_antisymm hnames.lt hge
      rw [holds.filter_of_not_names (p.nextRow_lt key.row) (holds.not_names_behind
        (by rw [hid, hlast]))]
      exact ⟨fun _ => .inr ⟨h₂, .inr ⟨trivial, hrow, .inr ⟨count, hnames, hlast⟩⟩⟩,
        fun h => absurd rfl h⟩
  · have hnone : ∀ count, ¬ p.Names log key count := fun count h => hnames ⟨count, h⟩
    rw [holds.filter_of_not_names hrow hnone]
    refine ⟨fun _ => ?_, fun h => absurd rfl h⟩
    -- A key that has gone stale starts over at the oldest item.
    refine (oldestKey_ends c holds h₁).mono ?_ ?_
    · exact fun _ _ h => ⟨h.1, .inr ⟨hnone, h.2⟩⟩
    · rintro e m₂ (h | ⟨h₂, he, hnil⟩)
      · exact .inl h
      · exact .inr ⟨h₂, .inr ⟨he, hrow, .inl hnil⟩⟩

/-- The payload of an entry is what the ring has where the entry says. -/
theorem payload_eq_ring (c : space.Conduct p.table p.stop sound mishap)
    (hm : sound image m) {entry : Row} (hentry : entry.Fits p.areaLength) :
    (p.payload space entry).Ends m
      (fun payload m' => sound image m' ∧
        payload = p.ring image entry.start.toNat entry.length.toNat)
      (Halts mishap (· = image)) := by
  have fits := c.inside
  have hparts := p.parts
  have hstart := hentry.1
  have hlength := hentry.2
  rw [payload_eq (Nat.le_of_lt hstart)]
  simp only [Action.ends_bind, Action.ends_pure]
  refine (c.read hm (by omega) (by omega)).mono ?_ fun _ _ h => h
  rintro _ m₁ ⟨h₁, rfl⟩
  refine (c.read h₁ (by omega) (by omega)).mono ?_ fun _ _ h => h
  rintro _ m₂ ⟨h₂, rfl⟩
  exact ⟨h₂, rfl⟩

/-- The payload of an item is what the ring has where its row says. -/
theorem payload_ends (c : space.Conduct p.table p.stop sound mishap)
    (holds : p.Holds image log) (hm : sound image m) {item : Bytes}
    (hitem : log.items[count]? = some item) :
    (p.payload space (entry (log.id + count) (p.startOf log count) item.length)).Ends m
      (fun payload m' => sound image m' ∧ payload = item) (Halts mishap (· = image)) := by
  have fits := c.inside
  have hlen := c.length hm
  have hlength := holds.length_entry hitem (log.id + count) (p.startOf log count)
  refine (payload_eq_ring c hm (holds.fits_entryAt (entryAt_of_getElem? hitem))).mono ?_
    fun _ _ h => h
  rintro _ m₁ ⟨h₁, rfl⟩
  rw [hlength, start_entry (p.startOf_lt log count)]
  exact ⟨h₁, holds.ring_item (by omega) hitem⟩

/-- Fetching gives the item that the key names, if the buffer can hold it. -/
theorem fetch_ends (c : space.Conduct p.table p.stop sound mishap)
    (holds : p.Holds image log) (hm : sound image m) (key : Key) (capacity : Nat) :
    (p.fetch space key capacity).Ends m
      (fun payload m' => sound image m' ∧ ∃ count, p.Names log key count ∧
        log.items[count]? = some payload ∧ payload.length ≤ capacity)
      (fun e m' => Halts mishap (· = image) e m' ∨ sound image m' ∧
        (e = .invalidRange ∧ p.maxItems ≤ key.row ∨
          (e = .notFound ∧ key.row < p.maxItems ∧ ∀ count, ¬ p.Names log key count) ∨
          ∃ count item, p.Names log key count ∧ log.items[count]? = some item ∧
            e = .bufferTooSmall item.length ∧ capacity < item.length)) := by
  have fits := c.inside
  rw [fetch_eq]
  simp only [Action.ends_bind, Action.ends_ite, Action.ends_fail]
  refine (entryOf_ends c holds hm key).mono ?_ ?_
  · rintro _ m₁ ⟨h₁, count, item, hnames, hitem, rfl⟩
    have hlength := holds.length_entry hitem (log.id + count) (p.startOf log count)
    rw [hlength]
    refine ⟨fun hsmall => .inr ⟨h₁, .inr (.inr ⟨count, item, hnames, hitem, rfl, hsmall⟩)⟩,
      fun hlarge => ?_⟩
    refine (payload_ends c holds h₁ hitem).mono ?_ fun _ _ h => .inl h
    rintro _ m₂ ⟨h₂, rfl⟩
    exact ⟨h₂, count, hnames, hitem, by omega⟩
  · rintro e m₁ (h | ⟨h₁, h | h⟩)
    · exact .inl h
    · exact .inr ⟨h₁, .inl h⟩
    · exact .inr ⟨h₁, .inr (.inl h)⟩

end Partition

end CircularLog
