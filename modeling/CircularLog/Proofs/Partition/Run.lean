import Mathlib.Algebra.GroupWithZero.Nat
import Mathlib.Data.List.Chain
import CircularLog.Proofs.Partition.Append
import CircularLog.Proofs.Partition.Lookup

/-!
# What the table says by itself

A `Run` is what the table of a partition says: rows that hold something, one behind the other around
the table (`Partition.Tabled`). Nothing is said of their ids, of where the payloads lie, and of the
area, so there may be a run where no log is any more, because a row was damaged or because more
items were stored than there are ids. In a `Linked` run each entry follows the one before it: its id
is the next one, after the largest comes zero, and its payload starts where the other one stops.
Then no two payloads have a byte in common (`Run.Linked.pairwise_apart`). Taking out the oldest
entries and putting the next one behind the others leaves a linked run (`Run.Linked.drop`,
`Run.Linked.push`).
-/

namespace CircularLog

namespace Row

/-- The newer row tells of the item that comes behind that of the older one. -/
def Follows (areaLength : Nat) (older newer : Row) : Prop :=
  newer.id = older.id + 1 ∧ newer.start.toNat = older.stop areaLength

instance (areaLength : Nat) (older newer : Row) : Decidable (older.Follows areaLength newer) :=
  inferInstanceAs (Decidable (_ ∧ _))

end Row

/-- The payload that a row tells of takes this address. -/
def Partition.Covers (p : Partition) (entry : Row) (address : Nat) : Prop :=
  ∃ i, i < entry.length.toNat ∧ address = p.cell entry.start.toNat i

/-- What a table says: from a row on, the rows hold these entries, and the others nothing. -/
structure Run where
  /-- The row of the oldest item, or of the first one to come. -/
  row : Nat
  /-- What the rows say, oldest first. -/
  entries : List Row
  deriving Inhabited

namespace Run

/-- The bytes that the payloads of these entries take. -/
def bytesOf (entries : List Row) : Nat := (entries.map (·.length.toNat)).sum

/-- The fill state. -/
def status (run : Run) : Status := ⟨run.row, run.entries.length, bytesOf run.entries⟩

/-- The run without its oldest entry. -/
def pop (p : Partition) (run : Run) : Run := ⟨p.nextRow run.row, run.entries.tail⟩

/-- The run without so many of its oldest entries. -/
def drop (p : Partition) (count : Nat) (run : Run) : Run :=
  ⟨p.rowBehind run.row count, run.entries.drop count⟩

/-- The run with one more entry behind the others. -/
def push (run : Run) (entry : Row) : Run := { run with entries := run.entries ++ [entry] }

/-- The row that the next entry gets. -/
def freeRow (p : Partition) (run : Run) : Nat := p.rowBehind run.row run.entries.length

/-- The id that the next entry gets: the one behind that of the newest, or zero if there is none. -/
def nextId (run : Run) : UInt32 :=
  match run.entries.getLast? with
  | some newest => newest.id + 1
  | none => 0

/-- Where the payload of the next entry starts. -/
def nextStart (p : Partition) (run : Run) : Nat :=
  match run.entries.getLast? with
  | some newest => newest.stop p.areaLength
  | none => 0

/-- What the row of the next item says, if the item has so many bytes. -/
def nextEntry (p : Partition) (run : Run) (length : Nat) : Row :=
  ⟨run.nextId, UInt32.ofNat (run.nextStart p), UInt16.ofNat length⟩

/-- The next entry gets the same row, however many of the oldest are taken out first. -/
theorem freeRow_drop (p : Partition) {run : Run} {count : Nat} (h : count ≤ run.entries.length) :
    (run.drop p count).freeRow p = run.freeRow p := by
  simp only [freeRow, drop, p.rowBehind_rowBehind, List.length_drop]
  rw [Nat.add_sub_of_le h]

/-- Taking out the oldest entry first, and then others, is taking out one more. -/
theorem drop_pop (p : Partition) (count : Nat) (run : Run) :
    (run.pop p).drop p count = run.drop p (count + 1) := by
  simp only [drop, pop, p.rowBehind_nextRow, List.drop_tail]

/-- Taking out one more after others. -/
theorem pop_drop (p : Partition) (count : Nat) (run : Run) :
    (run.drop p count).pop p = run.drop p (count + 1) := by
  simp only [drop, pop, p.nextRow_rowBehind, List.tail_drop]

/-- Taking out none leaves the run. -/
theorem drop_zero {p : Partition} {run : Run} (h : run.row < p.maxItems) : run.drop p 0 = run := by
  simp only [drop, p.rowBehind_zero h, List.drop_zero]

/-- The next payload starts inside the area. -/
theorem nextStart_lt (p : Partition) (run : Run) : run.nextStart p < p.areaLength := by
  unfold nextStart
  split
  · exact Row.stop_lt _ p.areaLength_pos
  · exact p.areaLength_pos

/-- No entries take no bytes. -/
@[simp] theorem bytesOf_nil : bytesOf [] = 0 := rfl

/-- One more entry takes the bytes that it says. -/
@[simp] theorem bytesOf_cons (entry : Row) (entries : List Row) :
    bytesOf (entry :: entries) = entry.length.toNat + bytesOf entries := by
  simp [bytesOf]

/-- Entries one after the other take what they take on their own, together. -/
@[simp] theorem bytesOf_append (front back : List Row) :
    bytesOf (front ++ back) = bytesOf front + bytesOf back := by
  simp [bytesOf]

/-- A row takes less than 64 KiB. -/
theorem bytesOf_le (entries : List Row) : bytesOf entries ≤ entries.length * (0x1_0000 - 1) := by
  induction entries with
  | nil => simp
  | cons entry entries ih =>
    have hlength : entry.length.toNat < 0x1_0000 := entry.length.toNat_lt
    rw [bytesOf_cons, List.length_cons]
    omega

/-! ## Room -/

/-- So many more bytes and one more entry fit behind these entries. -/
def HasRoom (p : Partition) (entries : List Row) (length : Nat) : Prop :=
  bytesOf entries + length ≤ p.areaLength ∧ entries.length < p.maxItems

/-- There is room behind the entries without the first `count`, and with fewer taken out there is
none. -/
structure Fewest (p : Partition) (run : Run) (length count : Nat) : Prop where
  le : count ≤ run.entries.length
  room : HasRoom p (run.entries.drop count) length
  none : ∀ fewer, fewer < count → ¬ HasRoom p (run.entries.drop fewer) length

/-! ## Linked runs -/

/-- Each entry follows the one before it. -/
def Linked (p : Partition) (run : Run) : Prop := run.entries.IsChain (Row.Follows p.areaLength)

variable {p : Partition} {run : Run}

instance (p : Partition) (run : Run) : Decidable (run.Linked p) :=
  inferInstanceAs (Decidable (List.IsChain _ _))

/-- Without the oldest entries the others still follow each other. -/
theorem Linked.drop (h : run.Linked p) (count : Nat) : (run.drop p count).Linked p :=
  List.IsChain.suffix h (List.drop_suffix count run.entries)

/-- The next entry of a run follows the newest one that is left when others have been taken out. -/
theorem Linked.push (h : run.Linked p) (count length : Nat) :
    ((run.drop p count).push (run.nextEntry p length)).Linked p := by
  refine List.IsChain.append (h.drop count) (.singleton _) fun newest hnewest next hnext => ?_
  obtain rfl : run.nextEntry p length = next := by simpa using hnext
  -- What is the last of those left is the last of all.
  have hlast : run.entries.getLast? = some newest := by
    rw [show (run.drop p count).entries = run.entries.drop count from rfl,
      List.getLast?_drop] at hnewest
    split at hnewest
    · cases hnewest
    · exact hnewest
  simp only [Row.Follows, nextEntry, nextId, nextStart, hlast, true_and]
  exact UInt32.toNat_ofNat_of_lt'
    (Nat.lt_trans (newest.stop_lt p.areaLength_pos) p.areaLength_lt)

/-- Ids go on from entry to entry. -/
theorem Linked.id_eq (h : run.Linked p) {oldest entry : Row} {count : Nat}
    (first : run.entries[0]? = some oldest) (hentry : run.entries[count]? = some entry) :
    entry.id = oldest.id + UInt32.ofNat count := by
  induction count generalizing entry with
  | zero =>
    rw [first] at hentry
    rw [Option.some.inj hentry]
    simp
  | succ count ih =>
    obtain ⟨hlt, rfl⟩ := List.getElem?_eq_some_iff.mp hentry
    have hfollows := List.isChain_iff_getElem.mp h count hlt
    rw [hfollows.1, ih (List.getElem?_eq_getElem (by omega)), UInt32.add_assoc]
    congr 1
    exact (UInt32.ofNat_add count 1).symm

/-- The payloads follow each other around the area. -/
theorem Linked.start_eq (h : run.Linked p) {oldest entry : Row} {count : Nat}
    (first : run.entries[0]? = some oldest) (hentry : run.entries[count]? = some entry)
    (hstart : oldest.start.toNat < p.areaLength) :
    entry.start.toNat = (oldest.start.toNat + bytesOf (run.entries.take count)) % p.areaLength := by
  induction count generalizing entry with
  | zero =>
    rw [first] at hentry
    rw [← Option.some.inj hentry, List.take_zero, bytesOf_nil, Nat.add_zero,
      Nat.mod_eq_of_lt hstart]
  | succ count ih =>
    obtain ⟨hlt, rfl⟩ := List.getElem?_eq_some_iff.mp hentry
    have hfollows := List.isChain_iff_getElem.mp h count hlt
    have hcount : count < run.entries.length := by omega
    rw [hfollows.2, Row.stop, ih (List.getElem?_eq_getElem hcount), Nat.mod_add_mod,
      List.take_succ_eq_append_getElem hcount, bytesOf_append, bytesOf_cons, bytesOf_nil,
      Nat.add_zero, Nat.add_assoc]

/-- No two payloads have a byte in common. -/
theorem Linked.pairwise_apart (h : run.Linked p) (bytes_le : bytesOf run.entries ≤ p.areaLength)
    (starts : ∀ entry ∈ run.entries, entry.start.toNat < p.areaLength) :
    run.entries.Pairwise fun older newer => ∀ address,
      ¬ (p.Covers older address ∧ p.Covers newer address) := by
  refine List.pairwise_iff_getElem.mpr fun i j hi hj hij => ?_
  rintro address ⟨⟨k, hk, rfl⟩, l, hl, hsame⟩
  have hpos : 0 < run.entries.length := by omega
  have hoffset {n : Nat} (hn : n < run.entries.length) :=
    h.start_eq (List.getElem?_eq_getElem hpos) (List.getElem?_eq_getElem hn)
      (starts _ (List.getElem_mem hpos))
  have hprefix {n : Nat} (hn : n < run.entries.length) :
      bytesOf (run.entries.take (n + 1)) =
        bytesOf (run.entries.take n) + run.entries[n].length.toNat := by
    rw [List.take_succ_eq_append_getElem hn, bytesOf_append, bytesOf_cons,
      bytesOf_nil, Nat.add_zero]
  -- Both bytes lie less than once around the area behind the start of the oldest payload.
  have hle (n : Nat) : bytesOf (run.entries.take n) ≤ bytesOf run.entries := by
    have hsplit := congrArg bytesOf (List.take_append_drop n run.entries)
    rw [bytesOf_append] at hsplit
    omega
  have hmono : bytesOf (run.entries.take (i + 1)) ≤ bytesOf (run.entries.take j) := by
    have hsplit := congrArg bytesOf (List.take_append_drop (i + 1) (run.entries.take j))
    rw [bytesOf_append, List.take_take, Nat.min_eq_left (by omega)] at hsplit
    omega
  have hi' := hprefix hi
  have hj' := hprefix hj
  have hle' := hle (j + 1)
  have hstart := starts _ (List.getElem_mem hpos)
  rw [hoffset hi, hoffset hj, Partition.cell_cell hstart (by omega),
    Partition.cell_cell hstart (by omega)] at hsame
  have hne := Partition.cell_inj (by omega) (by omega) hsame
  omega

end Run

namespace Partition

variable {p : Partition} {image : Bytes} {run : Run}

/-- The table says this. -/
structure Tabled (p : Partition) (image : Bytes) (run : Run) : Prop where
  row_lt : run.row < p.maxItems
  count_le : run.entries.length ≤ p.maxItems
  bytes_le : Run.bytesOf run.entries ≤ p.areaLength
  fits : ∀ entry ∈ run.entries, entry.Fits p.areaLength
  /-- A row that lies so many rows behind the oldest one holds what it should. -/
  rows : ∀ count, count < p.maxItems →
    p.rowAt image (p.rowBehind run.row count) = run.entries[count]?

/-! ## What follows for single rows -/

/-- What a row says depends on the bytes of the table only. -/
theorem rowAt_congr {image' : Bytes} {row : Nat} (hrow : row < p.maxItems)
    (same : ∀ i, p.table ≤ i → i < p.area → image'[i]? = image[i]?) :
    p.rowAt image' row = p.rowAt image row := by
  have hmem := rowAddress_mem hrow
  have htable := p.parts.2.2
  rw [rowAt, rowAt, rowCells, rowCells]
  congr 1
  exact Bytes.slice_congr fun i hi => same _ (by omega) (by omega)

/-- The run does not depend on anything but the table. -/
theorem Tabled.congr {image' : Bytes} (h : p.Tabled image run)
    (same : ∀ i, p.table ≤ i → i < p.area → image'[i]? = image[i]?) : p.Tabled image' run :=
  ⟨h.row_lt, h.count_le, h.bytes_le, h.fits, fun count hcount =>
    (rowAt_congr (p.rowBehind_lt _ _) same).trans (h.rows count hcount)⟩

/-- A partition that lies apart has the run that it had. -/
theorem Confined.tabled {q : Partition} {image' : Bytes} (h : p.Confined image image')
    (apart : p.stop ≤ q.base ∨ q.stop ≤ p.base) (holds : q.Tabled image run) :
    q.Tabled image' run := by
  have hparts := q.parts
  exact holds.congr fun i _ _ => h.outside i (by omega)

/-- Whatever is laid over the area, the run stays. -/
theorem Tabled.overlay_area (h : p.Tabled image run) {address : Nat} {bytes : Bytes}
    (lower : p.area ≤ address) (upper : address + bytes.length ≤ image.length) :
    p.Tabled (image.overlay address bytes) run :=
  h.congr fun i _ hi => by rw [Bytes.getElem?_overlay_eq upper, if_neg (by omega)]

/-- Where the table holds a run, every payload fits into the area. -/
theorem Tabled.not_misfit (h : p.Tabled image run) : ¬ p.Misfit image := by
  rintro ⟨row, entry, hrow, hentry, hfits⟩
  obtain ⟨count, hcount, rfl⟩ := exists_rowBehind h.row_lt hrow
  rw [h.rows count hcount] at hentry
  exact hfits (h.fits entry (List.mem_of_getElem? hentry))

/-- The bytes of a run are too few for a sum with the length of another to overflow. -/
theorem Tabled.bytes_lt (h : p.Tabled image run) :
    Run.bytesOf run.entries + 0x1_0000 < 0x1_0000_0000 := by
  have hbytes := Run.bytesOf_le run.entries
  have hcount := h.count_le
  have hrows := p.maxItems_lt
  omega

/-- Erasing the oldest row takes its entry out. -/
theorem Tabled.pop (h : p.Tabled image run) (fits : p.stop ≤ image.length)
    (some : run.entries ≠ []) :
    p.Tabled (image.overlay (p.rowAddress run.row) Row.erased) (run.pop p) := by
  obtain ⟨oldest, others, hentries⟩ := List.exists_cons_of_ne_nil some
  have hmem := rowAddress_mem h.row_lt
  have hparts := p.parts
  have herased : Row.erased.length = rowBytes := rfl
  have hcount := h.count_le
  have hbytes := h.bytes_le
  rw [hentries, List.length_cons] at hcount
  rw [hentries, Run.bytesOf_cons] at hbytes
  have hpop : run.pop p = ⟨p.nextRow run.row, others⟩ := by rw [Run.pop, hentries, List.tail_cons]
  rw [hpop]
  constructor
  case row_lt => exact p.nextRow_lt _
  case count_le =>
    show others.length ≤ _
    omega
  case bytes_le =>
    show Run.bytesOf others ≤ _
    omega
  case fits => exact fun entry hentry => h.fits entry (hentries ▸ List.mem_cons_of_mem _ hentry)
  case rows =>
    intro count hlt
    show p.rowAt _ (p.rowBehind (p.nextRow run.row) count) = others[count]?
    rw [rowBehind_nextRow]
    rcases Nat.lt_or_ge (count + 1) p.maxItems with hless | hlast
    · have hne : p.rowBehind run.row 0 ≠ p.rowBehind run.row (count + 1) :=
        rowBehind_ne h.row_lt p.maxItems_pos hless (by omega)
      rw [rowBehind_zero h.row_lt] at hne
      rw [rowAt_overlay (by omega) (by have := p.rowAddress_disjoint hne; omega),
        h.rows _ hless, hentries, List.getElem?_cons_succ]
    · -- Once around the table, it is the erased row again.
      have hself : p.rowBehind run.row (count + 1) = run.row := by
        have hrow := h.row_lt
        rw [rowBehind_eq hrow (by omega), if_neg (by omega)]
        omega
      rw [hself, rowAt_overlay_self herased (by omega), Row.decode_erased,
        List.getElem?_eq_none (by omega)]

/-- Writing the row behind the others puts its entry there. -/
theorem Tabled.push (h : p.Tabled image run) (fits : p.stop ≤ image.length) {entry : Row}
    (free : run.entries.length < p.maxItems) (hentry : entry.Fits p.areaLength)
    (room : Run.bytesOf run.entries + entry.length.toNat ≤ p.areaLength) :
    p.Tabled (image.overlay (p.rowAddress (run.freeRow p)) entry.encode) (run.push entry) := by
  rw [Run.freeRow]
  have hfree := p.rowBehind_lt run.row run.entries.length
  have hmem := rowAddress_mem hfree
  have hparts := p.parts
  have hbytes : entry.encode.length = rowBytes := entry.length_encode
  constructor
  case row_lt => exact h.row_lt
  case count_le =>
    show (run.entries ++ [entry]).length ≤ _
    rw [List.length_append, List.length_singleton]
    exact free
  case bytes_le => simpa [Run.push] using room
  case fits =>
    exact List.forall_mem_append.mpr ⟨h.fits, List.forall_mem_singleton.mpr hentry⟩
  case rows =>
    intro count hlt
    show p.rowAt _ (p.rowBehind run.row count) = (run.entries ++ [entry])[count]?
    by_cases hnew : count = run.entries.length
    · rw [hnew, rowAt_overlay_self hbytes (by omega), Row.decode_encode,
        List.getElem?_concat_length]
    · have hne := rowBehind_ne h.row_lt free hlt (Ne.symm hnew)
      rw [rowAt_overlay (by omega) (by have := p.rowAddress_disjoint hne; omega), h.rows count hlt]
      grind

/-! ## The run of a log -/

/-- What the table says of a log. -/
def runOf (p : Partition) (log : Log) : Run :=
  ⟨log.row, log.items.mapIdx fun count item =>
    entry (log.id + count) (p.startOf log count) item.length⟩

/-- The run of a log has an entry for each item, where it is. -/
theorem getElem?_entries_runOf (p : Partition) (log : Log) (count : Nat) :
    (p.runOf log).entries[count]? = p.entryAt log count := List.getElem?_mapIdx

/-- It has as many entries as there are items. -/
@[simp] theorem length_entries_runOf (p : Partition) (log : Log) :
    (p.runOf log).entries.length = log.items.length := List.length_mapIdx

/-- The entries tell the lengths of the items. -/
theorem Holds.bytesOf_runOf {log : Log} (h : p.Holds image log) :
    Run.bytesOf (p.runOf log).entries = log.size := by
  have hlengths : (p.runOf log).entries.map (·.length.toNat) = log.items.map List.length := by
    apply List.ext_getElem?
    intro count
    rw [List.getElem?_map, List.getElem?_map, getElem?_entries_runOf, entryAt]
    cases hitem : log.items[count]? with
    | none => rfl
    | some item => exact congrArg some (h.length_entry hitem _ _)
  rw [Run.bytesOf, hlengths, Log.size, List.length_flatten]

/-- The fill state of the log is that of its run. -/
theorem Holds.status_runOf {log : Log} (h : p.Holds image log) :
    (p.runOf log).status = log.status := by
  rw [Run.status, h.bytesOf_runOf, length_entries_runOf]
  rfl

/-- The entries of a log follow each other. -/
theorem Holds.linked {log : Log} (h : p.Holds image log) : (p.runOf log).Linked p := by
  refine List.isChain_iff_getElem.mpr fun count hlt => ?_
  rw [length_entries_runOf] at hlt
  have hentry {n : Nat} (hn : n < log.items.length) (hn' : n < (p.runOf log).entries.length) :
      (p.runOf log).entries[n] = entry (log.id + n) (p.startOf log n) log.items[n].length :=
    List.getElem_mapIdx
  have hitem := List.getElem?_eq_getElem (Nat.lt_of_succ_lt hlt)
  rw [hentry hlt, hentry (Nat.lt_of_succ_lt hlt), Row.Follows, Row.stop,
    start_entry (p.startOf_lt log _), start_entry (p.startOf_lt log _), h.length_entry hitem]
  exact ⟨UInt32.ofNat_add (log.id + count) 1, p.startOf_succ hitem⟩

/-- A table that has a log says its run. -/
theorem Holds.tabled {log : Log} (h : p.Holds image log) : p.Tabled image (p.runOf log) where
  row_lt := h.row_lt
  count_le := by
    rw [length_entries_runOf]
    exact h.count_le
  bytes_le := by
    rw [h.bytesOf_runOf]
    exact h.size_le
  fits entry hentry := by
    obtain ⟨count, hcount⟩ := List.getElem?_of_mem hentry
    rw [getElem?_entries_runOf] at hcount
    exact h.fits_entryAt hcount
  rows count hcount := by
    rw [getElem?_entries_runOf]
    exact h.rows count hcount

end Partition

end CircularLog
