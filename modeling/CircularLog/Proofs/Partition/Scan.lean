import Mathlib.Algebra.Order.BigOperators.Group.Finset
import Mathlib.Data.Nat.Count
import CircularLog.Proofs.Partition.Run

/-!
# The run that a table selects

Recovery goes by the ids that the table holds, whatever they are: the oldest item is in the first
row of those with the smallest id (`Oldest`), and the items are the longest run of consecutive ids
from there (`Longest`). The rows decide which run that is (`Selects.unique`), and to follow it is to
count its entries and their bytes (`followRun_runFrom`). What rows hold can be erased
(`eraseRows_clears`).
-/

namespace CircularLog

namespace Partition

variable {g : Geometry} {space : Space g} {p : Partition} {m : Media g}
  {sound : Bytes → Media g → Prop} {mishap : Space.Mishap g} {image : Bytes} {run : Run}

open Space (Halts)

/-! ## Following the ids -/

/-- The entries with consecutive ids from `id` on in the rows from `row` on, so many at most. -/
def runFrom (p : Partition) (image : Bytes) (row : Nat) (id : UInt32) : Nat → List Row
  | 0 => []
  | rows + 1 =>
    match p.rowAt image row with
    | some entry =>
      if entry.id = id then entry :: p.runFrom image (p.nextRow row) (id + 1) rows else []
    | none => []

/-- Somewhere in the table there is a run of ids whose payloads do not fit into the area. -/
def Overlong (p : Partition) (image : Bytes) : Prop :=
  ∃ row id, row < p.maxItems ∧ p.areaLength < Run.bytesOf (p.runFrom image row id p.maxItems)

/-- No more entries are found than there are rows to look at. -/
theorem length_runFrom_le (p : Partition) (image : Bytes) (row : Nat) (id : UInt32) (rows : Nat) :
    (p.runFrom image row id rows).length ≤ rows := by
  induction rows generalizing row id with
  | zero => exact Nat.le_refl 0
  | succ rows ih =>
    rw [runFrom]
    split
    · split
      · exact Nat.succ_le_succ (ih _ _)
      · exact Nat.zero_le _
    · exact Nat.zero_le _

/-- The rows of a run hold its entries. -/
theorem rowAt_of_runFrom {row rows count : Nat} {id : UInt32} {entry : Row}
    (hrow : row < p.maxItems) (h : (p.runFrom image row id rows)[count]? = some entry) :
    p.rowAt image (p.rowBehind row count) = some entry := by
  induction rows generalizing row id count with
  | zero => simp [runFrom] at h
  | succ rows ih =>
    rw [runFrom] at h
    cases hentry : p.rowAt image row with
    | none => simp [hentry] at h
    | some first =>
      simp only [hentry] at h
      split at h
      · cases count with
        | zero =>
          rw [List.getElem?_cons_zero] at h
          rw [rowBehind_zero hrow, hentry, h]
        | succ count =>
          rw [List.getElem?_cons_succ] at h
          rw [← rowBehind_nextRow]
          exact ih (p.nextRow_lt row) h
      · simp at h

/-- Following a run goes to the row behind it, and counts its entries and their bytes. -/
theorem followRun_runFrom (c : space.Legible p.table p.stop sound mishap) (hm : sound image m)
    (fits : ¬ p.Misfit image) {row rows stored filled : Nat} {id : UInt32} (hrow : row < p.maxItems)
    (counts : stored + rows < 0x1_0000) (small : filled + rows * 0x1_0000 ≤ 0x1_0000_0000) :
    (p.followRun space row id stored filled rows).Ends m
      (fun run m' => sound image m' ∧
        run = (p.rowBehind row (p.runFrom image row id rows).length,
          stored + (p.runFrom image row id rows).length,
          filled + Run.bytesOf (p.runFrom image row id rows)))
      (Halts mishap (· = image)) := by
  have hzero := rowBehind_zero hrow
  induction rows generalizing m row id stored filled with
  | zero => exact ⟨hm, by rw [runFrom, List.length_nil, hzero]; rfl⟩
  | succ rows ih =>
    rw [followRun_succ hrow (by omega), Action.ends_bind]
    refine (readRow_ends c hm hrow fun entry hentry => ?_).mono ?_ fun _ _ h => h
    · exact Decidable.byContradiction fun hmisfit => fits ⟨row, entry, hrow, hentry, hmisfit⟩
    rintro _ m₁ ⟨h₁, rfl⟩
    rw [runFrom]
    cases hentry : p.rowAt image row with
    | none => exact ⟨h₁, by rw [List.length_nil, hzero]; rfl⟩
    | some entry =>
      have hlength : entry.length.toNat < 0x1_0000 := entry.length.toNat_lt
      simp only [Action.ends_ite, Action.ends_bind, Action.ends_sum, Action.ends_pure]
      refine ⟨fun hid => ⟨by omega, ?_⟩, fun hid => ?_⟩
      · rw [if_pos hid, List.length_cons, Run.bytesOf_cons]
        have hnext := p.nextRow_lt row
        refine (ih h₁ hnext (by omega) (by omega) (rowBehind_zero hnext)).mono ?_ fun _ _ h => h
        rintro _ m₂ ⟨h₂, rfl⟩
        rw [rowBehind_nextRow, Nat.add_assoc, Nat.add_comm 1, Nat.add_assoc]
        exact ⟨h₂, rfl⟩
      · rw [if_neg hid, List.length_nil, hzero]
        exact ⟨h₁, rfl⟩

/-! ## Erasing rows -/

/-- Between two images, what so many rows from a row on held has been erased, and nothing else. -/
structure Cleared (p : Partition) (image : Bytes) (row rows : Nat) (image' : Bytes) : Prop where
  retabled : p.Retabled image image'
  erased : ∀ count, count < rows → (p.rowAt image (p.rowBehind row count)).isSome →
    p.rowCells image' (p.rowBehind row count) = Row.erased
  kept : ∀ other, other < p.maxItems →
    (∀ count, count < rows → other = p.rowBehind row count → p.rowAt image other = none) →
    p.rowCells image' other = p.rowCells image other
  /-- Where there is nothing to erase, nothing happens. -/
  same : (∀ count, count < rows → p.rowAt image (p.rowBehind row count) = none) → image' = image

/-- Erasing the other rows behind the first one, which holds nothing any more. -/
theorem Cleared.cons {row rows : Nat} {image₁ image' : Bytes} (hrow : row < p.maxItems)
    (retabled : p.Retabled image image₁)
    (erased : (p.rowAt image row).isSome → p.rowCells image₁ row = Row.erased)
    (kept : ∀ other, other < p.maxItems → (other = row → p.rowAt image other = none) →
      p.rowCells image₁ other = p.rowCells image other)
    (same : p.rowAt image row = none → image₁ = image)
    (h : p.Cleared image₁ (p.nextRow row) rows image') : p.Cleared image row (rows + 1) image' := by
  have herased := h.erased
  have hkept := h.kept
  have hsame := h.same
  simp only [rowBehind_nextRow] at herased hkept hsame
  have hzero := rowBehind_zero hrow
  -- What has been erased holds nothing, so it is not erased again.
  have first (hsome : (p.rowAt image row).isSome) : p.rowCells image' row = Row.erased := by
    have hnone : p.rowAt image₁ row = none := by rw [rowAt, erased hsome, Row.decode_erased]
    rw [hkept row hrow fun _ _ _ => hnone, erased hsome]
  constructor
  case retabled => exact retabled.trans h.retabled
  case erased =>
    intro count hcount hsome
    cases count with
    | zero =>
      rw [hzero] at hsome ⊢
      exact first hsome
    | succ count =>
      by_cases hself : p.rowBehind row (count + 1) = row
      · rw [hself] at hsome ⊢
        exact first hsome
      · have hcells := kept _ (p.rowBehind_lt row (count + 1)) fun h => absurd h hself
        exact herased count (by omega) (by rwa [rowAt, hcells])
  case kept =>
    intro other hother hnone
    have hcells := kept other hother fun hself => hnone 0 (by omega) (by rw [hzero, hself])
    rw [hkept other hother fun count hcount hself => ?_, hcells]
    rw [rowAt, hcells]
    exact hnone (count + 1) (by omega) hself
  case same =>
    intro hnone
    have hfirst := hnone 0 (Nat.succ_pos _)
    rw [hzero] at hfirst
    obtain rfl := same hfirst
    exact hsame fun count hlt => hnone (count + 1) (by omega)

/-- Where a row has been erased, the payloads of the others can still lie in the area. -/
theorem not_misfit_of_erased {image' : Bytes} {row : Nat} (fits : ¬ p.Misfit image)
    (erased : p.rowCells image' row = Row.erased)
    (kept : ∀ other, other < p.maxItems → other ≠ row →
      p.rowCells image' other = p.rowCells image other) : ¬ p.Misfit image' := by
  rintro ⟨other, entry, hother, hentry, hmisfit⟩
  by_cases hself : other = row
  · rw [hself, rowAt, erased, Row.decode_erased] at hentry
    cases hentry
  · rw [rowAt, kept other hother hself] at hentry
    exact fits ⟨other, entry, hother, hentry, hmisfit⟩

/-- Where no row holds an item there is nothing to erase. -/
theorem eraseRows_ends (c : space.Legible p.table p.stop sound mishap)
    (hm : sound image m) {row rows : Nat} (hrow : row < p.maxItems)
    (free : ∀ count, count < rows → p.rowAt image (p.rowBehind row count) = none) :
    (p.eraseRows space row rows).Ends m (fun _ => sound image) (Halts mishap (· = image)) := by
  have fits := c.inside
  induction rows generalizing m row with
  | zero => exact hm
  | succ rows ih =>
    have hfirst := free 0 (by omega)
    rw [rowBehind_zero hrow] at hfirst
    rw [eraseRows_succ hrow]
    simp only [Action.ends_bind, Action.ends_ite]
    refine (readRow_ends c hm hrow fun _ h => by rw [hfirst] at h; contradiction).mono ?_
      fun _ _ h => h
    rintro _ m₁ ⟨h₁, rfl⟩
    rw [hfirst]
    refine ⟨fun h => absurd h (by decide), fun _ => ih h₁ (p.nextRow_lt row) fun count hcount => ?_⟩
    rw [rowBehind_nextRow]
    exact free (count + 1) (by omega)

/-- Erasing rows leaves nothing in them, and the other rows as they are. -/
theorem eraseRows_clears (c : space.Conduct p.table p.stop sound mishap) (hm : sound image m)
    (fits : ¬ p.Misfit image) {row rows : Nat} (hrow : row < p.maxItems) :
    (p.eraseRows space row rows).Ends m
      (fun _ m' => ∃ image', sound image' m' ∧ p.Cleared image row rows image')
      (Halts mishap fun _ => True) := by
  have inside := c.inside
  induction rows generalizing m image row with
  | zero =>
    exact ⟨image, hm, .refl p image, fun _ h => absurd h (Nat.not_lt_zero _), fun _ _ _ => rfl,
      fun _ => rfl⟩
  | succ rows ih =>
    have hlen := c.length hm
    have hmem := rowAddress_mem hrow
    have hparts := p.parts
    -- Once the first row holds nothing, the others follow.
    have rest {m₁ : Media g} {image₁ : Bytes} (h₁ : sound image₁ m₁) (fits₁ : ¬ p.Misfit image₁)
        (retabled : p.Retabled image image₁)
        (erased : (p.rowAt image row).isSome → p.rowCells image₁ row = Row.erased)
        (kept : ∀ other, other < p.maxItems → (other = row → p.rowAt image other = none) →
          p.rowCells image₁ other = p.rowCells image other)
        (same : p.rowAt image row = none → image₁ = image) :
        (p.eraseRows space (p.nextRow row) rows).Ends m₁
          (fun _ m' => ∃ image', sound image' m' ∧ p.Cleared image row (rows + 1) image')
          (Halts mishap fun _ => True) := by
      apply (ih h₁ fits₁ (p.nextRow_lt row)).mono
      · rintro _ m' ⟨image', h', hcleared⟩
        exact ⟨image', h', hcleared.cons hrow retabled erased kept same⟩
      · exact fun _ _ h => h
    rw [eraseRows_succ hrow]
    simp only [Action.ends_bind, Action.ends_ite]
    refine (readRow_ends c.toLegible hm hrow fun entry hentry => ?_).mono ?_
      fun _ _ h => h.mono fun _ _ _ => trivial
    · exact Decidable.byContradiction fun hmisfit => fits ⟨row, entry, hrow, hentry, hmisfit⟩
    rintro _ m₁ ⟨h₁, rfl⟩
    refine ⟨fun hsome => ?_, fun hnone =>
      rest h₁ fits (.refl p image) (fun hsome => absurd hsome hnone) (fun _ _ _ => rfl)
        fun _ => rfl⟩
    refine (eraseRow_ends c h₁ hrow).mono ?_ fun _ _ h => h.mono fun _ _ _ => trivial
    intro _ m₂ h₂
    have herased : Row.erased.length = rowBytes := rfl
    have erased : p.rowCells (image.overlay (p.rowAddress row) Row.erased) row = Row.erased := by
      have hslice := Bytes.slice_overlay
        (by omega : p.rowAddress row + Row.erased.length ≤ image.length)
      rwa [herased] at hslice
    have kept (other : Nat) (_ : other < p.maxItems) (hne : other ≠ row) :
        p.rowCells (image.overlay (p.rowAddress row) Row.erased) other =
          p.rowCells image other := by
      have hdisjoint := p.rowAddress_disjoint hne.symm
      exact Bytes.slice_overlay_of_disjoint (by omega) (by omega)
    refine rest h₂ (not_misfit_of_erased fits erased kept) (retabled_row (by omega) herased hrow)
      (fun _ => erased) (fun other hother hnone => kept other hother fun heq => ?_) fun hnone => ?_
    · rw [← heq, hnone heq] at hsome
      cases hsome
    · rw [hnone] at hsome
      cases hsome

/-! ## Counting around the table -/

/-- So many rows behind a row, and all of them, are different rows. -/
theorem image_rowBehind_subset (p : Partition) {row rows : Nat} :
    (Finset.range rows).image (p.rowBehind row) ⊆ Finset.range p.maxItems := by
  intro other hother
  obtain ⟨count, -, rfl⟩ := Finset.mem_image.mp hother
  exact Finset.mem_range.mpr (p.rowBehind_lt row count)

/-- Rows behind one another are not the same before the table has been gone around. -/
theorem injOn_rowBehind {row rows : Nat} (hrow : row < p.maxItems) (hrows : rows ≤ p.maxItems) :
    Set.InjOn (p.rowBehind row) (Finset.range rows) := by
  intro i hi j hj hsame
  have hi := Finset.mem_range.mp hi
  have hj := Finset.mem_range.mp hj
  exact Decidable.byContradiction fun hne => rowBehind_ne hrow (by omega) (by omega) hne hsame

/-- If no more rows hold something than the run has entries, the run has all of them. -/
theorem rowAt_of_count_le {row rows : Nat} (hrow : row < p.maxItems) (hrows : rows ≤ p.maxItems)
    (some : ∀ count, count < rows → (p.rowAt image (p.rowBehind row count)).isSome)
    (few : Nat.count (fun row => (p.rowAt image row).isSome) p.maxItems ≤ rows) {count : Nat}
    (behind : rows ≤ count) (hcount : count < p.maxItems) :
    p.rowAt image (p.rowBehind row count) = none := by
  -- The rows of the run are among those that hold something, and as many as these.
  have hsub : (Finset.range rows).image (p.rowBehind row) ⊆
      (Finset.range p.maxItems).filter fun row => (p.rowAt image row).isSome := by
    intro other hother
    refine Finset.mem_filter.mpr ⟨p.image_rowBehind_subset hother, ?_⟩
    obtain ⟨count, hcount, rfl⟩ := Finset.mem_image.mp hother
    exact some count (Finset.mem_range.mp hcount)
  have hall := Finset.eq_of_subset_of_card_le hsub (by
    rw [Finset.card_image_of_injOn (injOn_rowBehind hrow hrows), Finset.card_range,
      ← Nat.count_eq_card_filter_range]
    exact few)
  refine Option.not_isSome_iff_eq_none.mp fun hsome => ?_
  have hmem : p.rowBehind row count ∈ (Finset.range rows).image (p.rowBehind row) := by
    rw [hall]
    exact Finset.mem_filter.mpr ⟨Finset.mem_range.mpr (p.rowBehind_lt row count), hsome⟩
  obtain ⟨other, hother, hsame⟩ := Finset.mem_image.mp hmem
  have hother := Finset.mem_range.mp hother
  exact rowBehind_ne hrow (by omega) hcount (by omega : other ≠ count) hsame

/-- A sum over some rows is at most the sum over all. -/
theorem sum_rowBehind_le (f : Nat → Nat) {row rows : Nat} (hrow : row < p.maxItems)
    (hrows : rows ≤ p.maxItems) :
    ∑ count ∈ Finset.range rows, f (p.rowBehind row count) ≤
      ∑ other ∈ Finset.range p.maxItems, f other :=
  calc ∑ count ∈ Finset.range rows, f (p.rowBehind row count)
    _ = ∑ other ∈ (Finset.range rows).image (p.rowBehind row), f other :=
      (Finset.sum_image (injOn_rowBehind hrow hrows)).symm
    _ ≤ ∑ other ∈ Finset.range p.maxItems, f other :=
      Finset.sum_le_sum_of_subset p.image_rowBehind_subset

/-- A sum over all rows is the same from wherever it starts. -/
theorem sum_rowBehind (f : Nat → Nat) {row : Nat} (hrow : row < p.maxItems) :
    ∑ count ∈ Finset.range p.maxItems, f (p.rowBehind row count) =
      ∑ other ∈ Finset.range p.maxItems, f other := by
  have hall : Finset.range p.maxItems ⊆ (Finset.range p.maxItems).image (p.rowBehind row) := by
    intro other hother
    obtain ⟨count, hcount, rfl⟩ := exists_rowBehind hrow (Finset.mem_range.mp hother)
    exact Finset.mem_image_of_mem _ (Finset.mem_range.mpr hcount)
  calc ∑ count ∈ Finset.range p.maxItems, f (p.rowBehind row count)
    _ = ∑ other ∈ (Finset.range p.maxItems).image (p.rowBehind row), f other :=
      (Finset.sum_image (injOn_rowBehind hrow (Nat.le_refl _))).symm
    _ = ∑ other ∈ Finset.range p.maxItems, f other := by
      rw [Finset.Subset.antisymm p.image_rowBehind_subset hall]

/-- The bytes of some entries are a sum over their rows. -/
theorem bytesOf_eq_sum {f : Nat → Nat} {entries : List Row}
    (rows : ∀ count entry, entries[count]? = some entry → f count = entry.length.toNat) :
    Run.bytesOf entries = ∑ count ∈ Finset.range entries.length, f count := by
  induction entries generalizing f with
  | nil => rfl
  | cons entry entries ih =>
    have hrest := ih fun count other hother => rows (count + 1) other hother
    rw [List.length_cons, Finset.sum_range_succ', ← hrest, rows 0 entry rfl, Run.bytesOf_cons,
      Nat.add_comm]

/-- How many bytes the payload takes that the row describes. -/
def bytesAt (p : Partition) (image : Bytes) (row : Nat) : Nat :=
  match p.rowAt image row with
  | some entry => entry.length.toNat
  | none => 0

/-- A row with an entry takes what the entry says. -/
theorem bytesAt_of_some {row : Nat} {entry : Row} (h : p.rowAt image row = some entry) :
    p.bytesAt image row = entry.length.toNat := by
  rw [bytesAt, h]

/-- A row without one takes nothing. -/
theorem bytesAt_of_none {row : Nat} (h : p.rowAt image row = none) : p.bytesAt image row = 0 := by
  rw [bytesAt, h]

/-- The bytes of a run are those of all rows together. -/
theorem Tabled.bytesOf_eq (h : p.Tabled image run) :
    Run.bytesOf run.entries = ∑ row ∈ Finset.range p.maxItems, p.bytesAt image row := by
  have hcount := h.count_le
  have hown (count : Nat) (entry : Row) (hentry : run.entries[count]? = some entry) :
      p.bytesAt image (p.rowBehind run.row count) = entry.length.toNat := by
    have hlt := (List.getElem?_eq_some_iff.mp hentry).1
    exact bytesAt_of_some ((h.rows count (by omega)).trans hentry)
  -- The rows behind the entries hold nothing, so they add nothing.
  have hrest (count : Nat) (hmem : count ∈ Finset.range p.maxItems)
      (hout : count ∉ Finset.range run.entries.length) :
      p.bytesAt image (p.rowBehind run.row count) = 0 := by
    have hge : run.entries.length ≤ count := by simpa using hout
    have hnone := h.rows count (Finset.mem_range.mp hmem)
    rw [List.getElem?_eq_none hge] at hnone
    exact bytesAt_of_none hnone
  calc Run.bytesOf run.entries
    _ = ∑ count ∈ Finset.range run.entries.length, p.bytesAt image (p.rowBehind run.row count) :=
      bytesOf_eq_sum hown
    _ = ∑ count ∈ Finset.range p.maxItems, p.bytesAt image (p.rowBehind run.row count) :=
      Finset.sum_subset (Finset.range_subset_range.mpr hcount) hrest
    _ = ∑ row ∈ Finset.range p.maxItems, p.bytesAt image row := sum_rowBehind _ h.row_lt

/-- No run of ids is too long in a table that has a run. -/
theorem Tabled.not_overlong (h : p.Tabled image run) : ¬ p.Overlong image := by
  rintro ⟨row, id, hrow, hlong⟩
  have hlength := p.length_runFrom_le image row id p.maxItems
  have hsome : Run.bytesOf (p.runFrom image row id p.maxItems) =
      ∑ count ∈ Finset.range (p.runFrom image row id p.maxItems).length,
        p.bytesAt image (p.rowBehind row count) :=
    bytesOf_eq_sum fun count entry hentry => bytesAt_of_some (rowAt_of_runFrom hrow hentry)
  have hle := sum_rowBehind_le (p.bytesAt image) hrow hlength
  have hbytes := h.bytes_le
  rw [← hsome, ← h.bytesOf_eq] at hle
  omega

/-! ## The items -/

/-- The row of the oldest item: the first one of those with the smallest id. -/
structure Oldest (p : Partition) (image : Bytes) (row : Nat) (oldest : Row) : Prop where
  lt : row < p.maxItems
  holds : p.rowAt image row = some oldest
  least : ∀ other entry, other < p.maxItems → p.rowAt image other = some entry →
    oldest.id ≤ entry.id
  first : ∀ other entry, other < row → p.rowAt image other = some entry → oldest.id < entry.id

/-- There is only one such row. -/
theorem Oldest.unique {row row' : Nat} {oldest oldest' : Row} (h : p.Oldest image row oldest)
    (h' : p.Oldest image row' oldest') : row' = row ∧ oldest' = oldest := by
  have hrow : row' = row := by
    rcases Nat.lt_trichotomy row' row with hless | heq | hmore
    · have hlt := h.first row' oldest' hless h'.holds
      exact absurd (h'.least row oldest h.lt h.holds) (UInt32.not_le.mpr hlt)
    · exact heq
    · have hlt := h'.first row oldest hmore h.holds
      exact absurd (h.least row' oldest' h'.lt h'.holds) (UInt32.not_le.mpr hlt)
  subst hrow
  have hsame : some oldest' = some oldest := h'.holds.symm.trans h.holds
  exact ⟨rfl, Option.some.inj hsame⟩

/-- The longest run of consecutive ids from `id` on, in the rows around the table from `row` on, so
many at most. -/
structure Longest (p : Partition) (image : Bytes) (row : Nat) (id : UInt32) (limit : Nat)
    (entries : List Row) : Prop where
  length_le : entries.length ≤ limit
  rows : ∀ count entry, entries[count]? = some entry →
    p.rowAt image (p.rowBehind row count) = some entry
  ids : ∀ count entry, entries[count]? = some entry → entry.id = id + UInt32.ofNat count
  stops : entries.length < limit → ∀ entry,
    p.rowAt image (p.rowBehind row entries.length) = some entry →
      entry.id ≠ id + UInt32.ofNat entries.length

/-- Counting from the next id on is counting one more, also where the ids wrap. -/
theorem id_behind (id : UInt32) (count : Nat) :
    id + 1 + UInt32.ofNat count = id + UInt32.ofNat (count + 1) := by
  rw [UInt32.add_assoc, UInt32.add_comm 1]
  congr 1
  exact (UInt32.ofNat_add count 1).symm

/-- Following the ids finds the longest run. -/
theorem longest_runFrom (p : Partition) (image : Bytes) {row : Nat} (hrow : row < p.maxItems)
    (id : UInt32) (limit : Nat) : p.Longest image row id limit (p.runFrom image row id limit) := by
  induction limit generalizing row id with
  | zero => exact ⟨Nat.le_refl 0, nofun, nofun, fun h => absurd h (Nat.lt_irrefl 0)⟩
  | succ limit ih =>
    -- Where the run does not go on with this row, it is empty.
    have ends (hne : ∀ entry, p.rowAt image row = some entry → entry.id ≠ id) :
        p.Longest image row id (limit + 1) [] := by
      refine ⟨Nat.zero_le _, nofun, nofun, fun _ entry hentry => ?_⟩
      rw [List.length_nil, rowBehind_zero hrow] at hentry
      simpa using hne entry hentry
    rw [runFrom]
    cases hentry : p.rowAt image row with
    | none =>
      apply ends
      rw [hentry]
      exact nofun
    | some entry =>
      dsimp only
      by_cases hid : entry.id = id
      · rw [if_pos hid]
        have rest := ih (p.nextRow_lt row) (id + 1)
        constructor
        case length_le => exact Nat.succ_le_succ rest.length_le
        case rows =>
          intro count other hother
          cases count with
          | zero => rw [rowBehind_zero hrow, hentry, ← hother, List.getElem?_cons_zero]
          | succ count => rw [← rowBehind_nextRow, rest.rows count other hother]
        case ids =>
          intro count other hother
          cases count with
          | zero =>
            obtain rfl : entry = other := Option.some.inj hother
            simpa using hid
          | succ count => rw [rest.ids count other hother, id_behind]
        case stops =>
          intro hlt other hother
          rw [List.length_cons] at hlt hother ⊢
          rw [← rowBehind_nextRow] at hother
          rw [← id_behind]
          exact rest.stops (by omega) other hother
      · rw [if_neg hid]
        apply ends
        intro other hother
        rw [hentry] at hother
        exact Option.some.inj hother ▸ hid

/-- There is no other longest run. -/
theorem Longest.eq_runFrom {row limit : Nat} {id : UInt32} {entries : List Row}
    (h : p.Longest image row id limit entries) (hrow : row < p.maxItems) :
    entries = p.runFrom image row id limit := by
  induction limit generalizing row id entries with
  | zero => exact List.eq_nil_of_length_eq_zero (Nat.le_zero.mp h.length_le)
  | succ limit ih =>
    have hzero := rowBehind_zero hrow
    rw [runFrom]
    -- The first row decides whether there is an entry; behind it the run goes on with the next id.
    cases entries with
    | nil =>
      have hstops := h.stops (Nat.succ_pos limit)
      rw [List.length_nil, hzero] at hstops
      cases hentry : p.rowAt image row with
      | none => rfl
      | some entry =>
        have hid : entry.id ≠ id := by simpa using hstops entry hentry
        dsimp only
        rw [if_neg hid]
    | cons entry entries =>
      have hentry := h.rows 0 entry rfl
      have hid : entry.id = id := by simpa using h.ids 0 entry rfl
      rw [hzero] at hentry
      rw [hentry]
      dsimp only
      rw [if_pos hid]
      congr 1
      refine ih ⟨?_, fun count other hother => ?_, fun count other hother => ?_,
        fun hlt other hother => ?_⟩ (p.nextRow_lt row)
      · exact Nat.le_of_succ_le_succ h.length_le
      · rw [rowBehind_nextRow]
        exact h.rows (count + 1) other hother
      · rw [id_behind]
        exact h.ids (count + 1) other hother
      · rw [rowBehind_nextRow] at hother
        rw [id_behind]
        exact h.stops (Nat.succ_lt_succ hlt) other hother

/-- The items are the longest run of consecutive ids from the row of the oldest one on. Where no row
holds anything, there is none. -/
def Selects (p : Partition) (image : Bytes) (run : Run) : Prop :=
  (∀ row, row < p.maxItems → p.rowAt image row = none) ∧ run = ⟨0, []⟩ ∨
  ∃ oldest, p.Oldest image run.row oldest ∧
    p.Longest image run.row oldest.id p.maxItems run.entries

/-- What is selected starts in a row of the table. -/
theorem Selects.row_lt (h : p.Selects image run) : run.row < p.maxItems := by
  rcases h with ⟨-, rfl⟩ | ⟨oldest, hold, -⟩
  · exact p.maxItems_pos
  · exact hold.lt

/-- No more is selected than there are rows. -/
theorem Selects.count_le (h : p.Selects image run) : run.entries.length ≤ p.maxItems := by
  rcases h with ⟨-, rfl⟩ | ⟨oldest, -, hlong⟩
  · exact Nat.zero_le _
  · exact hlong.length_le

/-- What is selected is what the rows say. -/
theorem Selects.rows (h : p.Selects image run) {count : Nat} {entry : Row}
    (hentry : run.entries[count]? = some entry) :
    p.rowAt image (p.rowBehind run.row count) = some entry := by
  rcases h with ⟨-, rfl⟩ | ⟨oldest, -, hlong⟩
  · cases hentry
  · exact hlong.rows count entry hentry

/-- The items are found in one way only. -/
theorem Selects.unique {run' : Run} (h : p.Selects image run) (h' : p.Selects image run') :
    run' = run := by
  rcases h with ⟨hnone, rfl⟩ | ⟨oldest, hold, hlong⟩
  · rcases h' with ⟨-, rfl⟩ | ⟨oldest', hold', -⟩
    · rfl
    · have hholds := hold'.holds
      rw [hnone _ hold'.lt] at hholds
      cases hholds
  · rcases h' with ⟨hnone, -⟩ | ⟨oldest', hold', hlong'⟩
    · have hholds := hold.holds
      rw [hnone _ hold.lt] at hholds
      cases hholds
    · obtain ⟨hrow, rfl⟩ := hold.unique hold'
      obtain ⟨row, entries⟩ := run
      obtain ⟨row', entries'⟩ := run'
      obtain rfl : row' = row := hrow
      congr 1
      exact (hlong'.eq_runFrom hold.lt).trans (hlong.eq_runFrom hold.lt).symm

end Partition

end CircularLog
