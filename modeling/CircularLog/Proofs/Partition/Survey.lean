import Mathlib.Data.Nat.Count
import CircularLog.Proofs.Partition.Rows

/-!
# The survey of a table

The survey goes over the rows in the order of the table, not of the items. What it knows after some
rows is `Surveyed`: how many of them hold something, and which is the first of those with the
smallest id. It goes over all of them, unless one describes a payload that cannot lie in the area
(`survey_ends`).
-/

namespace CircularLog

namespace Partition

variable {g : Geometry} {space : Space g} {p : Partition} {m : Media g}
  {sound : Bytes → Media g → Prop} {mishap : Space.Mishap g} {image : Bytes}

open Space (Halts)

/-- Some row describes a payload that cannot lie in the area. -/
def Misfit (p : Partition) (image : Bytes) : Prop :=
  ∃ row entry, row < p.maxItems ∧ p.rowAt image row = some entry ∧ ¬ entry.Fits p.areaLength

/-- What a survey says that has gone over the first `rows` rows. -/
structure Surveyed (p : Partition) (image : Bytes) (rows : Nat) (survey : Survey) : Prop where
  /-- So many of the rows hold something. -/
  present : survey.present = Nat.count (fun row => (p.rowAt image row).isSome) rows
  /-- What they hold describes payloads that can lie in the area. -/
  fits : ∀ row entry, row < rows → p.rowAt image row = some entry → entry.Fits p.areaLength
  /-- Without an oldest item there is no item. -/
  none : survey.oldest = none → ∀ row, row < rows → p.rowAt image row = none
  /-- The oldest item has its row, and no other has a smaller id. -/
  some : ∀ row id, survey.oldest = some (row, id) →
    ∃ entry, row < rows ∧ p.rowAt image row = some entry ∧ entry.id = id ∧
      ∀ other entry', other < rows → p.rowAt image other = some entry' → id ≤ entry'.id
  /-- Of the rows with the smallest id, it has the first one. -/
  first : ∀ row id, survey.oldest = Option.some (row, id) →
    ∀ other entry', other < row → p.rowAt image other = Option.some entry' → id < entry'.id

/-- Of no rows at all there is nothing to say. -/
theorem surveyed_zero (p : Partition) (image : Bytes) : p.Surveyed image 0 ⟨0, none⟩ :=
  ⟨rfl, fun _ _ h => absurd h (Nat.not_lt_zero _), fun _ _ h => absurd h (Nat.not_lt_zero _), nofun,
    nofun⟩

/-- A row without an item changes nothing about a survey. -/
theorem Surveyed.skip {rows : Nat} {survey : Survey} (h : p.Surveyed image rows survey)
    (hrow : p.rowAt image rows = Option.none) : p.Surveyed image (rows + 1) survey where
  present := by simp [h.present, Nat.count_succ, hrow]
  fits row entry hlt hentry := by
    rcases Nat.lt_succ_iff_lt_or_eq.mp hlt with hlt | rfl
    · exact h.fits row entry hlt hentry
    · rw [hrow] at hentry
      contradiction
  none hnone row hlt := by
    rcases Nat.lt_succ_iff_lt_or_eq.mp hlt with hlt | rfl
    · exact h.none hnone row hlt
    · exact hrow
  some row id hsome := by
    obtain ⟨entry, hlt, hentry, hid, hmin⟩ := h.some row id hsome
    refine ⟨entry, by omega, hentry, hid, fun other entry' hother hentry' => ?_⟩
    rcases Nat.lt_succ_iff_lt_or_eq.mp hother with hother | rfl
    · exact hmin other entry' hother hentry'
    · rw [hrow] at hentry'
      contradiction
  first := h.first

/-- A row with an item is taken into a survey. -/
theorem Surveyed.add {rows : Nat} {survey : Survey} (h : p.Surveyed image rows survey) {entry : Row}
    (hrow : p.rowAt image rows = Option.some entry) (hfits : entry.Fits p.areaLength) :
    p.Surveyed image (rows + 1) (survey.add rows entry) := by
  -- The smallest id so far stays the smallest, or the new one takes its place.
  have keep {id : UInt32} (hle : id ≤ entry.id)
      (hmin : ∀ other entry', other < rows → p.rowAt image other = Option.some entry' →
        id ≤ entry'.id) (other : Nat) (entry' : Row) (hother : other < rows + 1)
      (hentry' : p.rowAt image other = Option.some entry') : id ≤ entry'.id := by
    rcases Nat.lt_succ_iff_lt_or_eq.mp hother with hother | rfl
    · exact hmin other entry' hother hentry'
    · rw [hrow] at hentry'
      exact Option.some.inj hentry' ▸ hle
  have of_some {row : Nat} {oldest : Row}
      (hsome : (survey.add rows entry).oldest = Option.some (row, oldest.id)) (hlt : row < rows + 1)
      (hentry : p.rowAt image row = Option.some oldest)
      (hmin : ∀ other entry', other < rows + 1 → p.rowAt image other = Option.some entry' →
        oldest.id ≤ entry'.id)
      (hfirst : ∀ other entry', other < row → p.rowAt image other = Option.some entry' →
        oldest.id < entry'.id) : p.Surveyed image (rows + 1) (survey.add rows entry) := by
    constructor
    case present => simp [Survey.add, h.present, Nat.count_succ, hrow]
    case fits =>
      intro row entry' hlt hentry'
      rcases Nat.lt_succ_iff_lt_or_eq.mp hlt with hlt | rfl
      · exact h.fits row entry' hlt hentry'
      · rw [hrow] at hentry'
        exact Option.some.inj hentry' ▸ hfits
    case none =>
      intro hnone
      rw [hsome] at hnone
      contradiction
    case some =>
      intro row' id hsome'
      rw [hsome] at hsome'
      obtain ⟨rfl, rfl⟩ := Prod.mk.inj (Option.some.inj hsome')
      exact ⟨oldest, hlt, hentry, rfl, hmin⟩
    case first =>
      intro row' id hsome'
      rw [hsome] at hsome'
      obtain ⟨rfl, rfl⟩ := Prod.mk.inj (Option.some.inj hsome')
      exact hfirst
  cases hold : survey.oldest with
  | none =>
    have hfree (other : Nat) (entry' : Row) (hother : other < rows)
        (hentry' : p.rowAt image other = Option.some entry') : False := by
      rw [h.none hold other hother] at hentry'
      contradiction
    exact of_some (by simp [Survey.add, hold]) (by omega) hrow
      (keep (UInt32.le_refl _) fun other entry' hother hentry' =>
        (hfree other entry' hother hentry').elim)
      fun other entry' hother hentry' => (hfree other entry' hother hentry').elim
  | some oldest =>
    obtain ⟨oldEntry, hlt, hentry, hid, hmin⟩ := h.some oldest.1 oldest.2 hold
    have hfirst := h.first oldest.1 oldest.2 hold
    by_cases hless : entry.id < oldest.2
    · have hsmaller (other : Nat) (entry' : Row) (hother : other < rows)
          (hentry' : p.rowAt image other = Option.some entry') : entry.id < entry'.id :=
        UInt32.lt_of_lt_of_le hless (hmin other entry' hother hentry')
      exact of_some (by simp [Survey.add, hold, hless]) (by omega) hrow
        (keep (UInt32.le_refl _) fun other entry' hother hentry' =>
          UInt32.le_of_lt (hsmaller other entry' hother hentry')) hsmaller
    · rw [← hid] at hmin hless hfirst
      exact of_some (by simp [Survey.add, hold, ← hid, hless]) (by omega) hentry
        (keep (UInt32.not_lt.mp hless) hmin) hfirst

/-- The bytes of whole rows, cut into chunks. -/
theorem chunks_rows (image : Bytes) (address count : Nat)
    (fits : address + count * rowBytes ≤ image.length) :
    (image.slice address (count * rowBytes)).chunks rowBytes =
      Bytes.cut (List.replicate count rowBytes) (image.slice address (count * rowBytes)) := by
  rw [Bytes.chunks, Bytes.length_slice fits, Bytes.pieces, Nat.mul_mod_left,
    Nat.mul_div_cancel count (by decide), if_pos rfl, List.append_nil]

/-- Going over the bytes of some rows takes these rows into the survey, unless one does not fit. -/
theorem surveyRows_cases {count row : Nat} {survey : Survey} (hrow : row + count ≤ p.maxItems)
    (h : p.Surveyed image row survey) :
    (∃ survey', p.surveyRows row survey (Bytes.cut (List.replicate count rowBytes)
        (image.slice (p.rowAddress row) (count * rowBytes))) = .ok survey' ∧
      p.Surveyed image (row + count) survey') ∨
    p.surveyRows row survey (Bytes.cut (List.replicate count rowBytes)
        (image.slice (p.rowAddress row) (count * rowBytes))) = .error .inconsistent ∧
      p.Misfit image := by
  induction count generalizing row survey with
  | zero => exact .inl ⟨survey, rfl, h⟩
  | succ count ih =>
    have hnext : p.rowAddress row + rowBytes = p.rowAddress (row + 1) := by
      simp only [rowAddress, rowBytes]
      omega
    -- The bytes of the rows are the first row and, behind it, the others.
    have hfirst : (image.slice (p.rowAddress row) ((count + 1) * rowBytes)).take rowBytes =
        image.slice (p.rowAddress row) rowBytes := by
      rw [Bytes.slice, List.take_take, Nat.min_eq_left (by simp only [rowBytes]; omega),
        Bytes.slice]
    have hrest : (image.slice (p.rowAddress row) ((count + 1) * rowBytes)).drop rowBytes =
        image.slice (p.rowAddress (row + 1)) (count * rowBytes) := by
      rw [Bytes.slice, List.drop_take, List.drop_drop, hnext, Nat.succ_mul, Nat.add_sub_cancel,
        Bytes.slice]
    have hdecode : Row.decode (image.slice (p.rowAddress row) rowBytes) = p.rowAt image row := rfl
    rw [List.replicate_succ, Bytes.cut, hfirst, hrest, surveyRows, hdecode,
      show row + (count + 1) = row + 1 + count by omega]
    cases hentry : p.rowAt image row with
    | none => exact ih (by omega) (h.skip hentry)
    | some entry =>
      by_cases hfits : entry.Fits p.areaLength
      · simp only [if_pos hfits]
        exact ih (by omega) (h.add hentry hfits)
      · simp only [if_neg hfits]
        exact .inr ⟨trivial, row, entry, by omega, hentry, hfits⟩

/-- Going over batches of rows takes them into the survey, unless one does not fit. -/
theorem surveyBatches_ends (c : space.Legible p.table p.stop sound mishap)
    (hm : sound image m) {batches : List Nat} {row : Nat} {survey : Survey}
    (hrow : row + Bytes.total batches ≤ p.maxItems) (h : p.Surveyed image row survey) :
    (p.surveyBatches space row survey batches).Ends m
      (fun survey' m' => sound image m' ∧ p.Surveyed image (row + Bytes.total batches) survey')
      (fun e m' => Halts mishap (· = image) e m' ∨
        e = .inconsistent ∧ sound image m' ∧ p.Misfit image) := by
  have fits := c.inside
  have hparts := p.parts
  have hlen := c.length hm
  induction batches generalizing m row survey with
  | nil => exact ⟨hm, h⟩
  | cons count batches ih =>
    rw [Bytes.total_cons] at hrow ⊢
    have hrange : p.rowAddress row + count * rowBytes ≤ p.area := by
      simp only [rowAddress, area, tableLength, rowBytes]
      omega
    have hlower : p.table ≤ p.rowAddress row := by
      simp only [rowAddress, table]
      omega
    simp only [surveyBatches, Action.ends_bind]
    refine (c.read hm (by omega) (by omega)).mono ?_ fun _ _ h => .inl h
    rintro _ m₁ ⟨h₁, rfl⟩
    rw [chunks_rows image _ _ (by omega), ← Nat.add_assoc]
    rcases surveyRows_cases (by omega : row + count ≤ p.maxItems) h with
      ⟨survey', hsurvey', h'⟩ | ⟨herror, hmisfit⟩
    · rw [hsurvey']
      exact ih h₁ (by omega) h'
    · rw [herror]
      exact .inr ⟨rfl, h₁, hmisfit⟩

/-- The survey goes over all rows, unless one does not fit. -/
theorem survey_ends (c : space.Legible p.table p.stop sound mishap) (hm : sound image m) :
    (p.survey space).Ends m
      (fun survey m' => sound image m' ∧ p.Surveyed image p.maxItems survey)
      (fun e m' => Halts mishap (· = image) e m' ∨
        e = .inconsistent ∧ sound image m' ∧ p.Misfit image) := by
  have fits := c.inside
  have hsum := Bytes.total_pieces batchRows p.maxItems
  have h : (p.surveyBatches space 0 ⟨0, none⟩ (Bytes.pieces batchRows p.maxItems)).Ends m _ _ :=
    surveyBatches_ends c hm (by omega) (surveyed_zero p image)
  rw [survey_eq]
  rwa [hsum, Nat.zero_add] at h

end Partition

end CircularLog
