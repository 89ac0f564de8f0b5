import CircularLog.Geometry
import CircularLog.Proofs.Bytes

/-!
# Words and pages

How requests lie in the words and in the pages of the flash. A request inside a page, widened to
whole words, is still inside that page (`pageFloor_le_wordFloor`, `wordCeil_le_page`), and the ends
of the pages cut any request into parts that lie inside a page each (`inPages_pageParts`).
-/

namespace CircularLog

namespace Geometry

variable {g : Geometry} {address length : Nat}

/-! ## Pages -/

/-- A page starts at or behind every page start that is not behind one of its bytes. -/
theorem le_pageFloor {start : Nat} (hstart : start % g.pageBytes = 0) (h : start ≤ address) :
    start ≤ g.pageFloor address := by
  obtain ⟨k, rfl⟩ := Nat.dvd_of_mod_eq_zero hstart
  rw [pageFloor, unitFloor, Nat.mul_comm]
  refine Nat.mul_le_mul_right _ ((Nat.le_div_iff_mul_le g.pageBytes_pos).mpr ?_)
  rwa [Nat.mul_comm]

/-- A page ends at or before every page start that is behind one of its bytes. -/
theorem pageFloor_add_le {stop : Nat} (hstop : stop % g.pageBytes = 0) (h : address < stop) :
    g.pageFloor address + g.pageBytes ≤ stop := by
  obtain ⟨k, rfl⟩ := Nat.dvd_of_mod_eq_zero hstop
  have hlt : address / g.pageBytes < k := Nat.div_lt_of_lt_mul h
  have hle := Nat.mul_le_mul_left g.pageBytes (Nat.succ_le_of_lt hlt)
  rw [Nat.mul_succ, Nat.mul_comm] at hle
  exact hle

/-- A page that starts behind a page is one whose first byte is its own start. -/
theorem pageFloor_add_pageBytes (address : Nat) :
    g.pageFloor (g.pageFloor address + g.pageBytes) = g.pageFloor address + g.pageBytes := by
  have h : g.pageFloor address + g.pageBytes = (address / g.pageBytes + 1) * g.pageBytes := by
    rw [pageFloor, unitFloor, Nat.succ_mul]
  rw [h, pageFloor, unitFloor, Nat.mul_div_cancel _ g.pageBytes_pos]

/-! ## Words in pages -/

/-- A page starts with a word. -/
theorem pageFloor_mod_wordSize (u : g.Uniform) (address : Nat) :
    g.pageFloor address % g.wordSize = 0 :=
  Nat.mod_eq_zero_of_dvd
    (Nat.dvd_trans u.wordSize_dvd (Nat.dvd_of_mod_eq_zero (unitFloor_mod _ address)))

/-- What starts or ends with a word starts or ends with a programming unit. -/
theorem mod_wordBytes (u : g.Uniform) (h : address % g.wordSize = 0) : address % g.wordBytes = 0 :=
  Nat.mod_eq_zero_of_dvd (Nat.dvd_trans u.wordBytes_dvd (Nat.dvd_of_mod_eq_zero h))

/-- The first word of a request does not start before the page does. -/
theorem pageFloor_le_wordFloor (u : g.Uniform) (address : Nat) :
    g.pageFloor address ≤ g.wordFloor address := by
  obtain ⟨k, hk⟩ := Nat.dvd_of_mod_eq_zero (pageFloor_mod_wordSize u address)
  have h : g.pageFloor address ≤ address := unitFloor_le _ _
  rw [hk] at h ⊢
  rw [wordFloor, unitFloor, Nat.mul_comm]
  refine Nat.mul_le_mul_right _ ((Nat.le_div_iff_mul_le g.wordSize_pos).mpr ?_)
  rwa [Nat.mul_comm]

/-- The last word of a request inside a page does not end behind the page. -/
theorem wordCeil_le_page (u : g.Uniform)
    (h : address + length ≤ g.pageFloor address + g.pageBytes) :
    g.wordCeil (address + length) ≤ g.pageFloor address + g.pageBytes := by
  refine unitCeil_le g.wordSize_pos h ?_
  rw [Nat.add_mod, pageFloor_mod_wordSize u, Nat.mod_eq_zero_of_dvd u.wordSize_dvd]
  rfl

/-- Whole words lie between the first and the last word of a request. -/
theorem wordSize_dvd_words (address stop : Nat) :
    g.wordSize ∣ g.wordCeil stop - g.wordFloor address :=
  Nat.dvd_sub (Nat.dvd_of_mod_eq_zero (unitCeil_mod g.wordSize_pos _))
    (Nat.dvd_of_mod_eq_zero (unitFloor_mod _ _))

/-! ## Requests in pages -/

/-- The lengths of the parts of a request of `length` bytes at `address` that the ends of the
pages cut it into. -/
def pageParts (g : Geometry) (address length : Nat) : List Nat :=
  let first := min (g.pageFloor address + g.pageBytes - address) length
  if length = 0 then []
  else first :: Bytes.pieces g.pageBytes (length - first)

/-- The parts of a request are all of it. -/
theorem total_pageParts (g : Geometry) (address length : Nat) :
    Bytes.total (g.pageParts address length) = length := by
  unfold pageParts
  split
  · simp_all
  · rw [Bytes.total_cons, Bytes.total_pieces]
    omega

/-- Behind the part in its first page, a request is cut as one that starts there. -/
theorem pageParts_eq (g : Geometry) (address : Nat) {length near : Nat} (some : length ≠ 0)
    (hnear : near = min length (g.pageFloor address + g.pageBytes - address)) :
    g.pageParts address length = near :: g.pageParts (address + near) (length - near) := by
  have hlt : address < g.pageFloor address + g.pageBytes :=
    lt_unitFloor_add g.pageBytes_pos address
  unfold pageParts
  rw [if_neg some, Nat.min_comm, ← hnear]
  congr 1
  by_cases hrest : length - near = 0
  · rw [if_pos hrest, hrest]
    simp [Bytes.pieces]
  · -- The first part goes to the end of its page, so the next one starts with a page.
    have hstart : address + near = g.pageFloor address + g.pageBytes := by omega
    rw [if_neg hrest, hstart, g.pageFloor_add_pageBytes address, Nat.add_sub_cancel_left,
      Bytes.pieces_eq g.pageBytes_pos hrest]

/-- Parts of the given lengths, one behind the other, that are not empty and lie inside a page
each. -/
def InPages (g : Geometry) (address : Nat) : List Nat → Prop
  | [] => True
  | length :: lengths =>
    0 < length ∧ address + length ≤ g.pageFloor address + g.pageBytes ∧
      g.InPages (address + length) lengths

/-- From the start of a page on, pieces of the size of a page lie inside a page each. -/
theorem inPages_pieces (haddress : g.pageFloor address = address) (length : Nat) :
    g.InPages address (Bytes.pieces g.pageBytes length) := by
  have hpos := g.pageBytes_pos
  unfold Bytes.pieces
  generalize length / g.pageBytes = count
  induction count generalizing address with
  | zero =>
    have hlt := Nat.mod_lt length hpos
    by_cases hrest : length % g.pageBytes = 0
    · simp [InPages, hrest]
    · simp only [List.replicate_zero, List.nil_append, hrest, if_false, InPages, and_true]
      omega
  | succ count ih =>
    rw [List.replicate_succ, List.cons_append, InPages]
    refine ⟨hpos, by omega, ih ?_⟩
    have h := g.pageFloor_add_pageBytes address
    rwa [haddress] at h

/-- The parts that the ends of the pages cut a request into lie inside a page each. -/
theorem inPages_pageParts (g : Geometry) (address length : Nat) :
    g.InPages address (g.pageParts address length) := by
  have hlt : address < g.pageFloor address + g.pageBytes := lt_unitFloor_add g.pageBytes_pos address
  unfold pageParts
  by_cases hzero : length = 0
  · simp [hzero, InPages]
  · simp only [hzero, if_false, InPages]
    refine ⟨by omega, by omega, ?_⟩
    by_cases hfit : g.pageFloor address + g.pageBytes - address ≤ length
    · rw [Nat.min_eq_left hfit, Nat.add_sub_cancel' (by omega)]
      exact inPages_pieces (pageFloor_add_pageBytes address) _
    · rw [Nat.min_eq_right (by omega), Nat.sub_self]
      simp [Bytes.pieces, InPages]

/-- A part lies inside the page in which it starts. -/
theorem InPages.part {done rest : List Nat} (h : g.InPages address (done ++ length :: rest)) :
    0 < length ∧ address + Bytes.total done + length ≤
      g.pageFloor (address + Bytes.total done) + g.pageBytes := by
  induction done generalizing address with
  | nil => exact ⟨h.1, h.2.1⟩
  | cons first done ih =>
    rw [Bytes.total_cons, ← Nat.add_assoc]
    exact ih h.2.2

/-- Parts, one behind the other, of which each but the last goes to the end of its page. -/
def FillPages (g : Geometry) (address : Nat) : List Nat → Prop
  | [] => True
  | length :: lengths =>
    (lengths ≠ [] → address + length = g.pageFloor address + g.pageBytes) ∧
      g.FillPages (address + length) lengths

/-- From the start of a page on, pieces of the size of a page fill pages. -/
theorem fillPages_pieces (haddress : g.pageFloor address = address) (length : Nat) :
    g.FillPages address (Bytes.pieces g.pageBytes length) := by
  unfold Bytes.pieces
  generalize length / g.pageBytes = count
  induction count generalizing address with
  | zero => split <;> simp [FillPages]
  | succ count ih =>
    rw [List.replicate_succ, List.cons_append, FillPages, haddress]
    refine ⟨fun _ => rfl, ih ?_⟩
    have h := g.pageFloor_add_pageBytes address
    rwa [haddress] at h

/-- The parts that the ends of the pages cut a request into fill pages. -/
theorem fillPages_pageParts (g : Geometry) (address length : Nat) :
    g.FillPages address (g.pageParts address length) := by
  have hlt : address < g.pageFloor address + g.pageBytes := lt_unitFloor_add g.pageBytes_pos address
  unfold pageParts
  by_cases hzero : length = 0
  · simp [hzero, FillPages]
  · rw [if_neg hzero]
    by_cases hfit : g.pageFloor address + g.pageBytes - address ≤ length
    · rw [Nat.min_eq_left hfit, FillPages, Nat.add_sub_cancel' (by omega)]
      exact ⟨fun _ => rfl, fillPages_pieces (pageFloor_add_pageBytes address) _⟩
    · rw [Nat.min_eq_right (by omega), Nat.sub_self]
      simp [Bytes.pieces, FillPages]

section Cut

variable (g : Geometry) (address : Nat) {bytes : Bytes} {length : Nat} (h : bytes.length = length)
include h

/-- The pieces that the ends of the pages cut a string into are all of it. -/
theorem flatten_cut_pageParts : (Bytes.cut (g.pageParts address length) bytes).flatten = bytes :=
  Bytes.flatten_cut ((g.total_pageParts address length).trans h.symm)

/-- They are as long as the ends of the pages say. -/
theorem map_length_cut_pageParts :
    (Bytes.cut (g.pageParts address length) bytes).map List.length = g.pageParts address length :=
  Bytes.map_length_cut ((g.total_pageParts address length).trans h.symm)

/-- They lie inside a page each. -/
theorem inPages_cut_pageParts :
    g.InPages address ((Bytes.cut (g.pageParts address length) bytes).map List.length) := by
  rw [g.map_length_cut_pageParts address h]
  exact g.inPages_pageParts address length

/-- They fill pages. -/
theorem fillPages_cut_pageParts :
    g.FillPages address ((Bytes.cut (g.pageParts address length) bytes).map List.length) := by
  rw [g.map_length_cut_pageParts address h]
  exact g.fillPages_pageParts address length

end Cut

/-- A part with others before it starts with its page. -/
theorem FillPages.pageFloor_eq {done rest : List Nat} (some : done ≠ [])
    (h : g.FillPages address (done ++ length :: rest)) :
    g.pageFloor (address + Bytes.total done) = address + Bytes.total done := by
  induction done generalizing address with
  | nil => exact absurd rfl some
  | cons first done ih =>
    obtain ⟨hfirst, h⟩ := h
    rw [Bytes.total_cons, ← Nat.add_assoc]
    cases done with
    | nil =>
      rw [Bytes.total_nil, Nat.add_zero, hfirst (by simp)]
      exact g.pageFloor_add_pageBytes address
    | cons => exact ih (by simp) h

end Geometry

end CircularLog
