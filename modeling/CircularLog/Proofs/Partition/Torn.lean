import CircularLog.Proofs.Partition.Log
import CircularLog.Proofs.Space.Conduct

/-!
# Rows that were cut off

A row that lies on two pages of the flash, or on both memories, is written in more than one piece,
and the writing can be cut off between them. Where the row of a new item is cut off, it is no row:
its marker comes last (`Row.decode_torn`), so the log is what it was (`Holds.row_begun`). Where the
erasing of a row is cut off, the marker is what is left of it, and the row may say anything; such a
row is `Smeared` or, if it was cut off between two pieces, `HalfErased`. Otherwise erasing the row
of the oldest item has either been done or not (`Holds.erasing_begun`).
-/

namespace CircularLog

/-- Of the first bytes of a row over something that is no row, it is no row either, or the bytes are
those of the row already. -/
theorem Row.decode_torn (row : Row) {old : Bytes} (hold : old.length = 12)
    (free : decode old = none) (n : Nat) :
    decode (old.overlay 0 (row.encode.take n)) = none ∨
      old.overlay 0 (row.encode.take n) = row.encode := by
  have hencode := row.length_encode
  have htake : (row.encode.take n).length ≤ 12 := by
    rw [List.length_take]
    omega
  have hmarker : row.encode[10]? = some 0 ∧ row.encode[11]? = some 0 := by
    simp [encode, Bytes.ofNat]
  have hget (i : Nat) : (old.overlay 0 (row.encode.take n))[i]? =
      if i < n ∧ i < 12 then row.encode[i]? else old[i]? := by
    rw [Bytes.getElem?_overlay_eq (by omega), List.length_take]
    grind
  have hfree : (old.slice 10 2).toNat ≠ 0 := by simpa [decode] using free
  -- The marker is cut off before it, inside it or behind it.
  rcases Nat.lt_trichotomy n 11 with hless | rfl | hmore
  · left
    have hsame : (old.overlay 0 (row.encode.take n)).slice 10 2 = old.slice 10 2 :=
      Bytes.slice_congr fun i _ => by rw [hget, if_neg (by omega)]
    rw [decode, hsame, if_neg hfree]
  · obtain ⟨last, hlast⟩ : ∃ last, old[11]? = some last :=
      ⟨_, List.getElem?_eq_getElem (by omega)⟩
    have hcut : (old.overlay 0 (row.encode.take 11)).slice 10 2 = [0, last] := by
      refine List.ext_getElem? fun i => ?_
      rw [Bytes.getElem?_slice, hget]
      rcases i with _ | _ | i
      · simpa using hmarker.1
      · simpa using hlast
      · rw [if_neg (by omega)]
        rfl
    by_cases hzero : last = 0
    · right
      refine List.ext_getElem? fun i => ?_
      rw [hget]
      grind
    · left
      have hpos : last.toNat ≠ 0 := fun h => hzero (UInt8.toNat_inj.mp h)
      rw [decode, hcut, if_neg (by simp only [Bytes.toNat]; omega)]
  · right
    refine List.ext_getElem? fun i => ?_
    rw [hget]
    split
    · rfl
    · next h => rw [List.getElem?_eq_none (by omega), List.getElem?_eq_none (by omega)]

/-- Of a row whose erasing has come to the marker nothing is left. -/
theorem Row.decode_overlay_erased {old : Bytes} (hold : old.length = 12) {n : Nat} (hn : 11 ≤ n) :
    decode (old.overlay 0 (erased.take n)) = none := by
  have htake : (erased.take n).length = min n 12 := List.length_take
  have hget (i : Nat) : (old.overlay 0 (erased.take n))[i]? =
      if i < min n 12 then erased[i]? else old[i]? := by
    rw [Bytes.getElem?_overlay_eq (by omega), htake]
    grind
  obtain ⟨last, hlast⟩ : ∃ last, (old.overlay 0 (erased.take n))[11]? = some last :=
    ⟨_, List.getElem?_eq_getElem (by rw [Bytes.length_overlay (by omega)]; omega)⟩
  have hmarker : (old.overlay 0 (erased.take n)).slice 10 2 = [0xFF, last] := by
    refine List.ext_getElem? fun i => ?_
    rw [Bytes.getElem?_slice]
    rcases i with _ | _ | i
    · rw [hget, if_pos (by omega), if_pos (by omega)]
      rfl
    · simpa using hlast
    · rw [if_neg (by omega)]
      rfl
  have hfirst : (0xFF : UInt8).toNat = 255 := rfl
  rw [decode, hmarker, if_neg (by simp only [Bytes.toNat, hfirst]; omega)]

namespace Partition

variable {g : Geometry} {space : Space g} {p : Partition} {mishap : Space.Mishap g}
  {before image image' : Bytes} {log : Log}

/-- What the first bytes of a row leave of the cells of the row. -/
theorem rowCells_overlay_take {row : Nat} {bytes : Bytes} (hbytes : bytes.length = rowBytes)
    (hrow : row < p.maxItems) (fits : p.stop ≤ image.length) (n : Nat) :
    p.rowCells (image.overlay (p.rowAddress row) (bytes.take n)) row =
        (p.rowCells image row).overlay 0 (bytes.take n) ∧
      image.overlay (p.rowAddress row) (bytes.take n) =
        image.overlay (p.rowAddress row) ((p.rowCells image row).overlay 0 (bytes.take n)) := by
  have hmem := rowAddress_mem hrow
  have hparts := p.parts
  have htake : (bytes.take n).length ≤ rowBytes := by
    rw [List.length_take]
    omega
  have hinside : p.rowAddress row + rowBytes ≤ image.length := by omega
  have hslice := Bytes.slice_overlay_of_inside hinside (Nat.le_refl _) (Nat.add_le_add_left htake _)
  have hoverlay := Bytes.overlay_overlay_slice hinside (Nat.le_refl _) (Nat.add_le_add_left htake _)
  rw [Nat.sub_self] at hslice hoverlay
  exact ⟨hslice, hoverlay.symm⟩

/-- The cells of a row. -/
theorem length_rowCells {row : Nat} (hrow : row < p.maxItems) (fits : p.stop ≤ image.length) :
    (p.rowCells image row).length = rowBytes := by
  have hmem := rowAddress_mem hrow
  have hparts := p.parts
  exact Bytes.length_slice (by omega)

/-! ## New rows -/

/-- Where the row of the next item has been begun, it is all there, or the log is as it was. -/
theorem Holds.row_begun (h : p.Holds image log) (fits : p.stop ≤ image.length)
    (free : log.items.length < p.maxItems) {row : Row}
    (begun : Space.Begun mishap image (p.rowAddress (p.freeRow log)) row.encode image') :
    p.Holds image' log ∧ p.Retabled image image' ∨
      image' = image.overlay (p.rowAddress (p.freeRow log)) row.encode := by
  obtain ⟨n, -, -, rfl⟩ := begun
  have hfree : p.freeRow log < p.maxItems := p.rowBehind_lt _ _
  have hcells := length_rowCells hfree fits
  have hnone : p.rowAt image (p.freeRow log) = none := by
    rw [freeRow, h.rows _ free, entryAt, List.getElem?_eq_none (Nat.le_refl _)]
    rfl
  rw [(rowCells_overlay_take row.length_encode hfree fits n).2]
  have hlen : ((p.rowCells image (p.freeRow log)).overlay 0 (row.encode.take n)).length =
      rowBytes := by
    rw [Bytes.length_overlay, hcells]
    rw [List.length_take, Row.length_encode, hcells, rowBytes]
    omega
  -- Before the row was begun there was none, so a part of it is none either.
  rcases Row.decode_torn row hcells hnone n with htorn | hwhole
  · exact .inl ⟨h.smudge fits free hlen htorn, retabled_row fits hlen hfree⟩
  · exact .inr (congrArg _ hwhole)

/-! ## Erased rows -/

/-- Some row that is not written in one piece is half erased: erased bytes lie over its front, and
it still says something, but not what it said before. -/
def HalfErased (space : Space g) (p : Partition) (before image : Bytes) : Prop :=
  ∃ row n, row < p.maxItems ∧ ¬ space.Whole (p.rowAddress row) rowBytes ∧
    p.rowCells image row = (p.rowCells before row).overlay 0 (Row.erased.take n) ∧
    p.rowAt image row ≠ none ∧ p.rowCells image row ≠ p.rowCells before row

/-- Between two images, the row goes on saying what it said, or says nothing any more. -/
def Thins (p : Partition) (before image : Bytes) (row : Nat) : Prop :=
  p.rowAt image row = none ∨ p.rowAt image row = p.rowAt before row

/-- The erasing of some row has been cut off so that the row still says something, but not what it
said before. The other rows are as they were, or have been erased before. -/
def Smeared (mishap : Space.Mishap g) (p : Partition) (before image : Bytes) : Prop :=
  ∃ row n, row < p.maxItems ∧ mishap.cuts (p.rowAddress row) Row.erased n ∧
    p.rowCells image row = (p.rowCells before row).overlay 0 (Row.erased.take n) ∧
    p.rowAt image row ≠ none ∧ p.rowCells image row ≠ p.rowCells before row ∧
    p.Confined before image ∧
    ∀ other, other < p.maxItems → other ≠ row → p.Thins before image other

/-- A row that is all erased says nothing. -/
theorem rowAt_of_erased {row : Nat} (hrow : row < p.maxItems) (fits : p.stop ≤ before.length)
    (cells : p.rowCells image row = (p.rowCells before row).overlay 0 Row.erased) :
    p.rowAt image row = none := by
  have hlen := length_rowCells hrow fits
  rw [rowAt, cells, Bytes.overlay, List.take_zero, List.nil_append,
    List.drop_of_length_le (by rw [hlen]; decide), List.append_nil, Row.decode_erased]

/-- Where writes are not cut off, no row is smeared. -/
theorem not_smeared (whole : ∀ address n, mishap.cuts address Row.erased n → n = Row.erased.length)
    (fits : p.stop ≤ before.length) : ¬ p.Smeared mishap before image := by
  rintro ⟨row, n, hrow, hcuts, hcells, hsome, -⟩
  rw [whole _ n hcuts, List.take_length] at hcells
  exact hsome (rowAt_of_erased hrow fits hcells)

/-- Where writes are cut off between their pieces, a row that is smeared is not written in one. -/
theorem not_whole_of_cut {stuck : Bytes → Media g → Prop} {torn : Media g → Prop} {row n : Nat}
    (hrow : row < p.maxItems) (fits : p.stop ≤ before.length)
    (cuts : (Space.Mishap.piecewise space .clean stuck torn).cuts (p.rowAddress row) Row.erased n)
    (cells : p.rowCells image row = (p.rowCells before row).overlay 0 (Row.erased.take n))
    (some : p.rowAt image row ≠ none) (other : p.rowCells image row ≠ p.rowCells before row) :
    ¬ space.Whole (p.rowAddress row) rowBytes := by
  intro whole
  rcases Space.cut_whole whole cuts with rfl | rfl
  · exact other (by simpa using cells)
  · rw [List.take_length] at cells
    exact some (rowAt_of_erased hrow fits cells)

/-- Then it is half erased. -/
theorem Smeared.halfErased {stuck : Bytes → Media g → Prop} {torn : Media g → Prop}
    (h : p.Smeared (.piecewise space .clean stuck torn) before image)
    (fits : p.stop ≤ before.length) : p.HalfErased space before image := by
  obtain ⟨row, n, hrow, hcuts, hcells, hsome, hother, -⟩ := h
  exact ⟨row, n, hrow, not_whole_of_cut hrow fits hcuts hcells hsome hother, hcells, hsome, hother⟩

/-- In the eeprom, a row is smeared only where the first bytes of a failing write, at most those in
front of the marker, have had an effect. -/
theorem Smeared.cut_lt {manner : Manner} {stuck : Bytes → Media g → Prop} {torn : Media g → Prop}
    (h : p.Smeared (.piecewise space manner stuck torn) before image)
    (fits : p.stop ≤ before.length) (eeprom : p.stop ≤ space.boundary) :
    0 < manner.cut ∧ manner.cut < 11 := by
  obtain ⟨row, n, hrow, hcuts, hcells, hsome, hother, -⟩ := h
  have hmem := rowAddress_mem hrow
  have hparts := p.parts
  have hlen := length_rowCells hrow fits
  have hpos : 0 < n := by
    refine Nat.pos_of_ne_zero fun hzero => hother ?_
    rw [hcells, hzero]
    rfl
  have hless : n < 11 := by
    refine Nat.lt_of_not_le fun hle => hsome ?_
    rw [rowAt, hcells]
    exact Row.decode_overlay_erased hlen hle
  have whole : p.rowAddress row + Row.erased.length ≤ space.boundary := by
    show p.rowAddress row + rowBytes ≤ _
    omega
  rcases Space.cut_eeprom whole hcuts with rfl | rfl | rfl
  · exact absurd hpos (Nat.lt_irrefl 0)
  · exact absurd hless (by decide)
  · have : Row.erased.length = 12 := rfl
    omega

/-- Nothing around the partition and none of the rows of the items has been touched. -/
structure Untouched (p : Partition) (before image : Bytes) (log : Log) : Prop where
  confined : p.Confined before image
  rows : ∀ count, count < log.items.length →
    p.rowCells image (p.rowBehind log.row count) = p.rowCells before (p.rowBehind log.row count)

/-- The rows of the items say what they said, and the others nothing. -/
theorem Untouched.thins (h : p.Untouched before image log) (holds : p.Holds image log) {row : Nat}
    (hrow : row < p.maxItems) : p.Thins before image row := by
  obtain ⟨count, hcount, rfl⟩ := exists_rowBehind holds.row_lt hrow
  by_cases hitem : count < log.items.length
  · right
    rw [rowAt, rowAt, h.rows count hitem]
  · left
    rw [holds.rows count hcount, entryAt, List.getElem?_eq_none (Nat.le_of_not_lt hitem)]
    rfl

/-- When the oldest item is taken out, the rows of the others are not touched. -/
theorem Untouched.pop (h : p.Untouched before image log) (holds : p.Holds image log)
    (fits : p.stop ≤ image.length) :
    p.Untouched before (image.overlay (p.rowAddress log.row) Row.erased) (p.pop log) := by
  refine ⟨h.confined.trans (retabled_row fits rfl holds.row_lt).confined, fun count hcount => ?_⟩
  have hmem := rowAddress_mem holds.row_lt
  have hparts := p.parts
  have herased : Row.erased.length = rowBytes := rfl
  have hle := holds.count_le
  rw [items_pop, List.length_drop] at hcount
  have hrow : (p.pop log).row = p.nextRow log.row := by
    unfold Partition.pop
    split
    · next hnil =>
      rw [hnil, List.length_nil] at hcount
      omega
    · rfl
  -- Only the row of the oldest item is erased, and that is not the row of another.
  have hne : p.rowBehind log.row 0 ≠ p.rowBehind log.row (count + 1) :=
    rowBehind_ne holds.row_lt (by omega) (by omega) (by omega)
  rw [rowBehind_zero holds.row_lt] at hne
  have hapart := p.rowAddress_disjoint hne
  rw [hrow, rowBehind_nextRow, ← h.rows (count + 1) (by omega)]
  exact Bytes.slice_overlay_of_disjoint (by omega) (by omega)

/-- Where the erasing of the row of the oldest item has been begun, the item is still there, it has
been taken out, or its row is smeared. -/
theorem Holds.erasing_begun (h : p.Holds image log) (fits : p.stop ≤ image.length)
    (items : log.items ≠ []) (untouched : p.Untouched before image log)
    (begun : Space.Begun mishap image (p.rowAddress log.row) Row.erased image') :
    p.Among image (fun l => l = log ∨ l = p.pop log) image' ∨ p.Smeared mishap before image' := by
  have herased : Row.erased.length = rowBytes := rfl
  have hcells := length_rowCells h.row_lt fits
  obtain ⟨n, hcuts, -, rfl⟩ := begun
  obtain ⟨hread, hoverlay⟩ := rowCells_overlay_take herased h.row_lt fits n
  have hlen : ((p.rowCells image log.row).overlay 0 (Row.erased.take n)).length = rowBytes := by
    rw [Bytes.length_overlay, hcells]
    rw [List.length_take, hcells]
    omega
  -- What the erased front has made of the row is no row, the row of before, or smeared.
  have hbefore := untouched.rows 0 (List.length_pos_iff.mpr items)
  rw [rowBehind_zero h.row_lt] at hbefore
  by_cases none :
      p.rowAt (image.overlay (p.rowAddress log.row) (Row.erased.take n)) log.row = none
  · rw [rowAt, hread] at none
    rw [hoverlay]
    exact .inl ⟨(retabled_row fits hlen h.row_lt).confined, _, .inr rfl,
      h.pop fits items hlen none⟩
  · by_cases same : (p.rowCells image log.row).overlay 0 (Row.erased.take n) =
        p.rowCells image log.row
    · have hmem := rowAddress_mem h.row_lt
      have hparts := p.parts
      have hself : image.overlay (p.rowAddress log.row) (p.rowCells image log.row) = image :=
        Bytes.overlay_of_slice_eq (by omega) (by rw [hcells]; rfl)
      rw [hoverlay, same, hself]
      exact .inl (h.among (.inl rfl))
    · refine .inr ⟨log.row, n, h.row_lt, hcuts, ?_, none, ?_, ?_, fun other hother hne => ?_⟩
      · rw [hread, hbefore]
      · rwa [hread, ← hbefore]
      · rw [hoverlay]
        exact untouched.confined.trans (retabled_row fits hlen h.row_lt).confined
      · -- The other rows lie apart from the one that is erased.
        have hmem := rowAddress_mem h.row_lt
        have hparts := p.parts
        have htake : (Row.erased.take n).length ≤ rowBytes := List.length_take_le' n Row.erased
        have hapart := p.rowAddress_disjoint hne
        rw [Thins, rowAt_overlay (by omega) (by omega)]
        exact untouched.thins h hother

end Partition

end CircularLog
