import CircularLog.Proofs.Partition.Log
import CircularLog.Proofs.Partition.Words
import CircularLog.Proofs.Space.Conduct

/-!
# Rows and headers

Reading a row gives what the image says there (`readRow_ends`), and erasing one lays erased bytes
over it (`eraseRow_ends`). A partition that holds something is left as it is when it is set up, and
one without a header holds the empty log from then on (`ensureFormatted_ends`).
-/

namespace CircularLog

variable {g : Geometry} {space : Space g} {p : Partition} {m : Media g}
  {sound : Bytes → Media g → Prop} {mishap : Space.Mishap g} {image : Bytes} {log : Log}

open Space (Halts)

/-- What holds of the whole range holds of a partition inside of it, behind the header. -/
theorem Space.Conduct.part (c : space.Conduct 0 space.total sound mishap)
    (fits : p.stop ≤ space.total) : space.Conduct p.table p.stop sound mishap :=
  c.within (Nat.zero_le _) fits

namespace Partition

/-- Reading a row gives what the image says there. -/
theorem readRow_ends (c : space.Legible p.table p.stop sound mishap)
    (hm : sound image m) {row : Nat} (hrow : row < p.maxItems)
    (valid : ∀ entry, p.rowAt image row = some entry → entry.Fits p.areaLength) :
    (p.readRow space row).Ends m (fun entry m' => sound image m' ∧ entry = p.rowAt image row)
      (Halts mishap (· = image)) := by
  have fits := c.inside
  have hmem := rowAddress_mem hrow
  have hparts := p.parts
  rw [readRow_eq hrow, Action.ends_bind]
  refine (c.read hm (by omega) (by omega)).mono ?_ fun _ _ h => h
  rintro _ m₁ ⟨h₁, rfl⟩
  have hrow : Row.decode (image.slice (p.rowAddress row) rowBytes) = p.rowAt image row := rfl
  simp only [hrow]
  cases hentry : p.rowAt image row with
  | none => exact ⟨h₁, rfl⟩
  | some entry =>
    simp only [if_pos (valid entry hentry)]
    exact ⟨h₁, rfl⟩

/-- Reading the row of an item gives its entry. -/
theorem readStored_ends (c : space.Conduct p.table p.stop sound mishap)
    (holds : p.Holds image log) (hm : sound image m) {count : Nat} {item : Bytes}
    (hitem : log.items[count]? = some item) :
    (p.readStored space (p.rowBehind log.row count)).Ends m
      (fun stored m' => sound image m' ∧
        stored = entry (log.id + count) (p.startOf log count) item.length)
      (Halts mishap (· = image)) := by
  have hlt := (List.getElem?_eq_some_iff.mp hitem).1
  have hrow := holds.rows count (Nat.lt_of_lt_of_le hlt holds.count_le)
  rw [entryAt_of_getElem? hitem] at hrow
  rw [readStored, Action.ends_bind]
  refine (readRow_ends c.toLegible hm (p.rowBehind_lt _ _) fun _ h =>
    holds.fits_rowAt (p.rowBehind_lt _ _) h).mono ?_ fun _ _ h => h
  rintro _ m₁ ⟨h₁, rfl⟩
  rw [hrow]
  exact ⟨h₁, rfl⟩

/-- Erasing a row lays erased bytes over it. -/
theorem eraseRow_ends (c : space.Conduct p.table p.stop sound mishap)
    (hm : sound image m) {row : Nat} (hrow : row < p.maxItems) :
    (p.eraseRow space row).Ends m (fun _ => sound (image.overlay (p.rowAddress row) Row.erased))
      (Halts mishap (Space.Begun mishap image (p.rowAddress row) Row.erased)) := by
  have fits := c.inside
  have hmem := rowAddress_mem hrow
  have hparts := p.parts
  have herased : Row.erased.length = rowBytes := rfl
  rw [eraseRow_eq hrow]
  exact c.write hm (by omega) (by omega)

/-- Every byte of the table is erased. -/
def Wiped (p : Partition) (image : Bytes) : Prop :=
  ∀ i, p.table ≤ i → i < p.area → image[i]? = some 0xFF

/-- No row of an erased table holds an item. -/
theorem Wiped.rowAt_eq (h : p.Wiped image) {row : Nat} (hrow : row < p.maxItems) :
    p.rowAt image row = none := by
  have hmem := rowAddress_mem hrow
  have htable : p.table = p.base + headerBytes := rfl
  have hcells : p.rowCells image row = Row.erased := by
    refine List.ext_getElem? fun i => ?_
    rw [rowCells, Bytes.getElem?_slice, Row.erased, List.getElem?_replicate]
    have hbytes : rowBytes = 12 := rfl
    by_cases hi : i < rowBytes
    · rw [if_pos hi, if_pos (by omega), h _ (by omega) (by omega)]
    · rw [if_neg hi, if_neg (by omega)]
  rw [rowAt, hcells, Row.decode_erased]

/-- Behind a header, an erased table holds the empty log. -/
theorem Wiped.holds (h : p.Wiped image) (header : image.slice p.base headerBytes = magic) :
    p.Holds image Log.empty where
  header := header
  row_lt := p.maxItems_pos
  start_lt := p.areaLength_pos
  count_le := Nat.zero_le _
  size_le := Nat.zero_le _
  length_lt := nofun
  id_le := Nat.zero_le _
  rows count _ := h.rowAt_eq (p.rowBehind_lt _ _)
  payloads := by simp [ring, Log.empty, Log.size]

/-- An image in which the table was erased and the header written holds the empty log. -/
theorem holds_formatted (fits : p.stop ≤ image.length) :
    p.Holds ((image.overlay p.table (List.replicate p.tableLength 0xFF)).overlay p.base magic)
      Log.empty := by
  have hparts := p.parts
  have hmagic : magic.length = headerBytes := Bytes.length_ofNat _ _
  have htable : p.table = p.base + headerBytes := rfl
  have hlen : (image.overlay p.table (List.replicate p.tableLength 0xFF)).length = image.length :=
    Bytes.length_overlay (by rw [List.length_replicate]; omega)
  refine Wiped.holds (fun i hi hi' => ?_) ?_
  · -- The table was erased, and the header does not reach it.
    rw [Bytes.getElem?_overlay_eq (by omega), if_neg (by omega),
      Bytes.getElem?_overlay_eq (by rw [List.length_replicate]; omega), List.length_replicate,
      if_pos (by omega), List.getElem?_replicate, if_pos (by omega)]
  · rw [← hmagic]
    exact Bytes.slice_overlay (by omega)

/-- The partition holds a log, or has no header and is to hold the empty one. -/
def Boots (p : Partition) (image : Bytes) (log : Log) : Prop :=
  p.Holds image log ∨ image.slice p.base headerBytes ≠ magic ∧ log = Log.empty

/-- Where the bytes of the partition are the same, it boots with the same log. -/
theorem Boots.congr {image' : Bytes} (h : p.Boots image log) (fits : p.stop ≤ image.length)
    (fits' : p.stop ≤ image'.length)
    (same : ∀ i, p.base ≤ i → i < p.stop → image'[i]? = image[i]?) : p.Boots image' log := by
  refine h.imp (fun holds => holds.congr fits fits' same) fun ⟨hheader, hlog⟩ => ⟨?_, hlog⟩
  have hparts := p.parts
  rwa [Bytes.slice_congr fun i hi => same _ (by omega) (by omega)]

/-- What boots with a log boots with the found one. -/
theorem Boots.found (h : p.Boots image log) : p.Boots image log.found := by
  refine h.imp Holds.found ?_
  rintro ⟨hheader, rfl⟩
  exact ⟨hheader, rfl⟩

/-- Setting a partition up leaves what it holds; without a header it holds nothing afterwards. If
this fails, the partition boots as before, as the header is written last. -/
theorem ensureFormatted_ends (c : space.Conduct p.base p.stop sound mishap)
    (hm : sound image m) (boots : p.Boots image log) :
    (p.ensureFormatted space).Ends m
      (fun _ m' => ∃ image', sound image' m' ∧ p.Confined image image' ∧ p.Holds image' log)
      (Halts mishap fun image' => p.Confined image image' ∧ p.Boots image' log) := by
  have fits := c.inside
  have hparts := p.parts
  have hlen := c.length hm
  have htable : p.table = p.base + headerBytes := rfl
  have hmagic : magic.length = headerBytes := Bytes.length_ofNat _ _
  simp only [ensureFormatted, Action.ends_bind, Action.ends_ite, Action.ends_pure]
  refine (c.read hm (by omega) (by omega)).mono ?_
    fun _ _ h => h.mono fun image' _ himage => by
      obtain rfl : image' = image := himage
      exact ⟨.refl p image', boots⟩
  rintro _ m₁ ⟨h₁, rfl⟩
  refine ⟨fun hheader => ?_, fun hheader => ?_⟩
  · rcases boots with holds | ⟨hno, -⟩
    · exact ⟨image, h₁, .refl p image, holds⟩
    · exact absurd hheader hno
  · -- Without a header the table is erased, and the header is written last.
    rcases boots with holds | ⟨-, rfl⟩
    · exact absurd holds.header hheader
    have filled {n : Nat} (hn : n ≤ p.tableLength) :
        p.Confined image (image.overlay p.table (List.replicate n 0xFF)) ∧
          (image.overlay p.table (List.replicate n 0xFF)).slice p.base headerBytes ≠ magic := by
      refine ⟨confined_overlay (by omega) (by omega) (by rw [List.length_replicate]; omega), ?_⟩
      rwa [Bytes.slice_overlay_of_disjoint (by rw [List.length_replicate]; omega) (by omega)]
    refine (c.fill h₁ (by omega) (by omega)).mono ?_ fun _ _ h => h.mono fun _ _ himage => ?_
    · intro _ m₂ h₂
      have hlen₂ := c.length h₂
      obtain ⟨hwhole, hno⟩ := filled (Nat.le_refl _)
      refine (c.write h₂ (by omega) (by omega)).mono ?_ fun _ _ h => h.mono fun _ _ himage => ?_
      · intro _ m₃ h₃
        exact ⟨_, h₃, hwhole.trans (confined_overlay (by omega) (by omega) (by omega)),
          holds_formatted (by omega)⟩
      · obtain ⟨n, -, hn, rfl⟩ := himage
        have htake : (magic.take n).length ≤ headerBytes := by
          rw [List.length_take]
          omega
        refine ⟨hwhole.trans (confined_overlay (by omega) (by omega) (by omega)), ?_⟩
        -- A part of the header is none, unless what it lies over makes it whole.
        by_cases hnow : ((image.overlay p.table (List.replicate p.tableLength 0xFF)).overlay p.base
            (magic.take n)).slice p.base headerBytes = magic
        · rw [Bytes.overlay_take_eq (by omega) (hmagic ▸ hnow)]
          exact .inl (holds_formatted (by omega))
        · exact .inr ⟨hnow, rfl⟩
    · obtain ⟨n, hn, rfl⟩ := himage
      exact ⟨(filled hn).1, .inr ⟨(filled hn).2, rfl⟩⟩

end Partition

end CircularLog
