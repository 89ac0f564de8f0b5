import CircularLog.Proofs.Partition.Chain

/-!
# Starting from any contents

A partition is started by setting it up, unless its header is there already, and then recovering its
fill state. Whatever its bytes are, that ends with a fill state or finds the partition `Corrupt`
(`start_ends`). What becomes of its bytes then is said by `Started`: the area stays as it is, a
table without a header is erased as a whole, and one with a header keeps the rows of the run that is
selected and loses the stray ones. Both depend on the bytes of the partition alone (`Corrupt.congr`,
`Started.congr`), so partitions that are apart are started independently of each other.
-/

namespace CircularLog

namespace Partition

variable {g : Geometry} {space : Space g} {p : Partition} {m : Media g}
  {sound : Bytes → Media g → Prop} {image image' : Bytes} {run : Run}

/-! ## Setting up -/

/-- The image with the table erased and the header written. -/
def formatted (p : Partition) (image : Bytes) : Bytes :=
  (image.overlay p.table (List.replicate p.tableLength 0xFF)).overlay p.base magic

/-- The bytes of an image that has been set up. -/
theorem getElem?_formatted (fits : p.stop ≤ image.length) (i : Nat) :
    (p.formatted image)[i]? =
      if p.base ≤ i ∧ i < p.table then magic[i - p.base]?
      else if p.table ≤ i ∧ i < p.area then some 0xFF else image[i]? := by
  have hparts := p.parts
  have hmagic : magic.length = headerBytes := Bytes.length_ofNat _ _
  have hareas : p.area = p.table + p.tableLength := rfl
  have htable : (List.replicate p.tableLength (0xFF : UInt8)).length = p.tableLength :=
    List.length_replicate
  have hlen : (image.overlay p.table (List.replicate p.tableLength 0xFF)).length = image.length :=
    Bytes.length_overlay (by omega)
  rw [formatted, Bytes.getElem?_overlay_eq (by omega), Bytes.getElem?_overlay_eq (by omega), hmagic,
    htable]
  by_cases hheader : p.base ≤ i ∧ i < p.table
  · rw [if_pos (by omega), if_pos hheader]
  · rw [if_neg (by omega), if_neg hheader]
    by_cases hrows : p.table ≤ i ∧ i < p.area
    · rw [if_pos (by omega), if_pos hrows, List.getElem?_replicate, if_pos (by omega)]
    · rw [if_neg (by omega), if_neg hrows]

/-- Setting a partition up touches the header and the table only. -/
theorem retabled_formatted (fits : p.stop ≤ image.length) :
    p.Retabled image (p.formatted image) := by
  have hparts := p.parts
  have hmagic : magic.length = headerBytes := Bytes.length_ofNat _ _
  have hareas : p.area = p.table + p.tableLength := rfl
  have htable : (List.replicate p.tableLength (0xFF : UInt8)).length = p.tableLength :=
    List.length_replicate
  have hlen : (image.overlay p.table (List.replicate p.tableLength 0xFF)).length = image.length :=
    Bytes.length_overlay (by omega)
  constructor
  · constructor
    · rw [formatted, Bytes.length_overlay (by omega), hlen]
    · intro i hi
      rw [getElem?_formatted fits, if_neg (by omega), if_neg (by omega)]
  · intro i hi hi'
    rw [getElem?_formatted fits, if_neg (by omega), if_neg (by omega)]

/-- A table that has been set up is erased as a whole. -/
theorem slice_formatted (fits : p.stop ≤ image.length) :
    (p.formatted image).slice p.table p.tableLength = List.replicate p.tableLength 0xFF := by
  have hparts := p.parts
  have hareas : p.area = p.table + p.tableLength := rfl
  apply List.ext_getElem?
  intro i
  rw [Bytes.getElem?_slice, List.getElem?_replicate]
  by_cases hi : i < p.tableLength
  · rw [if_pos hi, if_pos hi, getElem?_formatted fits, if_neg (by omega), if_pos (by omega)]
  · rw [if_neg hi, if_neg hi]

/-- Without a header a partition is set up, and with one it is left alone. -/
theorem ensureFormatted_lays (c : space.Conduct p.base p.stop sound .never) (hm : sound image m) :
    (p.ensureFormatted space).Ends m
      (fun _ m' =>
        sound (if image.slice p.base headerBytes = magic then image else p.formatted image) m')
      (fun _ _ => False) := by
  have fits := c.inside
  have hparts := p.parts
  have hlen := c.length hm
  have hareas : p.area = p.table + p.tableLength := rfl
  have hmagic : magic.length = headerBytes := Bytes.length_ofNat _ _
  have htable : (List.replicate p.tableLength (0xFF : UInt8)).length = p.tableLength :=
    List.length_replicate
  simp only [ensureFormatted, Action.ends_bind, Action.ends_ite, Action.ends_pure]
  apply (c.read hm (by omega) (by omega)).mono ?_ fun _ _ h => h.1.elim
  rintro _ m₁ ⟨h₁, rfl⟩
  constructor
  · intro hheader
    rwa [if_pos hheader]
  · intro hheader
    rw [if_neg hheader]
    apply (c.fill h₁ (by omega) (by omega)).mono ?_ fun _ _ h => h.1.elim
    intro _ m₂ h₂
    have hlen₂ := c.length h₂
    exact (c.write h₂ (by omega) (by omega)).mono (fun _ _ h => h) fun _ _ h => h.1.elim

/-! ## What depends on the table alone -/

/-- The rows of two images say the same. -/
theorem rowCells_congr {row : Nat} (hrow : row < p.maxItems)
    (same : ∀ i, p.table ≤ i → i < p.area → image'[i]? = image[i]?) :
    p.rowCells image' row = p.rowCells image row := by
  have hmem := rowAddress_mem hrow
  have hparts := p.parts
  exact Bytes.slice_congr fun i hi => same _ (by omega) (by omega)

section Rows

variable (same : ∀ row, row < p.maxItems → p.rowAt image' row = p.rowAt image row)
include same

/-- So a payload that does not fit into the area is one of both. -/
theorem Misfit.congr (h : p.Misfit image) : p.Misfit image' := by
  obtain ⟨row, entry, hrow, hentry, hmisfit⟩ := h
  exact ⟨row, entry, hrow, (same row hrow).trans hentry, hmisfit⟩

/-- So both have the same oldest row. -/
theorem Oldest.congr {row : Nat} {oldest : Row} (h : p.Oldest image row oldest) :
    p.Oldest image' row oldest := by
  have hlt := h.lt
  constructor
  · exact hlt
  · exact (same row hlt).trans h.holds
  · intro other entry hother hentry
    rw [same other hother] at hentry
    exact h.least other entry hother hentry
  · intro other entry hother hentry
    rw [same other (by omega)] at hentry
    exact h.first other entry hother hentry

/-- So both have the same longest run behind a row. -/
theorem Longest.congr {row limit : Nat} {id : UInt32} {entries : List Row}
    (h : p.Longest image row id limit entries) : p.Longest image' row id limit entries := by
  constructor
  · exact h.length_le
  · intro count entry hentry
    exact (same _ (p.rowBehind_lt row count)).trans (h.rows count entry hentry)
  · exact h.ids
  · intro hlt entry hentry
    rw [same _ (p.rowBehind_lt row _)] at hentry
    exact h.stops hlt entry hentry

/-- So recovery selects the same run of both. -/
theorem Selects.congr (h : p.Selects image run) : p.Selects image' run := by
  rcases h with ⟨hnone, hrun⟩ | ⟨oldest, hold, hlong⟩
  · exact .inl ⟨fun row hrow => (same row hrow).trans (hnone row hrow), hrun⟩
  · exact .inr ⟨oldest, hold.congr same, hlong.congr same⟩

/-- So the payloads of the items are too long for both, or for neither. -/
theorem Overfull.congr (h : p.Overfull image) : p.Overfull image' := by
  obtain ⟨run, hselects, hbytes⟩ := h
  exact ⟨run, hselects.congr same, hbytes⟩

/-- So a row that is erased for one is erased for the other. -/
theorem Stray.congr {row : Nat} (hrow : row < p.maxItems) (h : p.Stray image run row) :
    p.Stray image' run row := by
  obtain ⟨hsome, hne⟩ := h
  rw [← same row hrow] at hsome
  exact ⟨hsome, hne⟩

end Rows

/-! ## Starting -/

/-- The header is there, but a row tells of a payload that cannot lie in the area, or the payloads
of the items that are selected do not fit into it. -/
def Corrupt (p : Partition) (image : Bytes) : Prop :=
  image.slice p.base headerBytes = magic ∧ (p.Misfit image ∨ p.Overfull image)

/-- What becomes of a partition that is started, and has this run then. -/
structure Started (p : Partition) (image : Bytes) (run : Run) (image' : Bytes) : Prop where
  header : image'.slice p.base headerBytes = magic
  tabled : p.Tabled image' run
  area : ∀ i, p.area ≤ i → i < p.stop → image'[i]? = image[i]?
  /-- Without a header, it is empty, and so is the table. -/
  fresh : image.slice p.base headerBytes ≠ magic →
    run = ⟨0, []⟩ ∧ image'.slice p.table p.tableLength = List.replicate p.tableLength 0xFF
  /-- With one, the items are found, the stray rows are erased, and no other row has changed. -/
  found : image.slice p.base headerBytes = magic → p.Selects image run ∧
    ∀ row, row < p.maxItems → (p.Stray image run row → p.rowCells image' row = Row.erased) ∧
      (¬ p.Stray image run row → p.rowCells image' row = p.rowCells image row)

/-- Whether a partition is corrupt depends on its own bytes only. -/
theorem Corrupt.congr (h : p.Corrupt image)
    (same : ∀ i, p.base ≤ i → i < p.stop → image'[i]? = image[i]?) : p.Corrupt image' := by
  have hparts := p.parts
  obtain ⟨hheader, hbad⟩ := h
  have hrows (row : Nat) (hrow : row < p.maxItems) : p.rowAt image' row = p.rowAt image row :=
    rowAt_congr hrow fun i hi hi' => same i (by omega) (by omega)
  have hslice : image'.slice p.base headerBytes = image.slice p.base headerBytes :=
    Bytes.slice_congr fun i hi => same _ (by omega) (by omega)
  exact ⟨hslice.trans hheader, hbad.imp (Misfit.congr hrows) (Overfull.congr hrows)⟩

/-- So does what becomes of it. -/
theorem Started.congr {before after : Bytes} (h : p.Started image run image')
    (same : ∀ i, p.base ≤ i → i < p.stop → before[i]? = image[i]?)
    (same' : ∀ i, p.base ≤ i → i < p.stop → after[i]? = image'[i]?) :
    p.Started before run after := by
  have hparts := p.parts
  have hareas : p.area = p.table + p.tableLength := rfl
  -- The header, the rows and the area lie in the partition, so the images have the same there.
  have htable (i : Nat) (hi : p.table ≤ i) (hi' : i < p.area) : before[i]? = image[i]? :=
    same i (by omega) (by omega)
  have hheader : before.slice p.base headerBytes = image.slice p.base headerBytes :=
    Bytes.slice_congr fun i hi => same _ (by omega) (by omega)
  have hrows (row : Nat) (hrow : row < p.maxItems) : p.rowAt before row = p.rowAt image row :=
    rowAt_congr hrow htable
  constructor
  case header =>
    rw [← h.header]
    exact Bytes.slice_congr fun i hi => same' _ (by omega) (by omega)
  case tabled => exact h.tabled.congr fun i hi hi' => same' i (by omega) (by omega)
  case area =>
    intro i hi hi'
    calc after[i]? = image'[i]? := same' i (by omega) hi'
      _ = image[i]? := h.area i hi hi'
      _ = before[i]? := (same i (by omega) hi').symm
  case fresh =>
    intro hno
    rw [hheader] at hno
    obtain ⟨hrun, hslice⟩ := h.fresh hno
    refine ⟨hrun, ?_⟩
    rw [← hslice]
    exact Bytes.slice_congr fun i hi => same' _ (by omega) (by omega)
  case found =>
    intro hmagic
    rw [hheader] at hmagic
    obtain ⟨hselects, hcells⟩ := h.found hmagic
    refine ⟨hselects.congr hrows, fun row hrow => ?_⟩
    have hback (row : Nat) (hrow : row < p.maxItems) : p.rowAt image row = p.rowAt before row :=
      (hrows row hrow).symm
    rw [rowCells_congr hrow htable,
      rowCells_congr hrow fun i hi hi' => same' i (by omega) (by omega)]
    constructor
    · intro hstray
      exact (hcells row hrow).1 (hstray.congr hback hrow)
    · intro hstray
      exact (hcells row hrow).2 fun h => hstray (h.congr hrows hrow)

/-- A partition that holds a log is started with what is found of it, and goes on holding it. -/
theorem Started.holds {log : Log} (h : p.Started image run image') (holds : p.Holds image log)
    (fits : p.stop ≤ image.length) (fits' : p.stop ≤ image'.length) :
    p.Holds image' log ∧ run.status = log.found.status := by
  obtain ⟨hselects, hcells⟩ := h.found holds.header
  obtain rfl : p.runOf log.found = run := hselects.unique holds.selects
  -- What the rows say are the entries of the run, so none of them is stray.
  have kept (row : Nat) (hrow : row < p.maxItems) :
      p.rowCells image' row = p.rowCells image row := by
    refine (hcells row hrow).2 ?_
    rintro ⟨hsome, hne⟩
    obtain ⟨entry, hentry⟩ := Option.isSome_iff_exists.mp hsome
    obtain ⟨count, hcount, hbehind, -⟩ := holds.exists_of_rowAt hrow hentry
    have hfound : log.found = log := by
      unfold Log.found
      split
      · next hnil =>
        rw [hnil] at hcount
        exact absurd hcount (Nat.not_lt_zero _)
      · rfl
    rw [hfound, length_entries_runOf] at hne
    exact hne count hcount hbehind
  refine ⟨?_, holds.found.status_runOf⟩
  constructor
  case header => exact h.header
  case row_lt => exact holds.row_lt
  case start_lt => exact holds.start_lt
  case count_le => exact holds.count_le
  case size_le => exact holds.size_le
  case length_lt => exact holds.length_lt
  case id_le => exact holds.id_le
  case rows =>
    intro count hcount
    rw [← holds.rows count hcount, rowAt, rowAt, kept _ (p.rowBehind_lt _ _)]
  case payloads =>
    rw [← holds.payloads]
    refine ring_congr fits fits' holds.start_lt fun i hi => ?_
    have hcell := cell_mem holds.start_lt (Nat.lt_of_lt_of_le hi holds.size_le)
    exact h.area _ hcell.1 hcell.2

/-- Setting a partition up and recovering its fill state. -/
theorem start_ends (c : space.Conduct 0 space.total sound .never) (fits : p.stop ≤ space.total)
    (hm : sound image m) :
    (do p.ensureFormatted space
        (p.recover space).startingFrom Status.empty).Ends m
      (fun status m' => ¬ p.Corrupt image ∧ ∃ (image' : Bytes) (run : Run), sound image' m' ∧
        p.Confined image image' ∧ status = run.status ∧ p.Started image run image')
      (fun e _ => e = Error.inconsistent ∧ p.Corrupt image) := by
  have hlen := c.length hm
  have hparts := p.parts
  have cPart := c.part fits
  simp only [Action.ends_bind, Action.ends_startingFrom]
  apply (ensureFormatted_lays (c.within (Nat.zero_le _) fits) hm).mono ?_ fun _ _ h => h.elim
  intro _ m₁ h₁
  -- Recovery leaves everything in front of the table as it is.
  have beneath {image₁ image' : Bytes} {m' : Media g} (h₁ : sound image₁ m₁) (h' : sound image' m')
      (since : ∀ i, i < p.table ∨ p.stop ≤ i → image'[i]? = image₁[i]?) : p.Beneath image₁ image' :=
    beneath_of_since ((c.length h').trans (c.length h₁).symm) since
  by_cases hheader : image.slice p.base headerBytes = magic
  · rw [if_pos hheader] at h₁
    apply (recover_tabled (cPart.since image) ⟨h₁, fun _ _ => rfl⟩ Status.empty).mono
    · rintro _ ⟨m₂, status⟩ ⟨hfits, image', run, ⟨h₂, since⟩, htabled, hstatus, hselects, hclean⟩
      refine ⟨?_, image', run, h₂, hclean.retabled.confined, hstatus, ?_⟩
      · rintro ⟨-, hmisfit | ⟨run', hselects', hlong⟩⟩
        · exact hfits hmisfit
        · obtain rfl := hselects.unique hselects'
          exact absurd htabled.bytes_le (Nat.not_le.mpr hlong)
      · constructor
        case header => exact (beneath h₁ h₂ since).header.trans hheader
        case tabled => exact htabled
        case area => exact hclean.retabled.area
        case fresh => exact fun hno => absurd hheader hno
        case found =>
          exact fun _ => ⟨hselects, fun row hrow => ⟨hclean.erased row hrow, hclean.kept row hrow⟩⟩
    · rintro e ⟨m₂, status⟩ (hhalts | ⟨he, hbad⟩)
      · exact hhalts.1.elim
      · exact ⟨he, hheader, hbad⟩
  · -- A table that has been set up holds nothing, and so nothing happens to it.
    rw [if_neg hheader] at h₁
    have hretabled := retabled_formatted (hlen.symm ▸ fits : p.stop ≤ image.length)
    have hempty := (holds_formatted (hlen.symm ▸ fits : p.stop ≤ image.length)).charts_empty
    apply (hempty.recover_ends cPart h₁ Status.empty).mono ?_ fun _ _ h => h.elim
    rintro _ ⟨m₂, status⟩ ⟨hstatus, image', h₂, -, hcharts, hsame⟩
    obtain rfl : image' = p.formatted image := hsame rfl
    refine ⟨fun h => hheader h.1, _, ⟨0, []⟩, h₂, hretabled.confined, hstatus, ?_⟩
    constructor
    case header => exact hcharts.header
    case tabled => exact hcharts.tabled
    case area => exact hretabled.area
    case fresh => exact fun _ => ⟨rfl, slice_formatted (hlen.symm ▸ fits)⟩
    case found => exact fun h => absurd h hheader

end Partition

end CircularLog
