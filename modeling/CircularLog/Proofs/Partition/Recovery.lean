import CircularLog.Proofs.Partition.Scan

/-!
# What recovery makes of a table

If all rows fit and the payloads of the run that is selected have room, what else the table holds is
erased, and the table says the run (`Cleaned.tabled`); else it is inconsistent (`recover_tabled`). A
table that says a run is never that (`Tabled.recover`), and if it is the run that is selected,
recovery only reads (`Tabled.recover_reads`). So it is where the image holds a log: recovery finds
its fill state and changes nothing (`recover_ends`).
-/

namespace CircularLog

namespace Partition

variable {g : Geometry} {space : Space g} {p : Partition} {m : Media g}
  {sound : Bytes → Media g → Prop} {mishap : Space.Mishap g} {image : Bytes} {run : Run} {log : Log}

open Space (Halts)

/-! ## Cleaning the table -/

/-- The payloads of the items do not fit into the area. -/
def Overfull (p : Partition) (image : Bytes) : Prop :=
  ∃ run, p.Selects image run ∧ p.areaLength < Run.bytesOf run.entries

/-- The items are such a run of ids. -/
theorem Overfull.overlong (h : p.Overfull image) : p.Overlong image := by
  obtain ⟨run, ⟨-, rfl⟩ | ⟨oldest, hold, hlong⟩, hbytes⟩ := h
  · exact absurd hbytes (Nat.not_lt_zero _)
  · rw [hlong.eq_runFrom hold.lt] at hbytes
    exact ⟨run.row, oldest.id, hold.lt, hbytes⟩

/-- The row holds something, but no entry of the run. -/
def Stray (p : Partition) (image : Bytes) (run : Run) (row : Nat) : Prop :=
  (p.rowAt image row).isSome ∧ ∀ count, count < run.entries.length → row ≠ p.rowBehind run.row count

/-- Between two images, the stray rows have been erased, and nothing else. -/
structure Cleaned (p : Partition) (image : Bytes) (run : Run) (image' : Bytes) : Prop where
  retabled : p.Retabled image image'
  erased : ∀ row, row < p.maxItems → p.Stray image run row → p.rowCells image' row = Row.erased
  kept : ∀ row, row < p.maxItems → ¬ p.Stray image run row →
    p.rowCells image' row = p.rowCells image row
  /-- Where there was nothing behind the run, nothing has happened. -/
  same : (∀ count, run.entries.length ≤ count → count < p.maxItems →
    p.rowAt image (p.rowBehind run.row count) = none) → image' = image

/-- If no more rows hold something than the run has entries, none of them is stray. -/
theorem not_stray_of_count_le {row : Nat} {id : UInt32} {entries : List Row}
    (hrow : row < p.maxItems) (longest : p.Longest image row id p.maxItems entries)
    (few : Nat.count (fun row => (p.rowAt image row).isSome) p.maxItems ≤ entries.length)
    {other : Nat} (hother : other < p.maxItems) : ¬ p.Stray image ⟨row, entries⟩ other := by
  rintro ⟨hsome, hne⟩
  obtain ⟨count, hcount, rfl⟩ := exists_rowBehind hrow hother
  have hbehind : entries.length ≤ count := Nat.le_of_not_lt fun hlt => hne count hlt rfl
  have hentries (count : Nat) (hlt : count < entries.length) :
      (p.rowAt image (p.rowBehind row count)).isSome := by
    rw [longest.rows count _ (List.getElem?_eq_getElem hlt)]
    rfl
  rw [rowAt_of_count_le hrow longest.length_le hentries few hbehind hcount] at hsome
  cases hsome

/-- Where no row is stray, there is nothing to clean. -/
theorem cleaned_self (none : ∀ row, row < p.maxItems → ¬ p.Stray image run row) :
    p.Cleaned image run image :=
  ⟨.refl p image, fun row hrow hstray => absurd hstray (none row hrow), fun _ _ _ => rfl,
    fun _ => rfl⟩

/-- Erasing what the rows behind the run hold cleans the table. -/
theorem Cleared.cleaned {image' : Bytes} (hrow : run.row < p.maxItems)
    (hle : run.entries.length ≤ p.maxItems)
    (h : p.Cleared image (p.rowBehind run.row run.entries.length) (p.maxItems - run.entries.length)
      image') : p.Cleaned image run image' := by
  obtain ⟨hretabled, herased, hkept, hsame⟩ := h
  simp only [rowBehind_rowBehind] at herased hkept hsame
  constructor
  case retabled => exact hretabled
  case erased =>
    rintro row hlt ⟨hsome, hne⟩
    obtain ⟨count, hcount, rfl⟩ := exists_rowBehind hrow hlt
    have hge : run.entries.length ≤ count := Nat.le_of_not_lt fun hlt => hne count hlt rfl
    obtain ⟨more, rfl⟩ := Nat.exists_eq_add_of_le hge
    exact herased more (by omega) hsome
  case kept =>
    intro row hlt hstray
    refine hkept row hlt fun more hmore hself => ?_
    refine Option.not_isSome_iff_eq_none.mp fun hsome => hstray ⟨hsome, fun count hcount => ?_⟩
    rw [hself]
    exact rowBehind_ne hrow (by omega) (by omega) (by omega)
  case same =>
    intro hnone
    exact hsame fun more hmore => hnone _ (Nat.le_add_right _ _) (by omega)

/-- Once the table has been cleaned, it says the run. -/
theorem Cleaned.tabled {image' : Bytes} (h : p.Cleaned image run image')
    (hrow : run.row < p.maxItems) (hle : run.entries.length ≤ p.maxItems)
    (room : Run.bytesOf run.entries ≤ p.areaLength) (fits : ¬ p.Misfit image)
    (rows : ∀ count entry, run.entries[count]? = some entry →
      p.rowAt image (p.rowBehind run.row count) = some entry) : p.Tabled image' run := by
  refine ⟨hrow, hle, room, fun entry hentry => ?_, fun count hcount => ?_⟩
  · obtain ⟨count, hlt, rfl⟩ := List.getElem_of_mem hentry
    have hentry := rows count _ (List.getElem?_eq_getElem hlt)
    exact Decidable.byContradiction fun hmisfit =>
      fits ⟨_, _, p.rowBehind_lt run.row count, hentry, hmisfit⟩
  · rcases Nat.lt_or_ge count run.entries.length with hlt | hge
    · -- The row of an entry is kept.
      have hcells := h.kept _ (p.rowBehind_lt run.row count) fun hstray => hstray.2 count hlt rfl
      rw [rowAt, hcells, List.getElem?_eq_getElem hlt]
      exact rows count _ (List.getElem?_eq_getElem hlt)
    · -- Behind the entries, a row is stray and has been erased, or it held nothing before.
      rw [List.getElem?_eq_none hge]
      by_cases hsome : (p.rowAt image (p.rowBehind run.row count)).isSome
      · have hstray : p.Stray image run (p.rowBehind run.row count) :=
          ⟨hsome, fun other hother => rowBehind_ne hrow hcount (by omega) (by omega)⟩
        rw [rowAt, h.erased _ (p.rowBehind_lt _ _) hstray, Row.decode_erased]
      · have hcells := h.kept _ (p.rowBehind_lt run.row count) fun hstray => hsome hstray.1
        rw [rowAt, hcells]
        exact Option.not_isSome_iff_eq_none.mp hsome

/-! ## Recovery -/

/-- What recovery finds: the run that is to be selected, with nothing behind it any more. -/
def Recovered (sound : Bytes → Media g → Prop) (p : Partition) (image : Bytes)
    (after : Media g × Status) : Prop :=
  ∃ image' run, sound image' after.1 ∧ p.Tabled image' run ∧ after.2 = run.status ∧
    p.Selects image run ∧ p.Cleaned image run image'

/-- What the survey of all rows has found is the oldest item. -/
theorem Surveyed.exists_oldest {survey : Survey} (h : p.Surveyed image p.maxItems survey)
    {row : Nat} {id : UInt32} (hold : survey.oldest = Option.some (row, id)) :
    ∃ oldest, oldest.id = id ∧ p.Oldest image row oldest := by
  obtain ⟨oldest, hrow, holdest, rfl, hleast⟩ := h.some row id hold
  exact ⟨oldest, rfl, hrow, holdest, hleast, h.first row oldest.id hold⟩

/-- The items are those of the run, and their payloads can lie in the area. -/
structure Selected (p : Partition) (image : Bytes) (run : Run) : Prop where
  fits : ¬ p.Misfit image
  selects : p.Selects image run
  room : Run.bytesOf run.entries ≤ p.areaLength

/-- Once the table of a run that is kept has been cleaned, it says the run. -/
theorem Selected.tabled {image' : Bytes} (h : p.Selected image run)
    (clean : p.Cleaned image run image') : p.Tabled image' run :=
  clean.tabled h.selects.row_lt h.selects.count_le h.room h.fits fun _ _ => h.selects.rows

/-- Recovery finds the run that is to be kept, by reading; and where it does not end with that, it
erases what is behind the run. -/
theorem recover_follows (c : space.Legible p.table p.stop sound mishap) (hm : sound image m)
    (status : Status) (found : Run → Media g → Prop) {lost : Error → Media g → Prop}
    (keeps : ∀ {run m'}, p.Selected image run → sound image m' →
      (∀ row, row < p.maxItems → ¬ p.Stray image run row) → found run m')
    (erases : ∀ {run m'}, p.Selected image run → sound image m' →
      (p.eraseRows space (p.rowBehind run.row run.entries.length)
        (p.maxItems - run.entries.length)).Ends m' (fun _ => found run) lost) :
    (p.recover space).Ends (m, status)
      (fun _ after => ∃ run, found run after.1 ∧ after.2 = run.status)
      (fun e after => Halts mishap (· = image) e after.1 ∨ lost e after.1 ∨
        e = .inconsistent ∧ (p.Misfit image ∨ p.Overfull image)) := by
  simp only [recover, Action.ends_bind, Action.ends_beside]
  refine (survey_ends c hm).mono ?_ fun _ _ h => h.imp_right fun h => .inr ⟨h.1, .inl h.2.2⟩
  rintro survey m₁ ⟨h₁, hsurvey⟩
  have hfits : ¬ p.Misfit image := by
    rintro ⟨row, entry, hrow, hentry, hmisfit⟩
    exact hmisfit (hsurvey.fits row entry hrow hentry)
  cases hold : survey.oldest with
  | none =>
    -- No row holds anything, so none is stray.
    have hnone := hsurvey.none hold
    refine ⟨⟨0, []⟩, keeps ⟨hfits, .inl ⟨hnone, rfl⟩, Nat.zero_le _⟩ h₁ fun row hrow hstray => ?_,
      rfl⟩
    rw [Stray, hnone row hrow] at hstray
    cases hstray.1
  | some oldest =>
    obtain ⟨row, id⟩ := oldest
    obtain ⟨oldest, rfl, holdest⟩ := hsurvey.exists_oldest hold
    have hrow := holdest.lt
    have hrows := p.maxItems_lt
    have longest := p.longest_runFrom image hrow oldest.id p.maxItems
    have selects : p.Selects image ⟨row, p.runFrom image row oldest.id p.maxItems⟩ :=
      .inr ⟨oldest, holdest, longest⟩
    simp only [Action.ends_bind, Action.ends_modify, Action.ends_beside, Action.ends_ite,
      Action.ends_fail]
    refine (followRun_runFrom c h₁ hfits hrow (by omega) (by omega)).mono ?_ fun _ _ h => .inl h
    rintro _ m₂ ⟨h₂, rfl⟩
    simp only [Nat.zero_add]
    refine ⟨fun hlong => .inr (.inr ⟨trivial, .inr ⟨_, selects, hlong⟩⟩), fun hroom => ?_⟩
    have kept : p.Selected image ⟨row, p.runFrom image row oldest.id p.maxItems⟩ :=
      ⟨hfits, selects, Nat.le_of_not_lt hroom⟩
    refine ⟨fun _ => ?_, fun hfew => ?_⟩
    · exact (erases kept h₂).mono (fun _ _ h => ⟨_, h, rfl⟩) fun _ _ h => .inr (.inl h)
    · -- Nothing is erased only if no more rows hold something than the run has entries.
      rw [hsurvey.present] at hfew
      exact ⟨_, keeps kept h₂ fun other hother =>
        not_stray_of_count_le hrow longest (Nat.le_of_not_lt hfew) hother, rfl⟩

/-- Recovery makes a run of whatever the table holds, unless it is inconsistent. -/
theorem recover_tabled (c : space.Conduct p.table p.stop sound mishap) (hm : sound image m)
    (status : Status) :
    (p.recover space).Ends (m, status)
      (fun _ after => ¬ p.Misfit image ∧ p.Recovered sound image after)
      (fun e after => Halts mishap (fun _ => True) e after.1 ∨
        e = .inconsistent ∧ (p.Misfit image ∨ p.Overfull image)) := by
  apply (recover_follows c.toLegible hm status (fun run m' => p.Selected image run ∧
    ∃ image', sound image' m' ∧ p.Cleaned image run image')
    (fun kept h' none => ⟨kept, image, h', cleaned_self none⟩) fun kept h' => ?_).mono
  · rintro _ after ⟨run, ⟨kept, image', h', hclean⟩, hstatus⟩
    exact ⟨kept.fits, image', run, h', kept.tabled hclean, hstatus, kept.selects, hclean⟩
  · rintro e after (h | h | h)
    · exact .inl (h.mono fun _ _ _ => trivial)
    · exact .inl h
    · exact .inr h
  · apply (eraseRows_clears c h' kept.fits (p.rowBehind_lt _ _)).mono ?_ fun _ _ h => h
    rintro _ m₃ ⟨image₃, h₃, hcleared⟩
    exact ⟨kept, image₃, h₃, hcleared.cleaned kept.selects.row_lt kept.selects.count_le⟩

/-- Recovery makes a run of a run. -/
theorem Tabled.recover (c : space.Conduct p.table p.stop sound mishap) (h : p.Tabled image run)
    (hm : sound image m) (status : Status) :
    (p.recover space).Ends (m, status) (fun _ => p.Recovered sound image)
      (fun e after => Halts mishap (fun _ => True) e after.1) :=
  (recover_tabled c hm status).mono (fun _ _ h => h.2) fun _ _ h' =>
    h'.resolve_right fun h' => h'.2.elim h.not_misfit fun h'' => h.not_overlong h''.overlong

/-! ## Reading the table -/

/-- Where the table says the run that is to be selected, recovery finds it and does nothing but
read. -/
theorem Tabled.recover_reads (c : space.Legible p.table p.stop sound mishap)
    (h : p.Tabled image run) (selects : p.Selects image run) (hm : sound image m)
    (status : Status) :
    (p.recover space).Ends (m, status)
      (fun _ after => sound image after.1 ∧ after.2 = run.status)
      (fun e after => Halts mishap (· = image) e after.1) := by
  apply (recover_follows c hm status (fun run' m' => sound image m' ∧ run' = run)
    (fun kept h' _ => ⟨h', selects.unique kept.selects⟩) fun kept h' => ?_).mono
  · rintro _ after ⟨_, ⟨h', rfl⟩, hstatus⟩
    exact ⟨h', hstatus⟩
  · rintro e after (h' | h' | ⟨-, hmisfit | hfull⟩)
    · exact h'
    · exact h'
    · exact absurd hmisfit h.not_misfit
    · exact absurd hfull.overlong h.not_overlong
  · -- Behind the run there is nothing to erase.
    obtain rfl := selects.unique kept.selects
    apply (eraseRows_ends c h' (p.rowBehind_lt _ _) fun count hcount => ?_).mono
      (fun _ _ h => ⟨h, rfl⟩) fun _ _ h => h
    rw [rowBehind_rowBehind, h.rows _ (by omega), List.getElem?_eq_none (Nat.le_add_right _ _)]

/-- The oldest item of the log is that of the table: ids rise along the log. -/
theorem Holds.oldest (h : p.Holds image log) {oldest : Row}
    (first : p.entryAt log 0 = some oldest) : p.Oldest image log.row oldest := by
  have hids := h.id_le
  have hholds := h.rows 0 p.maxItems_pos
  rw [rowBehind_zero h.row_lt, first] at hholds
  obtain ⟨item, hitem, rfl⟩ := Option.map_eq_some_iff.mp first
  have hpos := (List.getElem?_eq_some_iff.mp hitem).1
  refine ⟨h.row_lt, hholds, fun other entry hother hentry => ?_,
    fun other entry hother hentry => ?_⟩
  · obtain ⟨count, hcount, -, hid⟩ := h.exists_of_rowAt hother hentry
    rw [hid]
    exact (id_le_iff (by omega) (by omega)).mpr (by omega)
  · obtain ⟨count, hcount, rfl, hid⟩ := h.exists_of_rowAt (Nat.lt_trans hother h.row_lt) hentry
    have hpos : count ≠ 0 := by
      rintro rfl
      exact absurd hother (by rw [rowBehind_zero h.row_lt]; exact Nat.lt_irrefl _)
    rw [hid]
    exact (id_lt_iff (by omega) (by omega)).mpr (by omega)

/-- From there the ids go on to the newest item, and no further. -/
theorem Holds.longest (h : p.Holds image log) :
    p.Longest image log.row (UInt32.ofNat log.id) p.maxItems (p.runOf log).entries where
  length_le := h.tabled.count_le
  rows count entry hentry := by
    have hcount := (List.getElem?_eq_some_iff.mp hentry).1
    exact (h.tabled.rows count (Nat.lt_of_lt_of_le hcount h.tabled.count_le)).trans hentry
  ids count entry hentry := by
    rw [getElem?_entries_runOf] at hentry
    obtain ⟨item, -, rfl⟩ := Option.map_eq_some_iff.mp hentry
    exact UInt32.ofNat_add log.id count
  stops hlt entry hentry := by
    have hnone := h.tabled.rows _ hlt
    rw [List.getElem?_eq_none (Nat.le_refl _)] at hnone
    exact absurd (hentry.symm.trans hnone) nofun

/-- A table that says the empty run holds nothing. -/
theorem Tabled.selects_nil (h : p.Tabled image ⟨0, []⟩) : p.Selects image ⟨0, []⟩ := by
  refine .inl ⟨fun row hrow => ?_, rfl⟩
  obtain ⟨count, hcount, rfl⟩ := exists_rowBehind h.row_lt hrow
  exact h.rows count hcount

/-- In a table that has a log, the run of what is found of it is selected. -/
theorem Holds.selects (h : p.Holds image log) : p.Selects image (p.runOf log.found) := by
  cases hitems : log.items with
  | nil =>
    rw [show log.found = Log.empty by rw [Log.found, hitems]]
    exact Tabled.selects_nil (h.empty_of_nil hitems).tabled
  | cons item items =>
    have first : p.entryAt log 0 = some _ := entryAt_of_getElem? (by rw [hitems]; rfl)
    rw [show log.found = log by rw [Log.found, hitems]]
    exact .inr ⟨_, h.oldest first, h.longest⟩

/-- Recovery finds the fill state of the log that the image holds, and changes nothing. -/
theorem recover_ends (c : space.Legible p.table p.stop sound mishap) (holds : p.Holds image log)
    (hm : sound image m) (status : Status) :
    (p.recover space).Ends (m, status)
      (fun _ after => sound image after.1 ∧ after.2 = log.found.status)
      (fun e after => Halts mishap (· = image) e after.1) := by
  have h := holds.found.tabled.recover_reads c holds.selects hm status
  rwa [holds.found.status_runOf] at h

end Partition

end CircularLog
