import CircularLog.Partition.Append
import CircularLog.Partition.Lookup
import CircularLog.Proofs.Space.Words

/-!
# Tables in machine words

A row of the table has an address and a row behind it that are machine words, and its payload lies
in an area that ends at one. So what is done with the rows of a table is what would be done with
numbers of any size: one equation for each step says so, for a row of the table. The survey goes
over batches of rows one behind the other (`survey_eq`). A search is described as one that tests
each payload by itself (`find`), and a payload is never longer than the buffer it is fetched for
(`length_of_fetch`).
-/

namespace CircularLog

variable {g : Geometry} {π : Type}

/-! ## The survey -/

/-- The survey with one more row that holds an item. -/
def Survey.add (survey : Survey) (row : Nat) (entry : Row) : Survey where
  present := survey.present + 1
  oldest :=
    match survey.oldest with
    | some (oldest, id) => if entry.id < id then some (row, entry.id) else some (oldest, id)
    | none => some (row, entry.id)

/-- A row that is added is counted. -/
theorem Survey.present_add (survey : Survey) (row : Nat) (entry : Row) :
    (survey.add row entry).present = survey.present + 1 := rfl

/-- In a survey of fewer rows than machine words can count, a row is added. -/
theorem Survey.note_eq {ε σ : Type} {survey : Survey} {row offset : Nat} {entry : Row}
    (hpresent : survey.present + 1 < 0x1_0000) (hrow : row + offset < 0x1_0000) :
    (survey.note row offset entry : Action ε σ Survey) =
      pure (survey.add (row + offset) entry) := by
  rw [note, Action.sum_eq hpresent, pure_bind]
  cases hold : survey.oldest with
  | none =>
    rw [Option.all_none, if_pos rfl, Action.sum_eq hrow, pure_bind, add, hold]
  | some oldest =>
    by_cases hless : entry.id < oldest.2
    · simp [Survey.add, hold, hless, Action.sum_eq hrow]
    · simp [Survey.add, hold, hless]

namespace Partition

variable {space : Space g} {p : Partition} {row : Nat}

/-- Go on with a survey over the bytes of the rows from `row` on. -/
def surveyRows (p : Partition) (row : Nat) (survey : Survey) : List Bytes → Except Error Survey
  | [] => .ok survey
  | bytes :: rest =>
    match Row.decode bytes with
    | none => surveyRows p (row + 1) survey rest
    | some entry =>
      if entry.Fits p.areaLength then surveyRows p (row + 1) (survey.add row entry) rest
      else .error .inconsistent

/-- Go on with a survey over batches of so many rows, from `row` on. -/
def surveyBatches (space : Space g) (p : Partition) (row : Nat) (survey : Survey) :
    List Nat → Action Error (Media g) Survey
  | [] => pure survey
  | rows :: rest => do
    let bytes ← space.read (p.rowAddress row) (rows * rowBytes)
    let survey ← Action.ofExcept (p.surveyRows row survey (bytes.chunks rowBytes))
    surveyBatches space p (row + rows) survey rest

/-- A survey counts no more rows than it goes over. -/
theorem present_of_surveyRows {survey survey' : Survey} {rows : List Bytes}
    (h : p.surveyRows row survey rows = .ok survey') :
    survey'.present ≤ survey.present + rows.length := by
  induction rows generalizing row survey with
  | nil =>
    cases h
    exact Nat.le_add_right _ _
  | cons bytes rows ih =>
    rw [surveyRows] at h
    rw [List.length_cons]
    split at h
    · exact Nat.le_trans (ih h) (by omega)
    · split at h
      · have hle := ih h
        rw [Survey.present_add] at hle
        omega
      · cases h

/-- Going over the bytes of rows that machine words can count. -/
theorem noteRows_eq {offset : Nat} {survey : Survey} {rows : List Bytes}
    (hpresent : survey.present + rows.length < 0x1_0000)
    (hrow : row + offset + rows.length ≤ 0x1_0000) :
    (p.noteRows row offset survey rows : Action Error (Media g) Survey) =
      Action.ofExcept (p.surveyRows (row + offset) survey rows) := by
  induction rows generalizing offset survey with
  | nil => rfl
  | cons bytes rows ih =>
    rw [List.length_cons] at hpresent hrow
    rw [noteRows, surveyRows]
    cases Row.decode bytes with
    | none => exact ih (by omega) (by omega)
    | some entry =>
      dsimp only
      by_cases hfits : entry.Fits p.areaLength
      · rw [if_neg (not_not_intro hfits), if_pos hfits, Survey.note_eq (by omega) (by omega),
          pure_bind]
        exact ih (by rw [Survey.present_add]; omega) (by omega)
      · rw [if_pos hfits, if_neg hfits]
        rfl

/-- So many rows are read as so many chunks. -/
theorem length_chunks_rows {bytes : Bytes} {count : Nat} (h : bytes.length = count * rowBytes) :
    (bytes.chunks rowBytes).length = count := by
  rw [Bytes.chunks, ← List.length_map List.length, Bytes.map_length_cut (Bytes.total_pieces _ _), h,
    Bytes.pieces, Nat.mul_mod_left, if_pos rfl, List.append_nil, List.length_replicate,
    Nat.mul_div_cancel _ (by decide)]

/-- The survey of the rows from one on, which is one of the table, goes over them in batches. -/
theorem noteBatches_eq {survey : Survey} (hrow : row ≤ p.maxItems) (hpresent : survey.present ≤ row)
    {batches : Nat} (enough : p.maxItems - row ≤ batches) :
    p.noteBatches space row survey batches =
      p.surveyBatches space row survey (Bytes.pieces batchRows (p.maxItems - row)) := by
  have hrows := p.maxItems_lt
  induction batches generalizing row survey with
  | zero =>
    rw [Nat.le_zero.mp enough]
    rfl
  | succ batches ih =>
    unfold noteBatches
    by_cases hend : p.maxItems ≤ row
    · rw [if_pos hend, Nat.sub_eq_zero_of_le hend]
      rfl
    · rw [if_neg hend, Action.difference_eq hrow, pure_bind, Nat.min_comm,
        Bytes.pieces_eq (by decide) (by omega : p.maxItems - row ≠ 0), surveyBatches]
      generalize hcount : min batchRows (p.maxItems - row) = count
      have hbatch : count ≤ batchRows := hcount ▸ Nat.min_le_left _ _
      have hpos : 0 < count := hcount ▸ Nat.lt_min.mpr ⟨by decide, by omega⟩
      have hsize : count * rowBytes ≤ batchRows * rowBytes := Nat.mul_le_mul_right _ hbatch
      have hbuffer : batchRows * rowBytes < 0x1_0000_0000_0000_0000 := by decide
      dsimp only
      rw [Action.product_eq (Nat.lt_of_le_of_lt hsize hbuffer), pure_bind, Action.front_eq hsize,
        pure_bind, locateRow_eq (by omega), pure_bind]
      refine Action.bind_congr_of_ok fun bytes m m' hread => ?_
      have hchunks := length_chunks_rows (Space.length_of_read hread)
      rw [noteRows_eq (by omega) (by omega), Nat.add_zero]
      -- Behind a batch, the next one starts at a row, and no more items are counted than rows.
      cases hsurvey : p.surveyRows row survey (bytes.chunks rowBytes) with
      | error e => rfl
      | ok survey' =>
        have hle := present_of_surveyRows hsurvey
        rw [Action.ofExcept, pure_bind, pure_bind, Action.sum_eq (by omega), pure_bind,
          ih (by omega) (by omega) (by omega), Nat.sub_add_eq]

/-- The survey goes over the batches of the table one behind the other. -/
theorem survey_eq : p.survey space =
    p.surveyBatches space 0 ⟨0, none⟩ (Bytes.pieces batchRows p.maxItems) :=
  noteBatches_eq (Nat.zero_le _) (Nat.le_refl _) (Nat.le_refl _)

/-! ## Rows -/

/-- Reading a row of the table. -/
theorem readRow_eq (h : row < p.maxItems) : p.readRow space row = (do
    match Row.decode (← space.read (p.rowAddress row) rowBytes) with
    | none => return none
    | some entry =>
      if entry.Fits p.areaLength then
        return some entry
      Action.fail .inconsistent) := by
  unfold readRow
  rewrite [locateRow_eq h, pure_bind]
  rfl

/-- Erasing a row of the table. -/
theorem eraseRow_eq (h : row < p.maxItems) :
    p.eraseRow space row = space.write (p.rowAddress row) Row.erased := by
  rw [eraseRow, locateRow_eq h, pure_bind]

/-- Following the run of ids from a row of the table on, when so many items can be counted. -/
theorem followRun_succ {id : UInt32} {stored filled : Nat} (h : row < p.maxItems)
    (counts : stored + 1 < 0x1_0000) (rows : Nat) :
    p.followRun space row id stored filled (rows + 1) = (do
      match ← p.readRow space row with
      | none => return (row, stored, filled)
      | some entry =>
        if entry.id = id then
          let filled ← Action.sum 0x1_0000_0000 filled entry.length.toNat
          p.followRun space (p.nextRow row) (id + 1) (stored + 1) filled rows
        else
          return (row, stored, filled)) := by
  rewrite [followRun, Action.sum_eq counts, stepRow_eq h]
  rfl

/-- Erasing rows from a row of the table on. -/
theorem eraseRows_succ (h : row < p.maxItems) (rows : Nat) :
    p.eraseRows space row (rows + 1) = (do
      if (← p.readRow space row).isSome then
        p.eraseRow space row
      p.eraseRows space (p.nextRow row) rows) := by
  simp only [eraseRows, stepRow_eq h, pure_bind]

/-! ## Items -/

/-- The next item goes behind the newest one. -/
theorem vacancy_eq {status : Status} (h : status.oldestRow < p.maxItems)
    (fits : status.stored ≤ p.maxItems) : p.vacancy space status = (do
      if status.stored = 0 then
        return (status.oldestRow, 0, 0)
      let newest := p.rowBehind status.oldestRow (status.stored - 1)
      let entry ← p.readStored space newest
      return (p.nextRow newest, entry.id + 1, entry.stop p.areaLength)) := by
  unfold vacancy
  by_cases hnone : status.stored = 0
  · rw [if_pos hnone, if_pos hnone]
  · rw [if_neg hnone, if_neg hnone, newestRow_eq h (Nat.pos_of_ne_zero hnone) fits, pure_bind,
      stepRow_eq (p.rowBehind_lt _ _), pure_bind]
    simp only [startBehind_eq, pure_bind]

/-- The end of the area is a machine word. -/
theorem area_add_lt (p : Partition) {start : Nat} (h : start ≤ p.areaLength) :
    p.area + start < 0x1_0000_0000 := by
  have hstop := p.stop_lt
  simp only [area, table, tableLength]
  omega

/-- Writing an item into a row of the table. -/
theorem writeItem_eq {entry : Row} (h : row < p.maxItems) (start : entry.start.toNat ≤ p.areaLength)
    (payload : Bytes) : p.writeItem space row entry payload = (do
      space.write (p.rowAddress row) entry.encode
      let first := min payload.length (p.areaLength - entry.start.toNat)
      space.write (p.area + entry.start.toNat) (payload.take first)
      space.write p.area (payload.drop first)) := by
  rw [writeItem, locateRow_eq h, pure_bind]
  simp only [Action.difference_eq start, pure_bind, Action.cut_eq (Nat.min_le_left _ _),
    Action.sum_eq (p.area_add_lt start)]

/-- Reading a payload that starts in the area. -/
theorem payload_eq {entry : Row} (start : entry.start.toNat ≤ p.areaLength) :
    p.payload space entry = (do
      let length := entry.length.toNat
      let first := min length (p.areaLength - entry.start.toNat)
      let front ← space.read (p.area + entry.start.toNat) first
      let back ← space.read p.area (length - first)
      return front ++ back) := by
  simp only [payload, Action.difference_eq start, pure_bind, Action.cut_eq (Nat.min_le_left _ _),
    Action.sum_eq (p.area_add_lt start)]

/-- A payload that is fetched fits into the buffer. -/
theorem fetch_eq (space : Space g) (p : Partition) (key : Key) (capacity : Nat) :
    p.fetch space key capacity = (do
      let entry ← p.entryOf space key
      if capacity < entry.length.toNat then
        Action.fail (.bufferTooSmall entry.length.toNat)
      p.payload space entry) := by
  unfold fetch
  refine congrArg _ (funext fun entry => ?_)
  by_cases hsmall : capacity < entry.length.toNat
  · rw [if_pos hsmall, if_pos hsmall]
    rfl
  · rw [if_neg hsmall, if_neg hsmall, Action.front_eq (Nat.le_of_not_lt hsmall), pure_bind]

/-- A payload is as long as its row says. -/
theorem length_of_payload {entry : Row} {m m' : Media g} {bytes : Bytes}
    (h : p.payload space entry m = .ok bytes m') : bytes.length = entry.length.toNat := by
  have parts : (p.payload space entry).Yields m (fun bytes _ => bytes.length = entry.length.toNat)
      fun _ => True := by
    unfold payload
    simp only [Action.yields_bind, Action.yields_pure]
    refine Action.yields_difference _ _ (fun _ => ?_) trivial
    have hfirst := Nat.min_le_left entry.length.toNat (p.areaLength - entry.start.toNat)
    rw [Action.cut_eq hfirst, Action.yields_pure]
    refine Action.yields_sum _ _ _ (fun _ => ?_) trivial
    refine Action.yields_of_ok fun front m₁ hfront => ?_
    refine (Action.yields_of_ok fun _ _ => Space.length_of_read).mono ?_ fun _ h => h
    intro back m₂ hback
    rw [List.length_append, Space.length_of_read hfront, hback]
    exact Nat.add_sub_of_le hfirst
  exact parts.of_ok h

/-- A payload that is fetched for a buffer is not longer than the buffer. -/
theorem length_of_fetch {key : Key} {capacity : Nat} {m m' : Media g} {bytes : Bytes}
    (h : p.fetch space key capacity m = .ok bytes m') : bytes.length ≤ capacity := by
  have fits : (p.fetch space key capacity).Yields m (fun bytes _ => bytes.length ≤ capacity)
      fun _ => True := by
    rw [fetch_eq]
    simp only [Action.yields_bind, Action.yields_ite, Action.yields_fail]
    refine Action.yields_of_forall _ _ (fun entry m₁ => ⟨fun _ => trivial, fun hfits => ?_⟩)
      fun _ => trivial
    refine (Action.yields_of_ok fun _ _ => length_of_payload).mono ?_ fun _ h => h
    exact fun _ _ hbytes => hbytes ▸ Nat.le_of_not_lt hfits
  exact fits.of_ok h

/-- The key of the next item names the next row, as a key has a row of the table. -/
theorem successor_eq (space : Space g) (p : Partition) (status : Status) (key : Key) :
    p.successor space status key = (do
      p.requireRow key
      if (← p.current space key).isNone then
        return ← p.oldestKey space status
      let next : Key := ⟨key.partition, p.nextRow key.row, key.id + 1⟩
      if (← p.current space next).isNone then
        Action.fail .notFound
      return next) := by
  unfold successor requireRow
  split
  · next h => simp only [stepRow_eq h, pure_bind]
  · rfl

/-! ## Searches -/

/-- Put a payload to a test that has a state of its own. -/
def tested (test : Bytes → StateM π Bool) (item : Option Bytes) :
    Action Error (Media g × π) Bool := fun (media, state) =>
  match item with
  | none => .ok false (media, state)
  | some bytes =>
    let (verdict, state) := test bytes state
    .ok verdict (media, state)

/-- The first key from `key` on whose item passes the test, over so many items at most, each payload
being one that a buffer of so many bytes can hold. -/
def findFrom (space : Space g) (p : Partition) (status : Status) (capacity : Nat)
    (test : Bytes → StateM π Bool) (key : Key) : Nat → Action Error (Media g × π) Key
  | 0 => Action.fail .notFound
  | items + 1 => do
    if ← tested test (← (p.fetch? space key capacity).beside) then
      return key
    findFrom space p status capacity test (← (p.successor space status key).beside) items

/-- The key of the oldest item that passes the test; no item is tested twice. -/
def find (space : Space g) (p : Partition) (status : Status) (capacity : Nat)
    (test : Bytes → StateM π Bool) : Action Error (Media g × π) Key := do
  p.findFrom space status capacity test (← (p.oldestKey space status).beside) p.maxItems

end Partition

end CircularLog
