import CircularLog.Proofs.Partition.Boot

/-!
# Starting what has been started

A partition `Rests` in a run if starting it has nothing left to do: the header is there, and the
table says just the run that recovery selects in it. Starting it again then reads and does nothing
else (`Rests.start_reads`). What has been started rests (`Started.rests`): of the rows that were
there only those of the selected run are left, so that the row of its oldest item is still the first
of those with the smallest id, and the run goes on from there as it did.
-/

namespace CircularLog

namespace Partition

variable {g : Geometry} {space : Space g} {p : Partition} {m : Media g}
  {sound : Bytes → Media g → Prop} {mishap : Space.Mishap g} {image image' : Bytes} {run : Run}

open Space (Halts)

/-- The oldest item is the first entry of the run. -/
theorem Oldest.head {oldest : Row} (h : p.Oldest image run.row oldest)
    (longest : p.Longest image run.row oldest.id p.maxItems run.entries) :
    run.entries[0]? = some oldest := by
  have hholds : p.rowAt image (p.rowBehind run.row 0) = some oldest := by
    rw [rowBehind_zero h.lt, h.holds]
  cases hentries : run.entries with
  | nil =>
    have hstops := longest.stops (by rw [hentries]; exact p.maxItems_pos) oldest
    rw [hentries, List.length_nil] at hstops
    exact absurd (by simp) (hstops hholds)
  | cons entry others =>
    have hfirst := longest.rows 0 entry (by rw [hentries]; rfl)
    exact hfirst.symm.trans hholds

/-- In a table that says the run that has been selected, the same run is selected. -/
theorem Tabled.selects (h : p.Tabled image' run) (selects : p.Selects image run) :
    p.Selects image' run := by
  -- What a row still holds, it held before.
  have before {row : Nat} {entry : Row} (hrow : row < p.maxItems)
      (hentry : p.rowAt image' row = some entry) : p.rowAt image row = some entry := by
    obtain ⟨count, hcount, rfl⟩ := exists_rowBehind h.row_lt hrow
    rw [h.rows count hcount] at hentry
    exact selects.rows hentry
  rcases selects with ⟨-, rfl⟩ | ⟨oldest, hold, hlong⟩
  · exact h.selects_nil
  · refine .inr ⟨oldest, ⟨hold.lt, ?_, ?_, ?_⟩, ⟨hlong.length_le, ?_, hlong.ids, ?_⟩⟩
    · have hfirst := h.rows 0 p.maxItems_pos
      rwa [rowBehind_zero h.row_lt, hold.head hlong] at hfirst
    · exact fun other entry hother hentry => hold.least other entry hother (before hother hentry)
    · exact fun other entry hother hentry => hold.first other entry hother
        (before (Nat.lt_trans hother hold.lt) hentry)
    · intro count entry hentry
      have hcount := (List.getElem?_eq_some_iff.mp hentry).1
      rw [h.rows count (Nat.lt_of_lt_of_le hcount h.count_le), hentry]
    · intro hlt entry hentry
      rw [h.rows _ hlt, List.getElem?_eq_none (Nat.le_refl _)] at hentry
      cases hentry

/-- Starting the partition has nothing left to do. -/
structure Rests (p : Partition) (image : Bytes) (run : Run) : Prop where
  header : image.slice p.base headerBytes = magic
  tabled : p.Tabled image run
  selects : p.Selects image run

/-- What has been started rests. -/
theorem Started.rests (h : p.Started image run image') : p.Rests image' run where
  header := h.header
  tabled := h.tabled
  selects := by
    by_cases hheader : image.slice p.base headerBytes = magic
    · exact h.tabled.selects (h.found hheader).1
    · obtain ⟨hrun, -⟩ := h.fresh hheader
      exact hrun ▸ (hrun ▸ h.tabled).selects_nil

/-- What rests is only read when it is started, and has the fill state of its run. -/
theorem Rests.start_reads (c : space.Legible p.base p.stop sound mishap) (h : p.Rests image run)
    (hm : sound image m) :
    (do p.ensureFormatted space
        (p.recover space).startingFrom Status.empty).Ends m
      (fun status m' => sound image m' ∧ status = run.status)
      (Halts mishap (· = image)) := by
  have hparts := p.parts
  simp only [ensureFormatted, Action.ends_bind, Action.ends_ite, Action.ends_pure]
  apply (c.read hm (Nat.le_refl _) (by omega)).mono ?_ fun _ _ h => h
  rintro _ m₁ ⟨h₁, rfl⟩
  refine ⟨fun _ => ?_, fun hno => absurd h.header hno⟩
  rw [Action.ends_startingFrom]
  exact h.tabled.recover_reads (c.within (by omega) (Nat.le_refl _)) h.selects h₁ Status.empty

end Partition

end CircularLog
