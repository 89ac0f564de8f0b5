import CircularLog.Proofs.Partition.Table

/-!
# Chains

A partition that has been set up has a chain if its table says a linked run (`Partition.Charts`). An
append leaves a chain with the next entry behind the others (`Charts.append_ends`), whatever the ids
are: they may have come to the largest one and gone on with zero. Recovery starts with the smallest
id, so of a chain whose ids have gone on with zero it finds the part from there on, and of any other
the whole (`Run.found`, `Charts.recover_ends`).
-/

namespace CircularLog

namespace Run

variable {p : Partition} {image : Bytes} {run : Run}

/-- How many of the entries stand in front of the one with which the ids have gone on with zero. -/
def wrapped (run : Run) : Nat :=
  match run.entries with
  | [] => 0
  | oldest :: others =>
    if oldest.id.toNat + others.length < 0x1_0000_0000 then 0 else 0x1_0000_0000 - oldest.id.toNat

/-- What recovery finds of the run. -/
def found (p : Partition) (run : Run) : Run :=
  match run.entries with
  | [] => ⟨0, []⟩
  | _ :: _ => run.drop p run.wrapped

/-- Of a run with entries, recovery finds those behind the turn of the ids. -/
theorem found_of_ne_nil (p : Partition) (some : run.entries ≠ []) :
    run.found p = run.drop p run.wrapped := by
  unfold found
  split
  · next hnil => exact absurd hnil some
  · rfl

/-- The newest entry never stands in front of it. -/
theorem wrapped_lt (some : run.entries ≠ []) : run.wrapped < run.entries.length := by
  unfold wrapped
  split
  · next hnil => exact absurd hnil some
  · next oldest others hcons =>
    rw [hcons, List.length_cons]
    split <;> omega

/-- So it does of an empty one. -/
theorem entries_found (p : Partition) (run : Run) :
    (run.found p).entries = run.entries.drop run.wrapped := by
  unfold found
  split
  · next hnil => rw [hnil, List.drop_nil]
  · rfl

/-- As long as the ids have not gone on with zero, recovery finds the run. -/
theorem found_eq (h : run.row < p.maxItems) (some : run.entries ≠ []) (hwrapped : run.wrapped = 0) :
    run.found p = run := by
  rw [found_of_ne_nil p some, hwrapped, drop_zero h]

/-- What is found of a linked run is linked. -/
theorem Linked.found (h : run.Linked p) : (run.found p).Linked p := by
  show List.IsChain _ (run.found p).entries
  rw [entries_found]
  exact h.drop run.wrapped

end Run

namespace Partition

variable {g : Geometry} {space : Space g} {p : Partition} {m : Media g}
  {sound : Bytes → Media g → Prop} {image image' : Bytes} {run run' : Run} {payload : Bytes}

/-! ## Which entries recovery finds -/

/-- From an entry of a linked run, the ids go on to the newest one and no further: behind it a row
is free, or the oldest entry follows, whose id is another one. -/
theorem Tabled.runFrom_eq (h : p.Tabled image run) (linked : run.Linked p) {oldest : Row}
    (first : run.entries[0]? = some oldest) {count rows : Nat} (hcount : count ≤ run.entries.length)
    (hrows : run.entries.length ≤ count + rows) :
    p.runFrom image (p.rowBehind run.row count) (oldest.id + UInt32.ofNat count) rows =
      run.entries.drop count := by
  have hle := h.count_le
  have hlt := p.maxItems_lt
  induction rows generalizing count with
  | zero => rw [runFrom, List.drop_of_length_le (by omega)]
  | succ rows ih =>
    rw [runFrom]
    -- There is a next entry, or this is where the newest one ends.
    rcases Nat.lt_or_eq_of_le hcount with hless | rfl
    · rw [h.rows count (by omega), List.getElem?_eq_getElem hless]
      have hid := linked.id_eq first (List.getElem?_eq_getElem hless)
      have hnext : oldest.id + UInt32.ofNat count + 1 = oldest.id + UInt32.ofNat (count + 1) := by
        rw [UInt32.add_assoc]
        congr 1
        exact (UInt32.ofNat_add count 1).symm
      simp only [if_pos hid, nextRow_rowBehind, hnext]
      rw [ih (by omega) (by omega), ← List.drop_eq_getElem_cons hless]
    · rw [List.drop_length]
      have hpos := (List.getElem?_eq_some_iff.mp first).1
      rcases Nat.lt_or_eq_of_le hle with hfree | hfull
      · rw [h.rows _ hfree, List.getElem?_eq_none (Nat.le_refl _)]
      · -- Once around the table, the oldest entry has another id.
        have haround : p.rowBehind run.row run.entries.length = p.rowBehind run.row 0 := by
          have hrow := h.row_lt
          rw [rowBehind_eq hrow hle, rowBehind_zero hrow, if_neg (by omega)]
          omega
        have hne : oldest.id ≠ oldest.id + UInt32.ofNat run.entries.length := by
          intro hsame
          have := congrArg UInt32.toNat hsame
          rw [UInt32.toNat_add, UInt32.toNat_ofNat_of_lt' (by show _ < 4294967296; omega)] at this
          have := oldest.id.toNat_lt
          omega
        rw [haround, h.rows 0 (by omega), first]
        simp only [if_neg hne]

/-- What recovery selects in the table of a linked run. -/
theorem Selects.eq_found (h : p.Selects image run') (tabled : p.Tabled image run)
    (linked : run.Linked p) : run' = run.found p := by
  have hle := tabled.count_le
  have hlt := p.maxItems_lt
  rcases h with ⟨hnone, rfl⟩ | ⟨least, ⟨hrow, hleast, hmin, -⟩, hlong⟩
  · -- No row holds anything, so there is no entry.
    have hnil : run.entries = [] := by
      refine List.eq_nil_of_length_eq_zero (Nat.eq_zero_of_not_pos fun hpos => ?_)
      have hfirst := tabled.rows 0 p.maxItems_pos
      rw [hnone _ (p.rowBehind_lt _ _), List.getElem?_eq_getElem hpos] at hfirst
      cases hfirst
    rw [Run.found, hnil]
  · obtain ⟨count, hcount, hbehind⟩ := exists_rowBehind tabled.row_lt hrow
    rw [hbehind, tabled.rows count hcount] at hleast
    obtain ⟨hless, -⟩ := List.getElem?_eq_some_iff.mp hleast
    have hpos : 0 < run.entries.length := by omega
    have first := List.getElem?_eq_getElem hpos
    have hid {n : Nat} (hn : n < run.entries.length) : run.entries[n].id.toNat =
        (run.entries[0].id.toNat + n) % 4294967296 := by
      rw [linked.id_eq first (List.getElem?_eq_getElem hn), UInt32.toNat_add,
        UInt32.toNat_ofNat_of_lt' (by show _ < 4294967296; omega)]
    have hleast' : least.id.toNat = (run.entries[0].id.toNat + count) % 4294967296 := by
      rw [← hid hless]
      rw [List.getElem?_eq_getElem hless] at hleast
      rw [Option.some.inj hleast]
    -- The smallest id is that of the oldest entry, or zero.
    have hwrapped : count = run.wrapped := by
      have hsmall {n : Nat} (hn : n < run.entries.length) :
          least.id.toNat ≤ run.entries[n].id.toNat := by
        refine UInt32.le_iff_toNat_le.mp (hmin _ _ (p.rowBehind_lt run.row n) ?_)
        rw [tabled.rows n (by omega), List.getElem?_eq_getElem hn]
      have hfirst := hsmall hpos
      have hold := run.entries[0].id.toNat_lt
      obtain ⟨oldest, others, hcons⟩ := List.exists_cons_of_length_pos hpos
      have holdest : run.entries[0].id = oldest.id := by simp [hcons]
      have hothers : run.entries.length = others.length + 1 := by rw [hcons, List.length_cons]
      rw [Run.wrapped, hcons]
      dsimp only
      rw [← holdest]
      split
      · omega
      · next hover =>
        have hzero := hsmall (by omega : 0x1_0000_0000 - run.entries[0].id.toNat <
          run.entries.length)
        rw [hid (by omega)] at hzero
        omega
    subst hwrapped
    have some : run.entries ≠ [] := List.length_pos_iff.mp hpos
    have hleastId : least.id = run.entries[0].id + UInt32.ofNat run.wrapped := by
      rw [List.getElem?_eq_getElem hless] at hleast
      rw [← Option.some.inj hleast, linked.id_eq first (List.getElem?_eq_getElem hless)]
    rw [Run.found_of_ne_nil p some, Run.drop]
    have hentries := hlong.eq_runFrom hrow
    obtain ⟨row', entries'⟩ := run'
    dsimp only at hbehind hentries
    rw [hbehind, hleastId, tabled.runFrom_eq linked first (by omega) (by omega)] at hentries
    rw [hbehind, hentries]

/-! ## Chains -/

/-- The partition has been set up, and its table says a linked run. -/
structure Charts (p : Partition) (image : Bytes) (run : Run) : Prop where
  header : image.slice p.base headerBytes = magic
  tabled : p.Tabled image run
  linked : run.Linked p

/-- What the table and the fill state of a partition say agrees: these entries are in the rows from
the oldest on and nothing is in the others, ids and payloads follow each other, and the payloads fit
into the area side by side. -/
structure Ordered (p : Partition) (image : Bytes) (status : Status)
    (entries : List Row) : Prop where
  row_lt : status.oldestRow < p.maxItems
  stored_le : status.stored ≤ p.maxItems
  stored_eq : status.stored = entries.length
  rows : ∀ count, count < p.maxItems →
    p.rowAt image (p.rowBehind status.oldestRow count) = entries[count]?
  ids : entries.IsChain fun older newer => newer.id = older.id + 1
  starts_lt : ∀ entry ∈ entries, entry.start.toNat < p.areaLength
  starts : entries.IsChain fun older newer =>
    newer.start.toNat = (older.start.toNat + older.length.toNat) % p.areaLength
  filled_eq : status.filled = (entries.map fun entry => entry.length.toNat).sum
  filled_le : status.filled ≤ p.areaLength
  apart : entries.Pairwise fun older newer => ∀ address,
    ¬ (p.Covers older address ∧ p.Covers newer address)

/-- A chain is in order. -/
theorem Charts.ordered (h : p.Charts image run) : p.Ordered image run.status run.entries where
  row_lt := h.tabled.row_lt
  stored_le := h.tabled.count_le
  stored_eq := rfl
  rows := h.tabled.rows
  ids := List.IsChain.imp (fun _ _ hfollows => hfollows.1) h.linked
  starts_lt entry hentry := (h.tabled.fits entry hentry).1
  starts := List.IsChain.imp (fun _ _ hfollows => hfollows.2) h.linked
  filled_eq := rfl
  filled_le := h.tabled.bytes_le
  apart := h.linked.pairwise_apart h.tabled.bytes_le fun entry hentry =>
    (h.tabled.fits entry hentry).1

/-- The chain does not depend on anything but the header and the table. -/
theorem Charts.congr (h : p.Charts image run)
    (same : ∀ i, p.base ≤ i → i < p.area → image'[i]? = image[i]?) : p.Charts image' run where
  header := by
    have hparts := p.parts
    rw [← h.header]
    exact Bytes.slice_congr fun i hi => same _ (by omega) (by omega)
  tabled := by
    have hparts := p.parts
    exact h.tabled.congr fun i hi hi' => same i (by omega) hi'
  linked := h.linked

/-- A partition that lies apart has the chain that it had. -/
theorem Confined.charts {q : Partition} (h : p.Confined image image')
    (apart : p.stop ≤ q.base ∨ q.stop ≤ p.base) (charts : q.Charts image run) :
    q.Charts image' run := by
  have hparts := q.parts
  exact charts.congr fun i _ _ => h.outside i (by omega)

/-- A log is a chain. -/
theorem Holds.charts {log : Log} (h : p.Holds image log) : p.Charts image (p.runOf log) :=
  ⟨h.header, h.tabled, h.linked⟩

/-- An empty log is an empty chain. -/
theorem Holds.charts_empty (h : p.Holds image Log.empty) : p.Charts image ⟨0, []⟩ := h.charts

/-- Between two images, only bytes of the table and the area have changed. -/
structure Beneath (p : Partition) (image image' : Bytes) : Prop where
  confined : p.Confined image image'
  header : image'.slice p.base headerBytes = image.slice p.base headerBytes

/-- Changes behind the header, and in front of the end, are such changes. -/
theorem beneath_of_since (hlen : image'.length = image.length)
    (since : ∀ i, i < p.table ∨ p.stop ≤ i → image'[i]? = image[i]?) : p.Beneath image image' := by
  have hparts := p.parts
  exact ⟨⟨hlen, fun i hi => since i (by omega)⟩,
    Bytes.slice_congr fun i hi => since _ (.inl (by omega))⟩

/-- An append changes bytes of the table and the area only. -/
theorem beneath_lengthened (fits : p.stop ≤ image.length) (hrow : run.row < p.maxItems)
    (storable : p.Storable payload) (count : Nat) :
    p.Beneath image (p.lengthened image run count payload) := by
  have h : p.Replaces image run.row count (run.freeRow p) (run.nextEntry p payload.length)
      (p.lengthened image run count payload) := replaces_lengthened fits hrow storable
  exact beneath_of_since h.length fun i hi =>
    h.outside (p.rowBehind_lt _ _) (fits_nextEntry run storable) hi

section Steps

variable (c : space.Conduct p.table p.stop sound .never)
include c

/-- An append puts the next entry behind the others, at the expense of as few of the oldest as will
do; or the payload is too long, and it does nothing. -/
theorem Charts.append_ends (h : p.Charts image run) (hm : sound image m) (payload : Bytes) :
    (p.append space payload).Ends (m, run.status)
      (fun place after => place = (run.freeRow p, run.nextId) ∧ p.Storable payload ∧
        ∃ count, run.Fewest p payload.length count ∧
          sound (p.lengthened image run count payload) after.1 ∧
          p.Charts (p.lengthened image run count payload)
            ((run.drop p count).push (run.nextEntry p payload.length)) ∧
          after.2 = ((run.drop p count).push (run.nextEntry p payload.length)).status)
      (fun e after => e = .outOfRoom ∧ ¬ p.Storable payload ∧ after = (m, run.status)) := by
  have fits := Nat.le_trans c.inside (Nat.le_of_eq (c.length hm).symm)
  apply (h.tabled.append_ends c hm payload).mono ?_ fun _ _ h => h
  rintro _ after ⟨storable, rfl, count, hfewest, h', htabled, hstatus⟩
  have beneath := beneath_lengthened fits h.tabled.row_lt storable count
  exact ⟨rfl, storable, count, hfewest, h',
    ⟨beneath.header.trans h.header, htabled, h.linked.push count _⟩, hstatus⟩

/-- Recovery finds what `Run.found` says, and leaves the area; and where it finds the whole run it
leaves everything. -/
theorem Charts.recover_ends (h : p.Charts image run) (hm : sound image m) (status : Status) :
    (p.recover space).Ends (m, status)
      (fun _ after => after.2 = (run.found p).status ∧ ∃ image', sound image' after.1 ∧
        p.Retabled image image' ∧ p.Charts image' (run.found p) ∧
        (run.wrapped = 0 → image' = image))
      (fun _ _ => False) := by
  refine (h.tabled.recover (c.since image) ⟨hm, fun _ _ => rfl⟩ status).mono ?_ fun _ _ h => h.1
  rintro _ after ⟨image', run', ⟨h', since⟩, htabled, hstatus, hselects, hretabled, -, -, hsame⟩
  obtain rfl := hselects.eq_found h.tabled h.linked
  have beneath : p.Beneath image image' :=
    beneath_of_since ((c.length h').trans (c.length hm).symm) since
  refine ⟨hstatus, image', h', hretabled, ⟨beneath.header.trans h.header, htabled, h.linked.found⟩,
    fun hwrapped => hsame ?_⟩
  intro count hcount hlt
  rw [Run.entries_found, hwrapped, List.drop_zero] at hcount
  by_cases some : run.entries = []
  · obtain ⟨n, hn, heq⟩ := exists_rowBehind h.tabled.row_lt (p.rowBehind_lt (run.found p).row count)
    rw [heq, h.tabled.rows n hn, some]
    rfl
  · rw [Run.found_eq h.tabled.row_lt some hwrapped, h.tabled.rows count hlt,
      List.getElem?_eq_none hcount]

end Steps

/-! ## Starting again -/

/-- The partition has a chain, or has no header and is to have the empty one. -/
def Restarts (p : Partition) (image : Bytes) (run : Run) : Prop :=
  p.Charts image run ∨ image.slice p.base headerBytes ≠ magic ∧ run = ⟨0, []⟩

/-- What changes in another partition has no part in how this one starts again. -/
theorem Confined.restarts {q : Partition} (h : p.Confined image image')
    (apart : p.stop ≤ q.base ∨ q.stop ≤ p.base) (restarts : q.Restarts image run) :
    q.Restarts image' run := by
  refine restarts.imp (h.charts apart) fun ⟨hheader, hrun⟩ => ⟨?_, hrun⟩
  have hparts := q.parts
  rwa [Bytes.slice_congr fun i hi => h.outside _ (by omega)]

/-- The partition has what is found of the chain. The payloads of a chain are where they were, and
if its ids have not gone on with zero, nothing of it has changed. -/
structure Restarted (p : Partition) (image : Bytes) (run : Run) (image' : Bytes) : Prop where
  charts : p.Charts image' (run.found p)
  area : p.Charts image run → ∀ i, p.area ≤ i → i < p.stop → image'[i]? = image[i]?
  same : p.Charts image run → run.wrapped = 0 →
    ∀ i, p.base ≤ i → i < p.stop → image'[i]? = image[i]?

/-- The rows of what is found say what they said. -/
theorem Restarted.rowAt_eq (h : p.Restarted image run image') (charts : p.Charts image run)
    {count : Nat} (kept : run.wrapped ≤ count) (hcount : count < run.entries.length) :
    p.rowAt image' (p.rowBehind run.row count) = p.rowAt image (p.rowBehind run.row count) := by
  have some : run.entries ≠ [] := List.length_pos_iff.mp (Nat.zero_lt_of_lt hcount)
  have hlt := Nat.lt_of_lt_of_le hcount charts.tabled.count_le
  have hrow : p.rowBehind (run.found p).row (count - run.wrapped) = p.rowBehind run.row count := by
    rw [Run.found_of_ne_nil p some, Run.drop, p.rowBehind_rowBehind, Nat.add_sub_cancel' kept]
  have hfound := h.charts.tabled.rows (count - run.wrapped)
    (Nat.lt_of_le_of_lt (Nat.sub_le _ _) hlt)
  rw [hrow, Run.entries_found, List.getElem?_drop, Nat.add_sub_cancel' kept] at hfound
  rw [hfound, charts.tabled.rows count hlt]

/-- What is found depends on the bytes of the partition only. -/
theorem Restarted.congr {image'' : Bytes} (h : p.Restarted image run image')
    (same : ∀ i, p.base ≤ i → i < p.stop → image''[i]? = image'[i]?) :
    p.Restarted image run image'' := by
  have hparts := p.parts
  refine ⟨h.charts.congr fun i hi hi' => same i hi (by omega), fun hcharts i hi hi' => ?_,
    fun hcharts hwrapped i hi hi' => ?_⟩
  · exact (same i (by omega) hi').trans (h.area hcharts i hi hi')
  · exact (same i hi hi').trans (h.same hcharts hwrapped i hi hi')

/-- A partition is set up and its fill state is found. -/
theorem Restarts.ends (c : space.Conduct 0 space.total sound .never) (fits : p.stop ≤ space.total)
    (h : p.Restarts image run) (hm : sound image m) :
    (do p.ensureFormatted space
        (p.recover space).startingFrom Status.empty).Ends m
      (fun status m' => status = (run.found p).status ∧ ∃ image', sound image' m' ∧
        p.Confined image image' ∧ p.Restarted image run image')
      (fun _ _ => False) := by
  have hparts := p.parts
  have cBase : space.Conduct p.base p.stop sound .never := c.within (Nat.zero_le _) fits
  simp only [Action.ends_bind, Action.ends_startingFrom]
  rcases h with charts | ⟨blank, rfl⟩
  · simp only [ensureFormatted, Action.ends_bind, Action.ends_ite, Action.ends_pure]
    refine (cBase.read hm (Nat.le_refl _) (by omega)).mono ?_ fun _ _ h => h.1.elim
    rintro _ m₁ ⟨h₁, rfl⟩
    refine ⟨fun _ => ?_, fun hno => absurd charts.header hno⟩
    refine (charts.recover_ends (c.part fits) h₁ Status.empty).mono ?_ fun _ _ h => h
    rintro _ ⟨m₂, _⟩ ⟨rfl, image', h₂, hretabled, hcharts, hsame⟩
    exact ⟨rfl, image', h₂, hretabled.confined, hcharts, fun _ => hretabled.area,
      fun _ hwrapped _ _ _ => hsame hwrapped ▸ rfl⟩
  · refine (p.ensureFormatted_ends cBase hm (.inr ⟨blank, rfl⟩)).mono ?_ fun _ _ h => h.1.elim
    rintro _ m₁ ⟨image₁, h₁, hconfined, holds⟩
    refine (holds.charts_empty.recover_ends (c.part fits) h₁ Status.empty).mono ?_ fun _ _ h => h
    rintro _ ⟨m₂, _⟩ ⟨rfl, image', h₂, hretabled, hcharts, -⟩
    exact ⟨rfl, image', h₂, hconfined.trans hretabled.confined, hcharts,
      fun h => absurd h.header blank, fun h => absurd h.header blank⟩

end Partition

end CircularLog
