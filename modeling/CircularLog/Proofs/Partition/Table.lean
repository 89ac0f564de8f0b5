import CircularLog.Store.Report
import CircularLog.Proofs.Partition.Effect
import CircularLog.Proofs.Partition.Recovery

/-!
# What becomes of a run

Appending leads from run to run (`append_tabled`), and whatever is asked of a run is answered
(`Tabled.oldestKey`, `Tabled.successor`, `Tabled.fetch`, `Tabled.find`): without faults, nothing is
inconsistent.
-/

namespace CircularLog

namespace Partition

variable {g : Geometry} {space : Space g} {p : Partition} {m : Media g}
  {sound : Bytes → Media g → Prop} {mishap : Space.Mishap g} {image : Bytes} {run : Run}
  {payload : Bytes} {α : Type}

open Space (Halts)

/-! ## Asking -/

/-- What is asked of a partition is answered, or refused for a reason. -/
def Answers (sound : Bytes → Media g → Prop) (mishap : Space.Mishap g) (image : Bytes)
    (x : Action Error (Media g) α) (m : Media g) : Prop :=
  x.Ends m (fun _ => sound image) fun e m' =>
    Halts mishap (· = image) e m' ∨ sound image m' ∧ e ≠ .inconsistent

section Asking

variable (c : space.Conduct p.table p.stop sound mishap) (h : p.Tabled image run)
  (hm : sound image m)
include c h hm

/-- Reading a row that holds an entry gives it. -/
theorem Tabled.readStored {count : Nat} {entry : Row} (hentry : run.entries[count]? = some entry) :
    (p.readStored space (p.rowBehind run.row count)).Ends m
      (fun stored m' => sound image m' ∧ stored = entry) (Halts mishap (· = image)) := by
  have hcount := (List.getElem?_eq_some_iff.mp hentry).1
  have hle := h.count_le
  rw [Partition.readStored, Action.ends_bind]
  refine (readRow_ends c.toLegible hm (p.rowBehind_lt _ _) fun entry hentry => ?_).mono
    ?_ fun _ _ h => h
  · exact Decidable.byContradiction fun hmisfit =>
      h.not_misfit ⟨_, entry, p.rowBehind_lt _ _, hentry, hmisfit⟩
  rintro _ m₁ ⟨h₁, rfl⟩
  rw [h.rows count (by omega), hentry]
  exact ⟨h₁, rfl⟩

/-- Looking for the row of a key gives an entry that fits, if any. -/
theorem Tabled.current {key : Key} (hrow : key.row < p.maxItems) :
    (p.current space key).Ends m
      (fun found m' => sound image m' ∧ ∀ entry, found = some entry → entry.Fits p.areaLength)
      (Halts mishap (· = image)) := by
  have hfits (entry : Row) (hentry : p.rowAt image key.row = some entry) :
      entry.Fits p.areaLength := Decidable.byContradiction fun hmisfit =>
    h.not_misfit ⟨_, entry, hrow, hentry, hmisfit⟩
  simp only [Partition.current, Action.ends_bind, Action.ends_pure]
  refine (readRow_ends c.toLegible hm hrow hfits).mono ?_ fun _ _ h => h
  rintro _ m₁ ⟨h₁, rfl⟩
  exact ⟨h₁, fun entry hentry => hfits entry (Option.filter_eq_some_iff.mp hentry).1⟩

/-- Asking for the oldest key is answered. -/
theorem Tabled.oldestKey : Answers sound mishap image (p.oldestKey space run.status) m := by
  rw [Answers, Partition.oldestKey, Action.ends_ite]
  refine ⟨fun hzero => .inr ⟨hm, by decide⟩, fun hpos => ?_⟩
  have hlt : 0 < run.entries.length := Nat.pos_of_ne_zero hpos
  have hread := h.readStored c hm (List.getElem?_eq_getElem hlt)
  rw [rowBehind_zero h.row_lt] at hread
  simp only [Action.ends_bind, Action.ends_pure]
  exact hread.mono (fun _ _ h => h.1) fun _ _ h => .inl h

/-- Asking for the next key is answered, whatever the key. -/
theorem Tabled.successor (key : Key) :
    Answers sound mishap image (p.successor space run.status key) m := by
  rw [Answers, successor_eq]
  simp only [requireRow, Action.ends_bind, Action.ends_ite, Action.ends_pure, Action.ends_fail]
  refine ⟨fun hrow => ?_, fun _ => .inr ⟨hm, by decide⟩⟩
  refine (h.current c hm hrow).mono ?_ fun _ _ h => .inl h
  rintro found m₁ ⟨h₁, -⟩
  refine ⟨fun _ => h.oldestKey c h₁, fun _ => ?_⟩
  refine (h.current c h₁ (p.nextRow_lt key.row)).mono ?_ fun _ _ h => .inl h
  rintro found m₂ ⟨h₂, -⟩
  exact ⟨fun _ => .inr ⟨h₂, by decide⟩, fun _ => h₂⟩

/-- Asking for the row of a key gives an entry that fits, or is refused. -/
theorem Tabled.entryOf (key : Key) :
    (p.entryOf space key).Ends m (fun entry m' => sound image m' ∧ entry.Fits p.areaLength)
      (fun e m' => Halts mishap (· = image) e m' ∨ sound image m' ∧ e ≠ .inconsistent) := by
  simp only [Partition.entryOf, requireRow, Action.ends_bind, Action.ends_ite, Action.ends_pure,
    Action.ends_fail]
  refine ⟨fun hrow => ?_, fun _ => .inr ⟨hm, by decide⟩⟩
  refine (h.current c hm hrow).mono ?_ fun _ _ h => .inl h
  rintro found m₁ ⟨h₁, hfits⟩
  cases found with
  | none => exact .inr ⟨h₁, by decide⟩
  | some entry => exact ⟨h₁, hfits entry rfl⟩

/-- Asking for a length is answered. -/
theorem Tabled.itemLength (key : Key) :
    Answers sound mishap image (p.itemLength space key) m := by
  simp only [Answers, Partition.itemLength, Action.ends_bind, Action.ends_pure]
  exact (h.entryOf c hm key).mono (fun _ _ h => h.1) fun _ _ h => h

/-- Fetching an item is answered, however long the buffer is. -/
theorem Tabled.fetch (key : Key) (capacity : Nat) :
    Answers sound mishap image (p.fetch space key capacity) m := by
  rw [Answers, fetch_eq]
  simp only [Action.ends_bind, Action.ends_ite, Action.ends_fail]
  refine (h.entryOf c hm key).mono ?_ fun _ _ h => h
  rintro entry m₁ ⟨h₁, hfits⟩
  refine ⟨fun _ => .inr ⟨h₁, by simp⟩, fun _ => ?_⟩
  exact (payload_eq_ring c h₁ hfits).mono (fun _ _ h => h.1) fun _ _ h => .inl h

end Asking

/-- A report shows whatever the rows hold. -/
theorem report_answers (c : space.Conduct p.table p.stop sound mishap) (hm : sound image m)
    (status : Status) : Answers sound mishap image (p.report space status) m := by
  have inside := c.inside
  have rows (row : Nat) (text : String) (count : Nat) (hrow : row + count ≤ p.maxItems) :
      Answers sound mishap image (p.reportRows space row text count) m := by
    induction count generalizing m row text with
    | zero => exact hm
    | succ count ih =>
      have hlt : row < p.maxItems := by omega
      have hmem := rowAddress_mem hlt
      have hparts := p.parts
      simp only [Answers, Partition.reportRows, locateRow_eq hlt, pure_bind, Action.ends_bind]
      apply (c.read hm (by omega) (by omega)).mono ?_ fun _ _ h => .inl h
      intro bytes m₁ h₁
      exact ih h₁.1 _ _ (by omega)
  exact rows 0 _ p.maxItems (by omega)

/-! ## Searching -/

section Searching

variable {π : Type} (c : space.Conduct p.table p.stop sound .never) (h : p.Tabled image run)
  (hm : sound image m)

/-- A test puts no question to the memories. -/
theorem tested_ends (test : Bytes → StateM π Bool) (item : Option Bytes) (m : Media g) (held : π) :
    (tested test item).Ends (m, held) (fun _ after => after.1 = m) fun _ _ => False := by
  cases item <;> rfl

/-- Without faults, what is asked is answered, or refused for a reason. -/
theorem Answers.ends {x : Action Error (Media g) α} (h : Answers sound .never image x m) :
    x.Ends m (fun _ => sound image) fun e m' => sound image m' ∧ e ≠ .inconsistent := by
  apply h.mono
  · exact fun _ _ h => h
  · exact fun _ _ h => h.resolve_left Space.not_halts

include c h hm

/-- An item that is not there is none. -/
theorem Tabled.fetch? (key : Key) (capacity : Nat) :
    (p.fetch? space key capacity).Ends m (fun _ => sound image)
      fun e m' => sound image m' ∧ e ≠ .inconsistent := by
  simp only [Partition.fetch?, Action.ends_rescue, Action.ends_map]
  apply (h.fetch c hm key capacity).ends.mono
  · exact fun _ _ h => h
  · intro e m₁ h₁
    rw [Action.ends_ite]
    exact ⟨fun _ => h₁.1, fun _ => h₁⟩

/-- Searching finds an item, or refuses for a reason. -/
theorem Tabled.find (held : π) (capacity : Nat) (test : Bytes → StateM π Bool) :
    (p.find space run.status capacity test).Ends (m, held) (fun _ after => sound image after.1)
      fun e after => sound image after.1 ∧ e ≠ .inconsistent := by
  have searches (key : Key) (items : Nat) {m : Media g} (hm : sound image m) (held : π) :
      (p.findFrom space run.status capacity test key items).Ends (m, held)
        (fun _ after => sound image after.1)
        fun e after => sound image after.1 ∧ e ≠ .inconsistent := by
    induction items generalizing key m held with
    | zero => exact ⟨hm, by decide⟩
    | succ items ih =>
      simp only [findFrom, Action.ends_bind, Action.ends_beside, Action.ends_ite, Action.ends_pure]
      apply (h.fetch? c hm key capacity).mono ?_ fun _ _ h => h
      intro item m₁ h₁
      apply (tested_ends test item m₁ held).mono ?_ fun _ _ h => h.elim
      rintro passed ⟨_, held₁⟩ rfl
      refine ⟨fun _ => h₁, fun _ => ?_⟩
      rw [Action.ends_beside]
      apply (h.successor c h₁ key).ends.mono ?_ fun _ _ h => h
      intro next m₂ h₂
      exact ih next h₂ held₁
  simp only [Partition.find, Action.ends_bind, Action.ends_beside]
  apply (h.oldestKey c hm).ends.mono ?_ fun _ _ h => h
  intro key m₁ h₁
  exact searches key p.maxItems h₁ held

end Searching

/-! ## Appending -/

section Appending

variable (c : space.Conduct p.table p.stop sound mishap) (h : p.Tabled image run)
  (hm : sound image m)
include c h hm

/-- Evicting takes out the oldest entry. -/
theorem Tabled.evict (some : run.entries ≠ []) :
    (p.evict space).Ends (m, run.status)
      (fun _ after => sound (p.cleared image run.row 1) after.1 ∧
        p.Tabled (p.cleared image run.row 1) (run.pop p) ∧ after.2 = (run.pop p).status)
      (fun e after => Halts mishap (fun _ => True) e after.1) := by
  have hlen := c.length hm
  have inside := c.inside
  obtain ⟨oldest, others, hentries⟩ := List.exists_cons_of_ne_nil some
  have hread := h.readStored c hm (by rw [hentries]; rfl : run.entries[0]? = Option.some oldest)
  rw [rowBehind_zero h.row_lt] at hread
  have hfilled : run.status.filled = oldest.length.toNat + Run.bytesOf others := by
    rw [Run.status, hentries, Run.bytesOf_cons]
  have hpop : (run.pop p).status = ⟨p.nextRow run.status.oldestRow, run.status.stored - 1,
      run.status.filled - oldest.length.toNat⟩ := by
    rw [hfilled, Nat.add_sub_cancel_left]
    simp only [Run.status, Run.pop, hentries, List.tail_cons, List.length_cons, Nat.add_sub_cancel]
  have hnext : (p.stepRow run.status.oldestRow : Action Error (Media g × Status) Nat) =
      pure (p.nextRow run.status.oldestRow) := stepRow_eq h.row_lt
  have hcounts : 1 ≤ run.status.stored := List.length_pos_iff.mpr some
  simp only [Partition.evict, Partition.status, setStatus, hnext, Action.ends_bind, Action.ends_get,
    Action.ends_pure, Action.ends_ite, Action.ends_fail, Action.ends_beside, Action.ends_modify,
    Action.ends_difference]
  refine ⟨fun hzero => absurd (List.eq_nil_of_length_eq_zero hzero) some, fun _ => ?_⟩
  refine hread.mono ?_ fun _ _ h => h.mono fun _ _ _ => trivial
  rintro _ m₁ ⟨h₁, rfl⟩
  refine (eraseRow_ends c h₁ h.row_lt).mono ?_ fun _ _ h => h.mono fun _ _ _ => trivial
  intro _ m₂ h₂
  exact ⟨hcounts, fun hless => by omega, fun _ => ⟨h₂, h.pop (by omega) some, hpop.symm⟩⟩

/-- Entries are taken out until the bytes fit into the area, and no longer. -/
theorem Tabled.makeRoom {length rounds : Nat} (short : length < 0x1_0000)
    (hlength : length ≤ p.areaLength) (hrounds : run.entries.length < rounds) :
    (p.makeRoom space length rounds).Ends (m, run.status)
      (fun _ after => ∃ count, sound (p.cleared image run.row count) after.1 ∧
        count ≤ run.entries.length ∧ p.Tabled (p.cleared image run.row count) (run.drop p count) ∧
        after.2 = (run.drop p count).status ∧
        Run.bytesOf (run.entries.drop count) + length ≤ p.areaLength ∧
        ∀ fewer, fewer < count → p.areaLength < Run.bytesOf (run.entries.drop fewer) + length)
      (fun e after => Halts mishap (fun _ => True) e after.1) := by
  induction rounds generalizing m image run with
  | zero => omega
  | succ rounds ih =>
    have hlt := h.bytes_lt
    simp only [Partition.makeRoom, Partition.status, Action.ends_bind, Action.ends_get,
      Action.ends_pure, Action.ends_sum, Action.ends_ite]
    show Run.bytesOf run.entries + length < _ ∧ (_ < Run.bytesOf run.entries + length → _) ∧
      (¬ _ < Run.bytesOf run.entries + length → _)
    refine ⟨by omega, fun hfull => ?_, fun hroom => ?_⟩
    · have some : run.entries ≠ [] := by
        intro hnil
        rw [hnil, Run.bytesOf_nil] at hfull
        omega
      have hpos := List.length_pos_iff.mpr some
      have hpop : (run.pop p).entries.length = run.entries.length - 1 := List.length_tail
      refine (h.evict c hm some).mono ?_ fun _ _ h => h
      rintro _ ⟨m₁, status⟩ ⟨h₁, htabled, rfl⟩
      refine (ih htabled h₁ (by omega)).mono ?_ fun _ _ h => h
      rintro _ after ⟨count, h', hcount, htabled', hstatus, hroom, hfewer⟩
      simp only [Run.pop, List.drop_tail] at hroom hfewer
      rw [Run.drop_pop] at htabled' hstatus
      refine ⟨count + 1, h', by omega, htabled', hstatus, hroom, ?_⟩
      -- With none taken out there was no room, and the others have one less to go.
      rintro (_ | fewer) hless
      · exact hfull
      · exact hfewer fewer (by omega)
    · refine ⟨0, hm, Nat.zero_le _, ?_⟩
      rw [Run.drop_zero h.row_lt]
      exact ⟨h, rfl, Nat.le_of_not_lt hroom, fun _ hless => absurd hless (Nat.not_lt_zero _)⟩

/-- The next entry goes behind the newest one, or to the start of the run if there is none. -/
theorem Tabled.vacancy :
    (p.vacancy space run.status).Ends m
      (fun place m' => sound image m' ∧ place = (run.freeRow p, run.nextId, run.nextStart p))
      (Halts mishap (· = image)) := by
  rw [vacancy_eq h.row_lt h.count_le, Action.ends_ite]
  refine ⟨fun hzero => ⟨hm, ?_⟩, fun hpos => ?_⟩
  · have hnil : run.entries = [] := List.eq_nil_of_length_eq_zero hzero
    simp only [Run.freeRow, Run.nextId, Run.nextStart, hnil, List.length_nil, List.getLast?_nil,
      rowBehind_zero h.row_lt]
    rfl
  · have hcount : 0 < run.entries.length := Nat.pos_of_ne_zero hpos
    have hlast : run.status.stored - 1 < run.entries.length := Nat.sub_lt hcount Nat.one_pos
    have hnewest : run.entries.getLast? = some run.entries[run.status.stored - 1] := by
      rw [List.getLast?_eq_getElem?]
      exact List.getElem?_eq_getElem hlast
    simp only [Action.ends_bind, Action.ends_pure]
    refine (h.readStored c hm (List.getElem?_eq_getElem hlast)).mono ?_ fun _ _ h => h
    rintro _ m₁ ⟨h₁, rfl⟩
    have hrow : p.nextRow (p.rowBehind run.row (run.entries.length - 1)) = run.freeRow p := by
      rw [nextRow_rowBehind, Run.freeRow, Nat.sub_add_cancel hcount]
    refine ⟨h₁, ?_⟩
    simp only [Run.nextId, Run.nextStart, hnewest, ← hrow]
    rfl

/-- Making room finds the place of the next entry, and takes out as few entries as will do. -/
theorem Tabled.prepare {length : Nat} (short : length < 0x1_0000)
    (hlength : length ≤ p.areaLength) :
    (p.prepare space length).Ends (m, run.status)
      (fun place after => place = (run.freeRow p, run.nextId, run.nextStart p) ∧
        ∃ count, run.Fewest p length count ∧ sound (p.cleared image run.row count) after.1 ∧
          p.Tabled (p.cleared image run.row count) (run.drop p count) ∧
          after.2 = (run.drop p count).status)
      (fun e after => Halts mishap (fun _ => True) e after.1) := by
  simp only [Partition.prepare, Partition.status, Action.ends_bind, Action.ends_get,
    Action.ends_pure, Action.ends_beside, Action.ends_ite]
  refine (h.vacancy c hm).mono ?_ fun _ _ h => h.mono fun _ _ _ => trivial
  rintro _ m₁ ⟨h₁, rfl⟩
  refine (h.makeRoom c h₁ short hlength (Nat.lt_succ_self _)).mono ?_ fun _ _ h => h
  rintro _ ⟨m₂, status⟩ ⟨count, h', hcount, htabled, rfl, hroom, hfewer⟩
  -- Before these have been taken out, there is no room for the bytes.
  have scarce (fewer : Nat) (hless : fewer < count) :
      ¬ Run.HasRoom p (run.entries.drop fewer) length :=
    fun h => Nat.not_lt.mpr h.1 (hfewer fewer hless)
  refine ⟨fun hfull => ?_, fun hless => ?_⟩
  · -- There is room in the area, but no row is free.
    have hlen : (run.drop p count).entries.length = p.maxItems := hfull
    have some : (run.drop p count).entries ≠ [] := List.length_pos_iff.mp (hlen ▸ p.maxItems_pos)
    refine (htabled.evict c h' some).mono ?_ fun _ _ h => h
    rintro _ after ⟨h'', htabled', hstatus⟩
    have hcleared : p.cleared (p.cleared image run.row count) (run.drop p count).row 1 =
        p.cleared image run.row (count + 1) := (cleared_succ h.row_lt count).symm
    obtain ⟨oldest, others, hentries⟩ := List.exists_cons_of_ne_nil some
    have hdropped : run.entries.drop count = oldest :: others := hentries
    have hpop : run.entries.drop (count + 1) = others := by
      rw [← List.tail_drop, hdropped, List.tail_cons]
    have hdrop : run.entries.length - count = others.length + 1 := by
      rw [← List.length_drop, hdropped, List.length_cons]
    rw [hdropped, Run.bytesOf_cons] at hroom
    rw [hentries, List.length_cons] at hlen
    rw [Run.pop_drop] at htabled' hstatus
    rw [hcleared] at h'' htabled'
    refine ⟨rfl, count + 1, ?_, h'', htabled', hstatus⟩
    constructor
    case le => omega
    case room =>
      rw [hpop]
      exact ⟨by omega, by omega⟩
    case none =>
      intro fewer hless
      rcases Nat.lt_or_eq_of_le (Nat.le_of_lt_succ hless) with hless | rfl
      · exact scarce fewer hless
      · exact fun h => absurd h.2 (Nat.not_lt.mpr (Nat.le_of_eq hfull.symm))
  · exact ⟨rfl, count, ⟨hcount, ⟨hroom, Nat.lt_of_le_of_ne htabled.count_le hless⟩, scarce⟩, h',
      htabled, rfl⟩

/-- Writing an item puts its entry behind the others, whatever becomes of the payload. -/
theorem Tabled.writeItem {entry : Row} (free : run.entries.length < p.maxItems)
    (hentry : entry.Fits p.areaLength) (hlength : entry.length.toNat = payload.length)
    (room : Run.bytesOf run.entries + payload.length ≤ p.areaLength) :
    (p.writeItem space (run.freeRow p) entry payload).Ends m
      (fun _ m' => sound (p.put image (run.freeRow p) entry payload) m' ∧
        p.Tabled (p.put image (run.freeRow p) entry payload) (run.push entry))
      (Halts mishap fun _ => True) := by
  have inside := c.inside
  have hlen := c.length hm
  have hparts := p.parts
  have hmem := rowAddress_mem (p.rowBehind_lt run.row run.entries.length)
  have hbytes : entry.encode.length = rowBytes := entry.length_encode
  have hstart := hentry.1
  have htabled := h.push (by omega) free hentry (hlength ▸ room)
  have hfront : (payload.take (min payload.length (p.areaLength - entry.start.toNat))).length =
      min payload.length (p.areaLength - entry.start.toNat) := by
    rw [List.length_take]
    omega
  have hback : (payload.drop (min payload.length (p.areaLength - entry.start.toNat))).length =
      payload.length - min payload.length (p.areaLength - entry.start.toNat) := List.length_drop
  have hrow : run.freeRow p < p.maxItems := p.rowBehind_lt _ _
  -- The row is written first, and then the payload in two parts, the second one behind the end of
  -- the area.
  rw [writeItem_eq hrow (Nat.le_of_lt hstart)]
  simp only [Action.ends_bind]
  refine (c.write hm (by rw [Run.freeRow]; omega) (by rw [Run.freeRow]; omega)).mono ?_
    fun _ _ h => h.mono fun _ _ _ => trivial
  intro _ m₁ h₁
  have hlen₁ := c.length h₁
  refine (c.write h₁ (by omega) (by omega)).mono ?_ fun _ _ h => h.mono fun _ _ _ => trivial
  intro _ m₂ h₂
  have hlen₂ := c.length h₂
  refine (c.write h₂ (by omega) (by omega)).mono ?_ fun _ _ h => h.mono fun _ _ _ => trivial
  exact fun _ m₃ h₃ => ⟨h₃, (htabled.overlay_area (by omega) (by omega)).overlay_area (by omega)
    (by omega)⟩

/-- Where writing an item fails, its row is erased again, or the memories fail again. -/
theorem Tabled.tryItem (mild : mishap.Mild sound) {id : UInt32} {start : Nat}
    (hstart : start < p.areaLength) (free : run.entries.length < p.maxItems)
    (short : payload.length < 0x1_0000)
    (room : Run.bytesOf run.entries + payload.length ≤ p.areaLength) :
    (p.tryItem space payload (run.freeRow p, id, start)).Ends m
      (fun _ m' =>
        let entry : Row := ⟨id, UInt32.ofNat start, UInt16.ofNat payload.length⟩
        sound (p.put image (run.freeRow p) entry payload) m' ∧
          p.Tabled (p.put image (run.freeRow p) entry payload) (run.push entry))
      (fun e m' => ∃ image' e', sound image' m' ∧ mishap.tells e' ∧
          (e = e' ∨ e = .inconsistent)) := by
  have harea := p.areaLength_lt
  have hlength : (UInt16.ofNat payload.length).toNat = payload.length :=
    UInt16.toNat_ofNat_of_lt' short
  have hword : (UInt32.ofNat start).toNat = start :=
    UInt32.toNat_ofNat_of_lt' (Nat.lt_trans hstart harea)
  have hfits : Row.Fits ⟨id, UInt32.ofNat start, UInt16.ofNat payload.length⟩ p.areaLength := by
    constructor
    · rwa [hword]
    · rw [hlength]
      omega
  rw [Partition.tryItem, Action.ends_rescue]
  refine (h.writeItem c hm free hfits hlength room).mono (fun _ _ h => h) ?_
  intro e m₁ hhalts
  obtain ⟨image₁, -, h₁⟩ := mild.exists_sound hhalts
  simp only [Action.ends_bind, Action.ends_mapError, Action.ends_fail]
  refine (eraseRow_ends c h₁ (p.rowBehind_lt _ _)).mono ?_ ?_
  · exact fun _ m₂ h₂ => ⟨_, e, h₂, hhalts.1, .inl rfl⟩
  · intro e' m₂ hhalts'
    obtain ⟨image₂, -, h₂⟩ := mild.exists_sound hhalts'
    exact ⟨image₂, e', h₂, hhalts'.1, .inr trivial⟩

end Appending

/-- Counting an item that has been written gives the fill state with it. -/
theorem countItem_run {id : UInt32} {start : Nat} (h : run.row < p.maxItems) {entry : Row}
    (hlength : entry.length.toNat = payload.length) (free : run.entries.length < p.maxItems)
    (room : Run.bytesOf run.entries + payload.length ≤ p.areaLength) :
    (countItem payload (run.freeRow p, id, start)).Ends (m, run.status)
      (fun place after => place = (run.freeRow p, id) ∧ after = (m, (run.push entry).status))
      fun _ _ => False := by
  have hrows := p.maxItems_lt
  have harea := p.areaLength_lt
  have holdest : (if run.entries.length = 0 then run.freeRow p else run.row) = run.row := by
    split
    · next hzero => rw [Run.freeRow, hzero, rowBehind_zero h]
    · rfl
  have hstatus : (run.push entry).status =
      ⟨run.row, run.entries.length + 1, Run.bytesOf run.entries + payload.length⟩ := by
    simp [Run.status, Run.push, hlength]
  simp only [countItem, Partition.status, setStatus, Run.status, Action.ends_bind, Action.ends_get,
    Action.ends_pure, Action.ends_sum, Action.ends_modify]
  exact ⟨by omega, by omega, trivial, by rw [holdest, ← hstatus]; rfl⟩

/-- What an append makes of a run: as few of the oldest entries as will do are gone, and the next
one is behind the others, in the place that is told. -/
def Lengthened (sound : Bytes → Media g → Prop) (p : Partition) (image : Bytes) (run : Run)
    (payload : Bytes) (place : Nat × UInt32) (after : Media g × Status) : Prop :=
  place = (run.freeRow p, run.nextId) ∧ ∃ count, run.Fewest p payload.length count ∧
    sound (p.lengthened image run count payload) after.1 ∧
    p.Tabled (p.lengthened image run count payload)
      ((run.drop p count).push (run.nextEntry p payload.length)) ∧
    after.2 = ((run.drop p count).push (run.nextEntry p payload.length)).status

/-- Appending leads from run to run. If the memories fail there is a run all the same, unless the
append ends inconsistent. -/
theorem append_tabled (c : space.Conduct p.table p.stop sound mishap) (mild : mishap.Mild sound)
    (interrupts : ∀ e, mishap.tells e → e.isInterruption = true) (h : p.Tabled image run)
    (hm : sound image m) (storable : p.Storable payload) :
    (p.append space payload).Ends (m, run.status) (p.Lengthened sound image run payload)
      (fun e after => ∃ e', mishap.tells e' ∧
        (e = e' ∧ (∃ image', p.Recovered sound image' after) ∨ e = .inconsistent)) := by
  have once : (p.appendOnce space payload).Ends (m, run.status)
      (p.Lengthened sound image run payload)
      (fun e after => ∃ image' e', sound image' after.1 ∧ mishap.tells e' ∧
        (e = e' ∨ e = .inconsistent)) := by
    rw [appendOnce_eq]
    simp only [Action.ends_ite, Action.ends_bind, Action.ends_fail]
    refine ⟨fun hlong => by unfold Storable at storable; omega, fun _ => ?_⟩
    refine (h.prepare c hm storable.2 storable.1).mono ?_ fun e after hhalts => ?_
    · rintro _ ⟨m₁, status⟩ ⟨rfl, count, hfewest, h₁, htabled, rfl⟩
      have hcount := hfewest.le
      obtain ⟨hroom, hfree⟩ := hfewest.room
      rw [← Run.freeRow_drop p hcount, putItem_eq, Action.ends_bind, Action.ends_beside]
      refine (htabled.tryItem c h₁ mild (run.nextStart_lt p) hfree storable.2 hroom).mono ?_
        fun _ _ h => h
      rintro _ m₂ ⟨h₂, htabled'⟩
      refine (countItem_run htabled.row_lt (length_nextEntry run storable) hfree hroom).mono ?_
        fun _ _ h => h.elim
      rintro _ _ ⟨rfl, rfl⟩
      rw [Run.freeRow_drop p hcount] at h₂ htabled' ⊢
      exact ⟨rfl, count, hfewest, h₂, htabled', rfl⟩
    · obtain ⟨image', -, h'⟩ := mild.exists_sound hhalts
      exact ⟨image', e, h', hhalts.1, .inl rfl⟩
  -- An interruption is followed by a recovery, which finds a run or an inconsistency.
  rw [append, Action.ends_rescue]
  refine once.mono (fun _ _ h => h) ?_
  rintro e ⟨m₁, status⟩ ⟨image', e', h', he', he⟩
  simp only [Action.ends_bind, Action.ends_ite, Action.ends_mapError, Action.ends_fail]
  refine ⟨fun hinterrupts => ?_, fun hnot => ⟨e', he', .inr ?_⟩⟩
  · apply (recover_tabled c h' status).mono
    · rintro _ after ⟨-, hrecovered⟩
      refine ⟨e', he', ?_⟩
      rcases he with rfl | rfl
      · exact .inl ⟨rfl, image', hrecovered⟩
      · cases hinterrupts
    · exact fun _ _ _ => ⟨e', he', .inr trivial⟩
  · rcases he with rfl | rfl
    · exact absurd (interrupts e he') hnot
    · rfl

/-- Without faults an append leads from run to run; or the payload is too long, and it does
nothing. -/
theorem Tabled.append_ends (c : space.Conduct p.table p.stop sound .never) (h : p.Tabled image run)
    (hm : sound image m) (payload : Bytes) :
    (p.append space payload).Ends (m, run.status)
      (fun place after => p.Storable payload ∧ p.Lengthened sound image run payload place after)
      (fun e after => e = .outOfRoom ∧ ¬ p.Storable payload ∧ after = (m, run.status)) := by
  by_cases storable : p.Storable payload
  · apply (append_tabled c Space.Mishap.mild_never (fun _ h => h.elim) h hm storable).mono
    · exact fun _ _ h => ⟨storable, h⟩
    · exact fun _ _ ⟨_, h, _⟩ => h.elim
  · have long : p.areaLength < payload.length ∨ 0x1_0000 ≤ payload.length := by
      unfold Storable at storable
      omega
    rw [Action.Ends, p.append_of_long space long]
    exact ⟨rfl, storable, rfl⟩

end Partition

end CircularLog
