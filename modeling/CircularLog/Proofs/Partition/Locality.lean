import CircularLog.Store.Report
import CircularLog.Partition.Lookup
import CircularLog.Proofs.Alike
import CircularLog.Proofs.Partition.Append

/-!
# A partition sees and changes its own bytes only

Whatever the table of a partition holds, sense or nonsense, the operations of the partition read and
write between its ends. So in memories that are alike there (`Space.ReadsAlike`, `Space.ActsAlike`)
they end alike: with the same answer, the same fill state, and memories that are alike again
(`agrees_append`, `agrees_find`, `agrees_recover`). Of what is read it is used that it is the same
in both memories and has the length asked for, and of the fill state that the row of the oldest item
is a row of the table.
-/

namespace CircularLog

variable {g : Geometry} {α : Type}

open CircularLog.Action (Agrees Beside Pairs)

namespace Space

/-- Reads between two addresses give the same bytes in memories that are alike, as many as are asked
for, and leave memories that are alike. -/
structure ReadsAlike (space : Space g) (lower upper : Nat) (alike : Media g → Media g → Prop) :
    Prop where
  read : ∀ {m m' address length}, alike m m' → lower ≤ address → address + length ≤ upper →
    (space.read address length).Pairs m m'
      (fun bytes n n' => alike n n' ∧ bytes.length = length) alike

/-- Reads and writes between two addresses end alike in memories that are alike. -/
structure ActsAlike (space : Space g) (lower upper : Nat) (alike : Media g → Media g → Prop) : Prop
    extends space.ReadsAlike lower upper alike where
  inside : upper ≤ space.total
  write : ∀ {address bytes}, lower ≤ address → address + bytes.length ≤ upper →
    Agrees alike (space.write address bytes)

end Space

namespace Partition

variable {space : Space g} {p : Partition} {alike : Media g → Media g → Prop} {m m' : Media g}

/-- The memories are alike, the fill state is the same, and its oldest row is a row of the table. -/
def AlikeInTable (p : Partition) (alike : Media g → Media g → Prop)
    (after after' : Media g × Status) : Prop :=
  alike after.1 after'.1 ∧ after.2 = after'.2 ∧ after.2.oldestRow < p.maxItems

/-- Beside a fill state, an action on the memories leaves it. -/
theorem beside_pairs {x : Action Error (Media g) α} {held : Status}
    (hheld : held.oldestRow < p.maxItems) {known : α → Prop}
    (hx : x.Pairs m m' (fun a n n' => alike n n' ∧ known a) alike) :
    (x.beside : Action Error (Media g × Status) α).Pairs (m, held) (m', held)
      (fun a after after' => (p.AlikeInTable alike after after' ∧ after.2 = held) ∧ known a)
      (p.AlikeInTable alike) :=
  .beside (hx.mono (fun _ _ _ h => ⟨⟨⟨h.1, rfl, hheld⟩, rfl⟩, h.2⟩) fun _ _ h => ⟨h, rfl, hheld⟩)

/-- What agrees on the memories agrees beside a fill state. -/
theorem agrees_beside {x : Action Error (Media g) α} (hx : Agrees alike x) :
    Agrees (p.AlikeInTable alike) (x.beside : Action Error (Media g × Status) α) := by
  rintro ⟨m, held⟩ ⟨m', _⟩ ⟨hm, rfl, hheld⟩
  exact .beside ((hx m m' hm).mono (fun _ _ _ h => ⟨h, rfl, hheld⟩) fun _ _ h => ⟨h, rfl, hheld⟩)

/-- What becomes of the fill state depends on what it was. -/
theorem agrees_modify {f : Status → Status}
    (hf : ∀ held, held.oldestRow < p.maxItems → (f held).oldestRow < p.maxItems) :
    Agrees (p.AlikeInTable alike)
      (modify fun after => (after.1, f after.2) : Action Error (Media g × Status) PUnit) :=
  Action.agrees_modify fun _ _ h => ⟨h.1, congrArg f h.2.1, hf _ h.2.2⟩

/-- Noting a fill state agrees, if its oldest row is one of the table. -/
theorem agrees_setStatus {held : Status} (hheld : held.oldestRow < p.maxItems) :
    Agrees (p.AlikeInTable alike) (setStatus (g := g) held) :=
  agrees_modify (f := fun _ => held) fun _ _ => hheld

/-- The fill state is the same in both runs. -/
theorem status_bind_pairs {held : Status} {f : Status → Action Error (Media g × Status) α}
    {value : α → Media g × Status → Media g × Status → Prop}
    {left : Media g × Status → Media g × Status → Prop}
    (h : (f held).Pairs (m, held) (m', held) value left) :
    (status >>= f).Pairs (m, held) (m', held) value left := h

/-- If a survey has found an oldest item, its row is a row of the table. -/
def OldestIn (p : Partition) (survey : Survey) : Prop :=
  ∀ row id, survey.oldest = some (row, id) → row < p.maxItems

/-- A survey over rows of the table finds the oldest item in one of them. -/
theorem surveyRows_oldestIn {row : Nat} {survey survey' : Survey} {rows : List Bytes}
    (inside : row + rows.length ≤ p.maxItems) (h : p.OldestIn survey)
    (ok : p.surveyRows row survey rows = .ok survey') : p.OldestIn survey' := by
  induction rows generalizing row survey with
  | nil => exact Except.ok.inj ok ▸ h
  | cons bytes rows ih =>
    rw [List.length_cons] at inside
    rw [surveyRows] at ok
    cases hentry : Row.decode bytes with
    | none =>
      rw [hentry] at ok
      exact ih (by omega) h ok
    | some entry =>
      simp only [hentry] at ok
      split at ok
      · refine ih (by omega) ?_ ok
        -- The oldest item is the one of before or the one in this row.
        intro oldest id holdest
        cases hold : survey.oldest with
        | none => simp [Survey.add, hold] at holdest; omega
        | some old =>
          have hlt := h old.1 old.2 hold
          simp only [Survey.add, hold] at holdest
          split at holdest <;> obtain ⟨rfl, rfl⟩ := Prod.mk.inj (Option.some.inj holdest) <;> omega
      · cases ok

/-! ## Reading -/

section Reading

variable (r : space.ReadsAlike p.base p.stop alike)
include r

/-- A row that is read names a payload inside the area. -/
theorem readRow_pairs (hm : alike m m') {row : Nat} (hrow : row < p.maxItems) :
    (p.readRow space row).Pairs m m'
      (fun found n n' => alike n n' ∧ ∀ entry, found = some entry → entry.Fits p.areaLength)
      alike := by
  have hmem := rowAddress_mem hrow
  have hparts := p.parts
  rw [readRow_eq hrow]
  refine (r.read hm (by omega) (by omega)).bind ?_
  rintro bytes n n' ⟨hn, -⟩
  cases Row.decode bytes with
  | none => exact Action.pairs_pure ⟨hn, nofun⟩
  | some entry =>
    exact .ite (fun hfits => Action.pairs_pure ⟨hn, fun _ h => Option.some.inj h ▸ hfits⟩)
      fun _ => Action.pairs_fail hn

/-- Reading a row that should hold something agrees, and what it holds fits. -/
theorem readStored_pairs (hm : alike m m') {row : Nat} (hrow : row < p.maxItems) :
    (p.readStored space row).Pairs m m' (fun entry n n' => alike n n' ∧ entry.Fits p.areaLength)
      alike := by
  refine (readRow_pairs r hm hrow).bind ?_
  rintro found n n' ⟨hn, hfound⟩
  cases found with
  | none => exact Action.pairs_fail hn
  | some entry => exact Action.pairs_pure ⟨hn, hfound entry rfl⟩

/-- The key of the oldest item depends on the partition alone. -/
theorem agrees_oldestKey {held : Status} (hheld : held.oldestRow < p.maxItems) :
    Agrees alike (p.oldestKey space held) := by
  have stored : Agrees alike (p.readStored space held.oldestRow) := fun m m' hm =>
    (readStored_pairs r hm hheld).mono (fun _ _ _ h => h.1) fun _ _ h => h
  have key := stored.bind (f := fun entry => pure (⟨p.id, held.oldestRow, entry.id⟩ : Key))
    fun _ => Action.agrees_pure _
  exact .ite ((Action.agrees_fail _).bind fun _ => key) key

/-- The row of a key is read if the partition has it. -/
theorem agrees_current {key : Key} (hrow : key.row < p.maxItems) :
    Agrees alike (p.current space key) :=
  .bind (fun _ _ hm => (readRow_pairs r hm hrow).mono (fun _ _ _ h => h.1) fun _ _ h => h)
    fun _ => Action.agrees_pure _

omit r in
/-- Behind the check of its row, a key is known to be one of the partition. -/
theorem agrees_requireRow_bind {key : Key} {f : PUnit → Action Error (Media g) α}
    (hf : key.row < p.maxItems → Agrees alike (f ⟨⟩)) : Agrees alike (p.requireRow key >>= f) := by
  intro m m' hm
  rw [requireRow]
  split
  · next hrow => exact hf hrow m m' hm
  · exact Action.pairs_fail hm

/-- The key behind a key depends on the partition alone. -/
theorem agrees_successor {held : Status} (hheld : held.oldestRow < p.maxItems) (key : Key) :
    Agrees alike (p.successor space held key) := by
  rw [successor_eq]
  refine agrees_requireRow_bind fun hrow => ?_
  have next : Agrees alike (do
      let next : Key := ⟨key.partition, p.nextRow key.row, key.id + 1⟩
      if (← p.current space next).isNone then
        Action.fail .notFound
      return next) :=
    (agrees_current r (p.nextRow_lt _)).bind fun _ =>
      .ite ((Action.agrees_fail _).bind fun _ => Action.agrees_pure _) (Action.agrees_pure _)
  exact (agrees_current r hrow).bind fun _ => .ite (agrees_oldestKey r hheld) next

/-- The entry that a key names describes a payload inside the area. -/
theorem entryOf_pairs (hm : alike m m') (key : Key) :
    (p.entryOf space key).Pairs m m' (fun entry n n' => alike n n' ∧ entry.Fits p.areaLength)
      alike := by
  have current (hrow : key.row < p.maxItems) : (p.current space key).Pairs m m'
      (fun found n n' => alike n n' ∧ ∀ entry, found = some entry → entry.Fits p.areaLength)
      alike := by
    refine (readRow_pairs r hm hrow).bind ?_
    rintro found n n' ⟨hn, hfound⟩
    exact Action.pairs_pure ⟨hn, fun entry h => hfound entry (Option.filter_eq_some_iff.mp h).1⟩
  rw [entryOf, requireRow]
  split
  · next hrow =>
    refine (current hrow).bind ?_
    rintro found n n' ⟨hn, hfound⟩
    cases found with
    | none => exact Action.pairs_fail hn
    | some entry => exact Action.pairs_pure ⟨hn, hfound entry rfl⟩
  · exact Action.pairs_fail hm

/-- The length of an item depends on the partition alone. -/
theorem agrees_itemLength (key : Key) : Agrees alike (p.itemLength space key) :=
  .bind (fun _ _ hm => (entryOf_pairs r hm key).mono (fun _ _ _ h => h.1) fun _ _ h => h)
    fun _ => Action.agrees_pure _

/-- A payload depends on the partition alone, if it lies in the area. -/
theorem agrees_payload {entry : Row} (hentry : entry.Fits p.areaLength) :
    Agrees alike (p.payload space entry) := by
  have hparts := p.parts
  have hstart := hentry.1
  have hlength := hentry.2
  intro m m' hm
  rw [payload_eq (Nat.le_of_lt hstart)]
  refine (r.read hm (by omega) (by omega)).bind ?_
  rintro front n n' ⟨hn, -⟩
  refine (r.read hn (by omega) (by omega)).bind ?_
  exact fun _ _ _ h => Action.pairs_pure h.1

/-- What a key fetches depends on the partition alone. -/
theorem agrees_fetch (key : Key) (capacity : Nat) : Agrees alike (p.fetch space key capacity) := by
  intro m m' hm
  rw [fetch_eq]
  refine (entryOf_pairs r hm key).bind ?_
  rintro entry n n' ⟨hn, hentry⟩
  have payload := agrees_payload r hentry
  exact Agrees.ite ((Action.agrees_fail _).bind fun _ => payload) payload n n' hn

/-- What a search finds depends on the partition alone. -/
theorem agrees_find {π : Type} {held : Status} (hheld : held.oldestRow < p.maxItems)
    (capacity : Nat) (test : Bytes → StateM π Bool) :
    Agrees (Beside alike) (p.find space held capacity test) := by
  have fetches (key : Key) : Agrees alike (p.fetch? space key capacity) :=
    (Agrees.bind (agrees_fetch r key capacity) fun _ => Action.agrees_pure _).rescue
      fun _ => .ite (Action.agrees_pure _) (Action.agrees_fail _)
  -- A test sees the payload and its own state, and both are the same.
  have asks (item : Option Bytes) :
      Agrees (Beside alike) (tested test item : Action Error (Media g × π) Bool) := by
    rintro ⟨m, state⟩ ⟨m', state'⟩ ⟨hm, rfl⟩
    cases item <;> exact ⟨rfl, hm, rfl⟩
  have searches (key : Key) (items : Nat) :
      Agrees (Beside alike) (p.findFrom space held capacity test key items) := by
    induction items generalizing key with
    | zero => exact Action.agrees_fail _
    | succ items ih =>
      exact (fetches key).beside.bind fun item => (asks item).bind fun _ => .ite
        (Action.agrees_pure _) ((agrees_successor r hheld key).beside.bind fun next => ih next)
  exact (agrees_oldestKey r hheld).beside.bind fun key => searches key _

/-- A report depends on the partition alone. -/
theorem agrees_report (held : Status) : Agrees alike (p.report space held) := by
  have rows (row : Nat) (text : String) (count : Nat) (inside : row + count ≤ p.maxItems) :
      Agrees alike (p.reportRows space row text count) := by
    induction count generalizing row text with
    | zero => exact Action.agrees_pure _
    | succ count ih =>
      have hrow : row < p.maxItems := by omega
      have hmem := rowAddress_mem hrow
      have hparts := p.parts
      rw [reportRows, locateRow_eq hrow, pure_bind]
      refine .bind (fun m m' hm => ?_) fun _ => ih _ _ (by omega)
      exact (r.read hm (by omega) (by omega)).mono (fun _ _ _ h => h.1) fun _ _ h => h
  exact rows 0 _ p.maxItems (by omega)

end Reading

/-! ## Erasing rows -/

variable (k : space.ActsAlike p.base p.stop alike)
include k

/-- Erasing a row stays inside the partition. -/
theorem agrees_eraseRow {row : Nat} (hrow : row < p.maxItems) :
    Agrees alike (p.eraseRow space row) := by
  have hmem := rowAddress_mem hrow
  have hparts := p.parts
  have herased : Row.erased.length = rowBytes := rfl
  rw [eraseRow_eq hrow]
  exact k.write (by omega) (by omega)

/-- Setting up a partition stays inside of it. -/
theorem agrees_ensureFormatted : Agrees alike (p.ensureFormatted space) := by
  have hparts := p.parts
  have hinside := k.inside
  have htable : p.table = p.base + headerBytes := rfl
  have hmagic : magic.length = headerBytes := Bytes.length_ofNat _ _
  have chunks (address : Nat) (lengths : List Nat) (short : ∀ length ∈ lengths, length ≤ chunkBytes)
      (lower : p.base ≤ address) (upper : address + Bytes.total lengths ≤ p.stop) :
      Agrees alike (space.fillChunks address 0xFF lengths) := by
    induction lengths generalizing address with
    | nil => exact Action.agrees_pure _
    | cons length lengths ih =>
      rw [Bytes.total_cons] at upper
      rw [Space.fillChunks_cons space _ _ (short _ List.mem_cons_self) (by omega)]
      exact (k.write lower (by rw [List.length_replicate]; omega)).bind fun _ =>
        ih _ (fun _ h => short _ (List.mem_cons_of_mem _ h)) (by omega) (by omega)
  have fill : Agrees alike (space.fill p.table p.tableLength 0xFF) := by
    have hsum := Bytes.total_pieces chunkBytes p.tableLength
    rw [Space.fill, Space.require_of_le (by omega), pure_bind]
    exact chunks _ _ (fun _ => Bytes.le_of_mem_pieces (by decide)) (by omega) (by omega)
  have header : Agrees alike (do
      space.fill p.table p.tableLength 0xFF
      space.write p.base magic) := fill.bind fun _ => k.write (by omega) (by omega)
  refine .bind (fun m m' hm => ?_) fun _ => .ite (Action.agrees_pure _) header
  exact (k.read hm (by omega) (by omega)).mono (fun _ _ _ h => h.1) fun _ _ h => h

/-! ## Recovery -/

/-- A survey of a table agrees, and its oldest row is one of the table. -/
theorem surveyBatches_pairs (hm : alike m m') {batches : List Nat} {row : Nat} {survey : Survey}
    (inside : row + Bytes.total batches ≤ p.maxItems) (h : p.OldestIn survey) :
    (p.surveyBatches space row survey batches).Pairs m m'
      (fun survey' n n' => alike n n' ∧ p.OldestIn survey') alike := by
  have hparts := p.parts
  induction batches generalizing m m' row survey with
  | nil => exact Action.pairs_pure ⟨hm, h⟩
  | cons rows batches ih =>
    rw [Bytes.total_cons] at inside
    have hrange : p.rowAddress row + rows * rowBytes ≤ p.area := by
      simp only [rowAddress, area, tableLength, rowBytes]
      omega
    have hlower : p.table ≤ p.rowAddress row := Nat.le_add_right _ _
    refine (k.read hm (by omega) (by omega)).bind ?_
    rintro bytes n n' ⟨hn, hlen⟩
    have hchunks := length_chunks_rows hlen
    cases hsurvey : p.surveyRows row survey (bytes.chunks rowBytes) with
    | error e => exact ⟨rfl, hn⟩
    | ok survey' => exact ih hn (by omega) (surveyRows_oldestIn (by omega) h hsurvey)

/-- Following a run of ids ends in a row of the table. -/
theorem followRun_pairs (hm : alike m m') {row : Nat} (hrow : row < p.maxItems) (id : UInt32)
    (stored filled rows : Nat) : (p.followRun space row id stored filled rows).Pairs m m'
      (fun run n n' => alike n n' ∧ run.1 < p.maxItems) alike := by
  induction rows generalizing m m' row id stored filled with
  | zero => exact Action.pairs_pure ⟨hm, hrow⟩
  | succ rows ih =>
    refine (readRow_pairs k.toReadsAlike hm hrow).bind ?_
    rintro found n n' ⟨hn, -⟩
    cases found with
    | none => exact Action.pairs_pure ⟨hn, hrow⟩
    | some entry =>
      refine .ite (fun _ => ?_) fun _ => Action.pairs_pure ⟨hn, hrow⟩
      refine Pairs.bind ((Action.settled_sum _ _ _).agrees n n' hn) fun stored _ _ h₁ => ?_
      refine Pairs.bind ((Action.settled_sum _ _ _).agrees _ _ h₁) fun filled _ _ h₂ => ?_
      rw [stepRow_eq hrow, pure_bind]
      exact ih h₂ (p.nextRow_lt row) _ _ _

/-- Erasing what is left in some rows stays inside the partition. -/
theorem agrees_eraseRows {row : Nat} (hrow : row < p.maxItems) (rows : Nat) :
    Agrees alike (p.eraseRows space row rows) := by
  induction rows generalizing row with
  | zero => exact Action.agrees_pure _
  | succ rows ih =>
    intro m m' hm
    rw [eraseRows_succ hrow]
    refine (readRow_pairs k.toReadsAlike hm hrow).bind ?_
    rintro found n n' ⟨hn, -⟩
    have hrest := ih (p.nextRow_lt row)
    exact Agrees.ite ((agrees_eraseRow k hrow).bind fun _ => hrest) hrest n n' hn

/-- Recovery finds the same fill state, and a row of the table. -/
theorem agrees_recover : Agrees (p.AlikeInTable alike) (p.recover space) := by
  rintro ⟨m, held⟩ ⟨m', _⟩ ⟨hm, rfl, hheld⟩
  have hbatches := Bytes.total_pieces batchRows p.maxItems
  have survey : (p.survey space).Pairs m m' (fun survey n n' => alike n n' ∧ p.OldestIn survey)
      alike := by
    rw [survey_eq]
    exact surveyBatches_pairs k hm (by omega) nofun
  refine (beside_pairs hheld survey).bind ?_
  rintro survey after after' ⟨⟨h, -⟩, hsurvey⟩
  -- Both memories have the same oldest row, or none.
  cases holdest : survey.oldest with
  | none => exact agrees_modify (f := fun _ => Status.empty) (fun _ _ => p.maxItems_pos) _ _ h
  | some oldest =>
    have hrow := hsurvey oldest.1 oldest.2 holdest
    have notes (stored filled : Nat) : Agrees (p.AlikeInTable alike)
        (modify fun after => (after.1, { after.2 with stored, filled }) :
          Action Error (Media g × Status) PUnit) :=
      agrees_modify (f := fun held => { held with stored, filled }) fun _ h => h
    refine (Agrees.bind (agrees_modify (f := fun held => { held with oldestRow := oldest.1 })
      fun _ _ => hrow) fun _ => ?_) _ _ h
    rintro ⟨n, held⟩ ⟨n', _⟩ ⟨hn, rfl, hheld⟩
    refine (beside_pairs hheld (followRun_pairs k hn hrow _ _ _ _)).bind ?_
    rintro ⟨next, stored, filled⟩ _ _ ⟨⟨h₁, -⟩, hnext⟩
    have erases := (agrees_beside (agrees_eraseRows k hnext (p.maxItems - stored))).bind
      fun _ => notes stored filled
    exact .ite (fun _ => Action.pairs_fail_bind h₁) fun _ =>
      .ite (fun _ => erases _ _ h₁) fun _ => notes stored filled _ _ h₁

/-! ## Appending -/

/-- Taking out the oldest item stays inside the partition. -/
theorem agrees_evict : Agrees (p.AlikeInTable alike) (p.evict space) := by
  rintro ⟨m, held⟩ ⟨m', _⟩ ⟨hm, rfl, hheld⟩
  have counted (stored : Nat) : Agrees (p.AlikeInTable alike)
      (setStatus (g := g) { held with stored }) := agrees_setStatus hheld
  refine status_bind_pairs (.ite (fun _ => Action.pairs_fail_bind ⟨hm, rfl, hheld⟩) fun _ => ?_)
  refine (beside_pairs hheld (readStored_pairs k.toReadsAlike hm hheld)).bind ?_
  rintro entry _ _ ⟨⟨h₁, -⟩, -⟩
  refine (agrees_beside (agrees_eraseRow k hheld) _ _ h₁).bind fun _ _ _ h₂ => ?_
  refine Pairs.bind ((Action.settled_difference _ _).agrees _ _ h₂) fun stored _ _ h₃ => ?_
  refine (counted stored _ _ h₃).bind fun _ _ _ h₄ => ?_
  rw [stepRow_eq hheld, pure_bind]
  exact .ite (fun _ => Action.pairs_fail_bind h₄)
    fun _ => agrees_setStatus (p.nextRow_lt _) _ _ h₄

/-- Making room stays inside the partition, round by round. -/
theorem agrees_makeRoom (length rounds : Nat) :
    Agrees (p.AlikeInTable alike) (p.makeRoom space length rounds) := by
  induction rounds with
  | zero => exact Action.agrees_fail _
  | succ rounds ih =>
    rintro ⟨m, held⟩ ⟨m', _⟩ ⟨hm, rfl, hheld⟩
    refine status_bind_pairs ?_
    exact (Action.settled_sum _ _ _).agrees.bind (fun _ =>
      .ite ((agrees_evict k).bind fun _ => ih) (Action.agrees_pure _)) _ _ ⟨hm, rfl, hheld⟩

/-- The next item goes into a row of the table, and its payload starts in the area. -/
theorem vacancy_pairs (hm : alike m m') {held : Status} (hheld : held.oldestRow < p.maxItems) :
    (p.vacancy space held).Pairs m m'
      (fun place n n' => alike n n' ∧ place.1 < p.maxItems ∧ place.2.2 < p.areaLength) alike := by
  refine .ite (fun _ => Action.pairs_pure ⟨hm, hheld, p.areaLength_pos⟩) fun _ => ?_
  have newest : (p.newestRow held.oldestRow held.stored : Action Error (Media g) Nat).Pairs m m'
      (fun row n n' => alike n n' ∧ row < p.maxItems) alike :=
    .bind ((Action.settled_sum _ _ _).agrees m m' hm) fun _ _ _ h₁ =>
      .bind ((Action.settled_difference _ _).agrees _ _ h₁) fun _ _ _ h₂ =>
        Action.pairs_pure ⟨h₂, Nat.mod_lt _ p.maxItems_pos⟩
  refine newest.bind ?_
  rintro row n n' ⟨h₁, hrow⟩
  rw [stepRow_eq hrow, pure_bind]
  refine (readStored_pairs k.toReadsAlike h₁ hrow).bind ?_
  rintro entry _ _ ⟨h₂, -⟩
  rw [startBehind_eq, pure_bind]
  exact Action.pairs_pure ⟨h₂, p.nextRow_lt _, entry.stop_lt p.areaLength_pos⟩

/-- Writing an item stays inside the partition, if its place does. -/
theorem agrees_writeItem {row : Nat} (hrow : row < p.maxItems) {entry : Row} {payload : Bytes}
    (hstart : entry.start.toNat < p.areaLength) (hlength : payload.length ≤ p.areaLength) :
    Agrees alike (p.writeItem space row entry payload) := by
  have hmem := rowAddress_mem hrow
  have hparts := p.parts
  have hentry := entry.length_encode
  have hrowBytes : rowBytes = 12 := rfl
  rw [writeItem_eq hrow (Nat.le_of_lt hstart)]
  refine (k.write (by omega) (by omega)).bind fun _ => ?_
  exact (k.write (by omega) (by rw [List.length_take]; omega)).bind fun _ =>
    k.write (by omega) (by rw [List.length_drop]; omega)

/-- Putting an item into its place stays inside the partition, even if it is rolled back. -/
theorem agrees_putItem {place : Nat × UInt32 × Nat} (hrow : place.1 < p.maxItems)
    (hstart : place.2.2 < p.areaLength) {payload : Bytes}
    (hlength : payload.length ≤ p.areaLength) :
    Agrees (p.AlikeInTable alike) (p.putItem space payload place) := by
  have harea := p.areaLength_lt
  have hword : (UInt32.ofNat place.2.2).toNat = place.2.2 := by
    rw [UInt32.toNat_ofNat', Nat.mod_eq_of_lt (by omega)]
  have written : Agrees alike (p.tryItem space payload place) :=
    (agrees_writeItem k hrow (hword.symm ▸ hstart) hlength).rescue fun _ =>
      ((agrees_eraseRow k hrow).mapError _).bind fun _ => Action.agrees_fail _
  rw [putItem_eq]
  refine (agrees_beside written).bind fun _ => ?_
  rintro ⟨m, held⟩ ⟨m', _⟩ ⟨hm, rfl, hheld⟩
  have holdest (stored filled : Nat) : (Status.mk
      (if held.stored = 0 then place.1 else held.oldestRow) stored filled).oldestRow <
      p.maxItems := by
    show ite _ _ _ < _
    split <;> assumption
  refine status_bind_pairs ?_
  exact (Action.settled_sum _ _ _).agrees.bind
    (fun stored => (Action.settled_sum _ _ _).agrees.bind fun filled =>
    (agrees_setStatus (holdest stored filled)).bind fun _ => Action.agrees_pure _) _ _
      ⟨hm, rfl, hheld⟩

/-- Making room finds the same place in both memories, and it is one of the partition. -/
theorem prepare_pairs {s s' : Media g × Status} (h : p.AlikeInTable alike s s') (length : Nat) :
    (p.prepare space length).Pairs s s'
      (fun place after after' => p.AlikeInTable alike after after' ∧ place.1 < p.maxItems ∧
        place.2.2 < p.areaLength) (p.AlikeInTable alike) := by
  obtain ⟨m, held⟩ := s
  obtain ⟨m', _⟩ := s'
  obtain ⟨hm, rfl, hheld⟩ := h
  refine status_bind_pairs ((beside_pairs hheld (vacancy_pairs k hm hheld)).bind ?_)
  rintro place ⟨m₁, held₁⟩ ⟨m₁', _⟩ ⟨⟨⟨h₁, rfl, hheld₁⟩, -⟩, hplace⟩
  refine status_bind_pairs ?_
  refine (agrees_makeRoom k _ _ (m₁, held₁) (m₁', held₁) ⟨h₁, rfl, hheld₁⟩).bind ?_
  rintro _ ⟨m₂, held₂⟩ ⟨m₂', _⟩ ⟨h₂, rfl, hheld₂⟩
  refine status_bind_pairs (.ite (fun _ => ?_) fun _ =>
    Action.pairs_pure ⟨⟨h₂, rfl, hheld₂⟩, hplace⟩)
  exact (agrees_evict k (m₂, held₂) (m₂', held₂) ⟨h₂, rfl, hheld₂⟩).bind fun _ _ _ h₃ =>
    Action.pairs_pure ⟨h₃, hplace⟩

/-- An append that is not followed by a recovery stays inside the partition. -/
theorem agrees_appendOnce (payload : Bytes) :
    Agrees (p.AlikeInTable alike) (p.appendOnce space payload) := by
  intro s s' h
  rw [appendOnce_eq]
  refine .ite (fun _ => Action.pairs_fail_bind h) fun hlong => (prepare_pairs k h _).bind ?_
  rintro place _ _ ⟨h₁, hrow, hstart⟩
  exact agrees_putItem k hrow hstart (by omega) _ _ h₁

/-- Appending gives the same answer, and the same fill state, whatever the table holds. -/
theorem agrees_append (payload : Bytes) :
    Agrees (p.AlikeInTable alike) (p.append space payload) :=
  (agrees_appendOnce k payload).rescue fun _ => .ite
    (((agrees_recover k).mapError _).bind fun _ => Action.agrees_fail _) (Action.agrees_fail _)

end Partition

end CircularLog
