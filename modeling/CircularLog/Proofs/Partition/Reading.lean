import CircularLog.Proofs.Kept
import CircularLog.Proofs.Partition.Words
import CircularLog.Store.Report

/-!
# Looking things up is reading

What is looked up in a partition, by a key, by a test or for a report, is a dialogue with the driver
of which every call reads. Nothing is assumed of the fill state, of the key or of what the table
holds: it may be of an item that is no more there, or of none that ever was.
-/

namespace CircularLog

variable {g : Geometry} {ε α β τ π : Type} {allowed : Call → Prop}

/-- A function of the value asks nothing. -/
theorem Driven.map {x : Action ε (Media g) β} (hx : Driven allowed x) (f : β → α) :
    Driven allowed (f <$> x) := by
  rw [← bind_pure_comp]
  exact hx.bind fun _ => driven_pure _

/-- Giving a value asks nothing. -/
theorem DrivenBeside.pure (a : α) : DrivenBeside allowed (pure a : Action ε (Media g × τ) α) :=
  fun t => (driven_pure (a, t) : Driven allowed (Pure.pure (a, t) : Action ε (Media g) (α × τ)))

namespace Partition

variable (space : Space g) (p : Partition)

/-- Reading a row that should hold something only reads. -/
theorem driven_readStored (row : Nat) : Driven Call.Reads (p.readStored space row) := by
  refine (driven_readRow space p row).bind fun found => ?_
  cases found with
  | none => exact driven_fail _
  | some entry => exact driven_pure _

/-- Asking for the oldest key only reads. -/
theorem driven_oldestKey (status : Status) : Driven Call.Reads (p.oldestKey space status) := by
  have oldest : Driven Call.Reads (do
      let entry ← p.readStored space status.oldestRow
      return (⟨p.id, status.oldestRow, entry.id⟩ : Key)) :=
    (driven_readStored space p _).bind fun _ => driven_pure _
  exact .ite ((driven_fail _).bind fun _ => oldest) oldest

/-- Checking the row of a key asks nothing. -/
theorem driven_requireRow (key : Key) : Driven Call.Reads (p.requireRow (g := g) key) :=
  .ite (driven_pure _) (driven_fail _)

/-- Looking for the row of a key only reads. -/
theorem driven_current (key : Key) : Driven Call.Reads (p.current space key) :=
  (driven_readRow space p _).bind fun _ => driven_pure _

/-- Asking for the row of a key only reads. -/
theorem driven_entryOf (key : Key) : Driven Call.Reads (p.entryOf space key) := by
  refine (driven_requireRow p key).bind fun _ => (driven_current space p key).bind fun found => ?_
  cases found with
  | none => exact driven_fail _
  | some entry => exact driven_pure _

/-- Asking for a length only reads. -/
theorem driven_itemLength (key : Key) : Driven Call.Reads (p.itemLength space key) :=
  (driven_entryOf space p key).bind fun _ => driven_pure _

/-- A stale key is moved by the same readings that find the oldest item. -/
theorem driven_successor (status : Status) (key : Key) :
    Driven Call.Reads (p.successor space status key) := by
  have next (next : Key) : Driven Call.Reads (do
      if (← p.current space next).isNone then
        Action.fail .notFound
      return next) :=
    (driven_current space p next).bind fun _ =>
      .ite ((driven_fail _).bind fun _ => driven_pure _) (driven_pure _)
  rw [successor_eq]
  exact (driven_requireRow p key).bind fun _ => (driven_current space p key).bind fun _ =>
    .ite (driven_oldestKey space p status) (next _)

/-- Reading a payload only reads, in one part or in two. -/
theorem driven_payload (entry : Row) : Driven Call.Reads (p.payload space entry) :=
  (Action.settled_difference _ _).driven.bind fun _ => (Action.settled_cut _ _).driven.bind fun _ =>
    (Action.settled_sum _ _ _).driven.bind fun _ => (Space.driven_read space _ _).bind fun _ =>
      (Space.driven_read space _ _).bind fun _ => driven_pure _

/-- Fetching an item only reads. -/
theorem driven_fetch (key : Key) (capacity : Nat) :
    Driven Call.Reads (p.fetch space key capacity) := by
  rw [fetch_eq]
  exact (driven_entryOf space p key).bind fun entry =>
    .ite ((driven_fail _).bind fun _ => driven_payload space p entry) (driven_payload space p entry)

/-- Fetching an item that may be gone only reads. -/
theorem driven_fetch? (key : Key) (capacity : Nat) :
    Driven Call.Reads (p.fetch? space key capacity) :=
  ((driven_fetch space p key capacity).map some).rescue fun _ =>
    .ite (driven_pure none) (driven_fail _)

/-- A test makes no call. -/
theorem driven_tested (test : Bytes → StateM π Bool) (item : Option Bytes) :
    DrivenBeside Call.Reads (tested (g := g) test item) := by
  intro state
  cases item with
  | none => exact driven_pure (false, state)
  | some payload => exact driven_pure (test payload state)

/-- Searching from a key on only reads, whatever the test says. -/
theorem driven_findFrom (status : Status) (capacity : Nat)
    (test : Bytes → StateM π Bool) (key : Key) (items : Nat) :
    DrivenBeside Call.Reads (p.findFrom space status capacity test key items) := by
  induction items generalizing key with
  | zero => exact .fail _
  | succ items ih =>
    refine .bind (.beside (driven_fetch? space p key capacity)) fun item =>
      .bind (driven_tested test item) fun _ => .ite (.pure key) ?_
    exact .bind (.beside (driven_successor space p status key)) ih

/-- Searching only reads. -/
theorem driven_find (status : Status) (capacity : Nat) (test : Bytes → StateM π Bool) :
    DrivenBeside Call.Reads (p.find space status capacity test) :=
  .bind (.beside (driven_oldestKey space p status)) fun key =>
    driven_findFrom space p status capacity test key _

/-- Reporting rows only reads them. -/
theorem driven_reportRows (row : Nat) (text : String) (rows : Nat) :
    Driven Call.Reads (p.reportRows space row text rows) := by
  induction rows generalizing row text with
  | zero => exact driven_pure _
  | succ rows ih =>
    exact (settled_locateRow p row).driven.bind fun _ => (Space.driven_read space _ _).bind fun _ =>
      ih _ _

/-- A report only reads. -/
theorem driven_report (status : Status) : Driven Call.Reads (p.report space status) :=
  driven_reportRows space p _ _ _

end Partition

end CircularLog
