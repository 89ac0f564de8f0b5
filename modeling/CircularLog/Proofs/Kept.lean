import CircularLog.Partition.Recovery
import CircularLog.Proofs.Media.Dialogue
import CircularLog.Proofs.Space.Words

/-!
# What an operation does with the driver

The operations of a space are dialogues with the driver, and so are those of a partition that read
the table, erase rows and set it up; those that only read make only calls that read. So where no
driver call leads out of some states (`Media.Kept`), none of these operations does, however it ends.
Nothing is assumed of what the memories hold.
-/

namespace CircularLog

variable {g : Geometry} {α : Type} {kept : Media g → Prop}

open CircularLog.Action (Keeps)

/-! ## Calls that are kept -/

/-- The call does not write to the eeprom. -/
def Call.SparesEeprom (call : Call) : Prop := ¬ (call.medium = .eeprom ∧ call.access = .write)

/-- A call to the flash does not write to the eeprom. -/
theorem Call.sparesEeprom_of_medium {call : Call} (h : call.medium = .flash) : call.SparesEeprom :=
  fun h' => absurd (h.symm.trans h'.1) (by decide)

/-- The call reads. -/
def Call.Reads (call : Call) : Prop := call.access = .read

/-- What only reads changes nothing. -/
theorem Driven.still {ε : Type} {x : Action ε (Media g) α} (h : Driven Call.Reads x) :
    Driven (¬ ·.Changes) x :=
  h.mono fun call (reads : call.access = .read) => by simp [Call.Changes, reads]

/-- What changes nothing does not write to the eeprom. -/
theorem Driven.sparing {ε : Type} {x : Action ε (Media g) α} (h : Driven (¬ ·.Changes) x) :
    Driven Call.SparesEeprom x :=
  h.mono fun _ still h' => still (.inl h'.2)

/-- An action that does not write to the eeprom keeps what is kept as long as nobody does. -/
theorem Driven.keepsUnwritten {ε : Type} {x : Action ε (Media g) α}
    (h : Driven Call.SparesEeprom x) (k : Media.KeptUnwritten kept) : Keeps kept x := by
  refine h.keeps fun call spares => ?_
  cases call with
  | eepromRead address length => exact k.eepromRead address length
  | eepromWrite address bytes => exact absurd ⟨rfl, rfl⟩ spares
  | eepromPoll => exact k.eepromPoll
  | flashRead address length => exact k.flashRead address length
  | flashProgram address bytes => exact k.flashProgram address bytes
  | flashErase start => exact k.flashErase start

/-- Every call of the driver keeps what all of them keep. -/
theorem Media.Kept.call (k : Media.Kept kept) {β : Type} (call : DriverCall g β) :
    Keeps kept call.run := by
  cases call with
  | eepromRead address length => exact k.eepromRead address length
  | eepromWrite address bytes => exact k.eepromWrite address bytes
  | eepromPoll => exact k.eepromPoll
  | flashRead address length => exact k.flashRead address length
  | flashProgram address bytes => exact k.flashProgram address bytes
  | flashErase start => exact k.flashErase start

namespace Space

variable {allowed : Call → Prop}

/-! ## Reading -/

/-- What a driver keeps is kept, whichever memory its failures are laid to. -/
theorem keeps_driver {x : Action FailureKind (Media g) α} (hx : Keeps kept x) (medium : Medium) :
    Keeps kept (driver medium x) := hx.mapError _

/-- A call to a memory is the one that it is. -/
theorem driven_driver (call : DriverCall g α) (h : allowed call.call) (medium : Medium) :
    Driven allowed (driver medium call.run) := (driven_run call h).mapError _

/-- Reading the flash is one reading call. -/
theorem driven_flashRead (address length : Nat) :
    Driven Call.Reads (driver (g := g) .flash (Media.flashRead address length)) :=
  driven_driver (.flashRead address length) (show Access.read = .read from rfl) _

/-- Reading the eeprom is one reading call. -/
theorem driven_eepromRead (address length : Nat) :
    Driven Call.Reads (driver (g := g) .eeprom (Media.eepromRead address length)) :=
  driven_driver (.eepromRead address length) (show Access.read = .read from rfl) _

/-- Reading whole words only reads. -/
theorem driven_readWords (address length : Nat) :
    Driven Call.Reads (readWords (g := g) address length) :=
  (settled_roundDown _ _).driven.bind fun _ => (Action.settled_sum _ _ _).driven.bind fun _ =>
    (settled_roundUp _ _).driven.bind fun _ => (Action.settled_difference _ _).driven.bind fun _ =>
      (Action.settled_front _ _).driven.bind fun _ => (driven_flashRead _ _).bind fun _ =>
        driven_pure _

/-- Reading a piece of a page only reads. -/
theorem driven_readPiece (address length : Nat) :
    Driven Call.Reads (readPiece (g := g) address length) :=
  (driven_readWords _ _).bind fun _ => (Action.settled_difference _ _).driven.bind fun _ =>
    (Action.settled_sum _ _ _).driven.bind fun _ => (Action.settled_part _ _ _).driven

/-- Reading piece after piece only reads. -/
theorem driven_readPieces (address : Nat) (lengths : List Nat) :
    Driven Call.Reads (readPieces (g := g) address lengths) := by
  induction lengths generalizing address with
  | nil => exact driven_pure _
  | cons length lengths ih =>
    exact (driven_readPiece _ _).bind fun _ => (ih _).bind fun _ => driven_pure _

/-- A refusal asks nothing. -/
theorem driven_require (space : Space g) (address length : Nat) :
    Driven allowed (space.require address length : Action Error (Media g) Unit) := by
  rw [require_eq]
  exact .ite (driven_fail _) (driven_pure _)

/-- Reading a space only reads. -/
theorem driven_read (space : Space g) (address length : Nat) :
    Driven Call.Reads (space.read address length) := by
  rw [read_eq]
  have back (front : Bytes) (cell : Nat) (lengths : List Nat) : Driven Call.Reads (do
      let back ← readPieces (g := g) cell lengths
      return front ++ back) := (driven_readPieces _ _).bind fun _ => driven_pure _
  exact .ite (driven_pure _) ((driven_require _ _ _).bind fun _ =>
    .ite ((driven_pure _).bind fun _ => back _ _ _)
      ((driven_eepromRead _ _).bind fun _ => back _ _ _))

/-! ## Writing -/

/-- Reading back makes no other calls than the reading does. -/
theorem driven_confirm {read : Nat → Nat → Action Error (Media g) Bytes}
    (hread : ∀ address length, Driven allowed (read address length)) (address size index : Nat)
    (chunks : List Bytes) : Driven allowed (confirm read address size index chunks) := by
  induction chunks generalizing index with
  | nil => exact driven_pure _
  | cons chunk chunks ih =>
    exact (Action.settled_product _ _ _).driven.bind fun _ =>
      (Action.settled_sum _ _ _).driven.bind fun _ =>
        (Action.settled_front _ _).driven.bind fun _ =>
        (hread _ _).bind fun _ => .ite (ih _) (driven_fail _)

/-- Waiting for the eeprom only polls it. -/
theorem driven_awaitIdle (polling : allowed ⟨.eeprom, .poll, 0, 0⟩) (polls : Nat) :
    Driven allowed (awaitIdle (g := g) polls) := by
  induction polls with
  | zero => exact driven_fail _
  | succ polls ih =>
    exact (driven_driver .eepromPoll polling _).bind fun _ => .ite ih (driven_pure _)

/-- A call that may be made twice keeps what it keeps when it is made once. -/
theorem keeps_resubmit {call : Action FailureKind (Media g) Unit} (hcall : Keeps kept call) :
    Keeps kept (resubmit call) :=
  hcall.rescue fun _ => .ite hcall (Action.keeps_fail _)

/-- A call that may be made twice is the same call both times. -/
theorem driven_resubmit (call : DriverCall g Unit) (h : allowed call.call) (medium : Medium) :
    Driven allowed (driver medium (resubmit call.run)) :=
  ((driven_run call h).rescue fun _ => .ite (driven_run call h) (driven_fail _)).mapError _

/-- What comes behind the call that programs changes nothing. -/
theorem driven_read_back (address : Nat) (words : Bytes) :
    Driven (¬ ·.Changes) (do
      let size ← roundDown g.wordSize chunkBytes
      Action.ensure (0 < size) .chunkEmpty
      confirm (g := g) (fun address length => driver .flash (Media.flashRead address length))
        address size 0 (words.chunks size)) :=
  (settled_roundDown _ _).driven.bind fun _ => (Action.settled_ensure _ _).driven.bind fun _ =>
    (driven_confirm driven_flashRead _ _ _ _).still

/-- Programming words never writes to the eeprom. -/
theorem driven_programWords (address : Nat) (words : Bytes) :
    Driven Call.SparesEeprom (programWords (g := g) address words) :=
  (driven_resubmit (.flashProgram address words) (Call.sparesEeprom_of_medium rfl) _).bind
    fun _ => (driven_read_back address words).sparing

/-- Erasing a page and programming it again never writes to the eeprom. -/
theorem driven_renewPage (address : Nat) (bytes : Bytes) :
    Driven Call.SparesEeprom (renewPage (g := g) address bytes) := by
  refine (settled_roundDown _ _).driven.bind fun start =>
    (Action.settled_difference _ _).driven.bind fun _ =>
      (Action.settled_front _ _).driven.bind fun _ =>
        (driven_flashRead _ _).still.sparing.bind fun _ =>
        (Action.settled_sum _ _ _).driven.bind fun _ =>
          (Action.settled_copy _ _ _ _).driven.bind fun _ => driven_sum_bind ?_
  -- What is erased is one page, so that the erasing is a call of the driver's.
  exact (driven_resubmit (.flashErase start) (Call.sparesEeprom_of_medium rfl) _).bind
    fun _ => driven_programWords _ _

/-- Writing a piece of a page never writes to the eeprom. -/
theorem driven_writePiece (address : Nat) (bytes : Bytes) :
    Driven Call.SparesEeprom (writePiece (g := g) address bytes) :=
  (driven_readWords _ _).still.sparing.bind fun _ => (Action.settled_difference _ _).driven.bind
    fun _ => (Action.settled_sum _ _ _).driven.bind fun _ =>
      (Action.settled_part _ _ _).driven.bind fun _ => .ite (driven_pure _)
        (.ite ((Action.settled_copy _ _ _ _).driven.bind fun _ => driven_programWords _ _)
          (driven_renewPage _ _))

/-- Writing piece after piece never writes to the eeprom. -/
theorem driven_writePieces (address : Nat) (pieces : List Bytes) :
    Driven Call.SparesEeprom (writePieces (g := g) address pieces) := by
  induction pieces generalizing address with
  | nil => exact driven_pure _
  | cons piece pieces ih => exact (driven_writePiece _ _).bind fun _ => ih _

/-- What comes behind the call that writes to the eeprom changes nothing. -/
theorem driven_confirmed (address : Nat) (bytes : Bytes) :
    Driven (¬ ·.Changes) (do
      awaitIdle (g := g) pollLimit
      confirm (fun address length => driver .eeprom (Media.eepromRead address length)) address
        chunkBytes 0 (bytes.chunks chunkBytes)) :=
  (driven_awaitIdle (by simp [Call.Changes]) _).bind fun _ =>
    (driven_confirm driven_eepromRead _ _ _ _).still

/-- Writing to a space is a dialogue with the driver. -/
theorem driven_write (space : Space g) (address : Nat) (bytes : Bytes) :
    Driven Call.Any (space.write address bytes) := by
  have front (bytes : Bytes) : Driven Call.Any (writeEeprom (g := g) address bytes) :=
    (driven_driver (.eepromWrite address bytes) trivial _).bind fun _ =>
      (driven_confirmed address bytes).any
  rw [write_eq]
  refine .ite (driven_pure _) ((driven_require _ _ _).bind fun _ =>
    .ite ((front _).bind fun _ => ?_) ?_)
  · exact (driven_writePieces _ _).any
  · exact (driven_writePieces _ _).any

/-- Filling a part of a space is a dialogue with the driver. -/
theorem driven_fill (space : Space g) (address length : Nat) (value : UInt8) :
    Driven Call.Any (space.fill address length value) := by
  have chunks (address : Nat) (lengths : List Nat) :
      Driven Call.Any (space.fillChunks address value lengths) := by
    induction lengths generalizing address with
    | nil => exact driven_pure _
    | cons length lengths ih =>
      exact (Action.settled_part _ _ _).driven.bind fun _ => (driven_write space _ _).bind fun _ =>
        (Action.settled_sum _ _ _).driven.bind fun _ => ih _
  exact (driven_require _ _ _).bind fun _ => chunks _ _

end Space

/-! ## The table -/

namespace Partition

variable (space : Space g) (p : Partition)

/-- Reading a row only reads. -/
theorem driven_readRow (row : Nat) : Driven Call.Reads (p.readRow space row) := by
  refine (p.settled_locateRow row).driven.bind fun _ => (Space.driven_read space _ _).bind
    fun bytes => ?_
  cases Row.decode bytes with
  | none => exact driven_pure _
  | some entry => exact .ite (driven_pure _) (driven_fail _)

/-- Erasing a row is a dialogue with the driver. -/
theorem driven_eraseRow (row : Nat) : Driven Call.Any (p.eraseRow space row) :=
  (p.settled_locateRow row).driven.bind fun _ => Space.driven_write space _ _

/-- Setting up a partition is a dialogue with the driver. -/
theorem driven_ensureFormatted : Driven Call.Any (p.ensureFormatted space) := by
  have sets : Driven Call.Any (do
      space.fill p.table p.tableLength 0xFF
      space.write p.base magic) :=
    (Space.driven_fill space _ _ _).bind fun _ => Space.driven_write space _ _
  exact (Space.driven_read space _ _).any.bind fun _ => .ite (driven_pure _) sets

/-- Taking rows into a survey asks nothing. -/
theorem driven_noteRows (row offset : Nat) (survey : Survey) (rows : List Bytes) :
    Driven (g := g) Call.Reads (p.noteRows row offset survey rows) := by
  induction rows generalizing offset survey with
  | nil => exact driven_pure _
  | cons bytes rows ih =>
    unfold noteRows
    split
    · exact ih _ _
    · exact .ite (driven_fail _) ((Survey.settled_note _ _ _ _).driven.bind fun _ => ih _ _)

/-- A survey of a table only reads. -/
theorem driven_noteBatches (row : Nat) (survey : Survey) (batches : Nat) :
    Driven Call.Reads (p.noteBatches space row survey batches) := by
  induction batches generalizing row survey with
  | zero => exact driven_pure _
  | succ batches ih =>
    exact .ite (driven_pure _) ((Action.settled_difference _ _).driven.bind fun _ =>
      (Action.settled_product _ _ _).driven.bind fun _ =>
        (Action.settled_front _ _).driven.bind fun _ =>
          (p.settled_locateRow row).driven.bind fun _ =>
          (Space.driven_read space _ _).bind fun _ => (driven_noteRows p _ _ _ _).bind fun _ =>
            (Action.settled_sum _ _ _).driven.bind fun _ => ih _ _)

/-- Following the ids in a table only reads. -/
theorem driven_followRun (row : Nat) (id : UInt32) (stored filled rows : Nat) :
    Driven Call.Reads (p.followRun space row id stored filled rows) := by
  induction rows generalizing row id stored filled with
  | zero => exact driven_pure _
  | succ rows ih =>
    refine (driven_readRow space p row).bind fun found => ?_
    cases found with
    | none => exact driven_pure _
    | some entry =>
      exact .ite ((Action.settled_sum _ _ _).driven.bind fun _ =>
        (Action.settled_sum _ _ _).driven.bind fun _ => (p.settled_stepRow row).driven.bind fun _ =>
          ih _ _ _ _) (driven_pure _)

/-- Erasing what is left in some rows is a dialogue with the driver. -/
theorem driven_eraseRows (row rows : Nat) : Driven Call.Any (p.eraseRows space row rows) := by
  induction rows generalizing row with
  | zero => exact driven_pure _
  | succ rows ih =>
    have rest : Driven Call.Any (do p.eraseRows space (← p.stepRow row) rows) :=
      (p.settled_stepRow row).driven.bind fun _ => ih _
    exact (driven_readRow space p row).any.bind fun _ =>
      .ite ((driven_eraseRow space p row).bind fun _ => rest) rest

/-- Recovery is a dialogue with the driver. -/
theorem driven_recover : DrivenBeside Call.Any (p.recover space) := by
  refine .bind (.beside (driven_noteBatches space p _ _ _).any) fun survey => ?_
  cases survey.oldest with
  | none => exact .modifySecond fun _ => Status.empty
  | some oldest =>
    refine .bind (.modifySecond fun status : Status => { status with oldestRow := oldest.1 })
      fun _ => .bind (.beside (driven_followRun space p _ _ _ _ _).any) fun run => .ite (.fail _) ?_
    have notes : DrivenBeside Call.Any (modify fun after =>
        (after.1, { after.2 with stored := run.2.1, filled := run.2.2 }) :
          Action Error (Media g × Status) PUnit) :=
      .modifySecond fun status : Status => { status with stored := run.2.1, filled := run.2.2 }
    exact .ite (.bind (.beside (driven_eraseRows space p _ _)) fun _ => notes) notes

end Partition

/-! ## What the calls keep -/

namespace Partition

variable (k : Media.Kept kept) (space : Space g) (p : Partition)
include k

end Partition

end CircularLog
