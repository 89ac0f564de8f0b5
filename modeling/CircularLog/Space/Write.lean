import CircularLog.Space.Read

/-!
# Writing

A write returns only when everything has been read back. In the eeprom it is one driver call, a
wait for the memory, and the comparison. In the flash each page is served by itself: nothing is
done if the bytes are there already; the words are programmed in place if only bits have to be
cleared; and otherwise the page is read, erased and programmed anew, with its other bytes as they
were.
-/

namespace CircularLog

namespace Space

variable {g : Geometry}

/-- Compare what is read back with chunks of `size` bytes that were written from `address` on, the
first of which is the one with this index. -/
def confirm (read : Nat → Nat → Action Error (Media g) Bytes) (address size index : Nat) :
    List Bytes → Action Error (Media g) Unit
  | [] => pure ()
  | chunk :: chunks => do
    let offset ← Action.product 0x1_0000_0000_0000_0000 index size
    let start ← Action.sum 0x1_0000_0000 address offset
    Action.front chunkBytes chunk.length
    if (← read start chunk.length) = chunk then
      confirm read address size (index + 1) chunks
    else
      Action.fail .inconsistent

/-! ## The eeprom -/

/-- Poll the eeprom until it is idle, so many times at most. -/
def awaitIdle : Nat → Action Error (Media g) Unit
  | 0 => Action.fail .busy
  | polls + 1 => do
    if ← driver .eeprom Media.eepromPoll then
      awaitIdle polls

/-- Write to the eeprom, wait for it and compare. -/
def writeEeprom (address : Nat) (bytes : Bytes) : Action Error (Media g) Unit := do
  driver .eeprom (Media.eepromWrite address bytes)
  awaitIdle pollLimit
  confirm (fun address length => driver .eeprom (Media.eepromRead address length)) address
    chunkBytes 0 (bytes.chunks chunkBytes)

/-! ## The flash -/

/-- Submit a call, and once more if it failed for a cause that may pass. -/
def resubmit (call : Action FailureKind (Media g) Unit) : Action FailureKind (Media g) Unit :=
  call.rescue fun kind => if kind = .other then call else Action.fail kind

/-- Program whole words and compare. -/
def programWords (address : Nat) (words : Bytes) : Action Error (Media g) Unit := do
  driver .flash (resubmit (Media.flashProgram address words))
  let size ← roundDown g.wordSize chunkBytes
  Action.ensure (0 < size) .chunkEmpty
  confirm (fun address length => driver .flash (Media.flashRead address length)) address size 0
    (words.chunks size)

/-- Put bytes into a page: erase it, and program it with these bytes among its old ones. -/
def renewPage (address : Nat) (bytes : Bytes) : Action Error (Media g) Unit := do
  let start ← roundDown g.pageBytes address
  let head ← Action.difference address start
  Action.front g.scratchBytes g.pageBytes
  let page ← driver .flash (Media.flashRead start g.pageBytes)
  let page ← Action.copy page head (← Action.sum 0x1_0000_0000_0000_0000 head bytes.length) bytes
  -- From here on, until it is programmed again, the rest of the page is nowhere but in `page`.
  let stop ← Action.sum 0x1_0000_0000 start g.pageBytes
  driver .flash (resubmit (Media.flashErase start stop))
  programWords start page

/-- Make bytes that lie in one page of the flash what they should be, at the least cost. -/
def writePiece (address : Nat) (bytes : Bytes) : Action Error (Media g) Unit := do
  let (start, words) ← readWords address bytes.length
  let head ← Action.difference address start
  let tail ← Action.sum 0x1_0000_0000_0000_0000 head bytes.length
  let current ← Action.part words head tail
  if current = bytes then
    return
  -- Programming can clear bits but not set them.
  if current.clearsTo bytes then
    programWords start (← Action.copy words head tail bytes)
  else
    renewPage address bytes

/-- Write bytes from a cell of the flash on, page by page, to so many pages at most. -/
def writePages (address : Nat) (bytes : Bytes) : Nat → Action Error (Media g) Unit
  | 0 => pure ()
  | pages + 1 => do
    if bytes = [] then
      return
    let near ← g.pagePart address bytes.length
    let _ ← Action.cut bytes.length near
    writePiece address (bytes.take near)
    writePages (← Action.sum 0x1_0000_0000 address near) (bytes.drop near) pages

/-! ## The whole space -/

variable (space : Space g)

/-- Write bytes from `address` on. A request to write nothing succeeds wherever it is. -/
def write (address : Nat) (bytes : Bytes) : Action Error (Media g) Unit := do
  if bytes = [] then
    return
  space.require address bytes.length
  let near := space.eepromPart address bytes.length
  let far ← Action.cut bytes.length near
  if near ≠ 0 then
    writeEeprom address (bytes.take near)
  if far ≠ 0 then
    let cell ← space.locate (← Action.sum 0x1_0000_0000 address near)
    writePages cell (bytes.drop near) far

/-- Write chunks of copies of `value` of the given lengths, one behind the other. -/
def fillChunks (address : Nat) (value : UInt8) : List Nat → Action Error (Media g) Unit
  | [] => pure ()
  | length :: lengths => do
    space.write address (← Action.part (List.replicate chunkBytes value) 0 length)
    fillChunks (← Action.sum 0x1_0000_0000 address length) value lengths

/-- Write `length` copies of `value` from `address` on. -/
def fill (address length : Nat) (value : UInt8) : Action Error (Media g) Unit := do
  space.require address length
  space.fillChunks address value (Bytes.pieces chunkBytes length)

end Space

end CircularLog
