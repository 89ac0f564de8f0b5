import CircularLog.Proofs.Media.Journal

/-!
# One torn write

The plan in which one write to the eeprom fails when some of its bytes have been stored, and every
other call passes, is an outage (`outage_tornWrite`): it is `armed` until that write, and `spent`
from then on, when nothing fails any more (`outage_spent`).
-/

namespace CircularLog

/-! ## The plan -/

namespace Fault

/-- So many writes to the eeprom pass, and the next one fails for this cause when so many of its
bytes have been stored. -/
def tornWrite (passing stored : Nat) (kind : FailureKind) : Fault :=
  ⟨[(.eeprom, .write)], passing, some 1, ⟨stored, some kind, [], false⟩⟩

/-- What is left of the fault when the write has failed. -/
def tornAlready (stored : Nat) (kind : FailureKind) : Fault :=
  { tornWrite 0 stored kind with count := some 0 }

variable {call : Call} {passing stored : Nat} {kind : FailureKind}

/-- A fault for writes to the eeprom lets every other call pass. -/
theorem next_of_not_eepromWrite {fault : Fault} (scope : fault.scope = [(.eeprom, .write)])
    (h : ¬ (call.medium = .eeprom ∧ call.access = .write)) :
    next call.medium call.access [fault] = (none, [fault]) := by
  have hgoverns : fault.governs call.medium call.access = false := by
    simpa [governs, scope, Prod.ext_iff] using fun hmedium haccess => absurd ⟨hmedium, haccess⟩ h
  rw [next, hgoverns]
  rfl

/-- When the write has failed, every call passes. -/
theorem next_tornAlready :
    next call.medium call.access [tornAlready stored kind] = (none, [tornAlready stored kind]) := by
  simp [next, governs, tornAlready]

/-- A write that is to pass does, and is counted. -/
theorem next_tornWrite_succ :
    next .eeprom .write [tornWrite (passing + 1) stored kind] =
      (none, [tornWrite passing stored kind]) := by
  simp [next, governs, spend, tornWrite]

/-- The write behind those fails. -/
theorem next_tornWrite_zero :
    next .eeprom .write [tornWrite 0 stored kind] =
      (some ⟨stored, some kind, [], false⟩, [tornAlready stored kind]) := by
  simp [next, governs, spend, tornWrite, tornAlready]

end Fault

/-- The one failing write is told of as a failure of the eeprom for this cause, and so many of its
bytes are stored. -/
def Manner.tornWrite (stored : Nat) (kind : FailureKind) : Manner :=
  ⟨(· = .device .eeprom kind), stored⟩

/-! ## The phases -/

namespace Phase

variable {number stored : Nat} {kind : FailureKind} {plan : List Fault} {journal : List Call}

/-- The write to the eeprom with this number, counted from zero, is still to come, and will fail. -/
def armed (number stored : Nat) (kind : FailureKind) : Phase := fun plan journal =>
  ∃ passing, plan = [.tornWrite passing stored kind] ∧ eepromWrites journal + passing = number

/-- The write to the eeprom with this number has been made, and has failed. -/
def spent (number stored : Nat) (kind : FailureKind) : Phase := fun plan journal =>
  plan = [.tornAlready stored kind] ∧ number < eepromWrites journal

/-- Each call passes, but for the one write to the eeprom. -/
theorem meets_armed {failed : FailureKind → Phase} (h : armed number stored kind plan journal)
    (call : Call) (fails : call.medium = .eeprom ∧ call.access = .write → ∀ kind' plan',
      spent number stored kind plan' (call :: journal) → failed kind' plan' (call :: journal)) :
    call.Meets (.tornWrite stored kind) (armed number stored kind) failed plan journal := by
  obtain ⟨passing, rfl, hcount⟩ := h
  by_cases hwrite : call.medium = .eeprom ∧ call.access = .write
  · have hlater : eepromWrites (call :: journal) = eepromWrites journal + 1 := by
      rw [eepromWrites_cons, if_pos hwrite]
    cases passing with
    | zero =>
      have hspent : spent number stored kind [.tornAlready stored kind] (call :: journal) :=
        ⟨rfl, by omega⟩
      rw [Call.Meets, hwrite.1, hwrite.2, Fault.next_tornWrite_zero]
      refine ⟨kind, ⟨rfl, ?_, fun _ => ?_⟩, fails hwrite _ _ hspent⟩
      · rw [hwrite.1]
        rfl
      · rw [if_pos hwrite.1]
        rfl
    | succ passing =>
      rw [Call.Meets, hwrite.1, hwrite.2, Fault.next_tornWrite_succ]
      exact ⟨passing, rfl, by omega⟩
  · rw [Call.Meets, Fault.next_of_not_eepromWrite rfl hwrite]
    refine ⟨passing, rfl, ?_⟩
    rw [eepromWrites_cons, if_neg hwrite]
    exact hcount

/-- When the write has failed, every call passes. -/
theorem meets_spent {manner : Manner} {failed : FailureKind → Phase}
    (h : spent number stored kind plan journal) (call : Call) :
    call.Meets manner (spent number stored kind) failed plan journal := by
  obtain ⟨rfl, hcount⟩ := h
  rw [Call.Meets, Fault.next_tornAlready]
  refine ⟨rfl, ?_⟩
  rw [eepromWrites_cons]
  omega

/-- One failing write is an outage. -/
theorem outage_tornWrite (number stored : Nat) (kind : FailureKind) :
    Outage (.tornWrite stored kind) (armed number stored kind) (spent number stored kind)
      fun _ => .never where
  call h call _ := meets_armed h call fun _ _ _ h' => h'
  change h call _ hflash := meets_armed h call fun hwrite => by simp [hflash] at hwrite
  renew h call _ hflash := meets_armed h call fun hwrite => by simp [hflash] at hwrite
  poll := .inl fun h => meets_armed h _ fun hwrite => by simp at hwrite

/-- When the write has failed, nothing else does. -/
theorem outage_spent (number stored : Nat) (kind : FailureKind) :
    Outage .clean (spent number stored kind) .never fun _ => .never where
  call h call _ := meets_spent h call
  change h call _ _ := meets_spent h call
  renew h call _ _ := meets_spent h call
  poll := .inl fun h => meets_spent h _

end Phase

end CircularLog
