import CircularLog.Bytes
import CircularLog.Outcome

/-!
# Faults

A plan says which driver calls misbehave and how. It is a list of faults, each for the calls of
some kinds; a call obeys the first fault of its kind that has any lapses left. Such a fault lets
some calls pass and then makes each call a lapse: the call may take part of its effect, and then
reports a failure or claims success.

A plan is data, so "whatever the drivers do" is a statement about every plan.
-/

namespace CircularLog

/-- What a driver is asked to do. -/
inductive Access where
  | read
  | write
  | erase
  | poll
  deriving DecidableEq

/-- How a call misbehaves. -/
structure Lapse where
  /-- How many bytes of a write take effect all the same; an erase takes effect if these are all of
  its bytes. -/
  stored : Nat
  /-- The failure that the call reports, or none if it claims success. -/
  report : Option FailureKind
  /-- The bits that a reading which claims success gets wrong, from its first byte on. -/
  mask : Bytes
  /-- What a poll that claims success answers. -/
  busy : Bool

/-- A source of lapses. -/
structure Fault where
  /-- The calls it is for. -/
  scope : List (Medium × Access)
  /-- How many of them pass first. -/
  skip : Nat
  /-- How many are lapses after that, or none if all are. -/
  count : Option Nat
  /-- How they misbehave. -/
  lapse : Lapse

namespace Fault

/-- The fault is for this call and still has lapses to give. -/
def governs (fault : Fault) (medium : Medium) (access : Access) : Bool :=
  fault.scope.contains (medium, access) && fault.count != some 0

/-- The fault after one of its calls, and the lapse if the call is one. -/
def spend (fault : Fault) : Option Lapse × Fault :=
  if fault.skip = 0 then (some fault.lapse, { fault with count := fault.count.map (· - 1) })
  else (none, { fault with skip := fault.skip - 1 })

/-- What the plan has for the next call of a kind, and the plan after it. -/
def next (medium : Medium) (access : Access) : List Fault → Option Lapse × List Fault
  | [] => (none, [])
  | fault :: faults =>
    if fault.governs medium access then
      (fault.spend.1, fault.spend.2 :: faults)
    else
      ((next medium access faults).1, fault :: (next medium access faults).2)

/-- An empty plan has no lapses and stays empty. -/
@[simp] theorem next_nil (medium : Medium) (access : Access) :
    next medium access [] = (none, []) := rfl

/-- A plan keeps its faults, in their order. -/
theorem length_next (medium : Medium) (access : Access) (plan : List Fault) :
    (next medium access plan).2.length = plan.length := by
  induction plan with
  | nil => rfl
  | cons fault faults ih => by_cases h : fault.governs medium access <;> simp [next, h, ih]

end Fault

end CircularLog
