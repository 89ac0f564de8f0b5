import CircularLog.Proofs.Media.Outage

/-!
# Schedules of failures

Calls that program or erase the flash may fail, by the plan or because the flash lets them time out;
this is the `Trouble` that they are in. A `Schedule` says of each call that would be made without
trouble what becomes of it when it is submitted and, where that may help, when it is submitted
again. So it says which calls are made (`Schedule.made`) and with which failure they end, if one of
them is not got over (`Schedule.verdict`); `Trouble.Brings` says that this is what the trouble makes
of them.
-/

namespace CircularLog

/-! ## Trouble -/

/-- The call programs or erases the flash. -/
def Call.ChangesFlash (call : Call) : Prop := call.medium = .flash ∧ call.Changes

instance (call : Call) : Decidable call.ChangesFlash := inferInstanceAs (Decidable (_ ∧ _))

/-- A lapse of the call reaches the flash all the same, with what it stores. -/
def Lapse.Reaches (g : Geometry) (call : Call) (lapse : Lapse) : Prop :=
  if call.access = .erase then call.length ≤ lapse.stored
  else min lapse.stored call.length / g.wordBytes ≠ 0

instance (g : Geometry) (call : Call) (lapse : Lapse) : Decidable (lapse.Reaches g call) :=
  inferInstanceAs (Decidable (if call.access = .erase then call.length ≤ lapse.stored
    else min lapse.stored call.length / g.wordBytes ≠ 0))

/-- What can make the calls to come fail: the plan, and that so many calls of the flash time out. -/
structure Trouble where
  plan : List Fault
  timeouts : Nat

namespace Trouble

/-- No call fails. -/
def clear : Trouble := ⟨[], 0⟩

variable (g : Geometry) (t : Trouble) (call : Call)

/-- The flash lets the call time out, which must reach it for that. -/
def late : Bool :=
  call.ChangesFlash ∧ t.timeouts ≠ 0 ∧
    ∀ lapse ∈ (Fault.next call.medium call.access t.plan).1, lapse.Reaches g call

variable {g t call} in
/-- A changing call of the flash is late as long as the flash lets some time out, and it reaches the
flash. -/
theorem late_iff (changes : call.ChangesFlash) : t.late g call = true ↔ t.timeouts ≠ 0 ∧
    ∀ lapse ∈ (Fault.next call.medium call.access t.plan).1, lapse.Reaches g call := by
  simp [late, changes]

/-- What there is for the calls behind this one. -/
def after : Trouble :=
  ⟨(Fault.next call.medium call.access t.plan).2,
    if t.late g call then t.timeouts - 1 else t.timeouts⟩

/-- Nothing happens to the call. -/
def Spares : Prop := (Fault.next call.medium call.access t.plan).1 = none ∧ t.late g call = false

/-- The call programs or erases the flash, and fails in this way. -/
def Fails (kind : FailureKind) : Prop :=
  call.ChangesFlash ∧ (if t.late g call then some .other
    else (Fault.next call.medium call.access t.plan).1.bind Lapse.report) = some kind

instance : Decidable (t.Spares g call) := inferInstanceAs (Decidable (_ ∧ _))

instance (kind : FailureKind) : Decidable (t.Fails g call kind) :=
  inferInstanceAs (Decidable (_ ∧ _))

section Changing

variable {g t call}

/-- Where a call that reaches the flash is not late, the flash lets none time out. -/
theorem ready (changes : call.ChangesFlash) (h : t.late g call = false)
    (reaches : ∀ lapse ∈ (Fault.next call.medium call.access t.plan).1, lapse.Reaches g call) :
    t.timeouts = 0 := by
  refine Decidable.byContradiction fun htimeouts => ?_
  rw [(late_iff changes).mpr ⟨htimeouts, reaches⟩] at h
  cases h

/-- A late call times out. -/
theorem Fails.of_late {kind : FailureKind} (h : t.Fails g call kind) (late : t.late g call = true) :
    kind = .other := by
  obtain ⟨-, hkind⟩ := h
  rw [if_pos late] at hkind
  exact (Option.some.inj hkind).symm

/-- If the call is not late, a lapse makes it fail. -/
theorem Fails.of_early {kind : FailureKind} (h : t.Fails g call kind)
    (early : t.late g call = false) :
    ∃ lapse, (Fault.next call.medium call.access t.plan).1 = some lapse ∧
        lapse.report = some kind := by
  obtain ⟨-, hkind⟩ := h
  rw [if_neg (by simp [early])] at hkind
  exact Option.bind_eq_some_iff.mp hkind

end Changing

/-- What there is for the calls behind these. -/
def behind (t : Trouble) (calls : List Call) : Trouble := calls.foldl (after g) t

/-- When these calls are made, one after the other, each passes or fails as it says there. -/
def Brings : Trouble → List (Call × Option FailureKind) → Prop
  | _, [] => True
  | t, (call, none) :: rest => t.Spares g call ∧ (t.after g call).Brings rest
  | t, (call, some kind) :: rest => t.Fails g call kind ∧ (t.after g call).Brings rest

instance decidableBrings : (t : Trouble) → (calls : List (Call × Option FailureKind)) →
    Decidable (t.Brings g calls)
  | _, [] => .isTrue trivial
  | t, (call, none) :: rest =>
    have := decidableBrings (t.after g call) rest
    inferInstanceAs (Decidable (_ ∧ _))
  | t, (call, some _) :: rest =>
    have := decidableBrings (t.after g call) rest
    inferInstanceAs (Decidable (_ ∧ _))

/-- What is brought to some calls and then to others is brought to all of them. -/
theorem brings_append {g : Geometry} (t : Trouble) (calls more : List (Call × Option FailureKind)) :
    t.Brings g (calls ++ more) ↔
      t.Brings g calls ∧ (t.behind g (calls.map Prod.fst)).Brings g more := by
  induction calls generalizing t with
  | nil => simp [Brings, behind]
  | cons first calls ih =>
    obtain ⟨call, outcome⟩ := first
    cases outcome <;> simp [Brings, behind, ih, and_assoc]

variable {g : Geometry} (call : Call)

/-- Without trouble no call is late. -/
theorem late_clear : clear.late g call = false := by simp [late, clear]

/-- Without trouble nothing happens to a call. -/
theorem spares_clear : clear.Spares g call := ⟨rfl, late_clear call⟩

/-- Without trouble there is none behind any calls. -/
theorem behind_clear (calls : List Call) : clear.behind g calls = clear := by
  induction calls with
  | nil => rfl
  | cons call calls ih =>
    have hafter : clear.after g call = clear := by
      rw [after, late_clear]
      rfl
    rw [behind, List.foldl_cons, hafter]
    exact ih

end Trouble

/-! ## Schedules -/

/-- How a call comes out when it is submitted, and when it is submitted again. -/
structure Fate where
  first : Option FailureKind
  second : Option FailureKind

namespace Fate

/-- How the call comes out each time that it is made: a failure that may pass makes it worth while
to submit it again. -/
def attempts (fate : Fate) : List (Option FailureKind) :=
  if fate.first = some .other then [fate.first, fate.second] else [fate.first]

/-- The failure that the call ends with. -/
def verdict (fate : Fate) : Option FailureKind :=
  if fate.first = some .other then fate.second else fate.first

variable {fate : Fate} {kind : FailureKind}

/-- A call that is got over passes at once, or when it is made for the second time. -/
theorem attempts_of_over (h : fate.verdict = none) :
    fate.attempts = [none] ∨ fate.attempts = [some .other, none] := by
  obtain ⟨first, second⟩ := fate
  unfold verdict at h
  unfold attempts
  split at h
  · next hother => exact .inr (by rw [if_pos hother, hother, h])
  · next hother => exact .inl (by rw [if_neg hother, h])

/-- A call that is not got over fails in a way that does not pass, or twice. -/
theorem eq_of_fails (h : fate.verdict = some kind) :
    fate.first = some kind ∧ kind ≠ .other ∧ fate.attempts = [some kind] ∨
      fate = ⟨some .other, some kind⟩ := by
  obtain ⟨first, second⟩ := fate
  unfold verdict at h
  split at h
  · next hother => exact .inr (by rw [← hother, ← h])
  · next hother =>
    exact .inl ⟨h, fun hkind => hother (hkind ▸ h), by rw [attempts, if_neg hother, h]⟩

end Fate

/-- Calls, one after the other, and what becomes of each. -/
abbrev Schedule := List (Call × Fate)

namespace Schedule

/-- The failure that the calls end with. -/
def verdict : Schedule → Option FailureKind
  | [] => none
  | (_, fate) :: rest => fate.verdict.or (verdict rest)

/-- The calls as they are made, each with how it comes out; there are none behind a failure that
they end with. -/
def made : Schedule → List (Call × Option FailureKind)
  | [] => []
  | (call, fate) :: rest =>
    fate.attempts.map (call, ·) ++ if fate.verdict = none then made rest else []

/-- A single call is made as often as its fate says. -/
theorem made_singleton (call : Call) (fate : Fate) :
    made [(call, fate)] = fate.attempts.map (call, ·) := by
  simp [made]

/-- A single call decides how the schedule ends. -/
theorem verdict_singleton (call : Call) (fate : Fate) : verdict [(call, fate)] = fate.verdict := by
  simp [verdict]

/-- The first call that is not got over decides how the schedule ends. -/
theorem verdict_append (schedule more : Schedule) :
    verdict (schedule ++ more) = (verdict schedule).or (verdict more) := by
  induction schedule with
  | nil => rfl
  | cons first schedule ih =>
    obtain ⟨call, fate⟩ := first
    rw [List.cons_append, verdict, ih, verdict, Option.or_assoc]

/-- The calls of the second part are made only if the first one is got over. -/
theorem made_append (schedule more : Schedule) :
    made (schedule ++ more) =
      made schedule ++ if verdict schedule = none then made more else [] := by
  induction schedule with
  | nil => rfl
  | cons first schedule ih =>
    obtain ⟨call, fate⟩ := first
    rw [List.cons_append, made, ih, made, verdict]
    cases fate.verdict with
    | none => rw [if_pos rfl, if_pos rfl, Option.none_or, List.append_assoc]
    | some kind => simp

variable {schedule : Schedule}

/-- Behind a call that is got over, the others are made. -/
theorem made_cons_of_over {call : Call} {fate : Fate} (passes : fate.verdict = none) :
    made ((call, fate) :: schedule) = fate.attempts.map (call, ·) ++ made schedule := by
  rw [made, if_pos passes]

/-- Where all failures are got over, there is one call more for each of them. -/
theorem length_made (passes : verdict schedule = none) :
    (made schedule).length = schedule.length + (made schedule).countP (·.2.isSome) := by
  induction schedule with
  | nil => rfl
  | cons first schedule ih =>
    obtain ⟨call, fate⟩ := first
    obtain ⟨hfate, hrest⟩ := Option.or_eq_none_iff.mp passes
    rw [made_cons_of_over hfate, List.length_append, List.countP_append, ih hrest, List.length_cons]
    rcases Fate.attempts_of_over hfate with h | h <;> simp [h] <;> omega

/-- A failure that is not got over is one of the schedule, and that of the last call. -/
theorem exists_of_fails {kind : FailureKind} (fails : verdict schedule = some kind) :
    ∃ before call fate rest, schedule = before ++ (call, fate) :: rest ∧ verdict before = none ∧
      fate.verdict = some kind ∧ made schedule = made before ++ fate.attempts.map (call, ·) := by
  induction schedule with
  | nil => cases fails
  | cons first schedule ih =>
    obtain ⟨call, fate⟩ := first
    cases hfate : fate.verdict with
    | some kind' =>
      rw [verdict, hfate, Option.some_or] at fails
      exact ⟨[], call, fate, schedule, rfl, rfl, hfate.trans fails, by simp [made, hfate]⟩
    | none =>
      rw [verdict, hfate, Option.none_or] at fails
      obtain ⟨before, last, fate', rest, rfl, hbefore, hfate', hmade⟩ := ih fails
      refine ⟨(call, fate) :: before, last, fate', rest, rfl, ?_, hfate', ?_⟩
      · rw [verdict, hfate, Option.none_or, hbefore]
      · rw [made_cons_of_over hfate, made_cons_of_over hfate, hmade, List.append_assoc]

end Schedule

end CircularLog
