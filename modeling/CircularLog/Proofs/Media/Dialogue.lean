import CircularLog.Proofs.Media.Blackout

/-!
# Runs as dialogues with the driver

What works on the memories through the driver is a `Dialogue`: a call and, for each answer of the
driver, how it goes on. An action that is `Driven` runs such a dialogue, so that there is a meaning
to the state behind each of its calls (`Dialogue.behind`), and it keeps what the calls keep that it
makes (`Driven.keeps`).

If no reading lies, each of these states is one in which another run ends: the run in which the same
calls meet the same faults and all later calls are refused without effect (`Dialogue.exists_cut`).
So what is true of everything that a run can leave behind, whatever faults it meets, is true behind
each of its calls.
-/

namespace CircularLog

variable {g : Geometry} {ε ε' α β τ : Type} {m : Media g}

/-! ## Dialogues -/

/-- The calls that a space makes, with the type of what they give. -/
inductive DriverCall (g : Geometry) : Type → Type where
  | eepromRead (address length : Nat) : DriverCall g Bytes
  | eepromWrite (address : Nat) (bytes : Bytes) : DriverCall g Unit
  | eepromPoll : DriverCall g Bool
  | flashRead (address length : Nat) : DriverCall g Bytes
  | flashProgram (address : Nat) (bytes : Bytes) : DriverCall g Unit
  /-- Erase the page that starts here. -/
  | flashErase (start : Nat) : DriverCall g Unit

/-- Make the call. -/
def DriverCall.run : DriverCall g β → Action FailureKind (Media g) β
  | eepromRead address length => Media.eepromRead address length
  | eepromWrite address bytes => Media.eepromWrite address bytes
  | eepromPoll => Media.eepromPoll
  | flashRead address length => Media.flashRead address length
  | flashProgram address bytes => Media.flashProgram address bytes
  | flashErase start => Media.flashErase start (start + g.pageBytes)

/-- How the call stands in the journal. -/
def DriverCall.call : DriverCall g β → Call
  | eepromRead address length => ⟨.eeprom, .read, address, length⟩
  | eepromWrite address bytes => ⟨.eeprom, .write, address, bytes.length⟩
  | eepromPoll => ⟨.eeprom, .poll, 0, 0⟩
  | flashRead address length => ⟨.flash, .read, address, length⟩
  | flashProgram address bytes => ⟨.flash, .write, address, bytes.length⟩
  | flashErase start => ⟨.flash, .erase, start, start + g.pageBytes - start⟩

/-- Calls to the driver, one after the other: each answer, a value or a failure, decides what comes
next. -/
inductive Dialogue (g : Geometry) (ε α : Type) : Type 1 where
  | ends (result : Except (Stop ε) α)
  | asks {β : Type} (call : DriverCall g β) (next : Except FailureKind β → Dialogue g ε α)

namespace Dialogue

/-- Hold the dialogue. A defect of a memory ends it. -/
def run : Dialogue g ε α → Action ε (Media g) α
  | ends (.ok a) => pure a
  | ends (.error stop) => throw stop
  | asks call next => fun m =>
    match call.run m with
    | .ok b m => (next (.ok b)).run m
    | .error (.error kind) m => (next (.error kind)).run m
    | .error (.defect d) m => .error (.defect d) m

/-- The memories behind so many calls of the dialogue, or at its end if it has fewer. -/
def behind : Nat → Dialogue g ε α → Media g → Media g
  | 0, _, m => m
  | _ + 1, ends _, m => m
  | calls + 1, asks call next, m =>
    match call.run m with
    | .ok b m => (next (.ok b)).behind calls m
    | .error (.error kind) m => (next (.error kind)).behind calls m
    | .error (.defect _) m => m

/-- Go on from the value of a dialogue. -/
def bind : Dialogue g ε β → (β → Dialogue g ε α) → Dialogue g ε α
  | ends (.ok b), f => f b
  | ends (.error stop), _ => ends (.error stop)
  | asks call next, f => asks call fun answer => (next answer).bind f

/-- Go on from the error of a dialogue. -/
def rescue : Dialogue g ε α → (ε → Dialogue g ε' α) → Dialogue g ε' α
  | ends (.ok a), _ => ends (.ok a)
  | ends (.error (.error e)), handle => handle e
  | ends (.error (.defect d)), _ => ends (.error (.defect d))
  | asks call next, handle => asks call fun answer => (next answer).rescue handle

/-- A dialogue that starts with a call goes on from the answer. -/
theorem run_asks (call : DriverCall g β) (next : Except FailureKind β → Dialogue g ε α)
    (m : Media g) : (asks call next).run m =
      match call.run m with
      | .ok b m => (next (.ok b)).run m
      | .error (.error kind) m => (next (.error kind)).run m
      | .error (.defect d) m => .error (.defect d) m := by
  rw [run]

/-- One dialogue behind another runs as a sequence. -/
theorem run_bind (d : Dialogue g ε β) (f : β → Dialogue g ε α) :
    (d.bind f).run = d.run >>= fun b => (f b).run := by
  induction d with
  | ends result => cases result <;> rfl
  | asks call next ih =>
    funext m
    rw [Action.bind_apply, bind, run_asks, run_asks]
    cases call.run m with
    | ok b m' => simp only [ih, Action.bind_apply]
    | error stop m' => cases stop <;> simp only [ih, Action.bind_apply]

/-- A dialogue that is handled runs as a handled action. -/
theorem run_rescue (d : Dialogue g ε α) (handle : ε → Dialogue g ε α) :
    (d.rescue handle).run = d.run.rescue fun e => (handle e).run := by
  induction d with
  | ends result =>
    cases result with
    | ok a => rfl
    | error stop => cases stop <;> rfl
  | asks call next ih =>
    funext m
    rw [Action.rescue, rescue, run_asks, run_asks]
    cases call.run m with
    | ok b m' => simp only [ih, Action.rescue]
    | error stop m' => cases stop <;> simp only [ih, Action.rescue]

/-- A dialogue whose errors are renamed runs as an action whose errors are renamed. -/
theorem run_mapError (d : Dialogue g ε' α) (f : ε' → ε) :
    (d.rescue fun e => ends (.error (.error (f e)))).run = d.run.mapError f := by
  induction d with
  | ends result =>
    cases result with
    | ok a => rfl
    | error stop => cases stop <;> rfl
  | asks call next ih =>
    funext m
    rw [Action.mapError, rescue, run_asks, run_asks]
    cases call.run m with
    | ok b m' => simp only [ih, Action.mapError]
    | error stop m' => cases stop <;> simp only [ih, Action.mapError]

end Dialogue

/-! ## Driven actions -/

/-- The dialogue makes only calls of this kind. -/
def Dialogue.Within (allowed : Call → Prop) : Dialogue g ε α → Prop
  | ends _ => True
  | asks call next => allowed call.call ∧ ∀ answer, (next answer).Within allowed

/-- The action is a dialogue with the driver that makes only calls of this kind. -/
def Driven (allowed : Call → Prop) (x : Action ε (Media g) α) : Prop :=
  ∃ d : Dialogue g ε α, d.run = x ∧ d.Within allowed

/-- Any call. -/
def Call.Any : Call → Prop := fun _ => True

namespace Dialogue

variable {allowed allowed' : Call → Prop}

/-- Within which calls a dialogue is may be said less exactly. -/
theorem Within.mono {d : Dialogue g ε α} (h : d.Within allowed)
    (weaker : ∀ call, allowed call → allowed' call) : d.Within allowed' := by
  induction d with
  | ends result => trivial
  | asks call next ih => exact ⟨weaker _ h.1, fun answer => ih answer (h.2 answer)⟩

/-- Dialogues that follow each other make the calls that both make. -/
theorem Within.bind {d : Dialogue g ε β} {f : β → Dialogue g ε α} (h : d.Within allowed)
    (hf : ∀ b, (f b).Within allowed) : (d.bind f).Within allowed := by
  induction d with
  | ends result =>
    cases result with
    | ok b => exact hf b
    | error stop => trivial
  | asks call next ih => exact ⟨h.1, fun answer => ih answer (h.2 answer)⟩

/-- A dialogue and the one that handles its failures make the calls that both make. -/
theorem Within.rescue {d : Dialogue g ε α} {handle : ε → Dialogue g ε' α} (h : d.Within allowed)
    (hhandle : ∀ e, (handle e).Within allowed) : (d.rescue handle).Within allowed := by
  induction d with
  | ends result =>
    cases result with
    | ok a => trivial
    | error stop =>
      cases stop with
      | error e => exact hhandle e
      | defect d => trivial
  | asks call next ih => exact ⟨h.1, fun answer => ih answer (h.2 answer)⟩

/-- What its calls keep, a dialogue keeps. -/
theorem Within.keeps {d : Dialogue g ε α} (h : d.Within allowed) {kept : Media g → Prop}
    (calls : ∀ {β : Type} (call : DriverCall g β), allowed call.call → Action.Keeps kept call.run) :
    Action.Keeps kept d.run := by
  induction d with
  | ends result =>
    cases result with
    | ok a => exact Action.keeps_pure a
    | error stop => exact fun _ hm => hm
  | asks call next ih =>
    intro m hm
    have first := calls call h.1 m hm
    unfold Action.Yields at first ⊢
    rw [run_asks]
    cases hrun : call.run m with
    | ok b m' => exact ih (.ok b) (h.2 _) m' (by simpa only [hrun] using first)
    | error stop m' =>
      rw [hrun] at first
      cases stop with
      | error kind => exact ih (.error kind) (h.2 _) m' first
      | defect d => exact first

end Dialogue

section Driven

variable {allowed allowed' : Call → Prop}

/-- What calls an action makes may be said less exactly. -/
theorem Driven.mono {x : Action ε (Media g) α} (h : Driven allowed x)
    (weaker : ∀ call, allowed call → allowed' call) : Driven allowed' x := by
  obtain ⟨d, hd, within⟩ := h
  exact ⟨d, hd, within.mono weaker⟩

/-- An action that makes some calls is a dialogue with the driver. -/
theorem Driven.any {x : Action ε (Media g) α} (h : Driven allowed x) : Driven Call.Any x :=
  h.mono fun _ _ => trivial

/-- What the calls keep, the action keeps. -/
theorem Driven.keeps {x : Action ε (Media g) α} (h : Driven allowed x) {kept : Media g → Prop}
    (calls : ∀ {β : Type} (call : DriverCall g β), allowed call.call → Action.Keeps kept call.run) :
    Action.Keeps kept x := by
  obtain ⟨d, rfl, within⟩ := h
  exact within.keeps calls

/-- Giving a value asks nothing. -/
theorem driven_pure (a : α) : Driven allowed (pure a : Action ε (Media g) α) :=
  ⟨.ends (.ok a), rfl, trivial⟩

/-- Failing asks nothing. -/
theorem driven_fail (e : ε) : Driven allowed (Action.fail e : Action ε (Media g) α) :=
  ⟨.ends (.error (.error e)), rfl, trivial⟩

/-- Ending with a defect asks nothing. -/
theorem driven_abort (d : Defect) : Driven allowed (Action.abort d : Action ε (Media g) α) :=
  ⟨.ends (.error (.defect d)), rfl, trivial⟩

/-- A call to the driver is a dialogue of that call. -/
theorem driven_run (call : DriverCall g β) (h : allowed call.call) : Driven allowed call.run := by
  refine ⟨.asks call fun answer => .ends (answer.mapError .error), ?_, h, fun _ => trivial⟩
  funext m
  rw [Dialogue.run_asks]
  cases call.run m with
  | ok b m' => rfl
  | error stop m' => cases stop <;> rfl

/-- A sequence makes the calls that its parts make. -/
theorem Driven.bind {x : Action ε (Media g) β} {f : β → Action ε (Media g) α}
    (hx : Driven allowed x) (hf : ∀ b, Driven allowed (f b)) : Driven allowed (x >>= f) := by
  obtain ⟨d, rfl, within⟩ := hx
  refine ⟨d.bind fun b => (hf b).choose, ?_, within.bind fun b => (hf b).choose_spec.2⟩
  simp only [Dialogue.run_bind, fun b => (hf b).choose_spec.1]

/-- A handled action makes the calls that it and its handler make. -/
theorem Driven.rescue {x : Action ε (Media g) α} {handle : ε → Action ε (Media g) α}
    (hx : Driven allowed x) (hhandle : ∀ e, Driven allowed (handle e)) :
    Driven allowed (x.rescue handle) := by
  obtain ⟨d, rfl, within⟩ := hx
  refine ⟨d.rescue fun e => (hhandle e).choose, ?_,
    within.rescue fun e => (hhandle e).choose_spec.2⟩
  simp only [Dialogue.run_rescue, fun e => (hhandle e).choose_spec.1]

/-- What an error is called makes no difference to the calls. -/
theorem Driven.mapError {x : Action ε' (Media g) α} (hx : Driven allowed x) (f : ε' → ε) :
    Driven allowed (x.mapError f) := by
  obtain ⟨d, rfl, within⟩ := hx
  exact ⟨_, d.run_mapError f, within.rescue fun _ => trivial⟩

/-- A choice makes the calls of the chosen action. -/
theorem Driven.ite {x y : Action ε (Media g) α} {p : Prop} [Decidable p] (hx : Driven allowed x)
    (hy : Driven allowed y) : Driven allowed (if p then x else y) := by
  split
  · exact hx
  · exact hy

/-- What is settled makes no call. -/
theorem Action.Settled.driven {x : Action ε (Media g) α} (hx : x.Settled) :
    Driven allowed x := by
  cases hx with
  | pure a => exact driven_pure a
  | abort d => exact driven_abort d

/-- Behind a sum that fits comes what comes behind its value. -/
theorem driven_sum_bind {limit a b : Nat} {f : Nat → Action ε (Media g) α}
    (hf : Driven allowed (f (a + b))) : Driven allowed (Action.sum limit a b >>= f) := by
  rw [Action.sum, bind_assoc]
  refine (Action.settled_ensure _ _).driven.bind fun _ => ?_
  rwa [pure_bind]

/-- A result that is there already asks nothing. -/
theorem driven_ofStop (result : Except (Stop ε) α) :
    Driven allowed (Action.ofStop result : Action ε (Media g) α) := by
  cases result with
  | ok a => exact driven_pure a
  | error stop =>
    cases stop with
    | error e => exact driven_fail e
    | defect d => exact driven_abort d

end Driven

/-! ## Beside something -/

/-- Beside anything, the action is a dialogue with the driver that makes only calls of this kind. -/
def DrivenBeside (allowed : Call → Prop) (x : Action ε (Media g × τ) α) : Prop :=
  ∀ t, Driven allowed (x.holding t)

namespace DrivenBeside

variable {allowed : Call → Prop}

/-- A dialogue beside a second state makes the same calls. -/
theorem beside {x : Action ε (Media g) α} (hx : Driven allowed x) :
    DrivenBeside allowed (x.beside : Action ε (Media g × τ) α) := by
  intro t
  have same : (x.beside : Action ε (Media g × τ) α).holding t = x >>= fun a => pure (a, t) := by
    funext m
    rw [Action.holding, Action.beside, Action.bind_apply]
    cases x m <;> rfl
  exact same ▸ hx.bind fun _ => driven_pure _

/-- A sequence makes the calls that its parts make. -/
theorem bind {x : Action ε (Media g × τ) β} {f : β → Action ε (Media g × τ) α}
    (hx : DrivenBeside allowed x) (hf : ∀ b, DrivenBeside allowed (f b)) :
    DrivenBeside allowed (x >>= f) := by
  intro t
  have same : (x >>= f).holding t =
      x.holding t >>= fun after => (f after.1).holding after.2 := by
    funext m
    rw [Action.holding, Action.bind_apply, Action.bind_apply, Action.holding]
    cases x (m, t) <;> rfl
  exact same ▸ (hx t).bind fun after => hf after.1 after.2

/-- A change of the second state asks nothing. -/
theorem modifySecond (f : τ → τ) :
    DrivenBeside allowed
      (modify fun after => (after.1, f after.2) : Action ε (Media g × τ) PUnit) := by
  intro t
  have same : (modify fun after => (after.1, f after.2) : Action ε (Media g × τ) PUnit).holding t =
      pure (⟨⟩, f t) := rfl
  exact same ▸ driven_pure _

/-- Failing asks nothing. -/
theorem fail (e : ε) : DrivenBeside allowed (Action.fail e : Action ε (Media g × τ) α) :=
  fun _ => (driven_fail e : Driven allowed (Action.fail e : Action ε (Media g) (α × τ)))

/-- A choice makes the calls of the chosen action. -/
theorem ite {x y : Action ε (Media g × τ) α} {p : Prop} [Decidable p] (hx : DrivenBeside allowed x)
    (hy : DrivenBeside allowed y) : DrivenBeside allowed (if p then x else y) := by
  split
  · exact hx
  · exact hy

/-- Started beside something, the action is a dialogue. -/
theorem startingFrom {x : Action ε (Media g × τ) Unit} (hx : DrivenBeside allowed x) (t : τ) :
    Driven allowed (x.startingFrom t) := by
  have same : x.startingFrom t = x.holding t >>= fun after => pure after.2 := by
    funext m
    rw [Action.startingFrom, Action.bind_apply, Action.holding]
    cases x (m, t) <;> rfl
  exact same ▸ (hx t).bind fun _ => driven_pure _

/-- What the calls keep, the action keeps. -/
theorem keeps {x : Action ε (Media g × τ) α} (hx : DrivenBeside allowed x) {kept : Media g → Prop}
    (calls : ∀ {β : Type} (call : DriverCall g β), allowed call.call → Action.Keeps kept call.run) :
    Action.Keeps (fun after : Media g × τ => kept after.1) x := by
  rintro ⟨m, t⟩ hm
  have h := (hx t).keeps calls m hm
  unfold Action.Yields Action.holding at h
  unfold Action.Yields
  cases hrun : x (m, t) <;> simpa only [hrun] using h

end DrivenBeside

/-! ## Scripts -/

/-- The same lapse of a reading that gets no bits wrong. -/
def Lapse.plain (lapse : Lapse) : Lapse := { lapse with mask := [] }

namespace Fault

variable {medium : Medium} {access : Access} {spent : List Fault}

/-- All kinds of calls. -/
def anyCall : List (Medium × Access) :=
  [(.eeprom, .read), (.eeprom, .write), (.eeprom, .erase), (.eeprom, .poll), (.flash, .read),
    (.flash, .write), (.flash, .erase), (.flash, .poll)]

/-- Every call is one of these. -/
theorem mem_anyCall : (medium, access) ∈ anyCall := by
  cases medium <;> cases access <;> decide

/-- A plan of what the next calls meet, whatever they are: so many pass, then each passes or is a
lapse, and all others are refused. -/
def script (passing : Nat) : List (Option Lapse) → List Fault
  | [] => [⟨anyCall, passing, none, refusal .other⟩]
  | none :: rest => script (passing + 1) rest
  | some lapse :: rest => ⟨anyCall, passing, some 1, lapse⟩ :: script 0 rest

/-- As long as calls may pass, a call passes. -/
theorem next_script_succ (passing : Nat) (rest : List (Option Lapse)) :
    next medium access (script (passing + 1) rest) = (none, script passing rest) := by
  have hmem : (medium, access) ∈ anyCall := mem_anyCall
  induction rest generalizing passing with
  | nil => simp [script, next, governs, spend, hmem]
  | cons outcome rest ih =>
    cases outcome with
    | none => exact ih (passing + 1)
    | some lapse => simp [script, next, governs, spend, hmem]

/-- The faults have no lapses left. -/
def UsedUp (plan : List Fault) : Prop := ∀ fault ∈ plan, fault.count = some 0

/-- Faults that have no lapses left are passed over. -/
theorem next_usedUp (h : UsedUp spent) (plan : List Fault) :
    next medium access (spent ++ plan) =
      ((next medium access plan).1, spent ++ (next medium access plan).2) := by
  induction spent with
  | nil => rfl
  | cons fault spent ih =>
    obtain ⟨hfault, hspent⟩ := List.forall_mem_cons.mp h
    have hgoverns : fault.governs medium access = false := by simp [governs, hfault]
    rw [List.cons_append, next, hgoverns, ih hspent]
    rfl

variable (medium access) in
/-- A call meets the first outcome of a script. -/
theorem next_script (h : UsedUp spent) (outcome : Option Lapse) (rest : List (Option Lapse)) :
    ∃ spent', UsedUp spent' ∧ next medium access (spent ++ script 0 (outcome :: rest)) =
      (outcome, spent' ++ script 0 rest) := by
  have hmem : (medium, access) ∈ anyCall := mem_anyCall
  cases outcome with
  | none => exact ⟨spent, h, by rw [next_usedUp h, script, next_script_succ]⟩
  | some lapse =>
    refine ⟨spent ++ [⟨anyCall, 0, some 0, lapse⟩], ?_, ?_⟩
    · exact List.forall_mem_append.mpr ⟨h, by simp⟩
    · simp [next_usedUp h, script, next, governs, spend, hmem]

variable (medium access) in
/-- Behind a script, calls are refused. -/
theorem next_script_nil (h : UsedUp spent) :
    next medium access (spent ++ script 0 []) = (some (refusal .other), spent ++ script 0 []) := by
  have hmem : (medium, access) ∈ anyCall := mem_anyCall
  simp [next_usedUp h, script, next, governs, spend, hmem]

/-- No reading lies in a script without wrong bits. -/
theorem honest_script {passing : Nat} {outcomes : List (Option Lapse)}
    (plain : ∀ lapse, some lapse ∈ outcomes → lapse.mask = []) :
    ∀ fault ∈ script passing outcomes, fault.Honest := by
  induction outcomes generalizing passing with
  | nil => simp [script, Honest, refusal]
  | cons outcome rest ih =>
    have hrest : ∀ fault ∈ script 0 rest, fault.Honest :=
      ih fun lapse h => plain lapse (List.mem_cons_of_mem _ h)
    cases outcome with
    | none => exact ih fun lapse h => plain lapse (List.mem_cons_of_mem _ h)
    | some lapse =>
      refine List.forall_mem_cons.mpr ⟨fun _ _ _ => ?_, hrest⟩
      simp [plain lapse (by simp)]

end Fault

/-! ## Behind the submission of a call -/

/-- What an action ends with, in another state. -/
def Action.onState {σ : Type} (f : σ → σ) :
    EStateM.Result (Stop ε) σ α → EStateM.Result (Stop ε) σ α
  | .ok a s => .ok a (f s)
  | .error stop s => .error stop (f s)

/-- The media with another plan and another journal. -/
def Media.rebase (plan : List Fault) (journal : List Call) (m : Media g) : Media g :=
  { m with faults := plan, journal }

/-- The action does not depend on the plan and on the journal, and leaves them as they are. -/
def Oblivious (x : Action ε (Media g) α) : Prop :=
  ∀ plan journal m, x (m.rebase plan journal) =
    Action.onState (Media.rebase plan journal) (x m)

/-- Giving a value does not look at the fault plan. -/
theorem oblivious_pure (a : α) : Oblivious (pure a : Action ε (Media g) α) := fun _ _ _ => rfl

/-- A sequence does not look at it if its parts do not. -/
theorem Oblivious.bind {x : Action ε (Media g) β} {f : β → Action ε (Media g) α}
    (hx : Oblivious x) (hf : ∀ b, Oblivious (f b)) : Oblivious (x >>= f) := by
  intro plan journal m
  rw [Action.bind_apply, Action.bind_apply, hx plan journal m]
  cases x m with
  | ok b m' => exact hf b plan journal m'
  | error stop m' => rfl

/-- A choice does not look at it if its actions do not. -/
theorem Oblivious.ite {x y : Action ε (Media g) α} {p : Prop} [Decidable p] (hx : Oblivious x)
    (hy : Oblivious y) : Oblivious (if p then x else y) := by
  split
  · exact hx
  · exact hy

/-- What a lapse reports is the same whatever the plan says next. -/
theorem oblivious_reported (lapse : Lapse) : Oblivious (Media.reported (g := g) lapse) := by
  unfold Media.reported
  cases lapse.report <;> exact fun _ _ _ => rfl

/-- What is done to the eeprom does not look at the plan. -/
theorem oblivious_onEeprom (x : Action DeviceError (Eeprom g.eepromBytes) α) :
    Oblivious (Media.onEeprom (g := g) x) := by
  intro plan journal m
  simp only [Media.onEeprom, Media.rebase]
  cases x.mapError DeviceError.kind m.eeprom <;> rfl

/-- What is done to the flash does not look at the plan. -/
theorem oblivious_onFlash (x : Action DeviceError (Flash g) α) :
    Oblivious (Media.onFlash (g := g) x) := by
  intro plan journal m
  simp only [Media.onFlash, Media.rebase]
  cases x.mapError DeviceError.kind m.flash <;> rfl

/-- What a reading does once it has been submitted. -/
def Media.readMeeting (read : Action FailureKind (Media g) Bytes) :
    Option Lapse → Action FailureKind (Media g) Bytes
  | none => read
  | some lapse => do reported lapse; return (← read).flip lapse.mask

/-- What a writing does once it has been submitted. -/
def Media.writeMeeting (unit : Nat) (write : Bytes → Action FailureKind (Media g) Unit)
    (bytes : Bytes) : Option Lapse → Action FailureKind (Media g) Unit
  | none => write bytes
  | some lapse => do
    let part := bytes.take (min lapse.stored bytes.length / unit * unit)
    if part ≠ [] then
      write part
    reported lapse

namespace DriverCall

/-- What the call does once it has been submitted, with the lapse that it meets. -/
def meeting : DriverCall g β → Option Lapse → Action FailureKind (Media g) β
  | eepromRead address length => Media.readMeeting (Media.onEeprom (Eeprom.read address length))
  | eepromWrite address bytes =>
    Media.writeMeeting 1 (fun part => Media.onEeprom (Eeprom.write address part)) bytes
  | eepromPoll => fun
    | none => Media.onEeprom Eeprom.poll
    | some lapse => do Media.reported lapse; return lapse.busy
  | flashRead address length => Media.readMeeting (Media.onFlash (Flash.read address length))
  | flashProgram address bytes =>
    Media.writeMeeting g.wordBytes (fun part => Media.onFlash (Flash.program address part)) bytes
  | flashErase start => fun
    | none => Media.onFlash (Flash.erase start (start + g.pageBytes))
    | some lapse => do
      if start + g.pageBytes - start ≤ lapse.stored then
        Media.onFlash (Flash.erase start (start + g.pageBytes))
      Media.reported lapse

/-- Each call is submitted first. -/
theorem run_apply (call : DriverCall g β) (m : Media g) :
    call.run m = call.meeting (Fault.next call.call.medium call.call.access m.faults).1
      (m.called call.call) := by
  cases call <;> simp only [run] <;> rfl

end DriverCall

/-- What becomes of a reading depends on the memories only. -/
theorem oblivious_readMeeting {read : Action FailureKind (Media g) Bytes} (hread : Oblivious read) :
    ∀ outcome, Oblivious (Media.readMeeting read outcome)
  | none => hread
  | some lapse => (oblivious_reported lapse).bind fun _ => hread.bind fun _ => oblivious_pure _

/-- What becomes of a writing depends on the memories only. -/
theorem oblivious_writeMeeting {unit : Nat} {write : Bytes → Action FailureKind (Media g) Unit}
    (hwrite : ∀ part, Oblivious (write part)) (bytes : Bytes) :
    ∀ outcome, Oblivious (Media.writeMeeting unit write bytes outcome)
  | none => hwrite bytes
  | some lapse => .ite ((hwrite _).bind fun _ => oblivious_reported lapse)
      (oblivious_reported lapse)

/-- What becomes of a call that has been submitted depends on the memories only. -/
theorem DriverCall.oblivious_meeting (call : DriverCall g β) (outcome : Option Lapse) :
    Oblivious (call.meeting outcome) := by
  cases call with
  | eepromRead address length => exact oblivious_readMeeting (oblivious_onEeprom _) outcome
  | eepromWrite address bytes =>
    exact oblivious_writeMeeting (fun _ => oblivious_onEeprom _) bytes outcome
  | eepromPoll =>
    cases outcome with
    | none => exact oblivious_onEeprom Eeprom.poll
    | some lapse => exact (oblivious_reported lapse).bind fun _ => oblivious_pure _
  | flashRead address length => exact oblivious_readMeeting (oblivious_onFlash _) outcome
  | flashProgram address bytes =>
    exact oblivious_writeMeeting (fun _ => oblivious_onFlash _) bytes outcome
  | flashErase start =>
    cases outcome with
    | none => exact oblivious_onFlash _
    | some lapse =>
      exact .ite ((oblivious_onFlash _).bind fun _ => oblivious_reported lapse)
        (oblivious_reported lapse)

/-- A reading that does not lie does not depend on the bits that it would get wrong. -/
theorem readMeeting_plain {read : Action FailureKind (Media g) Bytes} {lapse : Lapse}
    (honest : lapse.report = none → ∀ bits ∈ lapse.mask, bits = 0) :
    Media.readMeeting read (some lapse.plain) = Media.readMeeting read (some lapse) := by
  unfold Media.readMeeting Media.reported
  cases hreport : lapse.report with
  | some kind => simp only [Lapse.plain, hreport]; rfl
  | none =>
    have hflip (bytes : Bytes) : bytes.flip lapse.mask = bytes :=
      Bytes.flip_of_zero (honest hreport)
    simp only [Lapse.plain, hreport, hflip, Bytes.flip_nil]

/-- What a call does does not depend on the bits that a reading would get wrong which does not
lie. -/
theorem DriverCall.meeting_plain (call : DriverCall g β) {lapse : Lapse}
    (honest : call.call.access = .read → lapse.report = none → ∀ bits ∈ lapse.mask, bits = 0) :
    call.meeting (some lapse.plain) = call.meeting (some lapse) := by
  cases call with
  | eepromRead address length => exact readMeeting_plain (honest rfl)
  | flashRead address length => exact readMeeting_plain (honest rfl)
  | _ => rfl

/-! ## Cutting a run -/

/-- The memories of two states of the media are the same, with all that they count. -/
structure Media.Alike (m m' : Media g) : Prop where
  eeprom : m'.eeprom = m.eeprom
  flash : m'.flash = m.flash

namespace DriverCall

/-- A call that meets the same in another state ends the same there. -/
theorem run_alike (call : DriverCall g β) (honest : m.Honest) {m' : Media g}
    (alike : m.Alike m') {plan : List Fault}
    (meets : Fault.next call.call.medium call.call.access m'.faults =
      ((Fault.next call.call.medium call.call.access m.faults).1.map Lapse.plain, plan)) :
    call.run m' = Action.onState (Media.rebase plan (call.call :: m'.journal)) (call.run m) := by
  have called : m'.called call.call =
      (m.called call.call).rebase plan (call.call :: m'.journal) := by
    rw [Media.called, meets, alike.eeprom, alike.flash]
    rfl
  rw [run_apply, run_apply, called, meets, ← call.oblivious_meeting]
  cases hlapse : (Fault.next call.call.medium call.call.access m.faults).1 with
  | none => rfl
  | some lapse =>
    obtain ⟨fault, hmem, hscope, rfl⟩ := Fault.exists_of_next_eq_some hlapse
    rw [Option.map_some, call.meeting_plain fun access => honest fault hmem _ (access ▸ hscope)]

/-- No reading lies behind a call if none did before. -/
theorem honest_run (call : DriverCall g β) (honest : m.Honest) : (call.run.leaves m).Honest := by
  have same := call.oblivious_meeting (Fault.next call.call.medium call.call.access m.faults).1
    (m.called call.call).faults (m.called call.call).journal (m.called call.call)
  have own : (m.called call.call).rebase (m.called call.call).faults (m.called call.call).journal =
    m.called call.call := rfl
  rw [own, ← run_apply] at same
  have faults : (call.run.leaves m).faults = (m.called call.call).faults := by
    rw [Action.leaves]
    cases hrun : call.run m <;> rw [hrun] at same
    · exact (EStateM.Result.ok.inj same).2 ▸ rfl
    · exact (EStateM.Result.error.inj same).2 ▸ rfl
  intro fault hfault
  exact honest.called call.call fault (faults ▸ hfault)

/-- A call that is refused fails and does nothing. -/
theorem run_refused (call : DriverCall g β)
    (meets : (Fault.next call.call.medium call.call.access m.faults).1 =
      some (Fault.refusal .other)) :
    call.run m = .error (.error .other) (m.called call.call) := by
  rw [run_apply, meets]
  cases call with
  | eepromWrite address bytes =>
    simp [meeting, Media.writeMeeting, Fault.refusal, Media.reported]
  | flashProgram address bytes =>
    simp [meeting, Media.writeMeeting, Fault.refusal, Media.reported]
  | flashErase start =>
    -- A page has some bytes, and none of them is erased.
    have hpage : g.pageBytes ≠ 0 := Nat.ne_of_gt g.pageBytes_pos
    simp [meeting, Fault.refusal, Media.reported, hpage]
  | _ => rfl

end DriverCall

namespace Dialogue

/-- A dialogue whose calls are refused does nothing. -/
theorem alike_of_refused (d : Dialogue g ε α) {spent : List Fault} (h : Fault.UsedUp spent)
    (plan : m.faults = spent ++ Fault.script 0 []) : m.Alike (d.run.leaves m) := by
  induction d generalizing m with
  | ends result => cases result <;> exact ⟨rfl, rfl⟩
  | asks call next ih =>
    have meets := Fault.next_script_nil call.call.medium call.call.access h
    rw [← plan] at meets
    have refused := call.run_refused (congrArg Prod.fst meets)
    have rest := ih (.error .other) (m := m.called call.call)
      (by rw [Media.called, meets]; exact plan)
    simp only [Action.leaves, run_asks, refused] at rest ⊢
    exact ⟨rest.eeprom, rest.flash⟩

/-- The states behind the calls of a dialogue are those in which it ends under some script. -/
theorem exists_script (calls : Nat) (d : Dialogue g ε α) (honest : m.Honest) :
    ∃ outcomes : List (Option Lapse), (∀ lapse, some lapse ∈ outcomes → lapse.mask = []) ∧
      ∀ spent m', Fault.UsedUp spent → m'.faults = spent ++ Fault.script 0 outcomes →
        m.Alike m' → (d.behind calls m).Alike (d.run.leaves m') := by
  induction calls generalizing d m with
  | zero =>
    refine ⟨[], nofun, fun spent m' hspent plan alike => ?_⟩
    have rest := alike_of_refused d hspent plan
    exact ⟨rest.eeprom.trans alike.eeprom, rest.flash.trans alike.flash⟩
  | succ calls ih =>
    cases d with
    | ends result =>
      refine ⟨[], nofun, fun spent m' hspent plan alike => ?_⟩
      cases result <;> exact ⟨alike.eeprom, alike.flash⟩
    | asks call next =>
      -- The script says of this call what the plan says of it, so both runs get the same answer.
      have follows {m' : Media g} {spent : List Fault} (hspent : Fault.UsedUp spent)
          (alike : m.Alike m') (rest : List (Option Lapse))
          (plan : m'.faults = spent ++ Fault.script 0
            ((Fault.next call.call.medium call.call.access m.faults).1.map Lapse.plain :: rest)) :
          ∃ spent', Fault.UsedUp spent' ∧ call.run m' = Action.onState
            (Media.rebase (spent' ++ Fault.script 0 rest) (call.call :: m'.journal))
            (call.run m) := by
        obtain ⟨spent', hspent', hnext⟩ :=
          Fault.next_script call.call.medium call.call.access hspent
          ((Fault.next call.call.medium call.call.access m.faults).1.map Lapse.plain) rest
        exact ⟨spent', hspent', call.run_alike honest alike (plan ▸ hnext)⟩
      -- As no reading lies, the script can leave the masks out.
      have plainly {rest : List (Option Lapse)}
          (hrest : ∀ lapse, some lapse ∈ rest → lapse.mask = []) (lapse : Lapse)
          (hmem : some lapse ∈
            (Fault.next call.call.medium call.call.access m.faults).1.map Lapse.plain :: rest) :
          lapse.mask = [] := by
        rcases List.mem_cons.mp hmem with hfirst | hmem
        · obtain ⟨_, -, rfl⟩ := Option.map_eq_some_iff.mp hfirst.symm
          rfl
        · exact hrest lapse hmem
      have honest₁ := call.honest_run honest
      unfold Action.leaves at honest₁
      -- What is asked next depends on the answer, and the script for it comes behind this call.
      cases hrun : call.run m with
      | ok b m₁ =>
        rw [hrun] at honest₁ follows
        obtain ⟨rest, hrest, ends⟩ := ih (next (.ok b)) honest₁
        refine ⟨_, plainly hrest, fun spent m' hspent plan alike => ?_⟩
        obtain ⟨spent', hspent', hrun'⟩ := follows hspent alike rest plan
        have h := ends spent' (m₁.rebase _ (call.call :: m'.journal)) hspent' rfl ⟨rfl, rfl⟩
        simpa only [behind, hrun, Action.leaves, run_asks, hrun', Action.onState] using h
      | error stop m₁ =>
        rw [hrun] at honest₁ follows
        cases stop with
        | error kind =>
          obtain ⟨rest, hrest, ends⟩ := ih (next (.error kind)) honest₁
          refine ⟨_, plainly hrest, fun spent m' hspent plan alike => ?_⟩
          obtain ⟨spent', hspent', hrun'⟩ := follows hspent alike rest plan
          have h := ends spent' (m₁.rebase _ (call.call :: m'.journal)) hspent' rfl ⟨rfl, rfl⟩
          simpa only [behind, hrun, Action.leaves, run_asks, hrun', Action.onState] using h
        | defect d =>
          have none : ∀ lapse : Lapse, some lapse ∈ [] → lapse.mask = [] := nofun
          refine ⟨_, plainly none, fun spent m' hspent plan alike => ?_⟩
          obtain ⟨spent', -, hrun'⟩ := follows hspent alike [] plan
          simp only [behind, hrun, Action.leaves, run_asks, hrun', Action.onState]
          exact ⟨rfl, rfl⟩

/-- If no reading lies, the state behind any call of a dialogue is one in which the dialogue ends
under another plan in which no reading lies. -/
theorem exists_cut (calls : Nat) (d : Dialogue g ε α) (honest : m.Honest) :
    ∃ plan : List Fault, (∀ fault ∈ plan, fault.Honest) ∧
      (d.behind calls m).Alike (d.run.leaves { m with faults := plan }) := by
  obtain ⟨outcomes, plain, ends⟩ := exists_script calls d honest
  exact ⟨_, Fault.honest_script plain, ends [] _ nofun rfl ⟨rfl, rfl⟩⟩

end Dialogue

end CircularLog
