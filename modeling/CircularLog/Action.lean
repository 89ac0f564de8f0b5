import CircularLog.Outcome

/-!
# Actions

An action works on a state and ends with a value, with an error of its own error type, or with a
defect. The state it leaves behind is part of the answer in all three cases: what was written
before a failure stays written.

The combinators below take their state apart by matching, so that the part they hand on is held
by nobody else while the action runs on it.
-/

namespace CircularLog

/-- The two ways in which an action ends without a value. -/
inductive Stop (ε : Type) where
  | error (error : ε)
  | defect (defect : Defect)
  deriving DecidableEq

/-- A computation on the state `σ` with errors of type `ε`. -/
abbrev Action (ε σ α : Type) := EStateM (Stop ε) σ α

namespace Action

variable {ε ε' σ τ β α : Type}

/-- End with an error. -/
def fail (error : ε) : Action ε σ α := throw (.error error)

/-- End with a defect. -/
def abort (defect : Defect) : Action ε σ α := throw (.defect defect)

/-- Go on only if `p` holds. -/
def ensure (p : Prop) [Decidable p] (defect : Defect) : Action ε σ Unit :=
  if p then pure () else abort defect

/-- The answer of a pure computation. -/
def ofExcept : Except ε α → Action ε σ α
  | .ok a => pure a
  | .error e => fail e

/-- The answer of a pure computation that may end with a defect. -/
def ofStop : Except (Stop ε) α → Action ε σ α
  | .ok a => pure a
  | .error stop => throw stop

/-- The same action with its error restated; a defect stays as it is. -/
def mapError (f : ε → ε') (x : Action ε σ α) : Action ε' σ α := fun s =>
  match x s with
  | .ok a s => .ok a s
  | .error (.error e) s => .error (.error (f e)) s
  | .error (.defect d) s => .error (.defect d) s

/-- Where `x` ends with an error, go on with what `handle` makes of it, from the state `x` left. -/
def rescue (x : Action ε σ α) (handle : ε → Action ε σ α) : Action ε σ α := fun s =>
  match x s with
  | .ok a s => .ok a s
  | .error (.error e) s => handle e s
  | .error (.defect d) s => .error (.defect d) s

/-- An action on the first half of a state that leaves the second half alone. -/
def beside (x : Action ε σ α) : Action ε (σ × τ) α := fun (s, t) =>
  match x s with
  | .ok a s => .ok a (s, t)
  | .error e s => .error e (s, t)

/-- Start an action beside `t`, and give what has become of `t` when it ends. -/
def startingFrom (t : τ) (x : Action ε (σ × τ) Unit) : Action ε σ τ := fun s =>
  match x (s, t) with
  | .ok () (s, t) => .ok t s
  | .error e (s, _) => .error e s

/-- An action that has something of its own beside the rest of its state, which it starts with and
leaves to nobody. -/
def owning (own : β) (x : Action ε (σ × β × τ) α) : Action ε (σ × τ) α := fun (s, t) =>
  match x (s, own, t) with
  | .ok a (s, _, t) => .ok a (s, t)
  | .error e (s, _, t) => .error e (s, t)

/-- An action beside nothing is an action by itself. -/
def alone (x : Action ε (σ × Unit) α) : Action ε σ α := fun s =>
  match x (s, ()) with
  | .ok a (s, ()) => .ok a s
  | .error e (s, ()) => .error e s

/-! ## Results -/

/-- A value is the result at once. -/
@[simp] theorem pure_apply (a : α) (s : σ) : (pure a : Action ε σ α) s = .ok a s := rfl

/-- A sequence runs its first part, and goes on if that ends with a value. -/
theorem bind_apply (x : Action ε σ α) (f : α → Action ε σ β) (s : σ) :
    (x >>= f) s =
      match x s with
      | .ok a s => f a s
      | .error e s => .error e s := by
  cases h : x s <;> simp only [bind, EStateM.bind, h]

/-- A value can be restated. -/
theorem map_apply (f : α → β) (x : Action ε σ α) (s : σ) :
    (f <$> x) s =
      match x s with
      | .ok a s => .ok (f a) s
      | .error e s => .error e s := by
  cases h : x s <;> simp only [Functor.map, EStateM.map, h]

/-- The state can be looked at. -/
@[simp] theorem get_apply (s : σ) : (get : Action ε σ σ) s = .ok s s := rfl

/-- The state can be changed. -/
@[simp] theorem modify_apply (f : σ → σ) (s : σ) :
    (modify f : Action ε σ PUnit) s = .ok ⟨⟩ (f s) := rfl

/-- The state can be changed while something is taken out of it. -/
@[simp] theorem modifyGet_apply (f : σ → α × σ) (s : σ) :
    (modifyGet f : Action ε σ α) s = .ok (f s).1 (f s).2 := rfl

/-- A failing action ends at once and keeps the state. -/
@[simp] theorem fail_apply (e : ε) (s : σ) :
    (fail e : Action ε σ α) s = .error (.error e) s := rfl

/-- An aborting action ends at once and keeps the state. -/
@[simp] theorem abort_apply (d : Defect) (s : σ) :
    (abort d : Action ε σ α) s = .error (.defect d) s := rfl

/-- A check that passes does nothing. -/
theorem ensure_of_pos {p : Prop} [Decidable p] {d : Defect} (h : p) :
    (ensure p d : Action ε σ Unit) = pure () := if_pos h

/-- After a value, an action goes on from the state that it left. -/
theorem bind_of_ok {x : Action ε σ α} {f : α → Action ε σ β} {a : α} {s s' : σ}
    (h : x s = .ok a s') : (x >>= f) s = f a s' := by
  simp only [bind, EStateM.bind, h]

/-- After an error or a defect, nothing follows. -/
theorem bind_of_error {x : Action ε σ α} {f : α → Action ε σ β} {e : Stop ε} {s s' : σ}
    (h : x s = .error e s') : (x >>= f) s = .error e s' := by
  simp only [bind, EStateM.bind, h]

/-- A value is rescued from nothing. -/
theorem rescue_of_ok {x : Action ε σ α} {f : ε → Action ε σ α} {a : α} {s s' : σ}
    (h : x s = .ok a s') : x.rescue f s = .ok a s' := by
  simp only [rescue, h]

/-- An error is handed to the rescuer with the state in which it arose. -/
theorem rescue_of_error {x : Action ε σ α} {f : ε → Action ε σ α} {e : ε} {s s' : σ}
    (h : x s = .error (.error e) s') : x.rescue f s = f e s' := by
  simp only [rescue, h]

/-- A value passes unchanged through a restatement of errors. -/
theorem mapError_of_ok {f : ε → ε'} {x : Action ε σ α} {a : α} {s s' : σ}
    (h : x s = .ok a s') : x.mapError f s = .ok a s' := by
  simp only [mapError, h]

/-- What ends with a value once its errors have been restated ends with it without that. -/
theorem ok_of_mapError {f : ε → ε'} {x : Action ε σ α} {a : α} {s s' : σ}
    (h : x.mapError f s = .ok a s') : x s = .ok a s' := by
  unfold mapError at h
  split at h <;> cases h
  assumption

/-- An error is restated, and the state is as it was left. -/
theorem mapError_of_error {f : ε → ε'} {x : Action ε σ α} {e : ε} {s s' : σ}
    (h : x s = .error (.error e) s') : x.mapError f s = .error (.error (f e)) s' := by
  simp only [mapError, h]

/-- An action beside something gives the value that it gives by itself. -/
theorem beside_of_ok {x : Action ε σ α} {a : α} {s s' : σ} (t : τ)
    (h : x s = .ok a s') : (x.beside : Action ε (σ × τ) α) (s, t) = .ok a (s', t) := by
  simp only [beside, h]

/-- An action beside something stops as it does by itself. -/
theorem beside_of_error {x : Action ε σ α} {e : Stop ε} {s s' : σ} (t : τ)
    (h : x s = .error e s') : (x.beside : Action ε (σ × τ) α) (s, t) = .error e (s', t) := by
  simp only [beside, h]

end Action

end CircularLog
