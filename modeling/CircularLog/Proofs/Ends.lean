import CircularLog.Checked

/-!
# How actions end

`x.Ends s value error` says that `x`, started in `s`, does not end with a defect, and what holds
of the value or of the error that it ends with and of the state that it leaves. Each combinator
has an equation here that takes such a statement apart, so that a program is followed from its
first step to its last; `Ends.mono` weakens what is known at the end of a step to what the next
step needs.

`x.Yields s value left` says less: `left` is all that is known where `x` stops without a value, be
it for an error or for a defect. What every step of an action keeps, the action keeps (`Keeps`).
-/

namespace CircularLog

namespace Action

variable {ε ε' σ τ α β : Type}

/-- Started in `s`, the action ends with a value and a state that satisfy `value`, or with an error
and a state that satisfy `error`. -/
def Ends (x : Action ε σ α) (s : σ) (value : α → σ → Prop) (error : ε → σ → Prop) : Prop :=
  match x s with
  | .ok a s => value a s
  | .error (.error e) s => error e s
  | .error (.defect _) _ => False

/-- What holds at the end may be weakened. -/
theorem Ends.mono {x : Action ε σ α} {s : σ} {value value' : α → σ → Prop}
    {error error' : ε → σ → Prop} (h : x.Ends s value error)
    (hvalue : ∀ a s, value a s → value' a s) (herror : ∀ e s, error e s → error' e s) :
    x.Ends s value' error' := by
  unfold Ends at *
  split at h
  · exact hvalue _ _ h
  · exact herror _ _ h
  · exact h

/-- An action that has no error to end with ends with a value. -/
theorem Ends.exists_ok {x : Action ε σ α} {s : σ} {value : α → σ → Prop} {error : ε → σ → Prop}
    (h : x.Ends s value error) (never : ∀ e s, ¬ error e s) :
    ∃ a s', x s = .ok a s' ∧ value a s' := by
  unfold Ends at h
  split at h
  · exact ⟨_, _, by assumption, h⟩
  · exact absurd h (never _ _)
  · exact h.elim

/-- An action that has no value to end with ends with an error. -/
theorem Ends.exists_error {x : Action ε σ α} {s : σ} {value : α → σ → Prop} {error : ε → σ → Prop}
    (h : x.Ends s value error) (never : ∀ a s, ¬ value a s) :
    ∃ e s', x s = .error (.error e) s' ∧ error e s' := by
  unfold Ends at h
  split at h
  · exact absurd h (never _ _)
  · exact ⟨_, _, by assumption, h⟩
  · exact h.elim

/-- What is known of the end of an action that ended with a value. -/
theorem Ends.of_ok {x : Action ε σ α} {s s' : σ} {a : α} {value : α → σ → Prop}
    {error : ε → σ → Prop} (h : x.Ends s value error) (hx : x s = .ok a s') : value a s' := by
  simpa only [Ends, hx] using h

/-- What is known of the end of an action that ended with an error. -/
theorem Ends.of_error {x : Action ε σ α} {s s' : σ} {e : ε} {value : α → σ → Prop}
    {error : ε → σ → Prop} (h : x.Ends s value error) (hx : x s = .error (.error e) s') :
    error e s' := by
  simpa only [Ends, hx] using h

/-! ## The combinators -/

variable {value : α → σ → Prop} {error : ε → σ → Prop} {s : σ}

/-- A value is given at once, and the state is the one at the start. -/
@[simp] theorem ends_pure (a : α) : (pure a : Action ε σ α).Ends s value error ↔ value a s :=
  Iff.rfl

/-- A failure is told at once, and the state is the one at the start. -/
@[simp] theorem ends_fail (e : ε) : (fail e : Action ε σ α).Ends s value error ↔ error e s :=
  Iff.rfl

/-- What is aborted ends with a defect, so nothing can be said of its end. -/
@[simp] theorem ends_abort (d : Defect) : ¬ (abort d : Action ε σ α).Ends s value error :=
  id

/-- A sequence ends as its second part does when that starts where the first has ended. -/
@[simp] theorem ends_bind (x : Action ε σ β) (f : β → Action ε σ α) :
    (x >>= f).Ends s value error ↔ x.Ends s (fun b s => (f b).Ends s value error) error := by
  simp only [Ends, bind_apply]
  cases h : x s with
  | ok b s' => rfl
  | error stop s' => cases stop <;> rfl

/-- A function of the value is what comes of the value. -/
@[simp] theorem ends_map (f : β → α) (x : Action ε σ β) :
    (f <$> x).Ends s value error ↔ x.Ends s (fun b s => value (f b) s) error := by
  simp only [Ends, map_apply]
  cases h : x s with
  | ok b s' => rfl
  | error stop s' => cases stop <;> rfl

/-- Looking at the state gives it and leaves it. -/
@[simp] theorem ends_get {value : σ → σ → Prop} :
    (get : Action ε σ σ).Ends s value error ↔ value s s := Iff.rfl

/-- A change of the state leaves what the function makes of it. -/
@[simp] theorem ends_modify {value : PUnit → σ → Prop} (f : σ → σ) :
    (modify f : Action ε σ PUnit).Ends s value error ↔ value ⟨⟩ (f s) := Iff.rfl

/-- A change that gives a value leaves and gives what the function makes of the state. -/
@[simp] theorem ends_modifyGet (f : σ → α × σ) :
    (modifyGet f : Action ε σ α).Ends s value error ↔ value (f s).1 (f s).2 := Iff.rfl

/-- What is ensured must be true, as there is a defect otherwise. -/
@[simp] theorem ends_ensure {value : Unit → σ → Prop} (p : Prop) [Decidable p] (d : Defect) :
    (ensure p d : Action ε σ Unit).Ends s value error ↔ p ∧ value () s := by
  by_cases h : p <;> simp [ensure, h]

/-- A sum must stay below its limit, as there is a defect otherwise. -/
@[simp] theorem ends_sum {value : Nat → σ → Prop} (limit a b : Nat) :
    (sum limit a b : Action ε σ Nat).Ends s value error ↔ a + b < limit ∧ value (a + b) s := by
  simp [sum]

/-- A difference must not go below zero, as there is a defect otherwise. -/
@[simp] theorem ends_difference {value : Nat → σ → Prop} (a b : Nat) :
    (difference a b : Action ε σ Nat).Ends s value error ↔ b ≤ a ∧ value (a - b) s := by
  simp [difference]

/-- A product ends with a value if it fits, and never with an error. -/
@[simp] theorem ends_product {value : Nat → σ → Prop} (limit a b : Nat) :
    (product limit a b : Action ε σ Nat).Ends s value error ↔ a * b < limit ∧ value (a * b) s := by
  simp [product]

/-- To take the front of a buffer ends well if the buffer is long enough. -/
@[simp] theorem ends_front {value : Unit → σ → Prop} (capacity length : Nat) :
    (front capacity length : Action ε σ Unit).Ends s value error ↔
      length ≤ capacity ∧ value () s := by
  simp [front]

/-- To cut a buffer in two ends well if the cut is not behind its end. -/
@[simp] theorem ends_cut {value : Nat → σ → Prop} (length near : Nat) :
    (cut length near : Action ε σ Nat).Ends s value error ↔
      near ≤ length ∧ value (length - near) s := by
  simp [cut]

/-- To take a part of a buffer ends well if the part lies inside the buffer. -/
@[simp] theorem ends_part {value : Bytes → σ → Prop} (buffer : Bytes) (start stop : Nat) :
    (part buffer start stop : Action ε σ Bytes).Ends s value error ↔
      start ≤ stop ∧ stop ≤ buffer.length ∧ value (buffer.slice start (stop - start)) s := by
  simp [part]

/-- A restated error is known by what it was before. -/
@[simp] theorem ends_mapError (f : ε' → ε) (x : Action ε' σ α) :
    (x.mapError f).Ends s value error ↔ x.Ends s value (fun e s => error (f e) s) := by
  simp only [Ends, mapError]
  cases h : x s with
  | ok a s' => rfl
  | error stop s' => cases stop <;> rfl

/-- Where the action ends with an error, what follows is up to the rescuer. -/
@[simp] theorem ends_rescue (x : Action ε σ α) (handle : ε → Action ε σ α) :
    (x.rescue handle).Ends s value error ↔
      x.Ends s value (fun e s => (handle e).Ends s value error) := by
  simp only [Ends, rescue]
  cases h : x s with
  | ok a s' => rfl
  | error stop s' => cases stop <;> rfl

/-- An action beside another state goes its way and leaves the other state alone. -/
@[simp] theorem ends_beside {value : α → σ × τ → Prop} {error : ε → σ × τ → Prop}
    (x : Action ε σ α) (s : σ) (t : τ) :
    (x.beside : Action ε (σ × τ) α).Ends (s, t) value error ↔
      x.Ends s (fun a s => value a (s, t)) (fun e s => error e (s, t)) := by
  simp only [Ends, beside]
  cases h : x s with
  | ok a s' => rfl
  | error stop s' => cases stop <;> rfl

/-- An action that starts from a second state gives what has become of that state. -/
@[simp] theorem ends_startingFrom {value : τ → σ → Prop} (t : τ) (x : Action ε (σ × τ) Unit) :
    (x.startingFrom t).Ends s value error ↔
      x.Ends (s, t) (fun _ s => value s.2 s.1) (fun e s => error e s.1) := by
  simp only [Ends, startingFrom]
  cases h : x (s, t) with
  | ok a s' => rfl
  | error stop s' => cases stop <;> rfl

/-- An action with nothing beside its state goes its way. -/
@[simp] theorem ends_alone (x : Action ε (σ × Unit) α) :
    x.alone.Ends s value error ↔
      x.Ends (s, ()) (fun a s => value a s.1) (fun e s => error e s.1) := by
  simp only [Ends, alone]
  cases h : x (s, ()) with
  | ok a s' => rfl
  | error stop s' => cases stop <;> rfl

/-- Of a choice the chosen action is known, so each may assume that it is the one. -/
@[simp] theorem ends_ite (p : Prop) [Decidable p] (x y : Action ε σ α) :
    (if p then x else y).Ends s value error ↔
      (p → x.Ends s value error) ∧ (¬ p → y.Ends s value error) := by
  by_cases h : p <;> simp [h]

/-! ## What is left behind -/

/-- Started in `s`, the action ends with a value and a state that satisfy `value`, or stops, for an
error or for a defect, and leaves a state that satisfies `left`. -/
def Yields (x : Action ε σ α) (s : σ) (value : α → σ → Prop) (left : σ → Prop) : Prop :=
  match x s with
  | .ok a s => value a s
  | .error _ s => left s

/-- The state that an action leaves, however it ends. -/
def leaves (x : Action ε σ α) (s : σ) : σ :=
  match x s with
  | .ok _ s => s
  | .error _ s => s

/-- What an action stops with, if it stops. -/
def told (x : Action ε σ α) (s : σ) : Option (Stop ε) :=
  match x s with
  | .ok _ _ => none
  | .error stop _ => some stop

/-- An action that tells why it stops has stopped so, and left what it leaves. -/
theorem eq_error_of_told {x : Action ε σ α} {s : σ} {stop : Stop ε} (h : x.told s = some stop) :
    x s = .error stop (x.leaves s) := by
  unfold told at h
  unfold leaves
  cases hrun : x s with
  | ok a s' => simp [hrun] at h
  | error stop' s' =>
    rw [hrun] at h
    rw [Option.some.inj h]

/-- The value that an action ends with, if it does. -/
def given (x : Action ε σ α) (s : σ) : Option α :=
  match x s with
  | .ok a _ => some a
  | .error _ _ => none

/-- An action that gives a value has ended with it, and left what it leaves. -/
theorem eq_ok_of_given {x : Action ε σ α} {s : σ} {a : α} (h : x.given s = some a) :
    x s = .ok a (x.leaves s) := by
  unfold given at h
  unfold leaves
  cases hrun : x s with
  | ok a' s' =>
    rw [hrun] at h
    rw [Option.some.inj h]
  | error stop s' => simp [hrun] at h

/-- Run an action beside `t`, and give what has become of `t` with its value. -/
def holding (t : τ) (x : Action ε (σ × τ) α) : Action ε σ (α × τ) := fun s =>
  match x (s, t) with
  | .ok a (s, t) => .ok (a, t) s
  | .error e (s, _) => .error e s

/-- An action that keeps a property of the state, however it ends. -/
def Keeps (kept : σ → Prop) (x : Action ε σ α) : Prop :=
  ∀ s, kept s → x.Yields s (fun _ => kept) kept

section Yields

variable {left : σ → Prop}

/-- What is known of the value and of what is left may be weakened. -/
theorem Yields.mono {x : Action ε σ α} {value' : α → σ → Prop} {left' : σ → Prop}
    (h : x.Yields s value left) (hvalue : ∀ a s, value a s → value' a s)
    (hleft : ∀ s, left s → left' s) : x.Yields s value' left' := by
  unfold Yields at *
  split at h
  · exact hvalue _ _ h
  · exact hleft _ h

/-- What holds of the values that an action gives; nothing is asked where it stops. -/
theorem yields_of_ok {x : Action ε σ α} {s : σ} {value : α → σ → Prop}
    (h : ∀ a s', x s = .ok a s' → value a s') : x.Yields s value fun _ => True := by
  unfold Yields
  cases hx : x s with
  | ok a s' => exact h a s' hx
  | error stop s' => trivial

/-- What is known of the value with which an action has ended. -/
theorem Yields.of_ok {x : Action ε σ α} {s s' : σ} {a : α} {value : α → σ → Prop} {left : σ → Prop}
    (h : x.Yields s value left) (hx : x s = .ok a s') : value a s' := by
  simpa only [Yields, hx] using h

/-- What always holds, holds of every end. -/
theorem yields_of_forall {value : α → σ → Prop} {left : σ → Prop} (x : Action ε σ α) (s : σ)
    (hvalue : ∀ a s, value a s) (hleft : ∀ s, left s) : x.Yields s value left := by
  unfold Yields
  split
  · exact hvalue _ _
  · exact hleft _

/-- What holds at an end holds of what is left. -/
theorem Ends.yields {x : Action ε σ α} (h : x.Ends s value error)
    (hleft : ∀ e s, error e s → left s) : x.Yields s value left := by
  unfold Ends at h
  unfold Yields
  cases hx : x s with
  | ok a s' => simpa only [hx] using h
  | error stop s' =>
    simp only [hx] at h
    cases stop with
    | error e => exact hleft e s' h
    | defect => exact h.elim

/-- What is known of an end in two ways. -/
theorem Ends.and_yields {x : Action ε σ α} {value' : α → σ → Prop} (h : x.Ends s value error)
    (h' : x.Yields s value' left) :
    x.Ends s (fun a s => value a s ∧ value' a s) (fun e s => error e s ∧ left s) := by
  unfold Ends at *
  unfold Yields at h'
  cases hx : x s with
  | ok a s' => exact ⟨by simpa only [hx] using h, by simpa only [hx] using h'⟩
  | error stop s' =>
    simp only [hx] at h h'
    cases stop with
    | error e => exact ⟨h, h'⟩
    | defect => exact h.elim

/-- What is known in two ways, however it ends. -/
theorem Yields.and {x : Action ε σ α} {value' : α → σ → Prop} {left' : σ → Prop}
    (h : x.Yields s value left) (h' : x.Yields s value' left') :
    x.Yields s (fun a s => value a s ∧ value' a s) fun s => left s ∧ left' s := by
  unfold Yields at *
  cases hx : x s with
  | ok a s' => exact ⟨by simpa only [hx] using h, by simpa only [hx] using h'⟩
  | error stop s' => exact ⟨by simpa only [hx] using h, by simpa only [hx] using h'⟩

/-- An action that leaves nothing when it stops does not stop. -/
theorem Yields.ends {x : Action ε σ α} (h : x.Yields s value left) (error : ε → σ → Prop)
    (never : ∀ s, ¬ left s) : x.Ends s value error := by
  unfold Yields at h
  unfold Ends
  cases hx : x s with
  | ok a s' => simpa only [hx] using h
  | error stop s' =>
    simp only [hx] at h
    exact absurd h (never s')

/-- A value is given at once, and the state is the one at the start. -/
@[simp] theorem yields_pure (a : α) :
    (pure a : Action ε σ α).Yields s value left ↔ value a s := Iff.rfl

/-- A failure leaves the state as it is at the start. -/
@[simp] theorem yields_fail (e : ε) : (fail e : Action ε σ α).Yields s value left ↔ left s :=
  Iff.rfl

/-- A sequence goes on from what its first part gives, and leaves what either part leaves. -/
@[simp] theorem yields_bind (x : Action ε σ β) (f : β → Action ε σ α) :
    (x >>= f).Yields s value left ↔ x.Yields s (fun b s => (f b).Yields s value left) left := by
  simp only [Yields, bind_apply]
  cases h : x s <;> rfl

/-- A function of the value is what comes of the value. -/
@[simp] theorem yields_map (f : β → α) (x : Action ε σ β) :
    (f <$> x).Yields s value left ↔ x.Yields s (fun b s => value (f b) s) left := by
  simp only [Yields, map_apply]
  cases h : x s <;> rfl

/-- Looking at the state gives it and leaves it. -/
@[simp] theorem yields_get {value : σ → σ → Prop} :
    (get : Action ε σ σ).Yields s value left ↔ value s s := Iff.rfl

/-- A change of the state leaves what the function makes of it. -/
@[simp] theorem yields_modify {value : PUnit → σ → Prop} (f : σ → σ) :
    (modify f : Action ε σ PUnit).Yields s value left ↔ value ⟨⟩ (f s) := Iff.rfl

/-- A change that gives a value leaves and gives what the function makes of the state. -/
@[simp] theorem yields_modifyGet (f : σ → α × σ) :
    (modifyGet f : Action ε σ α).Yields s value left ↔ value (f s).1 (f s).2 := Iff.rfl

/-- A defect leaves the state as it is at the start. -/
@[simp] theorem yields_abort (d : Defect) :
    (abort d : Action ε σ α).Yields s value left ↔ left s := Iff.rfl

/-- What an error is called makes no difference to what is left. -/
@[simp] theorem yields_mapError (f : ε' → ε) (x : Action ε' σ α) :
    (x.mapError f).Yields s value left ↔ x.Yields s value left := by
  simp only [Yields, mapError]
  cases h : x s with
  | ok a s' => rfl
  | error stop s' => cases stop <;> rfl

/-- An action beside another state goes its way and leaves the other state alone. -/
@[simp] theorem yields_beside {value : α → σ × τ → Prop} {left : σ × τ → Prop}
    (x : Action ε σ α) (s : σ) (t : τ) :
    (x.beside : Action ε (σ × τ) α).Yields (s, t) value left ↔
      x.Yields s (fun a s => value a (s, t)) (fun s => left (s, t)) := by
  simp only [Yields, beside]
  cases h : x s <;> rfl

/-- An action with nothing beside its state goes its way. -/
@[simp] theorem yields_alone (x : Action ε (σ × Unit) α) :
    x.alone.Yields s value left ↔
      x.Yields (s, ()) (fun a s => value a s.1) (fun s => left s.1) := by
  simp only [Yields, alone]
  cases h : x (s, ()) <;> rfl

/-- Of a choice the chosen action is known, so each may assume that it is the one. -/
@[simp] theorem yields_ite (p : Prop) [Decidable p] (x y : Action ε σ α) :
    (if p then x else y).Yields s value left ↔
      (p → x.Yields s value left) ∧ (¬ p → y.Yields s value left) := by
  by_cases h : p <;> simp [h]

/-- A check that fails changes nothing. -/
theorem yields_ensure {value : Unit → σ → Prop} {p : Prop} [Decidable p] (d : Defect)
    (holds : p → value () s) (stops : left s) :
    (ensure p d : Action ε σ Unit).Yields s value left := by
  rw [ensure, yields_ite]
  exact ⟨holds, fun _ => stops⟩

/-- What is settled gives a value or stops, and the state is as it was. -/
theorem Settled.yields {x : Action ε σ α} (hx : x.Settled) (holds : ∀ a, value a s)
    (stops : left s) : x.Yields s value left := by
  cases hx with
  | pure a => exact holds a
  | abort d => exact stops

section Checked

variable {value : Nat → σ → Prop}

/-- A sum that is too large changes nothing. -/
theorem yields_sum (limit a b : Nat) (holds : a + b < limit → value (a + b) s) (stops : left s) :
    (sum limit a b : Action ε σ Nat).Yields s value left := by
  rw [sum, yields_bind]
  exact yields_ensure _ holds stops

/-- A difference that is negative changes nothing. -/
theorem yields_difference (a b : Nat) (holds : b ≤ a → value (a - b) s) (stops : left s) :
    (difference a b : Action ε σ Nat).Yields s value left := by
  rw [difference, yields_bind]
  exact yields_ensure _ holds stops

/-- A product that is too large changes nothing. -/
theorem yields_product (limit a b : Nat) (holds : a * b < limit → value (a * b) s)
    (stops : left s) : (product limit a b : Action ε σ Nat).Yields s value left := by
  rw [product, yields_bind]
  exact yields_ensure _ holds stops

/-- A part that lies outside of its buffer changes nothing. -/
theorem yields_part {value : Bytes → σ → Prop} (buffer : Bytes) (start stop : Nat)
    (holds : start ≤ stop → stop ≤ buffer.length → value (buffer.slice start (stop - start)) s)
    (stops : left s) : (part buffer start stop : Action ε σ Bytes).Yields s value left := by
  simp only [part, front, yields_bind]
  exact yields_ensure _ (fun order => yields_ensure _ (holds order) stops) stops

/-- Bytes that do not fit where they are copied to change nothing. -/
theorem yields_copy {value : Bytes → σ → Prop} (buffer : Bytes) (start stop : Nat) (bytes : Bytes)
    (holds : start + bytes.length = stop → stop ≤ buffer.length →
      value (buffer.overlay start bytes) s)
    (stops : left s) : (copy buffer start stop bytes : Action ε σ Bytes).Yields s value left := by
  rw [copy, yields_bind]
  refine yields_part _ _ _ (fun order inside => ?_) stops
  rw [yields_bind]
  refine yields_ensure _ (fun same => ?_) stops
  rw [Bytes.length_slice (by omega)] at same
  exact holds (by omega) inside

end Checked

/-- Where a rescued action ends with an error, it is its rescuer that leaves something. -/
theorem Ends.yields_rescue {x : Action ε σ α} {handle : ε → Action ε σ α}
    (h : x.Ends s value error)
    (handles : ∀ e s, error e s → (handle e).Yields s value left) :
    (x.rescue handle).Yields s value left := by
  unfold Ends at h
  simp only [Yields, Action.rescue]
  cases hx : x s with
  | ok a s' => simpa only [hx] using h
  | error stop s' =>
    simp only [hx] at h
    cases stop with
    | error e => exact handles e s' h
    | defect => exact h.elim

/-- What a rescued action leaves where it stops, its rescuer has to keep. -/
theorem Yields.rescue {x : Action ε σ α} {handle : ε → Action ε σ α} (h : x.Yields s value left)
    (handles : ∀ e s, left s → (handle e).Yields s value left) :
    (x.rescue handle).Yields s value left := by
  unfold Yields at h
  simp only [Yields, Action.rescue]
  cases hx : x s with
  | ok a s' => simpa only [hx] using h
  | error stop s' =>
    simp only [hx] at h
    cases stop with
    | error e => exact handles e s' h
    | defect => exact h

/-! ## What is kept -/

variable {kept : σ → Prop}

/-- Giving a value changes nothing. -/
@[simp] theorem keeps_pure (a : α) : Keeps kept (pure a : Action ε σ α) := fun _ h => h

/-- Failing changes nothing. -/
@[simp] theorem keeps_fail (e : ε) : Keeps kept (fail e : Action ε σ α) := fun _ h => h

/-- Ending with a defect changes nothing. -/
@[simp] theorem keeps_abort (d : Defect) : Keeps kept (abort d : Action ε σ α) := fun _ h => h

/-- What is settled keeps everything. -/
theorem Settled.keeps {x : Action ε σ α} (hx : x.Settled) : Keeps kept x :=
  fun _ h => hx.yields (fun _ => h) h

/-- Looking at the state changes nothing. -/
@[simp] theorem keeps_get : Keeps kept (get : Action ε σ σ) := fun _ h => h

/-- What each part keeps, the sequence keeps. -/
theorem Keeps.bind {x : Action ε σ β} {f : β → Action ε σ α} (hx : Keeps kept x)
    (hf : ∀ b, Keeps kept (f b)) : Keeps kept (x >>= f) := by
  intro s h
  rw [yields_bind]
  exact (hx s h).mono (fun b s' h' => hf b s' h') fun _ h' => h'

/-- A choice keeps what both of its actions keep. -/
theorem Keeps.ite {x y : Action ε σ α} {p : Prop} [Decidable p] (hx : Keeps kept x)
    (hy : Keeps kept y) : Keeps kept (if p then x else y) := by
  split
  · exact hx
  · exact hy

/-- A handled action keeps what it and its handler keep. -/
theorem Keeps.rescue {x : Action ε σ α} {handle : ε → Action ε σ α} (hx : Keeps kept x)
    (hhandle : ∀ e, Keeps kept (handle e)) : Keeps kept (x.rescue handle) :=
  fun s h => (hx s h).rescue fun e s' h' => hhandle e s' h'

/-- What an error is called makes no difference to what is kept. -/
theorem Keeps.mapError {x : Action ε' σ α} (hx : Keeps kept x) (f : ε' → ε) :
    Keeps kept (x.mapError f) := fun s h => (yields_mapError f x).mpr (hx s h)

/-- What an action keeps, it keeps beside another state. -/
theorem Keeps.beside {x : Action ε σ α} (hx : Keeps kept x) :
    Keeps (fun s : σ × τ => kept s.1) (x.beside : Action ε (σ × τ) α) :=
  fun (s, t) h => (yields_beside x s t).mpr (hx s h)

/-- What is kept beside something is kept without it. -/
theorem Keeps.holding {x : Action ε (σ × τ) α}
    (h : Keeps (fun after : σ × τ => kept after.1) x) (t : τ) : Keeps kept (x.holding t) := by
  intro s hs
  have hx := h (s, t) hs
  unfold Yields at hx
  unfold Yields Action.holding
  cases hrun : x (s, t) with
  | ok a after => exact (hrun ▸ hx :)
  | error stop after => exact (hrun ▸ hx :)

/-- What is known of an action however it ends, is known of what it leaves. -/
theorem Yields.leaves {x : Action ε σ α} {s : σ} (h : x.Yields s (fun _ => kept) kept) :
    kept (x.leaves s) := by
  unfold Yields at h
  unfold Action.leaves
  cases hrun : x s <;> simpa only [hrun] using h

/-- What an action that keeps a property leaves has the property. -/
theorem Keeps.leaves {x : Action ε σ α} (h : Keeps kept x) {s : σ} (hs : kept s) :
    kept (x.leaves s) := (h s hs).leaves

/-- Ensuring something changes nothing. -/
theorem keeps_ensure (p : Prop) [Decidable p] (d : Defect) :
    Keeps kept (ensure p d : Action ε σ Unit) := Keeps.ite (keeps_pure ()) (keeps_abort d)

/-- A result that is there already changes nothing. -/
theorem keeps_ofExcept (result : Except ε α) : Keeps kept (ofExcept result : Action ε σ α) := by
  cases result with
  | ok a => exact keeps_pure a
  | error e => exact keeps_fail e

/-- A change of the state keeps what the function keeps. -/
theorem keeps_modify {f : σ → σ} (h : ∀ s, kept s → kept (f s)) :
    Keeps kept (modify f : Action ε σ PUnit) := fun s hs => h s hs

end Yields

end Action

end CircularLog
