import CircularLog.Proofs.Ends

/-!
# Two runs side by side

The same action is started in two states. `Pairs` says that both runs end alike, with the same value
or for the same reason, and what is known of the two states that they leave. An action `Agrees` if
it ends alike from states that are alike and leaves such states; each combinator has a lemma that
says so of what is made with it. Where states are alike that are one and the same and have a
property, an action that agrees keeps the property (`Agrees.keeps`), so what is shown of two runs
need not be shown again of one.
-/

namespace CircularLog

namespace Action

variable {ε ε' σ τ β α : Type}

/-- How an action ends: with this value, or for this reason. -/
def answer (x : Action ε σ α) (s : σ) : Except (Stop ε) α :=
  match x s with
  | .ok a _ => .ok a
  | .error stop _ => .error stop

/-- Started in `s` and in `s'`, the action ends with the same value and two states that satisfy
`value`, or stops for the same reason and leaves two states that satisfy `left`. -/
def Pairs (x : Action ε σ α) (s s' : σ) (value : α → σ → σ → Prop) (left : σ → σ → Prop) : Prop :=
  match x s, x s' with
  | .ok a t, .ok a' t' => a = a' ∧ value a t t'
  | .error stop t, .error stop' t' => stop = stop' ∧ left t t'
  | _, _ => False

/-- Started in states that are alike, the action ends alike, and leaves states that are alike. -/
def Agrees (alike : σ → σ → Prop) (x : Action ε σ α) : Prop :=
  ∀ s s', alike s s' → x.Pairs s s' (fun _ => alike) alike

/-- Lend `t` to an action, and tell how it ends and what it gives back. -/
def lending (t : τ) (x : Action ε (σ × τ) α) : Action ε σ (Except (Stop ε) α × τ) := fun s =>
  match x (s, t) with
  | .ok a (s, t) => .ok (.ok a, t) s
  | .error stop (s, t) => .ok (.error stop, t) s

/-- One state with a property, taken twice. -/
def Twice (kept : σ → Prop) (s s' : σ) : Prop := s = s' ∧ kept s

/-- The first halves are related and the second halves are the same. -/
def Beside (R : σ → σ → Prop) (s t : σ × τ) : Prop := R s.1 t.1 ∧ s.2 = t.2

section Pairs

variable {x : Action ε σ α} {s s' : σ} {value value' : α → σ → σ → Prop} {left left' : σ → σ → Prop}

/-- What is known of the two states that are left may be weakened. -/
theorem Pairs.mono (h : x.Pairs s s' value left) (hvalue : ∀ a t t', value a t t' → value' a t t')
    (hleft : ∀ t t', left t t' → left' t t') : x.Pairs s s' value' left' := by
  unfold Pairs at *
  split at h
  · exact ⟨h.1, hvalue _ _ _ h.2⟩
  · exact ⟨h.1, hleft _ _ h.2⟩
  · exact h

/-- Both runs give the same answer. -/
theorem Pairs.answer_eq (h : x.Pairs s s' value left) : x.answer s = x.answer s' := by
  unfold Pairs at h
  unfold answer
  split at h
  · next hs hs' => rw [hs, hs', h.1]
  · next hs hs' => rw [hs, hs', h.1]
  · exact h.elim

/-- What is known of both runs however they end, is known of the states that they leave. -/
theorem Pairs.leaves (h : x.Pairs s s' (fun _ => left) left) : left (x.leaves s) (x.leaves s') := by
  unfold Pairs at h
  unfold Action.leaves
  split at h
  · next hs hs' => rw [hs, hs']; exact h.2
  · next hs hs' => rw [hs, hs']; exact h.2
  · exact h.elim

/-- One run is two runs from the same state. -/
theorem Yields.pairs {value : α → σ → Prop} {left : σ → Prop} (h : x.Yields s value left) :
    x.Pairs s s (fun a t t' => Twice (value a) t t') (Twice left) := by
  unfold Yields at h
  unfold Pairs
  cases hs : x s with
  | ok a t => exact ⟨rfl, rfl, by simpa only [hs] using h⟩
  | error stop t => exact ⟨rfl, rfl, by simpa only [hs] using h⟩

/-- Two runs from the same state are one. -/
theorem Pairs.yields (h : x.Pairs s s value left) :
    x.Yields s (fun a t => value a t t) fun t => left t t := by
  unfold Pairs at h
  unfold Yields
  cases hs : x s with
  | ok a t => exact (by simpa only [hs] using h : _ ∧ _).2
  | error stop t => exact (by simpa only [hs] using h : _ ∧ _).2

/-! ## The combinators -/

/-- A value is the same in both runs, and leaves both states as they are. -/
theorem pairs_pure {a : α} (h : value a s s') : (pure a : Action ε σ α).Pairs s s' value left :=
  ⟨rfl, h⟩

/-- A failure is the same in both runs, and leaves both states as they are. -/
theorem pairs_fail {e : ε} (h : left s s') : (fail e : Action ε σ α).Pairs s s' value left :=
  ⟨rfl, h⟩

/-- A settled action ends alike in any two states, which it leaves as they are. -/
theorem Settled.pairs (hx : x.Settled) (holds : ∀ a, value a s s') (stops : left s s') :
    x.Pairs s s' value left := by
  cases hx with
  | pure a => exact ⟨rfl, holds a⟩
  | abort d => exact ⟨rfl, stops⟩

/-- Nothing follows a failure. -/
theorem pairs_fail_bind {e : ε} {f : β → Action ε σ α} (h : left s s') :
    ((fail e : Action ε σ β) >>= f).Pairs s s' value left := ⟨rfl, h⟩

/-- A sequence runs alike if its parts do, the second one from the states that the first one
leaves. -/
theorem Pairs.bind {x : Action ε σ β} {f : β → Action ε σ α} {between : β → σ → σ → Prop}
    (hx : x.Pairs s s' between left)
    (hf : ∀ b t t', between b t t' → (f b).Pairs t t' value left) :
    (x >>= f).Pairs s s' value left := by
  unfold Pairs at hx
  unfold Pairs
  rw [bind_apply, bind_apply]
  split at hx
  · next hs hs' =>
    obtain ⟨rfl, h⟩ := hx
    rw [hs, hs']
    exact hf _ _ _ h
  · next hs hs' =>
    rw [hs, hs']
    exact hx
  · exact hx.elim

/-- Where a rescued action stops, its rescuer runs from the states that it leaves. -/
theorem Pairs.rescue {handle : ε → Action ε σ α} (hx : x.Pairs s s' value left)
    (handles : ∀ e t t', left t t' → (handle e).Pairs t t' value left) :
    (x.rescue handle).Pairs s s' value left := by
  unfold Pairs at hx
  unfold Pairs Action.rescue
  split at hx
  · next hs hs' =>
    rw [hs, hs']
    exact hx
  · next stop t stop' t' hs hs' =>
    obtain ⟨rfl, h⟩ := hx
    rw [hs, hs']
    cases stop with
    | error e => exact handles e _ _ h
    | defect d => exact ⟨rfl, h⟩
  · exact hx.elim

/-- Runs that end alike do so whatever their errors are called. -/
theorem Pairs.mapError {x : Action ε' σ α} (hx : x.Pairs s s' value left) (f : ε' → ε) :
    (x.mapError f).Pairs s s' value left := by
  unfold Pairs at hx
  unfold Pairs Action.mapError
  split at hx
  · next hs hs' =>
    rw [hs, hs']
    exact hx
  · next stop t stop' t' hs hs' =>
    obtain ⟨rfl, h⟩ := hx
    rw [hs, hs']
    cases stop with
    | error e => exact ⟨rfl, h⟩
    | defect d => exact ⟨rfl, h⟩
  · exact hx.elim

/-- Beside anything, an action runs alike if it does so by itself. -/
theorem Pairs.beside {t t' : τ} {value : α → σ × τ → σ × τ → Prop} {left : σ × τ → σ × τ → Prop}
    (hx : x.Pairs s s' (fun a u u' => value a (u, t) (u', t')) fun u u' => left (u, t) (u', t')) :
    (x.beside : Action ε (σ × τ) α).Pairs (s, t) (s', t') value left := by
  unfold Pairs at hx
  unfold Pairs Action.beside
  dsimp only
  split at hx
  · next hs hs' =>
    rw [hs, hs']
    exact hx
  · next hs hs' =>
    rw [hs, hs']
    exact hx
  · exact hx.elim

/-- What is left where something is lent. -/
theorem leaves_lending (x : Action ε (σ × τ) α) (t : τ) :
    (x.lending t).leaves s = (x.leaves (s, t)).1 := by
  unfold Action.leaves Action.lending
  cases x (s, t) <;> rfl

/-- With something lent that it gives back in the same state, an action runs alike. -/
theorem Pairs.lending {R : σ → σ → Prop} {x : Action ε (σ × τ) α} {t : τ}
    (hx : x.Pairs (s, t) (s', t) (fun _ => Beside R) (Beside R)) :
    (x.lending t).Pairs s s' (fun _ => R) R := by
  unfold Pairs at hx
  unfold Pairs Action.lending
  split at hx
  · next a u a' u' hs hs' =>
    obtain ⟨rfl, hR, hsame⟩ := hx
    rw [hs, hs']
    exact ⟨by rw [hsame], hR⟩
  · next stop u stop' u' hs hs' =>
    obtain ⟨rfl, hR, hsame⟩ := hx
    rw [hs, hs']
    exact ⟨by rw [hsame], hR⟩
  · exact hx.elim

/-- Of a choice both runs choose the same action. -/
theorem Pairs.ite {y : Action ε σ α} {p : Prop} [Decidable p] (hx : p → x.Pairs s s' value left)
    (hy : ¬ p → y.Pairs s s' value left) : (if p then x else y).Pairs s s' value left := by
  split
  · next h => exact hx h
  · next h => exact hy h

end Pairs

/-! ## What agrees -/

section Agrees

variable {alike : σ → σ → Prop}

/-- Giving a value agrees. -/
theorem agrees_pure (a : α) : Agrees alike (pure a : Action ε σ α) := fun _ _ h => ⟨rfl, h⟩

/-- Failing agrees. -/
theorem agrees_fail (e : ε) : Agrees alike (fail e : Action ε σ α) := fun _ _ h => ⟨rfl, h⟩

/-- A settled action agrees. -/
theorem Settled.agrees {x : Action ε σ α} (hx : x.Settled) : Agrees alike x :=
  fun _ _ h => hx.pairs (fun _ => h) h

/-- A change agrees that leaves states alike. -/
theorem agrees_modify {f : σ → σ} (h : ∀ s s', alike s s' → alike (f s) (f s')) :
    Agrees alike (modify f : Action ε σ PUnit) := fun s s' hs => ⟨rfl, h s s' hs⟩

/-- A sequence agrees if its parts do. -/
theorem Agrees.bind {x : Action ε σ β} {f : β → Action ε σ α} (hx : Agrees alike x)
    (hf : ∀ b, Agrees alike (f b)) : Agrees alike (x >>= f) :=
  fun s s' h => (hx s s' h).bind fun b t t' ht => hf b t t' ht

/-- A choice agrees if both of its actions do. -/
theorem Agrees.ite {x y : Action ε σ α} {p : Prop} [Decidable p] (hx : Agrees alike x)
    (hy : Agrees alike y) : Agrees alike (if p then x else y) := by
  split
  · exact hx
  · exact hy

/-- A handled action agrees if it and its handler do. -/
theorem Agrees.rescue {x : Action ε σ α} {handle : ε → Action ε σ α} (hx : Agrees alike x)
    (hhandle : ∀ e, Agrees alike (handle e)) : Agrees alike (x.rescue handle) :=
  fun s s' h => (hx s s' h).rescue fun e t t' ht => hhandle e t t' ht

/-- What agrees does so whatever its errors are called. -/
theorem Agrees.mapError {x : Action ε' σ α} (hx : Agrees alike x) (f : ε' → ε) :
    Agrees alike (x.mapError f) := fun s s' h => (hx s s' h).mapError f

/-- What agrees does so beside states that are the same. -/
theorem Agrees.beside {x : Action ε σ α} (hx : Agrees alike x) :
    Agrees (Beside alike) (x.beside : Action ε (σ × τ) α) := by
  rintro ⟨s, t⟩ ⟨s', t'⟩ ⟨h, rfl⟩
  exact Pairs.beside ((hx s s' h).mono (fun _ _ _ h => ⟨h, rfl⟩) fun _ _ h => ⟨h, rfl⟩)

/-- What agrees with nothing beside the state agrees by itself. -/
theorem Agrees.alone {x : Action ε (σ × Unit) α} (hx : Agrees (Beside alike) x) :
    Agrees alike x.alone := by
  intro s s' h
  have hrun := hx (s, ()) (s', ()) ⟨h, rfl⟩
  unfold Pairs at hrun
  unfold Pairs Action.alone
  split at hrun
  · next hs hs' =>
    rw [hs, hs']
    exact ⟨hrun.1, hrun.2.1⟩
  · next hs hs' =>
    rw [hs, hs']
    exact ⟨hrun.1, hrun.2.1⟩
  · exact hrun.elim

/-- An action that is lent a state agrees if it does beside the same state. -/
theorem Agrees.lending {x : Action ε (σ × τ) α} (hx : Agrees (Beside alike) x) (t : τ) :
    Agrees alike (x.lending t) := fun s s' h => (hx (s, t) (s', t) ⟨h, rfl⟩).lending

/-- Looking at the state agrees where states that are alike look the same. -/
theorem Agrees.get_bind {f : σ → Action ε σ α} (same : ∀ s s', alike s s' → f s = f s')
    (hf : ∀ s, Agrees alike (f s)) : Agrees alike (get >>= f) := by
  intro s s' h
  have hrun : (f s).Pairs s s' (fun _ => alike) alike := hf s s s' h
  unfold Pairs at hrun ⊢
  rw [show (get >>= f) s = f s s from rfl, show (get >>= f) s' = f s' s' from rfl, ← same s s' h]
  exact hrun

/-- A result that is there already agrees. -/
theorem agrees_ofExcept (result : Except ε α) : Agrees alike (ofExcept result : Action ε σ α) := by
  cases result with
  | ok a => exact agrees_pure a
  | error e => exact agrees_fail e

/-- What agrees on states that are one and the same and have a property keeps the property. -/
theorem Agrees.keeps {x : Action ε σ α} (hx : Agrees alike x) {kept : σ → Prop}
    (same : ∀ s, kept s → alike s s) (weaker : ∀ s, alike s s → kept s) : Keeps kept x :=
  fun s h => (hx s s (same s h)).yields.mono (fun _ t ht => weaker t ht) fun t ht => weaker t ht

end Agrees

end Action

end CircularLog
