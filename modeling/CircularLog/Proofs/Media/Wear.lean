import CircularLog.Proofs.Kept
import CircularLog.Proofs.Media.Resubmission
import CircularLog.Proofs.Space.Containment

/-!
# The wear of the memories

A page of the flash wears out by being erased, and a cell of either memory by being written, so the
memories count these calls (`Media.wear`). Where no call fails, each call counts once, whether it
lies inside the memory or not (`yields_worn`), reading and polling do not count, and no call is
submitted a second time (`Settles.resubmit_eq`).
-/

namespace CircularLog

variable {g : Geometry} {α β ε : Type}

open CircularLog.Action (Keeps)

/-! ## Counting -/

/-- How often the flash has been erased and programmed and the eeprom written. -/
structure Wear where
  erasings : Nat
  programmings : Nat
  writings : Nat

namespace Wear

instance : Zero Wear := ⟨⟨0, 0, 0⟩⟩

instance : Add Wear :=
  ⟨fun a b => ⟨a.erasings + b.erasings, a.programmings + b.programmings, a.writings + b.writings⟩⟩

/-- Wear is added part by part. -/
theorem add_mk (a b c a' b' c' : Nat) :
    (⟨a, b, c⟩ : Wear) + ⟨a', b', c'⟩ = ⟨a + a', b + b', c + c'⟩ := rfl

/-- It does not matter in which order wear is added up. -/
protected theorem add_assoc (a b c : Wear) : a + b + c = a + (b + c) := by
  obtain ⟨a₁, a₂, a₃⟩ := a
  obtain ⟨b₁, b₂, b₃⟩ := b
  obtain ⟨c₁, c₂, c₃⟩ := c
  simp only [add_mk, Nat.add_assoc]

end Wear

/-- What a call counts for. -/
def Call.wear (call : Call) : Wear :=
  match call.medium, call.access with
  | .flash, .erase => ⟨1, 0, 0⟩
  | .flash, .write => ⟨0, 1, 0⟩
  | .eeprom, .write => ⟨0, 0, 1⟩
  | _, _ => 0

/-- Reading and polling count for nothing. -/
theorem Call.wear_of_not_changes {call : Call} (h : ¬ call.Changes) : call.wear = 0 := by
  unfold wear
  split
  · next hmedium haccess => exact absurd (.inr haccess) h
  · next hmedium haccess => exact absurd (.inl haccess) h
  · next hmedium haccess => exact absurd (.inl haccess) h
  · rfl

/-- The flash has been erased and programmed so often, and no call of it times out. -/
structure Flash.Counts (erasings programmings : Nat) (flash : Flash g) : Prop where
  erases : flash.erases = erasings
  writes : flash.writes = programmings
  timeouts : flash.timeouts = 0

namespace Flash

variable {erasings programmings : Nat} {flash : Flash g}

/-- Where no call times out, asking whether this one does counts for nothing. -/
theorem keeps_takeTimeout : Keeps (Counts erasings programmings) (takeTimeout (g := g)) := by
  intro flash h
  simp only [takeTimeout, Action.yields_bind, Action.yields_get, h.timeouts, ne_eq,
    not_true_eq_false, if_false, Action.yields_pure]
  exact h

/-- A reading counts neither as a programming nor as an erasing. -/
theorem keeps_read (address length : Nat) :
    Keeps (Counts erasings programmings) (read (g := g) address length) :=
  (Action.keeps_modify fun _ h => ⟨h.erases, h.writes, h.timeouts⟩).bind fun _ =>
    (Action.keeps_ensure _ _).bind fun _ => (Action.keeps_ofExcept _).bind fun _ =>
      Action.keeps_get.bind fun _ => Action.keeps_pure _

/-- A programming counts before anything about it is checked. -/
theorem counts_program (h : Counts erasings programmings flash) (address : Nat) (bytes : Bytes) :
    (program address bytes).Yields flash (fun _ => Counts erasings (programmings + 1))
      (Counts erasings (programmings + 1)) := by
  have counted : Counts erasings (programmings + 1) { flash with writes := flash.writes + 1 } :=
    ⟨h.erases, congrArg (· + 1) h.writes, h.timeouts⟩
  rw [program, Action.yields_bind, Action.yields_modify]
  refine (keeps_takeTimeout.bind fun _ => (Action.keeps_ofExcept _).bind fun _ =>
    (Action.keeps_ensure _ _).bind fun _ => Action.keeps_modify ?_) _ counted
  exact fun _ h => ⟨h.erases, h.writes, h.timeouts⟩

/-- And so does an erasing. -/
theorem counts_erase (h : Counts erasings programmings flash) (start stop : Nat) :
    (erase start stop).Yields flash (fun _ => Counts (erasings + 1) programmings)
      (Counts (erasings + 1) programmings) := by
  have counted : Counts (erasings + 1) programmings { flash with erases := flash.erases + 1 } :=
    ⟨congrArg (· + 1) h.erases, h.writes, h.timeouts⟩
  rw [erase, Action.yields_bind, Action.yields_modify]
  refine (keeps_takeTimeout.bind fun _ => (Action.keeps_ensure _ _).bind fun _ => ?_) _ counted
  have sets : Keeps (Counts (g := g) (erasings + 1) programmings)
      (modify (fun flash : Flash g => { flash with memory := erased start stop flash.memory }) :
        Action DeviceError (Flash g) PUnit) :=
    Action.keeps_modify fun _ h => ⟨h.erases, h.writes, h.timeouts⟩
  have checked : Keeps (Counts (g := g) (erasings + 1) programmings) (do
      if start % g.pageBytes ≠ 0 ∨ stop % g.pageBytes ≠ 0 then
        Action.fail .notAligned
      modify (fun flash : Flash g => { flash with memory := erased start stop flash.memory }) :
        Action DeviceError (Flash g) PUnit) :=
    .ite ((Action.keeps_fail _).bind fun _ => sets) sets
  exact .ite ((Action.keeps_fail _).bind fun _ => checked) checked

end Flash

namespace Media

variable {m m' m'' : Media g} {w w' : Wear}

/-- How far the memories are worn. -/
def wear (m : Media g) : Wear := ⟨m.flash.erases, m.flash.writes, m.eeprom.writes⟩

/-- There is no trouble, and the memories have been worn so much since. -/
structure Worn (m : Media g) (w : Wear) (m' : Media g) : Prop where
  untroubled : m'.trouble = .clear
  wear : m'.wear = m.wear + w

/-- A phase without faults is no trouble. -/
theorem Under.untroubled (h : m.Under .clear) : m.trouble = .clear := by
  rw [trouble, h.phase, h.able.timeouts]
  rfl

/-- Nothing has been worn since now. -/
theorem Worn.refl (untroubled : m.trouble = .clear) : Worn m 0 m := ⟨untroubled, rfl⟩

/-- What is worn one time after the other adds up. -/
theorem Worn.trans (h : Worn m w m') (h' : Worn m' w' m'') : Worn m (w + w') m'' :=
  ⟨h'.untroubled, by rw [h'.wear, h.wear, Wear.add_assoc]⟩

/-- By itself a call wears nothing, and leads to no trouble. -/
theorem Worn.of_called {call : Call} (h : Worn (m.called call) w m') : Worn m w m' :=
  ⟨h.untroubled, h.wear⟩

/-! ## Calls -/

/-- A call leads to no trouble where there is none. -/
theorem untroubled_called (untroubled : m.trouble = .clear) (call : Call) :
    (m.called call).trouble = .clear := by
  rw [trouble_called (by rw [untroubled, Trouble.late_clear]), untroubled]
  exact Trouble.behind_clear [call]

/-- Without trouble a call goes on to the memory. -/
theorem yields_submit_bind (untroubled : m.trouble = .clear) (call : Call)
    (f : Option Lapse → Action FailureKind (Media g) α) {value : α → Media g → Prop}
    {left : Media g → Prop} :
    (submit call >>= f).Yields m value left ↔ (f none).Yields (m.called call) value left := by
  have plan : m.faults = [] := congrArg Trouble.plan untroubled
  rw [Action.yields_bind, yields_submit, plan]
  rfl

/-- What the eeprom counts is its wear. -/
theorem worn_onEeprom (untroubled : m.trouble = .clear)
    {x : Action DeviceError (Eeprom g.eepromBytes) α} {n : Nat}
    (counts : x.Yields m.eeprom (fun _ eeprom => eeprom.writes = m.eeprom.writes + n)
      (fun eeprom => eeprom.writes = m.eeprom.writes + n)) :
    (onEeprom x).Yields m (fun _ => Worn m ⟨0, 0, n⟩) (Worn m ⟨0, 0, n⟩) := by
  rw [yields_onEeprom]
  exact counts.mono (fun _ _ h => ⟨untroubled, congrArg (Wear.mk _ _) h⟩)
    fun _ h => ⟨untroubled, congrArg (Wear.mk _ _) h⟩

/-- What the flash counts is its wear. -/
theorem worn_onFlash (untroubled : m.trouble = .clear)
    {x : Action DeviceError (Flash g) α} {a b : Nat}
    (counts : x.Yields m.flash (fun _ => Flash.Counts (m.flash.erases + a) (m.flash.writes + b))
      (Flash.Counts (m.flash.erases + a) (m.flash.writes + b))) :
    (onFlash x).Yields m (fun _ => Worn m ⟨a, b, 0⟩) (Worn m ⟨a, b, 0⟩) := by
  have plan : m.faults = [] := congrArg Trouble.plan untroubled
  have worn (flash : Flash g) (h : flash.Counts (m.flash.erases + a) (m.flash.writes + b)) :
      Worn m ⟨a, b, 0⟩ { m with flash } :=
    ⟨by rw [trouble, plan, h.timeouts]; rfl, by rw [wear, h.erases, h.writes]; rfl⟩
  rw [yields_onFlash]
  exact counts.mono (fun _ flash h => worn flash h) fun flash h => worn flash h

/-- Without trouble each call counts for what it is, however it ends. -/
theorem yields_worn (untroubled : m.trouble = .clear) (call : DriverCall g β) :
    call.run.Yields m (fun _ => Worn m call.call.wear) (Worn m call.call.wear) := by
  have untroubled' := untroubled_called untroubled call.call
  have counts : (m.called call.call).flash.Counts m.flash.erases m.flash.writes :=
    ⟨rfl, rfl, congrArg Trouble.timeouts untroubled⟩
  suffices h : call.run.Yields m (fun _ => Worn (m.called call.call) call.call.wear)
      (Worn (m.called call.call) call.call.wear) from
    h.mono (fun _ _ h => h.of_called) fun _ h => h.of_called
  -- The call goes on to its memory, which counts it before anything about it is checked.
  cases call with
  | eepromRead address length =>
    refine (yields_submit_bind untroubled _ _).mpr (worn_onEeprom untroubled' ?_)
    unfold Eeprom.read
    simp
  | eepromWrite address bytes =>
    refine (yields_submit_bind untroubled _ _).mpr (worn_onEeprom untroubled' ?_)
    unfold Eeprom.write
    simp
  | eepromPoll =>
    refine (yields_submit_bind untroubled _ _).mpr (worn_onEeprom untroubled' ?_)
    unfold Eeprom.poll
    rw [Action.yields_modifyGet]
    split
    · rfl
    · split <;> rfl
  | flashRead address length =>
    exact (yields_submit_bind untroubled _ _).mpr
      (worn_onFlash untroubled' (Flash.keeps_read address length _ counts))
  | flashProgram address bytes =>
    exact (yields_submit_bind untroubled _ _).mpr
      (worn_onFlash untroubled' (Flash.counts_program counts address bytes))
  | flashErase start =>
    exact (yields_submit_bind untroubled _ _).mpr
      (worn_onFlash untroubled' (Flash.counts_erase counts start _))

end Media

/-- What makes only calls that change nothing wears nothing. -/
theorem Driven.keepsWorn {x : Action ε (Media g) α} (h : Driven (¬ ·.Changes) x) {m : Media g}
    {w : Wear} : Keeps (Media.Worn m w) x := by
  refine h.keeps fun call still m' worn => ?_
  have calls := Media.yields_worn worn.untroubled call
  rw [Call.wear_of_not_changes still] at calls
  exact calls.mono (fun _ _ h => worn.trans h) fun _ h => worn.trans h

end CircularLog
