import CircularLog.Proofs.Media.Schedule
import CircularLog.Space.Write

/-!
# Submitting a call again

A call that programs or erases the flash and fails may have had a part of its effect, but to have
the effect again after a part of it is to have it once (`Flash.programmed_again`,
`Flash.erased_again`). So a call that is submitted again and passes does what it would have done at
once (`Performs.resubmit`). Of two media that show the same, `Twins`, one may be in trouble and the
other not: what an action does to the one it does to the other, as long as each failure is got over,
and otherwise it ends with the failure. The action `Mirrors` this if its steps do.
-/

namespace CircularLog

/-! ## Memories that are written twice -/

namespace Memory

variable {size : Nat}

/-- Where writing a byte twice is writing it once, a first part may be written before the whole
is. -/
theorem combine_again {f : Nat → UInt8 → UInt8 → UInt8}
    (twice : ∀ i old new, f i (f i old new) new = f i old new) (memory : Memory size)
    (address : Nat) {part bytes : Bytes} (h : part <+: bytes) :
    (memory.combine f address part).combine f address bytes = memory.combine f address bytes := by
  refine eq_of_toBytes (List.ext_getElem? fun i => ?_)
  simp only [getElem?_toBytes_combine]
  split
  · -- A byte of the part is written twice, and any other once.
    cases hpart : part[i - address]? with
    | none => rfl
    | some byte =>
      obtain ⟨rest, rfl⟩ := h
      obtain ⟨hlt, -⟩ := List.getElem?_eq_some_iff.mp hpart
      rw [List.getElem?_append_left hlt, hpart]
      cases memory.toBytes[i]? <;> simp [twice]
  · rfl

end Memory

/-! ## What the flash does -/

namespace Flash

variable {g : Geometry} {address : Nat} {bytes : Bytes} {start stop : Nat}

/-- Whole words inside the flash. -/
structure Units (g : Geometry) (address length : Nat) : Prop where
  start : address % g.wordBytes = 0
  whole : length % g.wordBytes = 0
  range : address + length ≤ g.flashBytes

/-- Whole pages inside the flash. -/
structure Pages (g : Geometry) (start stop : Nat) : Prop where
  order : start ≤ stop
  range : stop ≤ g.flashBytes
  first : start % g.pageBytes = 0
  last : stop % g.pageBytes = 0

/-- Either the call is one that times out, or it makes this of the contents. -/
def Does (redo : Memory g.flashBytes → Memory g.flashBytes)
    (x : Action DeviceError (Flash g) Unit) :
    Prop :=
  ∀ flash, x.Ends flash
    (fun _ flash' => flash.timeouts = 0 ∧ flash'.memory = redo flash.memory ∧ flash'.timeouts = 0)
    (fun e flash' => flash.timeouts ≠ 0 ∧ e = .timeout ∧ flash'.memory = flash.memory ∧
      flash'.timeouts = flash.timeouts - 1)

/-- A call that does not time out is refused for another cause. -/
def Refuses (x : Action DeviceError (Flash g) Unit) : Prop :=
  ∀ flash : Flash g, flash.timeouts = 0 →
    ∃ stop flash', x flash = .error stop flash' ∧ stop ≠ .error .timeout

/-- What the flash holds when these words are programmed. -/
def programmed (address : Nat) (bytes : Bytes) (memory : Memory g.flashBytes) :
    Memory g.flashBytes :=
  memory.combine (fun _ old new => old &&& new) address bytes

/-- What the flash holds when these pages are erased. -/
def erased (start stop : Nat) (memory : Memory g.flashBytes) : Memory g.flashBytes :=
  memory.combine (fun _ _ new => new) start (List.replicate (stop - start) 0xFF)

/-- Bits that have been cleared stay clear. -/
theorem programmed_again {part : Bytes} (h : part <+: bytes) (memory : Memory g.flashBytes) :
    programmed address bytes (programmed address part memory) = programmed address bytes memory :=
  memory.combine_again (fun _ old new => by rw [UInt8.and_assoc, UInt8.and_self]) address h

/-- What has been erased is not changed by erasing it again. -/
theorem erased_again (memory : Memory g.flashBytes) :
    erased start stop (erased start stop memory) = erased start stop memory :=
  memory.combine_again (f := fun _ _ new => new) (fun _ _ _ => rfl) start (List.prefix_refl _)

/-- Programming whole words inside the flash clears bits there, unless it times out. -/
theorem does_program (units : Units g address bytes.length) :
    Does (programmed address bytes) (program (g := g) address bytes) := by
  intro flash
  simp [program, takeTimeout, checkRange, Action.ofExcept, units.start, units.whole,
    Nat.not_lt.mpr units.range, programmed]

/-- Any other programming is refused. -/
theorem refuses_program (units : ¬ Units g address bytes.length) :
    Refuses (program (g := g) address bytes) := by
  intro flash ready
  by_cases start : address % g.wordBytes = 0
  · by_cases range : address + bytes.length ≤ g.flashBytes
    · by_cases whole : bytes.length % g.wordBytes = 0
      · exact absurd ⟨start, whole, range⟩ units
      · simp [program, takeTimeout, checkRange, Action.ofExcept, Action.ensure, Action.bind_apply,
          ready, start, whole, Nat.not_lt.mpr range]
    · simp [program, takeTimeout, checkRange, Action.ofExcept, Action.bind_apply, ready, start,
        Nat.lt_of_not_le range]
  · simp [program, takeTimeout, checkRange, Action.ofExcept, Action.bind_apply, ready, start]

/-- Erasing whole pages inside the flash erases them, unless it times out. -/
theorem does_erase (pages : Pages g start stop) :
    Does (erased start stop) (erase (g := g) start stop) := by
  intro flash
  simp [erase, takeTimeout, pages.order, pages.first, pages.last,
    Nat.not_lt.mpr pages.range, erased]

/-- Any other erasing is refused. -/
theorem refuses_erase (pages : ¬ Pages g start stop) : Refuses (erase (g := g) start stop) := by
  intro flash ready
  by_cases order : start ≤ stop
  · by_cases range : stop ≤ g.flashBytes
    · by_cases whole : start % g.pageBytes ≠ 0 ∨ stop % g.pageBytes ≠ 0
      · simp [erase, takeTimeout, Action.ensure, Action.bind_apply, ready, order,
          Nat.not_lt.mpr range, whole]
      · simp only [ne_eq, not_or, Decidable.not_not] at whole
        exact absurd ⟨order, range, whole.1, whole.2⟩ pages
    · simp [erase, takeTimeout, Action.ensure, Action.bind_apply, ready, order,
        Nat.lt_of_not_le range]
  · simp [erase, takeTimeout, Action.ensure, Action.bind_apply, ready, order]

/-- What is read depends on the contents only. -/
theorem read_eq {flash flash' : Flash g} {length : Nat}
    (ok : read address length flash = .ok bytes flash') {other : Flash g}
    (same : other.memory = flash.memory) :
    flash' = { flash with reads := flash.reads + 1 } ∧
      read address length other = .ok bytes { other with reads := other.reads + 1 } := by
  by_cases whole : length % g.wordBytes = 0
  · cases range : checkRange g address length with
    | error e =>
      simp [read, Action.ensure_of_pos, Action.bind_apply, Action.ofExcept, whole, range] at ok
    | ok =>
      simp only [read, Action.ensure_of_pos whole, range, Action.ofExcept, Action.bind_apply,
        Action.modify_apply, Action.pure_apply, Action.get_apply] at ok ⊢
      cases ok
      exact ⟨rfl, by rw [same]⟩
  · simp [read, Action.ensure, Action.bind_apply, whole] at ok

end Flash

/-! ## Twins -/

namespace Media

variable {g : Geometry} {m₀ m m₀' m' : Media g} {α β ε : Type} {call : Call}

/-- The trouble that calls are in. -/
def trouble (m : Media g) : Trouble := ⟨m.faults, m.flash.timeouts⟩

/-- Both show the same, and what the one does the other can do. -/
structure Twins (m₀ m : Media g) : Prop where
  eeprom : m.eeprom = m₀.eeprom
  flash : m.flash.memory = m₀.flash.memory

/-- These calls have been made in between. -/
structure Behind (m : Media g) (calls : List Call) (m' : Media g) : Prop where
  journal : m'.journal = calls.reverse ++ m.journal
  trouble : m'.trouble = m.trouble.behind g calls

/-- At first no call has been made. -/
theorem Behind.refl (m : Media g) : Behind m [] m := ⟨rfl, rfl⟩

/-- The calls that were made first come before those that were made then. -/
theorem Behind.trans {calls more : List Call} {m'' : Media g} (h : Behind m calls m')
    (h' : Behind m' more m'') : Behind m (calls ++ more) m'' where
  journal := by rw [h'.journal, h.journal, List.reverse_append, List.append_assoc]
  trouble := by rw [h'.trouble, h.trouble, Trouble.behind, Trouble.behind, Trouble.behind,
    List.foldl_append]

/-- A call in the journal makes no difference to what twins show. -/
theorem Twins.called (h : Twins m₀ m) (call : Call) : Twins (m₀.called call) (m.called call) :=
  ⟨h.eeprom, h.flash⟩

/-- A call goes on with the lapse that the plan has for it, if any, and is in the journal. -/
theorem submit_bind (call : Call) (f : Option Lapse → Action FailureKind (Media g) α)
    (m : Media g) :
    (submit call >>= f) m = f (Fault.next call.medium call.access m.faults).1 (m.called call) := rfl

/-- The trouble behind a call that is not late is what the plan has left. -/
theorem trouble_called (h : m.trouble.late g call = false) :
    (m.called call).trouble = m.trouble.after g call := by
  rw [Trouble.after, h]
  rfl

/-- A call that the flash does not make late. -/
theorem Behind.behind {flash : Flash g} (h : m.trouble.late g call = false)
    (htimeouts : flash.timeouts = m.flash.timeouts) :
    Behind m [call] { m.called call with flash } :=
  ⟨rfl, (congrArg (Trouble.mk _) htimeouts).trans (trouble_called h)⟩

/-- A call that is not late is behind, even if the flash is left alone. -/
theorem Behind.called (h : m.trouble.late g call = false) : Behind m [call] (m.called call) :=
  .behind h rfl

/-- A call that the flash makes late. -/
theorem Behind.late {flash : Flash g} (h : m.trouble.late g call = true)
    (htimeouts : flash.timeouts = m.flash.timeouts - 1) :
    Behind m [call] { m.called call with flash } := by
  refine ⟨rfl, ?_⟩
  rw [Trouble.behind, List.foldl_cons, List.foldl_nil, Trouble.after, h, if_pos rfl]
  exact congrArg (Trouble.mk _) htimeouts

/-! ## Changing calls -/

/-- The call makes this of the flash if nothing happens to it; if it fails, it can still be made. -/
structure Performs (call : Call) (redo : Memory g.flashBytes → Memory g.flashBytes)
    (x : Action FailureKind (Media g) Unit) : Prop where
  spared : ∀ {m : Media g}, m.trouble.Spares g call → x.Ends m
    (fun _ m' => m'.eeprom = m.eeprom ∧ m'.flash.memory = redo m.flash.memory ∧ Behind m [call] m')
    (fun _ _ => False)
  failed : ∀ {m : Media g} {kind : FailureKind}, m.trouble.Fails g call kind → x.Ends m
    (fun _ _ => False)
    (fun kind' m' => kind' = kind ∧ m'.eeprom = m.eeprom ∧
      redo m'.flash.memory = redo m.flash.memory ∧ Behind m [call] m')

/-- What becomes of a call that reaches the flash. -/
theorem onFlash_does {redo : Memory g.flashBytes → Memory g.flashBytes}
    {x : Action DeviceError (Flash g) Unit} (does : Flash.Does redo x) (m : Media g) :
    (onFlash x).Ends m
      (fun _ m' => m.flash.timeouts = 0 ∧ ∃ flash : Flash g, m' = { m with flash } ∧
        flash.memory = redo m.flash.memory ∧ flash.timeouts = 0)
      (fun kind m' => m.flash.timeouts ≠ 0 ∧ kind = .other ∧ ∃ flash : Flash g,
        m' = { m with flash } ∧ flash.memory = m.flash.memory ∧
          flash.timeouts = m.flash.timeouts - 1) := by
  rw [ends_onFlash]
  refine (does m.flash).mono (fun _ flash h => ⟨h.1, flash, rfl, h.2⟩) ?_
  rintro e flash ⟨hlate, rfl, h⟩
  exact ⟨hlate, rfl, flash, rfl, h⟩

/-- A call performs what the flash does, if what a lapse stores of it makes no difference to it. -/
theorem performs_submit {redo : Memory g.flashBytes → Memory g.flashBytes}
    {f : Option Lapse → Action FailureKind (Media g) Unit} {x : Action DeviceError (Flash g) Unit}
    (part : Lapse → Action DeviceError (Flash g) Unit) (changes : call.ChangesFlash)
    (passes : f none = onFlash x) (does : Flash.Does redo x)
    (lapses : ∀ lapse, f (some lapse) =
      if lapse.Reaches g call then onFlash (part lapse) >>= fun _ => reported lapse
      else reported lapse)
    (partly : ∀ lapse, lapse.Reaches g call → ∃ first, Flash.Does first (part lapse) ∧
      ∀ memory, redo (first memory) = redo memory) : Performs call redo (submit call >>= f) where
  spared {m} spared := by
    obtain ⟨hnone, hlate⟩ := spared
    have hready : m.flash.timeouts = 0 :=
      Trouble.ready changes hlate fun lapse h => absurd (hnone.symm.trans h) nofun
    have hnone : (Fault.next call.medium call.access m.faults).1 = none := hnone
    rw [Action.ends_bind, ends_submit, hnone, passes]
    refine (onFlash_does does (m.called call)).mono ?_ fun _ _ h => h.1 hready
    rintro _ _ ⟨-, flash, rfl, hmemory, htimeouts⟩
    exact ⟨rfl, hmemory, .behind hlate (htimeouts.trans hready.symm)⟩
  failed {m kind} failed := by
    rw [Action.ends_bind, ends_submit]
    cases hlate : m.trouble.late g call with
    | true =>
      obtain ⟨htimeouts, reaches⟩ := (Trouble.late_iff changes).mp hlate
      obtain rfl := failed.of_late hlate
      -- Whatever of the call reaches the flash times out, and has no effect.
      have times_out {first : Memory g.flashBytes → Memory g.flashBytes}
          {y : Action DeviceError (Flash g) Unit} (hy : Flash.Does first y) :
          (onFlash y).Ends (m.called call) (fun _ _ => False) fun kind m' => kind = .other ∧
            m'.eeprom = m.eeprom ∧ redo m'.flash.memory = redo m.flash.memory ∧
              Behind m [call] m' := by
        refine (onFlash_does hy (m.called call)).mono (fun _ _ h => htimeouts h.1) ?_
        rintro _ _ ⟨-, rfl, flash, rfl, hmemory, hleft⟩
        exact ⟨rfl, rfl, congrArg redo hmemory, .late hlate hleft⟩
      cases hnext : (Fault.next call.medium call.access m.faults).1 with
      | none =>
        rw [passes]
        exact times_out does
      | some lapse =>
        have reach := reaches lapse hnext
        obtain ⟨first, hfirst, -⟩ := partly lapse reach
        simp only [lapses, if_pos reach, Action.ends_bind]
        exact (times_out hfirst).mono (fun _ _ h => h.elim) fun _ _ h => h
    | false =>
      obtain ⟨lapse, hnext, hreport⟩ := failed.of_early hlate
      have hnext : (Fault.next call.medium call.access m.faults).1 = some lapse := hnext
      rw [hnext]
      by_cases reach : lapse.Reaches g call
      · have hready : m.flash.timeouts = 0 := Trouble.ready changes hlate fun other h =>
          Option.some.inj (hnext.symm.trans h) ▸ reach
        obtain ⟨first, hfirst, hredo⟩ := partly lapse reach
        simp only [lapses, if_pos reach, Action.ends_bind, ends_reported, hreport]
        refine (onFlash_does hfirst (m.called call)).mono ?_ fun _ _ h => absurd hready h.1
        rintro _ _ ⟨-, flash, rfl, hmemory, htimeouts⟩
        exact ⟨trivial, rfl, (congrArg redo hmemory).trans (hredo _),
          .behind hlate (htimeouts.trans hready.symm)⟩
      · simp only [lapses, if_neg reach, ends_reported, hreport]
        exact ⟨trivial, rfl, rfl, .called hlate⟩

/-- Programming words. -/
theorem performs_flashProgram {address : Nat} {bytes : Bytes}
    (units : Flash.Units g address bytes.length) :
    Performs (g := g) ⟨.flash, .write, address, bytes.length⟩ (Flash.programmed address bytes)
      (flashProgram address bytes) := by
  -- Of a lapse so many bytes are programmed, which is whole words.
  have length_part (lapse : Lapse) : (bytes.take (min lapse.stored bytes.length / g.wordBytes *
      g.wordBytes)).length = min lapse.stored bytes.length / g.wordBytes * g.wordBytes := by
    have hle := Nat.div_mul_le_self (min lapse.stored bytes.length) g.wordBytes
    rw [List.length_take, Nat.min_eq_left (by omega)]
  have partly (lapse : Lapse) : Flash.Units g address (bytes.take (min lapse.stored bytes.length /
      g.wordBytes * g.wordBytes)).length := by
    refine ⟨units.start, ?_, ?_⟩
    · rw [length_part, Nat.mul_mod_left]
    · exact Nat.le_trans (Nat.add_le_add_left (List.length_take_le' _ _) address) units.range
  refine performs_submit (fun lapse => Flash.program address
      (bytes.take (min lapse.stored bytes.length / g.wordBytes * g.wordBytes)))
    ⟨rfl, .inl rfl⟩ rfl (Flash.does_program units) (fun lapse => ?_) fun lapse _ =>
      ⟨_, Flash.does_program (partly lapse), Flash.programmed_again (List.take_prefix _ _)⟩
  have reaches : lapse.Reaches g ⟨.flash, .write, address, bytes.length⟩ ↔
      bytes.take (min lapse.stored bytes.length / g.wordBytes * g.wordBytes) ≠ [] := by
    rw [ne_eq, ← List.length_eq_zero_iff, length_part, Nat.mul_eq_zero,
      or_iff_left_of_imp fun h => by rw [h, Nat.div_zero]]
    rfl
  simp only [reaches]

/-- Erasing pages. -/
theorem performs_flashErase {start stop : Nat} (pages : Flash.Pages g start stop) :
    Performs (g := g) ⟨.flash, .erase, start, stop - start⟩ (Flash.erased start stop)
      (flashErase start stop) := by
  refine performs_submit (fun _ => Flash.erase start stop)
    ⟨rfl, .inr rfl⟩ rfl (Flash.does_erase pages) (fun lapse => ?_) fun _ _ =>
      ⟨_, Flash.does_erase pages, Flash.erased_again⟩
  have reaches : lapse.Reaches g ⟨.flash, .erase, start, stop - start⟩ ↔
    stop - start ≤ lapse.stored := Iff.rfl
  simp only [reaches]

/-- A call that nothing happens to performs this, or it is not one that would be submitted again. -/
def Settles (call : Call) (redo : Memory g.flashBytes → Memory g.flashBytes)
    (x : Action FailureKind (Media g) Unit) : Prop :=
  Performs call redo x ∨
    ∀ m, m.trouble = .clear → ∃ stop m', x m = .error stop m' ∧ stop ≠ .error .other

/-- What the flash refuses is not submitted again. -/
theorem refuses_submit {f : Option Lapse → Action FailureKind (Media g) Unit}
    {x : Action DeviceError (Flash g) Unit} (passes : f none = onFlash x)
    (refuses : Flash.Refuses x) (h : m.trouble = .clear) :
    ∃ stop m', (submit call >>= f) m = .error stop m' ∧ stop ≠ .error .other := by
  obtain ⟨eeprom, flash, faults, journal⟩ := m
  obtain ⟨rfl, ready⟩ := Trouble.mk.inj h
  obtain ⟨stop, flash', hrun, hstop⟩ := refuses flash ready
  have hsubmit : (submit call >>= f) ⟨eeprom, flash, [], journal⟩ =
      onFlash x ⟨eeprom, flash, [], call :: journal⟩ := by
    rw [← passes]
    rfl
  rw [hsubmit]
  cases stop with
  | error e => cases e <;> simp [onFlash, Action.mapError, hrun, DeviceError.kind] at hstop ⊢
  | defect d => simp [onFlash, Action.mapError, hrun]

/-- Programming performs what it should, or is refused. -/
theorem settles_flashProgram (address : Nat) (bytes : Bytes) :
    Settles (g := g) ⟨.flash, .write, address, bytes.length⟩ (Flash.programmed address bytes)
      (flashProgram address bytes) := by
  by_cases units : Flash.Units g address bytes.length
  · exact .inl (performs_flashProgram units)
  · exact .inr fun m h => refuses_submit rfl (Flash.refuses_program units) h

/-- Erasing performs what it should, or is refused. -/
theorem settles_flashErase (start stop : Nat) :
    Settles (g := g) ⟨.flash, .erase, start, stop - start⟩ (Flash.erased start stop)
      (flashErase start stop) := by
  by_cases pages : Flash.Pages g start stop
  · exact .inl (performs_flashErase pages)
  · exact .inr fun m h => refuses_submit rfl (Flash.refuses_erase pages) h

/-! ## Two runs -/

/-- From `m` the action makes the calls of the schedule, and ends as they do: with what it has to
end with and a twin of `m₀'`, or with the failure that they end with. -/
def Follows (tell : FailureKind → ε) (x : Action ε (Media g) α) (a : α) (m₀' m : Media g)
    (schedule : Schedule) : Prop :=
  ∃ m', Behind m (schedule.made.map Prod.fst) m' ∧
    match schedule.verdict with
    | none => x m = .ok a m' ∧ Twins m₀' m'
    | some kind => x m = .error (.error (tell kind)) m'

/-- What the action does without trouble it does with trouble that it gets over by submitting calls
again; and trouble that it does not get over ends it. -/
def Mirrors (tell : FailureKind → ε) (x : Action ε (Media g) α) : Prop :=
  ∀ ⦃m₀ : Media g⦄ ⦃a : α⦄ ⦃m₀' : Media g⦄, m₀.trouble = .clear → x m₀ = .ok a m₀' →
    m₀'.trouble = .clear ∧ ∃ calls : List Call, m₀'.journal = calls.reverse ++ m₀.journal ∧
      ∀ ⦃m : Media g⦄, Twins m₀ m → ∀ ⦃schedule : Schedule⦄, schedule.map Prod.fst = calls →
        m.trouble.Brings g schedule.made → Follows tell x a m₀' m schedule

section Combinators

variable {tell : FailureKind → ε} {x : Action ε (Media g) α} {f : α → Action ε (Media g) β}

/-- Giving a value mirrors, without any call. -/
theorem mirrors_pure (a : α) : Mirrors (g := g) tell (pure a) := by
  intro m₀ _ _ h ok
  cases ok
  refine ⟨h, [], rfl, fun m twins schedule hnil _ => ?_⟩
  obtain rfl := List.map_eq_nil_iff.mp hnil
  exact ⟨m, .refl m, rfl, twins⟩

/-- What fails without trouble need not be followed. -/
theorem mirrors_of_error (h : ∀ m, m.trouble = .clear → ∃ stop m', x m = .error stop m') :
    Mirrors tell x := by
  intro m₀ _ _ untroubled ok
  obtain ⟨stop, m', hrun⟩ := h m₀ untroubled
  rw [hrun] at ok
  cases ok

/-- One after the other. -/
theorem Mirrors.bind (hx : Mirrors tell x) (hf : ∀ a, Mirrors tell (f a)) :
    Mirrors tell (x >>= f) := by
  intro m₀ b m₀' untroubled ok
  rw [Action.bind_apply] at ok
  cases hrun : x m₀ with
  | error stop m₁ =>
    rw [hrun] at ok
    cases ok
  | ok a m₁ =>
    rw [hrun] at ok
    obtain ⟨untroubled₁, calls, hcalls, follows⟩ := hx untroubled hrun
    obtain ⟨untroubled₂, more, hmore, follows'⟩ := hf a untroubled₁ ok
    refine ⟨untroubled₂, calls ++ more, ?_, fun m twins schedule hsplit brings => ?_⟩
    · rw [hmore, hcalls, List.reverse_append, List.append_assoc]
    -- A schedule for both actions is one for the first, and one for the second.
    obtain ⟨front, back, rfl, hfront, hback⟩ := List.map_eq_append_iff.mp hsplit
    rw [Schedule.made_append, Trouble.brings_append] at brings
    obtain ⟨m', hbehind, hends⟩ := follows twins hfront brings.1
    rw [Follows, Schedule.made_append, Schedule.verdict_append]
    cases hverdict : Schedule.verdict front with
    | some kind =>
      rw [hverdict] at hends
      -- What ends the first action ends both, and no call follows.
      refine ⟨m', by simpa using hbehind, ?_⟩
      exact Action.bind_of_error hends
    | none =>
      rw [hverdict] at hends brings
      rw [← hbehind.trouble] at brings
      obtain ⟨m'', hbehind', hends'⟩ := follows' hends.2 hback brings.2
      refine ⟨m'', by simpa using hbehind.trans hbehind', ?_⟩
      rw [Option.none_or, Action.bind_of_ok hends.1]
      exact hends'

/-- A choice mirrors if both of its actions do. -/
theorem Mirrors.ite {y : Action ε (Media g) α} {p : Prop} [Decidable p] (hx : Mirrors tell x)
    (hy : Mirrors tell y) : Mirrors tell (if p then x else y) := by
  split
  · exact hx
  · exact hy

/-- Failures may be told in another way. -/
theorem Mirrors.mapError {ε' : Type} (hx : Mirrors tell x) (restate : ε → ε') :
    Mirrors (restate ∘ tell) (x.mapError restate) := by
  intro m₀ a m₀' untroubled ok
  obtain ⟨untroubled', calls, hcalls, follows⟩ := hx untroubled (Action.ok_of_mapError ok)
  refine ⟨untroubled', calls, hcalls, fun m twins schedule hschedule brings => ?_⟩
  obtain ⟨m', hbehind, hends⟩ := follows twins hschedule brings
  refine ⟨m', hbehind, ?_⟩
  cases hverdict : Schedule.verdict schedule with
  | none =>
    rw [hverdict] at hends
    exact ⟨Action.mapError_of_ok hends.1, hends.2⟩
  | some kind =>
    rw [hverdict] at hends
    exact Action.mapError_of_error hends

end Combinators

/-- A call that nothing happens to. -/
theorem Performs.run {redo : Memory g.flashBytes → Memory g.flashBytes}
    {x : Action FailureKind (Media g) Unit} (performs : Performs call redo x)
    (spared : m.trouble.Spares g call) : ∃ m', x m = .ok () m' ∧ m'.eeprom = m.eeprom ∧
      m'.flash.memory = redo m.flash.memory ∧ Behind m [call] m' := by
  obtain ⟨_, m', hrun, h⟩ := (performs.spared spared).exists_ok fun _ _ => id
  exact ⟨m', hrun, h⟩

/-- A call that fails. -/
theorem Performs.fail {redo : Memory g.flashBytes → Memory g.flashBytes}
    {x : Action FailureKind (Media g) Unit} {kind : FailureKind} (performs : Performs call redo x)
    (fails : m.trouble.Fails g call kind) : ∃ m', x m = .error (.error kind) m' ∧
      m'.eeprom = m.eeprom ∧ redo m'.flash.memory = redo m.flash.memory ∧ Behind m [call] m' := by
  obtain ⟨_, m', hrun, rfl, h⟩ := (performs.failed fails).exists_error fun _ _ => id
  exact ⟨m', hrun, h⟩

/-- A call that may be submitted again, and what becomes of it each time. -/
theorem Performs.resubmit {redo : Memory g.flashBytes → Memory g.flashBytes}
    {x : Action FailureKind (Media g) Unit} (performs : Performs call redo x) {fate : Fate}
    (brings : m.trouble.Brings g (fate.attempts.map (call, ·))) :
    ∃ m', Behind m (fate.attempts.map fun _ => call) m' ∧
      match fate.verdict with
      | none => Space.resubmit x m = .ok () m' ∧ m'.eeprom = m.eeprom ∧
          m'.flash.memory = redo m.flash.memory
      | some kind => Space.resubmit x m = .error (.error kind) m' := by
  obtain ⟨first, second⟩ := fate
  cases first with
  | none =>
    obtain ⟨m', hrun, heeprom, hmemory, hbehind⟩ := performs.run brings.1
    exact ⟨m', hbehind, Action.rescue_of_ok hrun, heeprom, hmemory⟩
  | some kind =>
    by_cases hkind : kind = .other
    · subst hkind
      obtain ⟨m₁, hfail, heeprom, hmemory, hbehind⟩ := performs.fail brings.1
      -- The second time, the call meets the trouble that there is behind the first one.
      have again : Space.resubmit x m = x m₁ := Action.rescue_of_error hfail
      have brings := brings.2
      rw [show m.trouble.after g call = m₁.trouble from hbehind.trouble.symm] at brings
      cases second with
      | none =>
        obtain ⟨m', hrun, heeprom', hmemory', hbehind'⟩ := performs.run brings.1
        exact ⟨m', hbehind.trans hbehind', again.trans hrun, heeprom'.trans heeprom,
          hmemory'.trans hmemory⟩
      | some kind' =>
        obtain ⟨m', hfail', -, -, hbehind'⟩ := performs.fail brings.1
        exact ⟨m', hbehind.trans hbehind', again.trans hfail'⟩
    · have hattempts : Fate.attempts ⟨some kind, second⟩ = [some kind] := by
        simp [Fate.attempts, hkind]
      have hverdict : Fate.verdict ⟨some kind, second⟩ = some kind := by simp [Fate.verdict, hkind]
      rw [hattempts] at brings ⊢
      obtain ⟨m', hfail, -, -, hbehind⟩ := performs.fail brings.1
      rw [hverdict]
      refine ⟨m', hbehind, ?_⟩
      dsimp only
      rw [Space.resubmit, Action.rescue_of_error hfail, if_neg hkind]
      rfl

/-- Without trouble no call is submitted a second time. -/
theorem Settles.resubmit_eq {redo : Memory g.flashBytes → Memory g.flashBytes}
    {x : Action FailureKind (Media g) Unit} (settles : Settles call redo x)
    (untroubled : m.trouble = .clear) : Space.resubmit x m = x m := by
  rcases settles with performs | refuses
  · obtain ⟨m', hrun, -⟩ := performs.run (untroubled ▸ Trouble.spares_clear call)
    rw [Space.resubmit, Action.rescue_of_ok hrun, hrun]
  · obtain ⟨stop, m', hrun, hstop⟩ := refuses m untroubled
    cases stop with
    | error kind =>
      have hkind : kind ≠ .other := fun h => hstop (h ▸ rfl)
      rw [Space.resubmit, Action.rescue_of_error hrun, if_neg hkind, hrun]
      rfl
    | defect d => simp only [Space.resubmit, Action.rescue, hrun]

/-- A call that may be submitted again. -/
theorem mirrors_resubmit {redo : Memory g.flashBytes → Memory g.flashBytes}
    {x : Action FailureKind (Media g) Unit} (settles : Settles call redo x) :
    Mirrors id (Space.resubmit x) := by
  have once (m : Media g) (h : m.trouble = .clear) := settles.resubmit_eq h
  -- A call that is carried out does the same again; one that is refused has no part in it.
  rcases settles with performs | refuses
  · intro m₀ a m₀' untroubled ok
    obtain ⟨m₁, hrun, heeprom, hmemory, hbehind⟩ :=
      performs.run (m := m₀) (untroubled ▸ Trouble.spares_clear call)
    rw [Space.resubmit, Action.rescue_of_ok hrun] at ok
    cases ok
    refine ⟨?_, [call], hbehind.journal, fun m twins schedule hschedule brings => ?_⟩
    · rw [hbehind.trouble, untroubled, Trouble.behind_clear]
    obtain ⟨⟨call', fate⟩, rfl, rfl⟩ := List.map_eq_singleton_iff.mp hschedule
    rw [Schedule.made_singleton] at brings
    obtain ⟨m', hbehind', hends⟩ := performs.resubmit brings
    rw [Follows, Schedule.made_singleton, Schedule.verdict_singleton, List.map_map]
    refine ⟨m', hbehind', ?_⟩
    cases hverdict : fate.verdict with
    | none =>
      rw [hverdict] at hends
      exact ⟨hends.1, hends.2.1.trans (twins.eeprom.trans heeprom.symm), by
        rw [hends.2.2, hmemory, twins.flash]⟩
    | some kind =>
      rw [hverdict] at hends
      exact hends
  · refine mirrors_of_error fun m h => ?_
    obtain ⟨stop, m', hrun, -⟩ := refuses m h
    exact ⟨stop, m', (once m h).trans hrun⟩

/-! ## Calls that change no flash -/

/-- Without trouble the action makes this call alone, and to a twin for which nothing happens to it,
it does the same. -/
def Echoes (call : Call) (x : Action FailureKind (Media g) α) : Prop :=
  ∀ ⦃m₀ : Media g⦄ ⦃a : α⦄ ⦃m₀' : Media g⦄, m₀.trouble = .clear → x m₀ = .ok a m₀' →
    m₀'.trouble = .clear ∧ m₀'.journal = call :: m₀.journal ∧
      ∀ ⦃m : Media g⦄, Twins m₀ m → m.trouble.Spares g call →
        ∃ m', x m = .ok a m' ∧ Twins m₀' m' ∧ Behind m [call] m'

/-- A call that does not change the flash is never submitted again. -/
theorem Echoes.mirrors {x : Action FailureKind (Media g) α} (h : Echoes call x)
    (calm : ¬ call.ChangesFlash) (medium : Medium) :
    Mirrors (.device .flash) (Space.driver medium x) := by
  intro m₀ a m₀' untroubled ok
  obtain ⟨untroubled', hjournal, echoes⟩ := h untroubled (Action.ok_of_mapError ok)
  refine ⟨untroubled', [call], hjournal, fun m twins schedule hschedule brings => ?_⟩
  obtain ⟨⟨call', ⟨first, second⟩⟩, rfl, rfl⟩ := List.map_eq_singleton_iff.mp hschedule
  cases first with
  | none =>
    obtain ⟨m', hrun, htwins, hbehind⟩ := echoes twins brings.1
    exact ⟨m', hbehind, Action.mapError_of_ok hrun, htwins⟩
  | some kind =>
    -- Only calls that change the flash are said to fail.
    refine absurd ?_ calm
    rw [Schedule.made_singleton] at brings
    by_cases hkind : kind = .other
    · subst hkind
      exact brings.1.1
    · simp only [Fate.attempts, Option.some.injEq, hkind, if_false] at brings
      exact brings.1.1

/-- What a call does that is no lapse and leaves the flash as it is. -/
theorem echoes_submit {f : Option Lapse → Action FailureKind (Media g) α}
    (calm : ¬ call.ChangesFlash)
    (hf : ∀ {m₀ : Media g} {a : α} {m₀' : Media g}, f none m₀ = .ok a m₀' →
      m₀'.trouble = m₀.trouble ∧ m₀'.journal = m₀.journal ∧ ∀ {m : Media g}, Twins m₀ m →
        ∃ m', f none m = .ok a m' ∧ Twins m₀' m' ∧ Behind m [] m') :
    Echoes call (submit call >>= f) := by
  have late (t : Trouble) : t.late g call = false := by simp [Trouble.late, calm]
  intro m₀ a m₀' untroubled ok
  have hplan : m₀.faults = [] := congrArg Trouble.plan untroubled
  rw [submit_bind, hplan] at ok
  obtain ⟨htrouble, hjournal, twin⟩ := hf ok
  refine ⟨?_, hjournal, fun m twins spared => ?_⟩
  · rw [htrouble, trouble_called (late _), untroubled, Trouble.after, Trouble.late_clear]
    rfl
  · obtain ⟨m', hrun, htwins, hbehind⟩ := twin (twins.called call)
    have hnone : (Fault.next call.medium call.access m.faults).1 = none := spared.1
    refine ⟨m', ?_, htwins, (Behind.called (late _)).trans hbehind⟩
    rw [submit_bind, hnone]
    exact hrun

/-- What the eeprom does. -/
theorem onEeprom_echoes {x : Action DeviceError (Eeprom g.eepromBytes) α} {a : α}
    (ok : onEeprom x m₀ = .ok a m₀') : m₀'.trouble = m₀.trouble ∧ m₀'.journal = m₀.journal ∧
      ∀ {m : Media g}, Twins m₀ m →
        ∃ m', onEeprom x m = .ok a m' ∧ Twins m₀' m' ∧ Behind m [] m' := by
  obtain ⟨eeprom₀, flash₀, faults₀, journal₀⟩ := m₀
  cases hx : x.mapError DeviceError.kind eeprom₀ with
  | error stop eeprom =>
    simp only [onEeprom, hx] at ok
    cases ok
  | ok b eeprom =>
    simp only [onEeprom, hx] at ok
    cases ok
    -- A twin has the same eeprom, so it answers the same.
    refine ⟨rfl, rfl, fun {m} twins => ?_⟩
    obtain ⟨eeprom₁, flash₁, faults₁, journal₁⟩ := m
    obtain ⟨heeprom, hflash⟩ := twins
    dsimp only at heeprom hflash
    subst heeprom
    exact ⟨⟨eeprom, flash₁, faults₁, journal₁⟩, by simp only [onEeprom, hx],
      ⟨rfl, hflash⟩, rfl, rfl⟩

/-- What is read from the flash. -/
theorem onFlash_read_echoes {address length : Nat} {bytes : Bytes}
    (ok : onFlash (Flash.read address length) m₀ = .ok bytes m₀') :
    m₀'.trouble = m₀.trouble ∧ m₀'.journal = m₀.journal ∧ ∀ {m : Media g}, Twins m₀ m →
      ∃ m', onFlash (Flash.read address length) m = .ok bytes m' ∧ Twins m₀' m' ∧
        Behind m [] m' := by
  obtain ⟨eeprom₀, flash₀, faults₀, journal₀⟩ := m₀
  cases hx : Flash.read address length flash₀ with
  | error stop flash =>
    cases stop <;>
    · simp only [onFlash, Action.mapError, hx] at ok
      cases ok
  | ok read flash =>
    simp only [onFlash, Action.mapError, hx] at ok
    cases ok
    obtain ⟨rfl, -⟩ := Flash.read_eq hx rfl
    refine ⟨rfl, rfl, fun {m} twins => ?_⟩
    obtain ⟨eeprom₁, flash₁, faults₁, journal₁⟩ := m
    obtain ⟨-, hrun⟩ := Flash.read_eq hx twins.flash
    dsimp only at hrun
    exact ⟨⟨eeprom₁, { flash₁ with reads := flash₁.reads + 1 }, faults₁, journal₁⟩,
      by simp only [onFlash, Action.mapError, hrun], ⟨twins.eeprom, twins.flash⟩, rfl, rfl⟩

/-- Reading the eeprom is the same for twins. -/
theorem echoes_eepromRead (address length : Nat) :
    Echoes (g := g) ⟨.eeprom, .read, address, length⟩ (eepromRead address length) :=
  echoes_submit (by simp [Call.ChangesFlash]) onEeprom_echoes

/-- Writing to the eeprom is the same for twins. -/
theorem echoes_eepromWrite (address : Nat) (bytes : Bytes) :
    Echoes (g := g) ⟨.eeprom, .write, address, bytes.length⟩ (eepromWrite address bytes) :=
  echoes_submit (by simp [Call.ChangesFlash]) onEeprom_echoes

/-- Polling the eeprom is the same for twins. -/
theorem echoes_eepromPoll : Echoes (g := g) ⟨.eeprom, .poll, 0, 0⟩ eepromPoll :=
  echoes_submit (by simp [Call.ChangesFlash]) onEeprom_echoes

/-- Reading the flash is the same for twins. -/
theorem echoes_flashRead (address length : Nat) :
    Echoes (g := g) ⟨.flash, .read, address, length⟩ (flashRead address length) :=
  echoes_submit (by simp [Call.ChangesFlash, Call.Changes]) onFlash_read_echoes

end Media

end CircularLog
