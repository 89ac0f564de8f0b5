import CircularLog.Proofs.Media.Resubmission
import CircularLog.Proofs.Space.Conduct

/-!
# Writing with failures that are got over

A write programs and erases the flash call by call, and submits a call again that failed for a cause
that may pass. What it decides it decides from what it has read before the call, and each call does
the same when it is made a second time; so each step of a write does what it does without failures
(`Media.Mirrors`), and so does the whole of it (`write_resubmits`): with a schedule of failures that
are got over it ends with the same memories, for one call more for each of them; and the first
failure that is not got over is the last call, and the error.
-/

namespace CircularLog

namespace Space

open Media (Mirrors)

variable {g : Geometry} {space : Space g} {m : Media g}

/-- Reading the flash does what it does without failures. -/
theorem mirrors_flashRead (address length : Nat) :
    Mirrors (g := g) (.device .flash) (driver .flash (Media.flashRead address length)) :=
  (Media.echoes_flashRead address length).mirrors (by simp [Call.ChangesFlash, Call.Changes]) .flash

/-- So does reading the eeprom. -/
theorem mirrors_eepromRead (address length : Nat) :
    Mirrors (g := g) (.device .flash) (driver .eeprom (Media.eepromRead address length)) :=
  (Media.echoes_eepromRead address length).mirrors (by simp [Call.ChangesFlash]) .eeprom

/-- An error is the same whatever became of earlier calls. -/
theorem mirrors_fail (e : Error) {α : Type} :
    Mirrors (g := g) (α := α) (.device .flash) (Action.fail e) :=
  Media.mirrors_of_error fun m _ => ⟨.error e, m, rfl⟩

/-- What is settled comes out again as it did. -/
theorem mirrors_of_settled {α : Type} {x : Action Error (Media g) α} (hx : x.Settled) :
    Mirrors (.device .flash) x := by
  cases hx with
  | pure a => exact Media.mirrors_pure a
  | abort d => exact Media.mirrors_of_error fun m _ => ⟨.defect d, m, rfl⟩

/-! ## The steps of a write -/

/-- Comparing. -/
theorem mirrors_confirm {read : Nat → Nat → Action Error (Media g) Bytes}
    (reads : ∀ address length, Mirrors (.device .flash) (read address length))
    (address size index : Nat) (chunks : List Bytes) :
    Mirrors (.device .flash) (confirm read address size index chunks) := by
  induction chunks generalizing index with
  | nil => exact Media.mirrors_pure ()
  | cons chunk chunks ih =>
    exact (mirrors_of_settled (Action.settled_product _ _ _)).bind fun _ =>
      (mirrors_of_settled (Action.settled_sum _ _ _)).bind fun start =>
        (mirrors_of_settled (Action.settled_front _ _)).bind fun _ =>
          (reads start chunk.length).bind fun _ => .ite (ih _) (mirrors_fail .inconsistent)

/-- Waiting for the eeprom. -/
theorem mirrors_awaitIdle (polls : Nat) : Mirrors (g := g) (.device .flash) (awaitIdle polls) := by
  induction polls with
  | zero => exact mirrors_fail .busy
  | succ polls ih =>
    exact (Media.echoes_eepromPoll.mirrors (by simp [Call.ChangesFlash]) .eeprom).bind fun _ =>
      .ite ih (Media.mirrors_pure ())

/-- Writing to the eeprom. -/
theorem mirrors_writeEeprom (address : Nat) (bytes : Bytes) :
    Mirrors (g := g) (.device .flash) (writeEeprom address bytes) :=
  ((Media.echoes_eepromWrite address bytes).mirrors (by simp [Call.ChangesFlash]) .eeprom).bind
    fun _ => (mirrors_awaitIdle pollLimit).bind fun _ =>
      mirrors_confirm mirrors_eepromRead address _ _ _

/-- Programming words. -/
theorem mirrors_programWords (address : Nat) (words : Bytes) :
    Mirrors (g := g) (.device .flash) (programWords address words) :=
  ((Media.mirrors_resubmit (Media.settles_flashProgram address words)).mapError
    (Error.device .flash)).bind fun _ => (mirrors_of_settled (settled_roundDown _ _)).bind fun _ =>
      (mirrors_of_settled (Action.settled_ensure _ _)).bind fun _ =>
        mirrors_confirm mirrors_flashRead address _ _ _

/-- Renewing a page: what is programmed has been read before the page is erased. -/
theorem mirrors_renewPage (address : Nat) (bytes : Bytes) :
    Mirrors (g := g) (.device .flash) (renewPage address bytes) :=
  (mirrors_of_settled (settled_roundDown _ _)).bind fun _ =>
    (mirrors_of_settled (Action.settled_difference _ _)).bind fun _ =>
      (mirrors_of_settled (Action.settled_front _ _)).bind fun _ =>
        (mirrors_flashRead _ _).bind fun _ =>
          (mirrors_of_settled (Action.settled_sum _ _ _)).bind fun _ =>
            (mirrors_of_settled (Action.settled_copy _ _ _ _)).bind fun page =>
              (mirrors_of_settled (Action.settled_sum _ _ _)).bind fun _ =>
                ((Media.mirrors_resubmit (Media.settles_flashErase _ _)).mapError
                  (Error.device .flash)).bind fun _ => mirrors_programWords _ page

/-- Writing inside a page: whether it is to be erased is decided before. -/
theorem mirrors_writePiece (address : Nat) (bytes : Bytes) :
    Mirrors (g := g) (.device .flash) (writePiece address bytes) := by
  have words : Mirrors (g := g) (.device .flash) (readWords address bytes.length) :=
    (mirrors_of_settled (settled_roundDown _ _)).bind fun _ =>
      (mirrors_of_settled (Action.settled_sum _ _ _)).bind fun _ =>
        (mirrors_of_settled (settled_roundUp _ _)).bind fun _ =>
          (mirrors_of_settled (Action.settled_difference _ _)).bind fun _ =>
            (mirrors_of_settled (Action.settled_front _ _)).bind fun _ =>
              (mirrors_flashRead _ _).bind fun _ => Media.mirrors_pure _
  exact words.bind fun ⟨_, _⟩ => (mirrors_of_settled (Action.settled_difference _ _)).bind fun _ =>
    (mirrors_of_settled (Action.settled_sum _ _ _)).bind fun _ =>
      (mirrors_of_settled (Action.settled_part _ _ _)).bind fun _ => .ite (Media.mirrors_pure ())
        (.ite ((mirrors_of_settled (Action.settled_copy _ _ _ _)).bind fun _ =>
          mirrors_programWords _ _) (mirrors_renewPage address bytes))

/-- Writing piece after piece. -/
theorem mirrors_writePieces (address : Nat) (pieces : List Bytes) :
    Mirrors (g := g) (.device .flash) (writePieces address pieces) := by
  induction pieces generalizing address with
  | nil => exact Media.mirrors_pure ()
  | cons piece pieces ih => exact (mirrors_writePiece address piece).bind fun _ => ih _

/-- Writing. -/
theorem mirrors_write (space : Space g) (address : Nat) (bytes : Bytes) :
    Mirrors (.device .flash) (space.write address bytes) := by
  have require : Mirrors (.device .flash) (space.require address bytes.length) := by
    rw [require_eq]
    exact .ite (mirrors_fail .invalidRange) (Media.mirrors_pure ())
  have pieces := mirrors_writePieces (g := g)
  rw [write_eq]
  exact .ite (Media.mirrors_pure ()) (require.bind fun _ =>
    .ite ((mirrors_writeEeprom address _).bind fun _ => pieces _ _) (pieces _ _))

/-- Writing inside the range gets over the failures of a schedule in which each call of the flash
that fails for a cause that may pass is made a second time and then passes: it ends with what it
would have ended with without failures, for one call more for each of them. A failure that does not
pass, or a second one, is the last call and the error. -/
theorem write_resubmits {start stop : UInt32}
    (made : Space.create g g.eepromBytes g.flashBytes start stop = .ok space) (u : g.Uniform)
    (faultless : m.Under .clear) {address : Nat} {bytes : Bytes}
    (range : address + bytes.length ≤ space.total) :
    ∃ calls m₀, space.write address bytes m = .ok () m₀ ∧ m₀.journal = calls.reverse ++ m.journal ∧
      ∀ (plan : List Fault) (timeouts : Nat) (schedule : Schedule), schedule.map Prod.fst = calls →
        Trouble.Brings g ⟨plan, timeouts⟩ schedule.made →
        (schedule.verdict = none → ∃ m', space.write address bytes
            (m.failing plan timeouts m.eeprom.busyPolls m.eeprom.stuck) = .ok () m' ∧
          m'.eeprom.memory = m₀.eeprom.memory ∧ m'.flash.memory = m₀.flash.memory ∧
          m'.journal = (schedule.made.map Prod.fst).reverse ++ m.journal ∧
          m'.journal.length = m₀.journal.length + schedule.made.countP (·.2.isSome)) ∧
        ∀ kind, schedule.verdict = some kind → ∃ m' before call fate rest,
          space.write address bytes (m.failing plan timeouts m.eeprom.busyPolls m.eeprom.stuck) =
            .error (.error (.device .flash kind)) m' ∧
          schedule = before ++ (call, fate) :: rest ∧ Schedule.verdict before = none ∧
          (fate.first = some kind ∧ kind ≠ .other ∧
              m'.journal = call :: ((Schedule.made before).map Prod.fst).reverse ++ m.journal ∨
            fate = ⟨some .other, some kind⟩ ∧
              m'.journal =
                call :: call :: ((Schedule.made before).map Prod.fst).reverse ++ m.journal) := by
  have exposes : space.Exposes .clear (space.around m) (space.image m) m := ⟨faultless, rfl, rfl⟩
  obtain ⟨_, m₀, hrun, -⟩ := ((conduct_of_clear u (truthful_of_create made) _).write exposes
    (Nat.zero_le _) range).exists_ok fun _ _ => not_halts
  have clear : m.trouble = .clear := by
    rw [Media.trouble, faultless.phase, faultless.able.timeouts]
    rfl
  -- The write without failures says which calls there are, and all others follow it.
  obtain ⟨-, calls, hcalls, follows⟩ := mirrors_write space address bytes clear hrun
  refine ⟨calls, m₀, hrun, hcalls, fun plan timeouts schedule hschedule brings => ?_⟩
  obtain ⟨m', hbehind, hends⟩ := follows
    (m := m.failing plan timeouts m.eeprom.busyPolls m.eeprom.stuck) ⟨rfl, rfl⟩ hschedule brings
  have hjournal : m'.journal = (schedule.made.map Prod.fst).reverse ++ m.journal := hbehind.journal
  refine ⟨fun passes => ?_, fun kind fails => ?_⟩
  · rw [passes] at hends
    refine ⟨m', hends.1, congrArg Eeprom.memory hends.2.eeprom, hends.2.flash, hjournal, ?_⟩
    rw [hjournal, hcalls, ← hschedule]
    simp only [List.length_append, List.length_reverse, List.length_map,
      Schedule.length_made passes]
    omega
  · rw [fails] at hends
    obtain ⟨before, call, fate, rest, hsplit, hbefore, hfate, hmade⟩ :=
      Schedule.exists_of_fails fails
    refine ⟨m', before, call, fate, rest, hends, hsplit, hbefore, ?_⟩
    rw [hmade] at hjournal
    rcases Fate.eq_of_fails hfate with ⟨hfirst, hkind, hattempts⟩ | rfl
    · exact .inl ⟨hfirst, hkind, by simpa [hattempts] using hjournal⟩
    · exact .inr ⟨rfl, by simpa [Fate.attempts] using hjournal⟩

end Space

/-! ## A small example -/

/-- A page of zeros in memories that fail nowhere. -/
def Media.zeroPage : Media Geometry.tiny :=
  { Media.fresh .tiny with flash := (Flash.fresh _).poke 4 [0, 0, 0, 0] }

/-- The calls of a write of three bytes over both memories, for which a page is to be erased, when
that and the programming of the page come out so. -/
def Schedule.renewing (erasing programming : Fate) : Schedule :=
  let passing : Fate := ⟨none, none⟩
  [(⟨.eeprom, .write, 3, 1⟩, passing), (⟨.eeprom, .poll, 0, 0⟩, passing),
    (⟨.eeprom, .poll, 0, 0⟩, passing), (⟨.eeprom, .poll, 0, 0⟩, passing),
    (⟨.eeprom, .read, 3, 1⟩, passing), (⟨.flash, .read, 4, 2⟩, passing),
    (⟨.flash, .read, 4, 4⟩, passing), (⟨.flash, .erase, 4, 4⟩, erasing),
    (⟨.flash, .write, 4, 4⟩, programming), (⟨.flash, .read, 4, 4⟩, passing)]

/-- The first erasing fails, and the first programming behind its first word. -/
def Fault.onceEach : List Fault :=
  [⟨[(.flash, .erase)], 0, some 1, ⟨0, some .other, [], false⟩⟩,
    ⟨[(.flash, .write)], 0, some 1, ⟨3, some .other, [], false⟩⟩]

/-- A page is renewed although erasing and programming it fails at first; but if the flash lets two
calls time out it is not erased. -/
theorem Space.write_resubmits_tiny :
    (∃ m', Space.tiny.write 3 [1, 2, 3] (Media.zeroPage.failing Fault.onceEach 0 2 none) =
      .ok () m' ∧
      Space.tiny.image m' = [0xFF, 0xFF, 0xFF, 1, 2, 3, 0, 0] ∧ m'.journal.length = 12) ∧
    ∃ m', Space.tiny.write 3 [1, 2, 3] (Media.zeroPage.failing [] 2 2 none) =
      .error (.error (.device .flash .other)) m' := by
  have made : Space.create .tiny 4 8 4 8 = .ok Space.tiny := rfl
  have faultless : Media.zeroPage.Under .clear := ⟨⟨rfl, rfl, by decide⟩, rfl⟩
  have range : 3 + ([1, 2, 3] : Bytes).length ≤ Space.tiny.total := by decide
  obtain ⟨calls, m₀, hrun, hcalls, h⟩ :=
    Space.write_resubmits made Geometry.uniform_tiny faultless range
  have hm₀ : (Space.tiny.write 3 [1, 2, 3]).leaves Media.zeroPage = m₀ := by
    rw [Action.leaves, hrun]
  -- Without failures, the write makes the calls that renew the page.
  have hjournal : m₀.journal =
      ((Schedule.renewing ⟨none, none⟩ ⟨none, none⟩).map Prod.fst).reverse := by
    rw [← hm₀]
    decide +kernel
  have hcalls : (Schedule.renewing ⟨none, none⟩ ⟨none, none⟩).map Prod.fst = calls := by
    rw [hjournal] at hcalls
    exact List.reverse_inj.mp (hcalls.trans (List.append_nil _))
  constructor
  · obtain ⟨m', hok, heeprom, hflash, -, hlength⟩ :=
      (h Fault.onceEach 0 (.renewing ⟨some .other, none⟩ ⟨some .other, none⟩) hcalls
        (by decide)).1 rfl
    refine ⟨m', hok, ?_, ?_⟩
    · rw [Space.image, heeprom, hflash, ← hm₀]
      decide +kernel
    · rw [hlength, hjournal]
      decide
  · obtain ⟨m', -, -, -, -, hfails, -⟩ :=
      (h [] 2 (.renewing ⟨some .other, some .other⟩ ⟨none, none⟩) hcalls (by decide)).2 .other rfl
    exact ⟨m', hfails⟩

end CircularLog
