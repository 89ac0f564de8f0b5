import CircularLog.Proofs.Kept
import CircularLog.Proofs.Space.Containment

/-!
# Memories that are only read

Between two states of the media there may have been nothing but readings: then the journal has grown
by reading calls, and of the memories nothing but the number of readings is different
(`Media.OnlyRead`). A reading call leads to such a state however it ends, with whatever lapse
(`keeps_reads`), and so does every action that makes no other calls (`Driven.onlyRead`).
-/

namespace CircularLog

variable {g : Geometry} {α β ε τ : Type} {m m' m'' : Media g}

open CircularLog.Action (Keeps)

namespace Media

/-- The memories have been read since, and nothing else has become of them. -/
structure OnlyRead (m m' : Media g) : Prop where
  journal : ∃ calls : List Call, m'.journal = calls ++ m.journal ∧ ∀ call ∈ calls, call.Reads
  eeprom : m'.eeprom = { m.eeprom with reads := m'.eeprom.reads }
  flash : m'.flash = { m.flash with reads := m'.flash.reads }

/-- Nothing has become of the memories since now. -/
theorem OnlyRead.refl (m : Media g) : OnlyRead m m := ⟨⟨[], rfl, nofun⟩, rfl, rfl⟩

/-- Readings may follow each other. -/
theorem OnlyRead.trans (h : OnlyRead m m') (h' : OnlyRead m' m'') : OnlyRead m m'' := by
  obtain ⟨calls, hcalls, reads⟩ := h.journal
  obtain ⟨calls', hcalls', reads'⟩ := h'.journal
  refine ⟨⟨calls' ++ calls, ?_, List.forall_mem_append.mpr ⟨reads', reads⟩⟩, ?_, ?_⟩
  · rw [hcalls', hcalls, List.append_assoc]
  · rw [h'.eeprom, h.eeprom]
  · rw [h'.flash, h.flash]

/-- No byte has changed. -/
theorem OnlyRead.same (h : OnlyRead m m') :
    m'.eeprom.memory = m.eeprom.memory ∧ m'.flash.memory = m.flash.memory :=
  ⟨by rw [h.eeprom], by rw [h.flash]⟩

/-- A reading call that is submitted is one more. -/
theorem OnlyRead.called (m : Media g) {call : Call} (reads : call.Reads) :
    OnlyRead m (m.called call) :=
  ⟨⟨[call], rfl, List.forall_mem_singleton.mpr reads⟩, rfl, rfl⟩

/-- A reading that is submitted keeps what the submission and the reading keep. -/
theorem keeps_readThrough {kept : Media g → Prop} {call : Call}
    {read : Action FailureKind (Media g) Bytes} (submits : ∀ m, kept m → kept (m.called call))
    (hread : Keeps kept read) : Keeps kept (readThrough call read) := by
  intro m hm
  rw [readThrough, Action.yields_bind, yields_submit]
  cases (Fault.next call.medium call.access m.faults).1 with
  | none => exact hread _ (submits m hm)
  | some lapse =>
    have flips : Keeps kept (do return (← read).flip lapse.mask) :=
      hread.bind fun _ => Action.keeps_pure _
    rw [Action.yields_bind]
    exact (yields_reported lapse (submits m hm)).mono (fun _ m' h => flips m' h) fun _ h => h

/-- A reading call reads, however it ends. -/
theorem keeps_reads (m : Media g) (call : DriverCall g β) (reads : call.call.Reads) :
    Keeps (OnlyRead m) call.run := by
  have submits (m' : Media g) (h : OnlyRead m m') : OnlyRead m (m'.called call.call) :=
    h.trans (.called m' reads)
  cases call with
  | eepromRead address length =>
    refine keeps_readThrough submits fun m' h => ?_
    have read (n : Nat) : OnlyRead m { m' with eeprom := { m'.eeprom with reads := n } } :=
      h.trans ⟨⟨[], rfl, nofun⟩, rfl, rfl⟩
    rw [yields_onEeprom]
    unfold Eeprom.read
    simp only [Action.yields_bind, Action.yields_modify, Action.yields_ite, Action.yields_get,
      Action.yields_pure, Action.yields_fail]
    exact ⟨fun _ => read _, fun _ => read _⟩
  | flashRead address length =>
    refine keeps_readThrough submits fun m' h => ?_
    have read : OnlyRead m { m' with flash := { m'.flash with reads := m'.flash.reads + 1 } } :=
      h.trans ⟨⟨[], rfl, nofun⟩, rfl, rfl⟩
    -- Behind the checks the cells are read, and nothing is counted any more.
    have checked : Keeps (fun flash => OnlyRead m { m' with flash }) (do
        Action.ensure (length % g.wordBytes = 0) .readNotWhole
        Action.ofExcept (Flash.checkRange g address length)
        return (← get).memory.slice address length) :=
      (Action.keeps_ensure _ _).bind fun _ => (Action.keeps_ofExcept _).bind fun _ =>
        Action.keeps_get.bind fun _ => Action.keeps_pure _
    rw [yields_onFlash]
    unfold Flash.read
    rw [Action.yields_bind, Action.yields_modify]
    exact checked _ read
  | eepromWrite => cases reads
  | eepromPoll => cases reads
  | flashProgram => cases reads
  | flashErase => cases reads

end Media

/-- What makes only reading calls reads, however it ends. -/
theorem Driven.onlyRead {x : Action ε (Media g) α} (h : Driven Call.Reads x) (m : Media g) :
    Keeps (Media.OnlyRead m) x :=
  h.keeps fun call reads => Media.keeps_reads m call reads

/-- Beside anything, what makes only reading calls reads, however it ends. -/
theorem DrivenBeside.onlyRead {x : Action ε (Media g × τ) α} (h : DrivenBeside Call.Reads x)
    (m : Media g) : Keeps (fun after : Media g × τ => Media.OnlyRead m after.1) x :=
  h.keeps fun call reads => Media.keeps_reads m call reads

end CircularLog
