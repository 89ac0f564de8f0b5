import CircularLog.Proofs.Kept

/-!
# The journal

A driver call adds itself to the journal, however it ends and whatever the plan has for it
(`Logs`). So what an operation does can be counted in the journal: reading a space writes nothing to
the eeprom, and one writing of a space writes to it once at most (`Space.write_counts`).
-/

namespace CircularLog

variable {g : Geometry} {α : Type} {call : Call}

open CircularLog.Action (Keeps)

namespace Media

/-- The action adds this call to the journal, however it ends. -/
def Logs (call : Call) (x : Action FailureKind (Media g) α) : Prop :=
  ∀ m, x.Yields m (fun _ m' => m'.journal = call :: m.journal)
    (fun m' => m'.journal = call :: m.journal)

/-- What a memory does is not written into the journal. -/
theorem keeps_journal_onEeprom (x : Action DeviceError (Eeprom g.eepromBytes) α)
    (journal : List Call) : Keeps (fun m => m.journal = journal) (onEeprom x) := by
  intro m hm
  simp only [Action.Yields, onEeprom]
  cases x.mapError DeviceError.kind m.eeprom <;> exact hm

/-- What is done to the flash leaves the journal as it is. -/
theorem keeps_journal_onFlash (x : Action DeviceError (Flash g) α) (journal : List Call) :
    Keeps (fun m => m.journal = journal) (onFlash x) := by
  intro m hm
  simp only [Action.Yields, onFlash]
  cases x.mapError DeviceError.kind m.flash <;> exact hm

/-- What a lapse reports changes nothing. -/
theorem keeps_reported {kept : Media g → Prop} (lapse : Lapse) : Keeps kept (reported lapse) := by
  unfold reported
  cases lapse.report with
  | none => exact Action.keeps_pure _
  | some kind => exact Action.keeps_fail _

/-- A call is in the journal before anything else is done for it. -/
theorem logs_submit_bind {f : Option Lapse → Action FailureKind (Media g) α}
    (hf : ∀ lapse journal, Keeps (fun m => m.journal = journal) (f lapse)) :
    Logs call (submit call >>= f) := by
  intro m
  rw [Action.yields_bind, submit, Action.yields_modifyGet]
  exact hf _ _ _ rfl

/-- A reading call is in the journal, whatever becomes of it. -/
theorem logs_readThrough {read : Action FailureKind (Media g) Bytes}
    (hread : ∀ journal, Keeps (fun m => m.journal = journal) read) :
    Logs call (readThrough call read) := by
  refine logs_submit_bind fun lapse journal => ?_
  cases lapse with
  | none => exact hread journal
  | some lapse =>
    exact (keeps_reported lapse).bind fun _ => (hread journal).bind fun _ => Action.keeps_pure _

/-- A writing call is in the journal, whatever becomes of it. -/
theorem logs_writeThrough {unit : Nat} {write : Bytes → Action FailureKind (Media g) Unit}
    (hwrite : ∀ part journal, Keeps (fun m => m.journal = journal) (write part)) (bytes : Bytes) :
    Logs call (writeThrough call unit write bytes) := by
  refine logs_submit_bind fun lapse journal => ?_
  cases lapse with
  | none => exact hwrite bytes journal
  | some lapse =>
    exact .ite ((hwrite _ journal).bind fun _ => keeps_reported lapse) (keeps_reported lapse)

/-- Reading the eeprom is in the journal as one call. -/
theorem logs_eepromRead (address length : Nat) :
    Logs (g := g) ⟨.eeprom, .read, address, length⟩ (eepromRead address length) :=
  logs_readThrough fun journal => keeps_journal_onEeprom _ journal

/-- Writing to the eeprom is in the journal as one call. -/
theorem logs_eepromWrite (address : Nat) (bytes : Bytes) :
    Logs (g := g) ⟨.eeprom, .write, address, bytes.length⟩ (eepromWrite address bytes) :=
  logs_writeThrough (fun _ journal => keeps_journal_onEeprom _ journal) bytes

/-- Polling the eeprom is in the journal as one call. -/
theorem logs_eepromPoll : Logs (g := g) ⟨.eeprom, .poll, 0, 0⟩ eepromPoll := by
  refine logs_submit_bind fun lapse journal => ?_
  cases lapse with
  | none => exact keeps_journal_onEeprom _ journal
  | some lapse => exact (keeps_reported lapse).bind fun _ => Action.keeps_pure _

/-- Reading the flash is in the journal as one call. -/
theorem logs_flashRead (address length : Nat) :
    Logs (g := g) ⟨.flash, .read, address, length⟩ (flashRead address length) :=
  logs_readThrough fun journal => keeps_journal_onFlash _ journal

/-- Programming the flash is in the journal as one call. -/
theorem logs_flashProgram (address : Nat) (bytes : Bytes) :
    Logs (g := g) ⟨.flash, .write, address, bytes.length⟩ (flashProgram address bytes) :=
  logs_writeThrough (fun _ journal => keeps_journal_onFlash _ journal) bytes

/-- Erasing pages of the flash is in the journal as one call. -/
theorem logs_flashErase (start stop : Nat) :
    Logs (g := g) ⟨.flash, .erase, start, stop - start⟩ (flashErase start stop) := by
  refine logs_submit_bind fun lapse journal => ?_
  cases lapse with
  | none => exact keeps_journal_onFlash _ journal
  | some lapse =>
    exact .ite ((keeps_journal_onFlash _ journal).bind fun _ => keeps_reported lapse)
      (keeps_reported lapse)

/-- A call keeps what is true of the journal with it. -/
theorem Logs.keeps {x : Action FailureKind (Media g) α} (hx : Logs call x)
    {kept : List Call → Prop} (h : ∀ journal, kept journal → kept (call :: journal)) :
    Keeps (fun m => kept m.journal) x := by
  intro m hm
  exact (hx m).mono (fun _ _ h' => h' ▸ h _ hm) fun _ h' => h' ▸ h _ hm

/-- What every call but a write to the eeprom keeps true of the journal. -/
theorem keptUnwritten_of_journal (kept : List Call → Prop)
    (h : ∀ call journal, ¬ (call.medium = .eeprom ∧ call.access = .write) → kept journal →
      kept (call :: journal)) : KeptUnwritten (g := g) fun m => kept m.journal where
  eepromRead _ _ := (logs_eepromRead _ _).keeps fun _ => h _ _ (by simp)
  eepromPoll := logs_eepromPoll.keeps fun _ => h _ _ (by simp)
  flashRead _ _ := (logs_flashRead _ _).keeps fun _ => h _ _ (by simp)
  flashProgram _ _ := (logs_flashProgram _ _).keeps fun _ => h _ _ (by simp)
  flashErase start := (logs_flashErase _ _).keeps fun _ => h _ _ (by simp)

end Media

/-! ## Writes to the eeprom -/

/-- How many of the calls write to the eeprom. -/
def eepromWrites (journal : List Call) : Nat :=
  journal.countP fun call => call.medium = .eeprom ∧ call.access = .write

/-- One more call counts if it writes to the eeprom. -/
theorem eepromWrites_cons (call : Call) (journal : List Call) :
    eepromWrites (call :: journal) =
      eepromWrites journal + if call.medium = .eeprom ∧ call.access = .write then 1 else 0 := by
  simp [eepromWrites, List.countP_cons]

namespace Media

/-- As long as the eeprom is not written, the count stays what it is. -/
theorem keptUnwritten_eepromWrites (n : Nat) :
    KeptUnwritten (g := g) fun m => eepromWrites m.journal = n :=
  keptUnwritten_of_journal (eepromWrites · = n) fun call journal hcall hn => by
    rw [eepromWrites_cons, if_neg hcall, hn, Nat.add_zero]

end Media

namespace Space

variable {n : Nat} {m : Media g}

/-- Writing to the eeprom counts once, however it ends. -/
theorem writeEeprom_counts (address : Nat) (bytes : Bytes) (hn : eepromWrites m.journal = n) :
    (writeEeprom address bytes).Yields m (fun _ m' => eepromWrites m'.journal = n + 1)
      (fun m' => eepromWrites m'.journal = n + 1) := by
  have counted {m' : Media g}
      (h : m'.journal = ⟨.eeprom, .write, address, bytes.length⟩ :: m.journal) :
      eepromWrites m'.journal = n + 1 := by
    rw [h, eepromWrites_cons, if_pos ⟨rfl, rfl⟩, hn]
  rw [writeEeprom, Action.yields_bind, driver, Action.yields_mapError]
  refine (Media.logs_eepromWrite address bytes m).mono (fun _ m' h => ?_) fun _ h => counted h
  exact (driven_confirmed address bytes).sparing.keepsUnwritten (Media.keptUnwritten_eepromWrites _)
    m' (counted h)

/-- Writing to a space writes to the eeprom once at most. -/
theorem write_counts (space : Space g) (address : Nat) (bytes : Bytes)
    (hn : eepromWrites m.journal = n) :
    (space.write address bytes).Yields m (fun _ m' => eepromWrites m'.journal ≤ n + 1)
      (fun m' => eepromWrites m'.journal ≤ n + 1) := by
  have flash {k : Nat} (hk : k ≤ n + 1) {m' : Media g} (hm' : eepromWrites m'.journal = k)
      (cell : Nat) (pieces : List Bytes) : (writePieces cell pieces).Yields m'
        (fun _ m' => eepromWrites m'.journal ≤ n + 1) (fun m' => eepromWrites m'.journal ≤ n + 1) :=
    ((driven_writePieces cell pieces).keepsUnwritten (Media.keptUnwritten_eepromWrites k) m'
      hm').mono (fun _ _ h => h ▸ hk) fun _ h => h ▸ hk
  simp only [write_eq, require_eq, Action.yields_ite, Action.yields_bind, Action.yields_pure,
    Action.yields_fail]
  refine ⟨fun _ => by omega, fun _ => ⟨fun _ => by omega, fun _ => ⟨fun _ => ?_, fun _ => ?_⟩⟩⟩
  · refine (writeEeprom_counts _ _ hn).mono ?_ fun _ h => Nat.le_of_eq h
    exact fun _ _ h => flash (Nat.le_refl _) h _ _
  · exact flash (Nat.le_succ n) hn _ _

end Space

end CircularLog
