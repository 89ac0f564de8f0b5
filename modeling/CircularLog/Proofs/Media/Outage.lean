import CircularLog.Proofs.Media.Calls
import CircularLog.Space.Basic

/-!
# Calls that act or fail

Driver calls under a plan whose faults only make calls fail: each call either does to the memories
exactly what it should, or fails and does nothing; of a failing write to the eeprom alone some first
bytes may have an effect. How calls fail is a `Manner`. What a plan holds for the calls to come is
described by phases, predicates on plans and journals; an `Outage` says how calls lead from phase to
phase. A run without faults is the outage that never begins (`faultless`), and a `blackout` is the
one after which no writing and no erasing has an effect any more.
-/

namespace CircularLog

/-! ## Phases -/

/-- What plan and journal are like at some point of a run. -/
abbrev Phase := List Fault → List Call → Prop

/-- There are no faults. -/
def Phase.clear : Phase := fun plan _ => plan = []

/-- This does not happen. -/
def Phase.never : Phase := fun _ _ => False

/-- The call is one that changes a memory. -/
def Call.Changes (call : Call) : Prop := call.access = .write ∨ call.access = .erase

instance (call : Call) : Decidable call.Changes :=
  inferInstanceAs (Decidable (_ ∨ _))

/-- No poll changes a memory. -/
theorem Call.Changes.ne_poll {call : Call} (h : call.Changes) : call.access ≠ .poll := by
  rcases h with h | h <;> simp [h]

/-- How failing calls fail. -/
structure Manner where
  /-- The errors that tell of it. -/
  tells : Error → Prop
  /-- So many bytes of a failing write to the eeprom have an effect all the same. -/
  cut : Nat

/-- No failing call has an effect. -/
def Manner.clean : Manner := ⟨fun e => e.isInterruption = true, 0⟩

/-- The call reports that it failed in this way, and has no effect but for some bytes of a write to
the eeprom. -/
structure Lapse.Fails (manner : Manner) (call : Call) (kind : FailureKind) (lapse : Lapse) :
    Prop where
  report : lapse.report = some kind
  tells : manner.tells (.device call.medium kind)
  stored : call.Changes → lapse.stored = if call.medium = .eeprom then manner.cut else 0

/-- The call passes and leads to `passed`, or fails and leads to what `failed` says of how. -/
def Call.Meets (manner : Manner) (call : Call) (passed : Phase) (failed : FailureKind → Phase)
    (plan : List Fault) (journal : List Call) : Prop :=
  match Fault.next call.medium call.access plan with
  | (none, plan) => passed plan (call :: journal)
  | (some lapse, plan) => ∃ kind, lapse.Fails manner call kind ∧ failed kind plan (call :: journal)

/-- A call of the flash that failed is submitted again, if that may help, and it is dark if it does
not. -/
def Call.Again (manner : Manner) (call : Call) (light dark : Phase) (kind : FailureKind) : Phase :=
  fun plan journal =>
    if kind = .other then call.Meets manner light (fun _ => dark) plan journal
    else dark plan journal

/-- Polls may pass, fail or answer anything, and what can be done then can be done in the dark. -/
structure Manner.Restless (manner : Manner) (light dark : Phase) : Prop where
  busy : manner.tells .busy
  dark : ∀ {plan journal}, light plan journal → dark plan journal
  poll : ∀ {plan journal}, light plan journal → ∀ lapse plan',
    Fault.next .eeprom .poll plan = (lapse, plan') →
      light plan' (⟨.eeprom, .poll, 0, 0⟩ :: journal) ∧
      ∀ kind, lapse.bind Lapse.report = some kind → manner.tells (.device .eeprom kind)

/-- How calls lead from phase to phase: as long as it is light each call passes or fails; once it is
dark, or dark behind the erasing of a page, so it is when a call of the flash is submitted again.
Polls pass, if they are not `Restless`. -/
structure Outage (manner : Manner) (light dark : Phase) (torn : Nat → Phase) : Prop where
  call : ∀ {plan journal}, light plan journal → ∀ call : Call, call.access ≠ .poll →
    call.Meets manner light (fun _ => dark) plan journal
  change : ∀ {plan journal}, light plan journal → ∀ call : Call, call.Changes →
    call.medium = .flash → call.Meets manner light (call.Again manner light dark) plan journal
  renew : ∀ {plan journal start length}, light plan (⟨.flash, .erase, start, length⟩ :: journal) →
    ∀ call : Call, call.access = .write → call.medium = .flash → call.Meets manner light
      (call.Again manner light (torn start)) plan (⟨.flash, .erase, start, length⟩ :: journal)
  poll : (∀ {plan journal}, light plan journal →
    Call.Meets manner ⟨.eeprom, .poll, 0, 0⟩ light (fun _ => .never) plan journal) ∨
      manner.Restless light dark

/-- Without faults every call passes. -/
theorem meets_clear {manner : Manner} {call : Call} {failed : FailureKind → Phase}
    {plan : List Fault} {journal : List Call} (h : Phase.clear plan journal) :
    call.Meets manner Phase.clear failed plan journal := by
  obtain rfl : plan = [] := h
  rfl

/-- Without faults it is never dark, whatever that would be. -/
theorem Phase.outage_clear (dark : Phase) (torn : Nat → Phase) :
    Outage .clean .clear dark torn where
  call h _ _ := meets_clear h
  change h _ _ _ := meets_clear h
  renew h _ _ _ := meets_clear h
  poll := .inl meets_clear

/-- A run without faults is an outage that never begins. -/
theorem Outage.faultless : Outage .clean .clear .never fun _ => .never := Phase.outage_clear _ _

/-- There are no faults, and since this journal there have been readings only. -/
def Phase.reading (since : List Call) : Phase := fun plan journal =>
  plan = [] ∧ ∃ calls, journal = calls ++ since ∧ ∀ call ∈ calls, call.access = .read

/-- Without faults a reading passes, and is one more. -/
theorem Phase.meets_reading {since : List Call} {call : Call} {plan : List Fault}
    {journal : List Call} (h : Phase.reading since plan journal) (reads : call.access = .read) :
    call.Meets .clean (.reading since) (fun _ => .never) plan journal := by
  obtain ⟨rfl, calls, rfl, hcalls⟩ := h
  exact ⟨rfl, call :: calls, rfl, List.forall_mem_cons.mpr ⟨reads, hcalls⟩⟩

/-! ## Steps through the driver -/

namespace Media

variable {g : Geometry} {α : Type} {m m' : Media g} {manner : Manner} {passed : Phase}
  {failed : FailureKind → Phase} {call : Call} {eeprom flash : Bytes}

/-- The contents of the memories are these. -/
structure Shows (m : Media g) (eeprom flash : Bytes) : Prop where
  eeprom : m.eeprom.memory.toBytes = eeprom
  flash : m.flash.memory.toBytes = flash

/-- The memories are sound: no cell is worn out, no call of the flash times out, and the eeprom is
idle before a write has been waiting for too long. -/
structure Able (m : Media g) : Prop where
  timeouts : m.flash.timeouts = 0
  stuck : m.eeprom.stuck = none
  busyPolls : m.eeprom.busyPolls < pollLimit

/-- The memories are sound, and plan and journal are in the phase. -/
structure Under (m : Media g) (phase : Phase) : Prop where
  able : m.Able
  phase : phase m.faults m.journal

/-- Nothing is wrong with fresh memories. -/
theorem under_clear_fresh (g : Geometry) : (fresh g).Under .clear :=
  ⟨⟨rfl, rfl, (by decide : 2 < pollLimit)⟩, rfl⟩

/-- A call leaves the memories sound. -/
theorem Able.called (h : m.Able) (call : Call) : (m.called call).Able := ⟨h.1, h.2, h.3⟩

/-- A call by itself changes no contents. -/
theorem Shows.called (h : m.Shows eeprom flash) (call : Call) :
    (m.called call).Shows eeprom flash := ⟨h.1, h.2⟩

/-- The memories are in the phase and show these contents. -/
def Stands (phase : Phase) (eeprom flash : Bytes) (m : Media g) : Prop :=
  m.Under phase ∧ m.Shows eeprom flash

/-- A call that failed for a cause that may pass can be submitted again. -/
theorem Under.again {light dark : Phase} (h : m.Under (call.Again manner light dark .other)) :
    call.Meets manner light (fun _ => dark) m.faults m.journal := by
  have hphase := h.phase
  unfold Call.Again at hphase
  rwa [if_pos rfl] at hphase

/-- A call that failed for another cause is not submitted again. -/
theorem Stands.gaveUp {light dark : Phase} {kind : FailureKind} (hkind : kind ≠ .other)
    (h : Stands (call.Again manner light dark kind) eeprom flash m) :
    Stands dark eeprom flash m := by
  have hphase := h.1.phase
  unfold Call.Again at hphase
  rw [if_neg hkind] at hphase
  exact ⟨⟨h.1.able, hphase⟩, h.2⟩

/-- A call that passes or fails is submitted. -/
theorem submit_meets {value : Option Lapse → Media g → Prop} {error : FailureKind → Media g → Prop}
    (meets : call.Meets manner passed failed m.faults m.journal)
    (passes : passed (m.called call).faults (m.called call).journal → value none (m.called call))
    (fails : ∀ lapse kind, lapse.Fails manner call kind →
      failed kind (m.called call).faults (m.called call).journal →
      value (some lapse) (m.called call)) :
    (submit call).Ends m value error := by
  rw [ends_submit]
  unfold Call.Meets at meets
  unfold called at passes fails ⊢
  cases hnext : Fault.next call.medium call.access m.faults with
  | mk lapse plan =>
    rw [hnext] at meets passes fails
    cases lapse with
    | none => exact passes meets
    | some lapse =>
      obtain ⟨kind, hlapse, hfailed⟩ := meets
      exact fails lapse kind hlapse hfailed

/-- A reading call that passes reads. -/
theorem readThrough_meets {read : Action FailureKind (Media g) Bytes}
    {value : Bytes → Media g → Prop} {error : FailureKind → Media g → Prop}
    (meets : call.Meets manner passed failed m.faults m.journal)
    (passes : passed (m.called call).faults (m.called call).journal →
      read.Ends (m.called call) value error)
    (fails : ∀ kind, manner.tells (.device call.medium kind) →
      failed kind (m.called call).faults (m.called call).journal → error kind (m.called call)) :
    (readThrough call read).Ends m value error := by
  rw [readThrough, Action.ends_bind]
  refine submit_meets meets passes fun lapse kind hlapse hfailed => ?_
  simp only [Action.ends_bind, ends_reported, hlapse.report]
  exact fails kind hlapse.tells hfailed

/-- A writing call that passes writes; of one that fails a part is written. -/
theorem writeThrough_meets {unit : Nat} {bytes : Bytes} (changes : call.Changes)
    {write : Bytes → Action FailureKind (Media g) Unit}
    {value : Unit → Media g → Prop} {error : FailureKind → Media g → Prop}
    (meets : call.Meets manner passed failed m.faults m.journal)
    (passes : passed (m.called call).faults (m.called call).journal →
      (write bytes).Ends (m.called call) value error)
    (fails : ∀ kind, manner.tells (.device call.medium kind) →
      failed kind (m.called call).faults (m.called call).journal → ∀ part,
      part = bytes.take (min (if call.medium = .eeprom then manner.cut else 0) bytes.length / unit *
        unit) → (part = [] → error kind (m.called call)) ∧
      (part ≠ [] → (write part).Ends (m.called call) (fun _ => error kind) error)) :
    (writeThrough call unit write bytes).Ends m value error := by
  rw [writeThrough, Action.ends_bind]
  refine submit_meets meets passes fun lapse kind hlapse hfailed => ?_
  obtain ⟨hnone, hsome⟩ := fails kind hlapse.tells hfailed _ rfl
  simp only [hlapse.stored changes, Action.ends_bind, Action.ends_ite, ends_reported,
    hlapse.report]
  exact ⟨hsome, fun h => hnone (Decidable.not_not.mp h)⟩

/-! ## Reading calls -/

/-- Reading the eeprom returns its contents, or fails. -/
theorem eepromRead_meets {address length : Nat} (able : m.Able)
    (meets : Call.Meets manner ⟨.eeprom, .read, address, length⟩ passed failed m.faults m.journal)
    (holds : m.Shows eeprom flash) (range : address + length ≤ g.eepromBytes) :
    (eepromRead address length).Ends m
      (fun bytes m' => Stands passed eeprom flash m' ∧ bytes = eeprom.slice address length)
      (fun kind m' =>
        manner.tells (.device .eeprom kind) ∧ Stands (failed kind) eeprom flash m') := by
  refine readThrough_meets meets (fun hpassed => ?_) fun kind htells hfailed =>
    ⟨htells, ⟨⟨?_, hfailed⟩, ?_⟩⟩
  · rw [ends_onEeprom]
    simp only [Eeprom.read, Action.ends_bind, Action.ends_modify, range, if_true, Action.ends_get,
      Action.ends_pure, Memory.slice_eq]
    exact ⟨⟨⟨⟨able.1, able.2, able.3⟩, hpassed⟩, ⟨holds.1, holds.2⟩⟩, by rw [← holds.1]; rfl⟩
  · exact ⟨able.1, able.2, able.3⟩
  · exact ⟨holds.1, holds.2⟩

/-- Reading whole units of the flash returns its contents, or fails. -/
theorem flashRead_meets {address length : Nat} (able : m.Able)
    (meets : Call.Meets manner ⟨.flash, .read, address, length⟩ passed failed m.faults m.journal)
    (holds : m.Shows eeprom flash) (start : address % g.wordBytes = 0)
    (whole : length % g.wordBytes = 0) (range : address + length ≤ g.flashBytes) :
    (flashRead address length).Ends m
      (fun bytes m' => Stands passed eeprom flash m' ∧ bytes = flash.slice address length)
      (fun kind m' =>
        manner.tells (.device .flash kind) ∧ Stands (failed kind) eeprom flash m') := by
  refine readThrough_meets meets (fun hpassed => ?_) fun kind htells hfailed =>
    ⟨htells, ⟨⟨?_, hfailed⟩, ?_⟩⟩
  · rw [ends_onFlash]
    simp only [Flash.read, Action.ends_bind, Action.ends_modify, Action.ends_ensure,
      Flash.checkRange, start, whole, Nat.not_lt.mpr range, ne_eq, not_true_eq_false, if_false,
      Action.ofExcept, Action.ends_pure, Action.ends_get, Memory.slice_eq, true_and]
    exact ⟨⟨⟨⟨able.1, able.2, able.3⟩, hpassed⟩, ⟨holds.1, holds.2⟩⟩, by rw [← holds.2]; rfl⟩
  · exact ⟨able.1, able.2, able.3⟩
  · exact ⟨holds.1, holds.2⟩

/-- Polling the eeprom counts one of the busy answers that are still to come, if there are only so
many, and changes nothing else. -/
theorem ends_poll (able : m.Able) (holds : m.Shows eeprom flash)
    (phase : passed m.faults m.journal) :
    (onEeprom Eeprom.poll : Action FailureKind (Media g) Bool).Ends m
      (fun busy m' => Stands passed eeprom flash m' ∧
        (busy = true → m.eeprom.busyLeft ≠ Eeprom.endless →
          m'.eeprom.busyLeft + 1 = m.eeprom.busyLeft))
      (fun _ _ => False) := by
  have stands (busyLeft : Nat) : Stands passed eeprom flash
      { m with eeprom := { m.eeprom with busyLeft } } :=
    ⟨⟨⟨able.1, able.2, able.3⟩, phase⟩, ⟨holds.1, holds.2⟩⟩
  simp only [ends_onEeprom, Eeprom.poll, Action.ends_modifyGet]
  split
  · exact ⟨stands _, by simp⟩
  · split
    · next h => exact ⟨stands _, fun _ hne => absurd h hne⟩
    · exact ⟨stands _, fun _ _ => Nat.sub_add_cancel (by omega)⟩

/-- A poll that passes counts one of the busy answers that are still to come. -/
theorem eepromPoll_meets (able : m.Able)
    (meets : Call.Meets manner ⟨.eeprom, .poll, 0, 0⟩ passed (fun _ => .never) m.faults m.journal)
    (holds : m.Shows eeprom flash) (left : m.eeprom.busyLeft ≠ Eeprom.endless) :
    (eepromPoll : Action FailureKind (Media g) Bool).Ends m
      (fun busy m' => Stands passed eeprom flash m' ∧
        (busy = true → m'.eeprom.busyLeft + 1 = m.eeprom.busyLeft))
      (fun _ _ => False) := by
  rw [eepromPoll, Action.ends_bind]
  refine submit_meets meets (fun hpassed => ?_) fun _ _ _ hfailed => hfailed.elim
  exact (ends_poll (able.called _) (holds.called _) hpassed).mono
    (fun _ _ h => ⟨h.1, fun hbusy => h.2 hbusy left⟩) fun _ _ h => h

/-- Restless polls leave everything as it is, whatever they say. -/
theorem eepromPoll_restless {light dark : Phase} (r : manner.Restless light dark)
    (hm : Stands light eeprom flash m) :
    (eepromPoll : Action FailureKind (Media g) Bool).Ends m
      (fun _ => Stands light eeprom flash)
      (fun kind m' => manner.tells (.device .eeprom kind) ∧ Stands light eeprom flash m') := by
  obtain ⟨hlight, htells⟩ := r.poll hm.1.phase _ _ rfl
  have hcalled : Stands light eeprom flash (m.called ⟨.eeprom, .poll, 0, 0⟩) :=
    ⟨⟨hm.1.able.called _, hlight⟩, hm.2.called _⟩
  rw [eepromPoll, Action.ends_bind, ends_submit]
  dsimp only
  cases hlapse : (Fault.next .eeprom .poll m.faults).1 with
  | none =>
    exact (ends_poll hcalled.1.able hcalled.2 hcalled.1.phase).mono (fun _ _ h => h.1)
      fun _ _ h => h.elim
  | some lapse =>
    rw [hlapse] at htells
    simp only [Action.ends_bind, ends_reported, Action.ends_pure]
    cases hreport : lapse.report with
    | none => exact hcalled
    | some kind => exact ⟨htells kind hreport, hcalled⟩

/-! ## Changing calls -/

/-- A write to the eeprom that passes lays its bytes over the contents; one that fails, the bytes in
front of the cut. -/
theorem eepromWrite_meets {address : Nat} {bytes : Bytes} (able : m.Able)
    (meets : Call.Meets manner ⟨.eeprom, .write, address, bytes.length⟩ passed failed m.faults
      m.journal)
    (holds : m.Shows eeprom flash) (range : address + bytes.length ≤ g.eepromBytes) :
    (eepromWrite address bytes).Ends m
      (fun _ m' => Stands passed (eeprom.overlay address bytes) flash m' ∧
        m'.eeprom.busyLeft < pollLimit)
      (fun kind m' => manner.tells (.device .eeprom kind) ∧
        Stands (failed kind) (eeprom.overlay address (bytes.take manner.cut)) flash m') := by
  -- No cell is worn out, so what is written replaces what was there.
  have hreplace : Eeprom.replace m.eeprom.stuck = fun _ _ new => new := by
    rw [able.stuck]
    rfl
  have writes {m₁ : Media g} {part : Bytes}
      (hm₁ : m₁ = m.called ⟨.eeprom, .write, address, bytes.length⟩)
      {phase : Phase} (hphase : phase m₁.faults m₁.journal)
      (hpart : address + part.length ≤ g.eepromBytes) :
      (onEeprom (Eeprom.write address part)).Ends m₁
        (fun _ m' => Stands phase (eeprom.overlay address part) flash m' ∧
          m'.eeprom.busyLeft < pollLimit)
        (fun _ _ => False) := by
    subst hm₁
    simp only [ends_onEeprom, Eeprom.write, Action.ends_bind, Action.ends_modify, hpart, if_true]
    refine ⟨⟨⟨⟨able.1, able.2, able.3⟩, hphase⟩, ⟨?_, holds.2⟩⟩, able.3⟩
    rw [← holds.1, ← Memory.toBytes_combine_replace _ hpart, ← hreplace]
    rfl
  refine writeThrough_meets (.inl rfl) meets (fun hpassed => ?_)
    fun kind htells hfailed part hpart => ⟨fun hnil => ⟨htells, ?_⟩, fun _ => ?_⟩
  · exact (writes rfl hpassed range).mono (fun _ _ h => h) fun _ _ h => h.elim
  all_goals
    simp only [if_true, Nat.div_one, Nat.mul_one] at hpart
    -- What is stored of a write that fails are the bytes in front of the cut.
    have htake : part = bytes.take manner.cut := by
      rw [hpart, List.take_eq_take_iff]
      omega
  · rw [← htake, hnil, Bytes.overlay_nil]
    exact ⟨⟨able.called _, hfailed⟩, holds.called _⟩
  · refine (writes rfl hfailed ?_).mono (fun _ _ h => ⟨htells, htake ▸ h.1⟩) fun _ _ h => h.elim
    rw [htake, List.length_take]
    omega

/-- Programming whole units of the flash that passes clears the bits that are to be cleared. -/
theorem flashProgram_meets {address : Nat} {bytes : Bytes} (able : m.Able)
    (meets : Call.Meets manner ⟨.flash, .write, address, bytes.length⟩ passed failed m.faults
      m.journal)
    (holds : m.Shows eeprom flash) (start : address % g.wordBytes = 0)
    (whole : bytes.length % g.wordBytes = 0) (range : address + bytes.length ≤ g.flashBytes) :
    (flashProgram address bytes).Ends m
      (fun _ => Stands passed eeprom
        (m.flash.memory.combine (fun _ old new => old &&& new) address bytes).toBytes)
      (fun kind m' =>
        manner.tells (.device .flash kind) ∧ Stands (failed kind) eeprom flash m') := by
  refine writeThrough_meets (.inl rfl) meets (fun hpassed => ?_)
    fun kind htells hfailed part hpart => ⟨fun _ => ⟨htells, ⟨⟨?_, hfailed⟩, ?_⟩⟩, fun hne => ?_⟩
  · have ready : (m.called ⟨.flash, .write, address, bytes.length⟩).flash.timeouts = 0 := able.1
    simp only [ends_onFlash, Flash.program, Action.ends_bind, Action.ends_modify,
      Flash.takeTimeout, Action.ends_get, ready, ne_eq, not_true_eq_false, if_false,
      Action.ends_pure, Flash.checkRange, start, whole, Nat.not_lt.mpr range, Action.ofExcept,
      Action.ends_ensure, true_and]
    exact ⟨⟨⟨rfl, able.2, able.3⟩, hpassed⟩, ⟨holds.1, rfl⟩⟩
  · exact ⟨able.1, able.2, able.3⟩
  · exact ⟨holds.1, holds.2⟩
  · exact absurd (by simpa using hpart) hne

/-- Erasing pages of the flash that passes sets all of their bits. -/
theorem flashErase_meets {start stop : Nat} (able : m.Able)
    (meets : Call.Meets manner ⟨.flash, .erase, start, stop - start⟩ passed failed m.faults
      m.journal)
    (holds : m.Shows eeprom flash) (order : start < stop) (range : stop ≤ g.flashBytes)
    (first : start % g.pageBytes = 0) (last : stop % g.pageBytes = 0) :
    (flashErase start stop).Ends m
      (fun _ m' =>
        Stands passed eeprom (flash.overlay start (List.replicate (stop - start) 0xFF)) m' ∧
          m'.journal = ⟨.flash, .erase, start, stop - start⟩ :: m.journal)
      (fun kind m' =>
        manner.tells (.device .flash kind) ∧ Stands (failed kind) eeprom flash m') := by
  rw [flashErase, Action.ends_bind]
  refine submit_meets meets (fun hpassed => ?_) fun lapse kind hlapse hfailed => ?_
  · have ready : (m.called ⟨.flash, .erase, start, stop - start⟩).flash.timeouts = 0 := able.1
    have hwanted : (m.flash.memory.combine (fun _ _ new => new) start
        (List.replicate (stop - start) 0xFF)).toBytes =
        m.flash.memory.toBytes.overlay start (List.replicate (stop - start) 0xFF) :=
      Memory.toBytes_combine_replace _ (by rw [List.length_replicate]; omega)
    simp only [ends_onFlash, Flash.erase, Action.ends_bind, Action.ends_modify, Flash.takeTimeout,
      Action.ends_get, ready, ne_eq, not_true_eq_false, if_false, Action.ends_pure,
      Action.ends_ensure, Nat.le_of_lt order, Nat.not_lt.mpr range, first, last, or_self, true_and]
    refine ⟨⟨⟨⟨rfl, able.2, able.3⟩, hpassed⟩, ⟨holds.1, ?_⟩⟩, rfl⟩
    rw [← holds.2, ← hwanted]
    rfl
  · -- A lapse that stores nothing does not erase.
    have hstored : lapse.stored = 0 := by simpa using hlapse.stored (.inr rfl)
    have hnone : ¬ stop - start ≤ lapse.stored := by omega
    simp only [hnone, if_false, ends_reported, hlapse.report]
    exact ⟨hlapse.tells, ⟨⟨able.1, able.2, able.3⟩, hfailed⟩, ⟨holds.1, holds.2⟩⟩

end Media

end CircularLog
