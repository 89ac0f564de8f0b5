import CircularLog.Media.Basic
import CircularLog.Proofs.Bytes
import CircularLog.Proofs.Ends

/-!
# Driver calls under any plan

What each of the six driver calls does to the memories, whatever the plan of faults holds for it
and whether it then reports a failure or not. A reading call changes nothing; if no fault lets
readings lie, what it returns are the contents (`eepromRead_ends`, `flashRead_ends`). A changing
call leaves every byte as it was or as the whole call would have made it (`eepromWrite_ends`,
`flashProgram_ends`, `flashErase_ends`), and so no byte outside of its range is touched.
-/

namespace CircularLog

/-! ## Plans -/

namespace Fault

/-- Readings that meet this fault fail or are right. -/
def Honest (fault : Fault) : Prop :=
  ∀ medium, (medium, Access.read) ∈ fault.scope →
    fault.lapse.report = none → ∀ bits ∈ fault.lapse.mask, bits = 0

/-- The faults of a plan keep their scopes and their lapses when calls are made. -/
theorem exists_of_mem_next {medium : Medium} {access : Access} {plan : List Fault} {fault : Fault}
    (h : fault ∈ (next medium access plan).2) :
    ∃ old ∈ plan, old.scope = fault.scope ∧ old.lapse = fault.lapse := by
  induction plan with
  | nil => simp at h
  | cons first rest ih =>
    by_cases hg : first.governs medium access
    · simp only [next, hg, if_true, List.mem_cons] at h
      rcases h with rfl | h
      · exact ⟨first, by simp, by unfold spend; split <;> simp⟩
      · exact ⟨fault, by simp [h], rfl, rfl⟩
    · simp only [next, hg] at h
      rcases List.mem_cons.mp h with rfl | h
      · exact ⟨fault, by simp, rfl, rfl⟩
      · obtain ⟨old, hold, hsame⟩ := ih h
        exact ⟨old, by simp [hold], hsame⟩

/-- A lapse comes from a fault of the plan that is for such calls. -/
theorem exists_of_next_eq_some {medium : Medium} {access : Access} {plan : List Fault}
    {lapse : Lapse} (h : (next medium access plan).1 = some lapse) :
    ∃ fault ∈ plan, (medium, access) ∈ fault.scope ∧ fault.lapse = lapse := by
  induction plan with
  | nil => simp at h
  | cons first rest ih =>
    by_cases hg : first.governs medium access
    · simp only [next, hg, if_true] at h
      refine ⟨first, by simp, ?_, ?_⟩
      · simp only [governs, Bool.and_eq_true, List.contains_iff_mem] at hg
        exact hg.1
      · unfold spend at h
        split at h <;> simp_all
    · simp only [next, hg] at h
      obtain ⟨fault, hmem, hfault⟩ := ih h
      exact ⟨fault, by simp [hmem], hfault⟩

end Fault

namespace Bytes

/-- Flipping no bit changes nothing. -/
theorem flip_of_zero {bytes mask : Bytes} (h : ∀ bits ∈ mask, bits = 0) :
    bytes.flip mask = bytes := by
  induction bytes generalizing mask with
  | nil => rfl
  | cons byte bytes ih =>
    cases mask with
    | nil => rfl
    | cons bits mask =>
      rw [flip, h bits (by simp), UInt8.xor_zero, ih fun b hb => h b (by simp [hb])]

/-- Flipping bits keeps the length. -/
theorem length_flip (bytes mask : Bytes) : (bytes.flip mask).length = bytes.length := by
  induction bytes generalizing mask with
  | nil => rfl
  | cons byte bytes ih => cases mask <;> simp [flip, ih]

end Bytes

namespace Media

variable {g : Geometry} {α : Type} {m m' : Media g}

/-- No fault of the plan lets readings lie. -/
def Honest (m : Media g) : Prop := ∀ fault ∈ m.faults, fault.Honest

/-- The memories with other faults to come: those of the plan, so many calls to the flash that time
out, so many busy polls behind a write, and the cell of the eeprom that is worn out. -/
def failing (m : Media g) (plan : List Fault) (timeouts busyPolls : Nat) (stuck : Option Nat) :
    Media g :=
  { m with
    faults := plan
    flash := { m.flash with timeouts }
    eeprom := { m.eeprom with busyPolls, stuck } }

/-- The media when a call has been written into the journal and the plan has been asked. -/
def called (m : Media g) (call : Call) : Media g :=
  { m with
    faults := (Fault.next call.medium call.access m.faults).2
    journal := call :: m.journal }

/-- A call leaves readings as honest as they are. -/
theorem Honest.called (h : m.Honest) (call : Call) : (m.called call).Honest := by
  intro fault hfault
  obtain ⟨old, hold, hscope, hlapse⟩ := Fault.exists_of_mem_next hfault
  have := h old hold
  rwa [Fault.Honest, hscope, hlapse] at this

/-! ## Steps through the driver -/

section Steps

variable {value : α → Media g → Prop} {error : FailureKind → Media g → Prop}

/-- What the eeprom does it does to itself. -/
theorem ends_onEeprom (x : Action DeviceError (Eeprom g.eepromBytes) α) :
    (onEeprom x).Ends m value error ↔
      x.Ends m.eeprom (fun a eeprom => value a { m with eeprom })
        (fun e eeprom => error e.kind { m with eeprom }) := by
  simp only [Action.Ends, onEeprom, Action.mapError]
  cases h : x m.eeprom with
  | ok a s => rfl
  | error stop s => cases stop <;> rfl

/-- What the flash does it does to itself. -/
theorem ends_onFlash (x : Action DeviceError (Flash g) α) :
    (onFlash x).Ends m value error ↔
      x.Ends m.flash (fun a flash => value a { m with flash })
        (fun e flash => error e.kind { m with flash }) := by
  simp only [Action.Ends, onFlash, Action.mapError]
  cases h : x m.flash with
  | ok a s => rfl
  | error stop s => cases stop <;> rfl

/-- Submitting a call changes the plan and the journal only. -/
theorem ends_submit {value : Option Lapse → Media g → Prop} (call : Call) :
    (submit call).Ends m value error ↔
      value (Fault.next call.medium call.access m.faults).1 (m.called call) := Iff.rfl

/-- What a lapse reports is a failure or nothing. -/
theorem ends_reported {value : Unit → Media g → Prop} (lapse : Lapse) :
    (reported lapse).Ends m value error ↔
      match lapse.report with
      | some kind => error kind m
      | none => value () m := by
  unfold reported
  cases lapse.report <;> simp

variable {left kept : Media g → Prop}

/-- However the eeprom ends, it has changed itself only. -/
theorem yields_onEeprom (x : Action DeviceError (Eeprom g.eepromBytes) α) :
    (onEeprom x).Yields m value left ↔
      x.Yields m.eeprom (fun a eeprom => value a { m with eeprom })
        (fun eeprom => left { m with eeprom }) := by
  simp only [Action.Yields, onEeprom, Action.mapError]
  cases h : x m.eeprom with
  | ok a s => rfl
  | error stop s => cases stop <;> rfl

/-- However the flash ends, it has changed itself only. -/
theorem yields_onFlash (x : Action DeviceError (Flash g) α) :
    (onFlash x).Yields m value left ↔
      x.Yields m.flash (fun a flash => value a { m with flash })
        (fun flash => left { m with flash }) := by
  simp only [Action.Yields, onFlash, Action.mapError]
  cases h : x m.flash with
  | ok a s => rfl
  | error stop s => cases stop <;> rfl

/-- A submitted call is in the journal, and the plan has told its lapse. -/
theorem yields_submit {value : Option Lapse → Media g → Prop} (call : Call) :
    (submit call).Yields m value left ↔
      value (Fault.next call.medium call.access m.faults).1 (m.called call) := Iff.rfl

/-- What a lapse reports changes nothing. -/
theorem yields_reported (lapse : Lapse) (h : kept m) :
    (reported lapse).Yields m (fun _ => kept) kept := by
  unfold reported
  cases lapse.report <;> exact h

end Steps

/-- What a reading call returns has the length that its reading gives: a lapse flips bits, and no
more. -/
theorem length_of_readThrough {call : Call} {read : Action FailureKind (Media g) Bytes} {n : Nat}
    {bytes : Bytes}
    (reads : ∀ m, read.Yields m (fun bytes _ => bytes.length = n) fun _ => True)
    (h : readThrough call read m = .ok bytes m') : bytes.length = n := by
  have told (lapse : Lapse) (m : Media g) :
      (reported lapse).Yields m (fun _ _ => True) fun _ => True := yields_reported lapse trivial
  have called :
      (readThrough call read).Yields m (fun bytes _ => bytes.length = n) fun _ => True := by
    simp only [readThrough, Action.yields_bind, yields_submit]
    cases (Fault.next call.medium call.access m.faults).1 with
    | none => exact reads _
    | some lapse =>
      simp only [Action.yields_bind, Action.yields_pure, Bytes.length_flip]
      exact (told lapse _).mono (fun _ m _ => reads m) fun _ h => h
  simpa only [Action.Yields, h] using called

/-- What is read from the eeprom has the length that was asked for. -/
theorem length_of_eepromRead {address length : Nat} {bytes : Bytes}
    (h : eepromRead address length m = .ok bytes m') : bytes.length = length := by
  refine length_of_readThrough (fun m => ?_) h
  simp only [yields_onEeprom, Eeprom.read, Action.yields_bind, Action.yields_modify,
    Action.yields_ite, Action.yields_get, Action.yields_pure, Action.yields_fail, Memory.slice_eq]
  exact ⟨fun range => Bytes.length_slice (by rwa [Memory.length_toBytes]), fun _ => trivial⟩

/-- What is read from the flash has the length that was asked for. -/
theorem length_of_flashRead {address length : Nat} {bytes : Bytes}
    (h : flashRead address length m = .ok bytes m') : bytes.length = length := by
  refine length_of_readThrough (fun m => ?_) h
  simp only [yields_onFlash, Flash.read, Action.yields_bind, Action.yields_modify]
  refine Action.yields_ensure _ (fun _ => ?_) trivial
  unfold Flash.checkRange
  split
  · trivial
  · split
    · trivial
    · next range =>
      simp only [Action.ofExcept, Action.yields_pure, Action.yields_get, Memory.slice_eq]
      exact Bytes.length_slice (by rw [Memory.length_toBytes]; omega)

/-- A reading call returns what the reading gives, if no reading lies, or fails. -/
theorem readThrough_ends {call : Call} {read : Action FailureKind (Media g) Bytes}
    (honest : m.Honest) (access : call.access = .read) {value : Bytes → Media g → Prop}
    {error : FailureKind → Media g → Prop} (fails : ∀ kind, error kind (m.called call))
    (reads : read.Ends (m.called call) value error) :
    (readThrough call read).Ends m value error := by
  simp only [readThrough, Action.ends_bind, ends_submit]
  cases hlapse : (Fault.next call.medium call.access m.faults).1 with
  | none => exact reads
  | some lapse =>
    simp only [Action.ends_bind, ends_reported, Action.ends_pure]
    cases hreport : lapse.report with
    | some kind => exact fails kind
    | none =>
      obtain ⟨fault, hmem, hscope, rfl⟩ := Fault.exists_of_next_eq_some hlapse
      rw [access] at hscope
      have hmask := honest fault hmem _ hscope hreport
      simpa only [Bytes.flip_of_zero hmask] using reads

/-- What a writing call leaves is what some first part of the bytes leaves that is written. -/
theorem writeThrough_ends {call : Call} {unit : Nat} {bytes : Bytes}
    {write : Bytes → Action FailureKind (Media g) Unit} {kept : Media g → Prop}
    (idle : kept (m.called call))
    (writes : ∀ part, part <+: bytes → unit ∣ part.length ∨ part = bytes →
      (write part).Ends (m.called call) (fun _ => kept) (fun _ => kept)) :
    (writeThrough call unit write bytes).Ends m (fun _ => kept) (fun _ => kept) := by
  simp only [writeThrough, Action.ends_bind, ends_submit]
  cases (Fault.next call.medium call.access m.faults).1 with
  | none => exact writes bytes (List.prefix_refl _) (.inr rfl)
  | some lapse =>
    have reports {s : Media g} (h : kept s) :
        (reported lapse).Ends s (fun _ => kept) (fun _ => kept) := by
      rw [ends_reported]
      split <;> exact h
    -- A lapse stores whole units of the bytes.
    have whole : unit ∣ (bytes.take (min lapse.stored bytes.length / unit * unit)).length := by
      have hle := Nat.div_mul_le_self (min lapse.stored bytes.length) unit
      rw [List.length_take, Nat.min_eq_left (by omega)]
      exact Nat.dvd_mul_left _ _
    have part := writes _ (List.take_prefix _ _) (.inl whole)
    simp only [ne_eq, Action.ends_bind, Action.ends_ite]
    exact ⟨fun _ => part.mono (fun _ _ h => reports h) (fun _ _ h => h), fun _ => reports idle⟩

/-! ## Reading calls -/

/-- Nothing was written between two states of the media, and readings are as honest as before. -/
structure Quiet (m m' : Media g) : Prop where
  eeprom : m'.eeprom.memory = m.eeprom.memory
  flash : m'.flash.memory = m.flash.memory
  honest : m.Honest → m'.Honest

/-- Nothing has been written since now. -/
theorem Quiet.refl (m : Media g) : Quiet m m := ⟨rfl, rfl, id⟩

/-- Where nothing was written first and nothing then, nothing was written. -/
theorem Quiet.trans {m'' : Media g} (h : Quiet m m') (h' : Quiet m' m'') : Quiet m m'' :=
  ⟨h'.eeprom.trans h.eeprom, h'.flash.trans h.flash, h'.honest ∘ h.honest⟩

/-- The journal is not one of the memories. -/
theorem Quiet.called (m : Media g) (call : Call) : Quiet m (m.called call) :=
  ⟨rfl, rfl, fun h => h.called call⟩

/-- Reading the eeprom returns its contents or fails. -/
theorem eepromRead_ends (honest : m.Honest) {address length : Nat}
    (range : address + length ≤ g.eepromBytes) :
    (eepromRead address length).Ends m
      (fun bytes m' => Quiet m m' ∧ bytes = m.eeprom.memory.toBytes.slice address length)
      (fun _ m' => Quiet m m') := by
  refine readThrough_ends honest rfl (fun _ => Quiet.called m _) ?_
  rw [ends_onEeprom]
  simp only [Eeprom.read, Action.ends_bind, Action.ends_modify, range, if_true, Action.ends_get,
    Action.ends_pure, Memory.slice_eq]
  exact ⟨⟨rfl, rfl, fun h => h.called _⟩, rfl⟩

/-- Reading whole words of the flash returns its contents or fails. -/
theorem flashRead_ends (honest : m.Honest) {address length : Nat}
    (start : address % g.wordBytes = 0) (whole : length % g.wordBytes = 0)
    (range : address + length ≤ g.flashBytes) :
    (flashRead address length).Ends m
      (fun bytes m' => Quiet m m' ∧ bytes = m.flash.memory.toBytes.slice address length)
      (fun _ m' => Quiet m m') := by
  refine readThrough_ends honest rfl (fun _ => Quiet.called m _) ?_
  rw [ends_onFlash]
  simp only [Flash.read, Action.ends_bind, Action.ends_modify, Action.ends_ensure,
    Flash.checkRange, start, whole, Nat.not_lt.mpr range, ne_eq, not_true_eq_false, if_false,
    Action.ofExcept, Action.ends_pure, Action.ends_get, Memory.slice_eq, true_and]
  exact ⟨⟨rfl, rfl, fun h => h.called _⟩, rfl⟩

/-- Asking the eeprom whether it is busy changes nothing in the memories. -/
theorem eepromPoll_ends :
    (eepromPoll : Action FailureKind (Media g) Bool).Ends m
      (fun _ m' => Quiet m m') (fun _ m' => Quiet m m') := by
  simp only [eepromPoll, Action.ends_bind, ends_submit]
  cases (Fault.next .eeprom .poll m.faults).1 with
  | none =>
    simp only [ends_onEeprom, Eeprom.poll, Action.ends_modifyGet]
    refine ⟨?_, rfl, fun h => h.called _⟩
    by_cases idle : m.eeprom.busyLeft = 0
    · simp only [called, idle, if_true]
    · by_cases stays : m.eeprom.busyLeft = Eeprom.endless
        <;> simp only [called, idle, stays] <;> rfl
  | some lapse =>
    simp only [Action.ends_bind, ends_reported, Action.ends_pure]
    split <;> exact Quiet.called m _

/-! ## Changing calls -/

/-- Between two states of the media, each byte of the eeprom stayed as it was or became as in
`eeprom`, each byte of the flash stayed as it was or became as in `flash`, and readings are as
honest as before. -/
structure Stirred (m : Media g) (eeprom flash : Bytes) (m' : Media g) : Prop where
  eeprom : Bytes.Mixed m.eeprom.memory.toBytes eeprom m'.eeprom.memory.toBytes
  flash : Bytes.Mixed m.flash.memory.toBytes flash m'.flash.memory.toBytes
  honest : m.Honest → m'.Honest

/-- What a worn out cell lets through of a writing is part of it. -/
theorem mixed_replace {size : Nat} (memory : Memory size) (stuck : Option Nat) {address : Nat}
    {part bytes : Bytes} (range : address + bytes.length ≤ size) (h : part <+: bytes) :
    Bytes.Mixed memory.toBytes (memory.toBytes.overlay address bytes)
      (memory.combine (Eeprom.replace stuck) address part).toBytes := by
  have cell (i : Nat) : (memory.combine (Eeprom.replace stuck) address part).toBytes[i]? =
      if stuck = some i then memory.toBytes[i]?
      else (memory.combine (fun _ _ new => new) address part).toBytes[i]? := by
    simp only [Memory.getElem?_toBytes_combine, Eeprom.replace]
    by_cases hs : stuck = some i
    · cases part[i - address]? <;> simp [hs]
    · simp [hs]
  rw [← Memory.toBytes_combine_replace memory range]
  intro i
  rw [cell]
  split
  · exact .inl rfl
  · exact Memory.mixed_combine _ memory address h i

/-- Writing the eeprom leaves each byte as it was or as it should be, and the flash alone. -/
theorem eepromWrite_ends {address : Nat} {bytes : Bytes}
    (range : address + bytes.length ≤ g.eepromBytes) :
    (eepromWrite address bytes).Ends m
      (fun _ => Stirred m (m.eeprom.memory.toBytes.overlay address bytes)
        m.flash.memory.toBytes)
      (fun _ => Stirred m (m.eeprom.memory.toBytes.overlay address bytes)
        m.flash.memory.toBytes) := by
  refine writeThrough_ends ⟨.refl _ _, .refl _ _, fun h => h.called _⟩ fun part hpart _ => ?_
  have hlen := hpart.length_le
  have fits : address + part.length ≤ g.eepromBytes := by omega
  simp only [ends_onEeprom, Eeprom.write, Action.ends_bind, Action.ends_modify, fits, if_true]
  exact ⟨mixed_replace _ _ range hpart, .refl _ _, fun h => h.called _⟩

/-- Programming whole units of the flash clears all or some of the bits that are to be cleared, and
leaves the eeprom alone. -/
theorem flashProgram_ends {address : Nat} {bytes : Bytes} (start : address % g.wordBytes = 0)
    (whole : bytes.length % g.wordBytes = 0) (range : address + bytes.length ≤ g.flashBytes) :
    let wanted := (m.flash.memory.combine (fun _ old new => old &&& new) address bytes).toBytes
    (flashProgram address bytes).Ends m (fun _ => Stirred m m.eeprom.memory.toBytes wanted)
      (fun _ => Stirred m m.eeprom.memory.toBytes wanted) := by
  refine writeThrough_ends ⟨.refl _ _, .refl _ _, fun h => h.called _⟩ fun part hpart hunit => ?_
  have hlen := hpart.length_le
  have fits : ¬ g.flashBytes < address + part.length := by omega
  have units : part.length % g.wordBytes = 0 := by
    rcases hunit with hdvd | rfl
    · exact Nat.mod_eq_zero_of_dvd hdvd
    · exact whole
  simp only [ends_onFlash, Flash.program, Action.ends_bind, Action.ends_modify, Flash.takeTimeout,
    Action.ends_get, ne_eq, ite_not, Action.ends_ite, Action.ends_pure, Action.ends_fail,
    Flash.checkRange, start, units, fits, not_true_eq_false, if_false, Action.ofExcept,
    Action.ends_ensure, true_and]
  exact ⟨fun _ => ⟨.refl _ _, Memory.mixed_combine _ _ _ hpart, fun h => h.called _⟩,
    fun _ => ⟨.refl _ _, .refl _ _, fun h => h.called _⟩⟩

/-- Erasing pages of the flash sets all of their bits or none, and leaves the eeprom alone. -/
theorem flashErase_ends {start stop : Nat} (order : start ≤ stop) (range : stop ≤ g.flashBytes)
    (first : start % g.pageBytes = 0) (last : stop % g.pageBytes = 0) :
    let wanted := m.flash.memory.toBytes.overlay start (List.replicate (stop - start) 0xFF)
    (flashErase start stop).Ends m (fun _ => Stirred m m.eeprom.memory.toBytes wanted)
      (fun _ => Stirred m m.eeprom.memory.toBytes wanted) := by
  intro wanted
  have erases : (onFlash (Flash.erase start stop)).Ends
      (m.called ⟨.flash, .erase, start, stop - start⟩)
      (fun _ => Stirred m m.eeprom.memory.toBytes wanted)
      (fun _ => Stirred m m.eeprom.memory.toBytes wanted) := by
    have hwanted : (m.flash.memory.combine (fun _ _ new => new) start
        (List.replicate (stop - start) 0xFF)).toBytes =
        m.flash.memory.toBytes.overlay start (List.replicate (stop - start) 0xFF) :=
      Memory.toBytes_combine_replace _ (by rw [List.length_replicate]; omega)
    simp only [ends_onFlash, Flash.erase, Action.ends_bind, Action.ends_modify, Flash.takeTimeout,
      Action.ends_get, ne_eq, ite_not, Action.ends_ite, Action.ends_pure, Action.ends_fail,
      Action.ends_ensure, order, Nat.not_lt.mpr range, first, last, not_true_eq_false, or_self,
      false_implies, not_false_eq_true, true_implies, true_and]
    exact ⟨fun _ => ⟨.refl _ _, hwanted ▸ .all _ _, fun h => h.called _⟩,
      fun _ => ⟨.refl _ _, .refl _ _, fun h => h.called _⟩⟩
  -- A lapse erases or does not, and whether it claims success is another matter.
  simp only [flashErase, Action.ends_bind, ends_submit]
  cases (Fault.next .flash .erase m.faults).1 with
  | none => exact erases
  | some lapse =>
    have reports {s : Media g} (h : Stirred m m.eeprom.memory.toBytes wanted s) :
        (reported lapse).Ends s (fun _ => Stirred m m.eeprom.memory.toBytes wanted)
          (fun _ => Stirred m m.eeprom.memory.toBytes wanted) := by
      rw [ends_reported]
      split <;> exact h
    simp only [Action.ends_bind, Action.ends_ite]
    exact ⟨fun _ => erases.mono (fun _ _ h => reports h) (fun _ _ h => h),
      fun _ => reports ⟨.refl _ _, .refl _ _, fun h => h.called _⟩⟩

end Media

end CircularLog
