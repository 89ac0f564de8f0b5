import CircularLog.Proofs.Media.Journal
import CircularLog.Proofs.Space.Conduct

/-!
# A slow eeprom

A plan is slow if its faults are for polls of the eeprom only, and let them answer anything. Every
other call does what it should then, so nothing can go wrong with a read, and of a write to the
eeprom only the waiting can be in vain: its bytes are there all the same, and the journal ends with
the call and as many polls as are made at most (`Stalled`, `write_slow`).
-/

namespace CircularLog

/-! ## Slow plans -/

/-- The fault is for polls of the eeprom, and they get an answer. -/
def Fault.Slow (fault : Fault) : Prop :=
  ∀ target ∈ fault.scope, target = (.eeprom, .poll) ∧ fault.lapse.report = none

instance (fault : Fault) : Decidable fault.Slow :=
  inferInstanceAs (Decidable (∀ target ∈ fault.scope, _))

/-- The eeprom is never done: each poll of it answers that it is busy. -/
def Fault.stalling : Fault := ⟨[(.eeprom, .poll)], 0, none, ⟨0, none, [], true⟩⟩

/-- The eeprom has been polled in vain behind this call, which came behind the earlier ones. -/
def Stalled (call : Call) (earlier journal : List Call) : Prop :=
  journal = List.replicate pollLimit ⟨.eeprom, .poll, 0, 0⟩ ++ call :: earlier

/-- Waiting has been in vain. -/
def Manner.stalling : Manner := ⟨(· = .busy), 0⟩

namespace Phase

variable {plan : List Fault} {journal : List Call}

/-- The faults to come are slow. -/
def slow : Phase := fun plan _ => ∀ fault ∈ plan, fault.Slow

/-- What is left of a slow plan is slow. -/
theorem slow_next (h : slow plan journal) (medium : Medium) (access : Access)
    (journal' : List Call) : slow (Fault.next medium access plan).2 journal' := by
  intro fault hfault
  obtain ⟨old, hold, hscope, hlapse⟩ := Fault.exists_of_mem_next hfault
  have hslow := h old hold
  rwa [Fault.Slow, hscope, hlapse] at hslow

/-- A call that is no poll passes. -/
theorem meets_slow {manner : Manner} {failed : FailureKind → Phase} (h : slow plan journal)
    (call : Call) (hcall : call.access ≠ .poll) : call.Meets manner slow failed plan journal := by
  have hnext := slow_next h call.medium call.access (call :: journal)
  unfold Call.Meets
  cases hlapse : Fault.next call.medium call.access plan with
  | mk lapse plan' =>
    rw [hlapse] at hnext
    cases lapse with
    | none => exact hnext
    | some lapse =>
      obtain ⟨fault, hfault, hscope, -⟩ := Fault.exists_of_next_eq_some (congrArg Prod.fst hlapse)
      exact absurd (congrArg Prod.snd (h fault hfault _ hscope).1) hcall

/-- Polls get an answer. -/
theorem restless_slow : Manner.stalling.Restless slow slow where
  busy := rfl
  dark h := h
  poll {plan journal} h lapse plan' hnext := by
    have hslow := slow_next h .eeprom .poll (⟨.eeprom, .poll, 0, 0⟩ :: journal)
    rw [hnext] at hslow
    refine ⟨hslow, fun kind hreport => ?_⟩
    obtain ⟨lapse, rfl, hkind⟩ := Option.bind_eq_some_iff.mp hreport
    obtain ⟨fault, hfault, hscope, rfl⟩ :=
      Fault.exists_of_next_eq_some (congrArg Prod.fst hnext)
    rw [(h fault hfault _ hscope).2] at hkind
    cases hkind

end Phase

/-! ## Calls -/

namespace Space

open Media (Stands)
open Phase (slow)

variable {g : Geometry} {space : Space g} {m : Media g} {eeprom flash : Bytes} {image : Bytes}
  {around : Bytes × Bytes}

/-- Reading does not fail. -/
theorem view_of_slow : View (g := g) (Stands slow eeprom flash)
    (fun _ _ => False) eeprom flash where
  eepromRead {m address length} hm range := by
    have hread : (Media.eepromRead address length).Ends m _ fun kind m' =>
        Manner.stalling.tells (.device .eeprom kind) ∧ Stands .never eeprom flash m' :=
      Media.eepromRead_meets hm.1.able (Phase.meets_slow hm.1.phase _ (by simp)) hm.2 range
    exact hread.mono (fun _ _ h => h) fun _ _ h => h.2.1.phase
  flashRead {m address length} hm start whole range := by
    have hread : (Media.flashRead address length).Ends m _ fun kind m' =>
        Manner.stalling.tells (.device .flash kind) ∧ Stands .never eeprom flash m' :=
      Media.flashRead_meets hm.1.able (Phase.meets_slow hm.1.phase _ (by simp)) hm.2
        start whole range
    exact hread.mono (fun _ _ h => h) fun _ _ h => h.2.1.phase

/-- Waiting changes nothing; where it is in vain, it has been polled so many times. -/
theorem awaitIdle_slow (polls : Nat) (hm : Stands slow eeprom flash m) :
    (awaitIdle polls).Ends m (fun _ => Stands slow eeprom flash)
      fun e m' => e = .busy ∧ Stands slow eeprom flash m' ∧
        m'.journal = List.replicate polls ⟨.eeprom, .poll, 0, 0⟩ ++ m.journal := by
  induction polls generalizing m with
  | zero => exact ⟨rfl, hm, rfl⟩
  | succ polls ih =>
    simp only [awaitIdle, Action.ends_bind, ends_driver, Action.ends_ite, Action.ends_pure]
    apply ((Media.eepromPoll_restless Phase.restless_slow hm).and_yields
      (Media.logs_eepromPoll m)).mono
    · rintro busy m₁ ⟨h₁, hjournal⟩
      refine ⟨fun _ => (ih h₁).mono (fun _ _ h => h) ?_, fun _ => h₁⟩
      rintro e m₂ ⟨he, h₂, hjournal₂⟩
      refine ⟨he, h₂, ?_⟩
      rw [hjournal₂, hjournal, List.replicate_succ', List.append_assoc, List.singleton_append]
    · rintro kind m₁ ⟨⟨htells, -⟩, -⟩
      cases htells

/-- The bytes of a write to the eeprom are there, even where waiting for it has been in vain. -/
theorem writeEeprom_slow (hm : Stands slow eeprom flash m) {address : Nat} {bytes : Bytes}
    (short : g.eepromBytes < 0x1_0000_0000) (range : address + bytes.length ≤ g.eepromBytes) :
    (writeEeprom address bytes).Ends m
      (fun _ => Stands slow (eeprom.overlay address bytes) flash)
      fun e m' => e = .busy ∧ Stands slow (eeprom.overlay address bytes) flash m' ∧
        Stalled ⟨.eeprom, .write, address, bytes.length⟩ m.journal m'.journal := by
  have hlen : eeprom.length = g.eepromBytes := by
    rw [← hm.2.eeprom, Memory.length_toBytes]
  have hoverlay := Bytes.length_overlay (hlen ▸ range)
  have hwrite : (Media.eepromWrite address bytes).Ends m
      (fun _ m' => Stands slow (eeprom.overlay address bytes) flash m' ∧
        m'.eeprom.busyLeft < pollLimit)
      (fun kind m' => Manner.stalling.tells (.device .eeprom kind) ∧
        Stands .never (eeprom.overlay address (bytes.take 0)) flash m') :=
    Media.eepromWrite_meets hm.1.able (Phase.meets_slow hm.1.phase _ (by simp)) hm.2 range
  simp only [writeEeprom, Action.ends_bind, ends_driver]
  apply (hwrite.and_yields (Media.logs_eepromWrite address bytes m)).mono
  · rintro _ m₁ ⟨⟨h₁, -⟩, hjournal⟩
    apply (awaitIdle_slow pollLimit h₁).mono
    · intro _ m₂ h₂
      apply (confirm_eeprom_ends view_of_slow h₂ (hoverlay.trans hlen) short (by omega)).mono
      · exact fun _ _ h => h.1
      · rintro e m₃ (hnever | ⟨-, -, differs⟩)
        · exact hnever.elim
        · exact absurd (Bytes.slice_overlay (hlen ▸ range)) differs
    · rintro e m₂ ⟨he, h₂, hjournal₂⟩
      exact ⟨he, h₂, by rw [Stalled, hjournal₂, hjournal]⟩
  · rintro kind m₁ ⟨⟨htells, -⟩, -⟩
    cases htells

/-! ## The space -/

/-- Where all bytes lie in the eeprom, they are written there and nothing else. -/
theorem write_eq_writeEeprom {address : Nat} {bytes : Bytes} (some : bytes ≠ [])
    (range : address + bytes.length ≤ space.boundary) :
    space.write address bytes = writeEeprom address bytes := by
  have hpos := List.length_pos_iff.mpr some
  have hnear : space.eepromPart address bytes.length = bytes.length := by
    unfold eepromPart
    omega
  have hinside : address + bytes.length ≤ space.total := by
    unfold total
    omega
  simp only [write_eq, if_neg some, require_of_le hinside, pure_bind, hnear,
    if_pos (Nat.ne_of_gt hpos),
    List.take_length, Nat.sub_self, Geometry.pageParts, if_true, Bytes.cut, writePieces]
  exact bind_pure_unit

/-- Writing in the eeprom lays the bytes over the image, even where waiting has been in vain. -/
theorem write_slow (t : space.Truthful) (h : space.Exposes slow around image m) {address : Nat}
    {bytes : Bytes} (range : address + bytes.length ≤ space.boundary) :
    (space.write address bytes).Ends m
      (fun _ => space.Exposes slow around (image.overlay address bytes))
      fun e m' => e = .busy ∧ space.Exposes slow around (image.overlay address bytes) m' ∧
        Stalled ⟨.eeprom, .write, address, bytes.length⟩ m.journal m'.journal := by
  have hboundary := t.boundary_eq
  have exposes {m' : Media g} (h' : Stands slow (m.eeprom.memory.toBytes.overlay address bytes)
      m.flash.memory.toBytes m') : space.Exposes slow around (image.overlay address bytes) m' :=
    h.wrote h'.1 (wrote_eeprom t range h'.2.eeprom h'.2.flash)
  by_cases some : bytes = []
  · rw [some, Bytes.overlay_nil, write_eq, if_pos rfl]
    exact h
  · rw [write_eq_writeEeprom some range]
    apply (writeEeprom_slow ⟨h.under, rfl, rfl⟩ t.eepromBytes_lt (by omega)).mono
    · exact fun _ _ h' => exposes h'
    · exact fun e m' h' => ⟨h'.1, exposes h'.2.1, h'.2.2⟩

/-- If the eeprom is never done, the waiting is in vain. -/
theorem awaitIdle_stalling (polls : Nat) (hm : m.faults = [.stalling]) :
    (awaitIdle polls).Ends m (fun _ _ => False)
      fun e m' => e = .busy ∧ m'.faults = [.stalling] := by
  induction polls generalizing m with
  | zero => exact ⟨rfl, hm⟩
  | succ polls ih =>
    have hpoll : (Media.eepromPoll (g := g)).Ends m
        (fun busy m' => busy = true ∧ m'.faults = [.stalling]) fun _ _ => False := by
      obtain ⟨eeprom, flash, faults, journal⟩ := m
      obtain rfl : faults = [.stalling] := hm
      exact ⟨rfl, rfl⟩
    simp only [awaitIdle, Action.ends_bind, ends_driver, Action.ends_ite, Action.ends_pure]
    apply hpoll.mono
    · rintro busy m' ⟨rfl, hm'⟩
      exact ⟨fun _ => ih hm', fun hidle => absurd rfl hidle⟩
    · exact fun _ _ h => h.elim

/-- If the eeprom is never done, nothing can be written to it. -/
theorem write_stalling (t : space.Truthful) (hm : m.faults = [.stalling]) {address : Nat}
    {bytes : Bytes} (some : bytes ≠ []) (range : address + bytes.length ≤ space.boundary) :
    (space.write address bytes).Ends m (fun _ _ => False)
      fun e m' => e = .busy ∧ m'.faults = [.stalling] := by
  have hwrite : (Media.eepromWrite address bytes).Ends m (fun _ m' => m'.faults = [.stalling])
      fun _ _ => False := by
    have fits : address + bytes.length ≤ g.eepromBytes := t.boundary_eq ▸ range
    have passes : Fault.next .eeprom .write [.stalling] = (none, [.stalling]) := rfl
    obtain ⟨eeprom, flash, faults, journal⟩ := m
    obtain rfl : faults = [.stalling] := hm
    simp [Media.eepromWrite, Media.writeThrough, Media.submit, Media.onEeprom, Eeprom.write,
      Action.Ends, Action.mapError, Action.bind_apply, fits, passes]
  rw [write_eq_writeEeprom some range, writeEeprom]
  simp only [Action.ends_bind, ends_driver]
  apply hwrite.mono
  · intro _ m' hm'
    apply (awaitIdle_stalling pollLimit hm').mono
    · exact fun _ _ h => h.elim
    · exact fun _ _ h => h
  · exact fun _ _ h => h.elim

/-- Reading does not fail. -/
theorem legible_of_slow (u : g.Uniform) (t : space.Truthful) (around : Bytes × Bytes) :
    space.Legible 0 space.total (space.Exposes slow around) .never where
  inside := Nat.le_refl _
  length h := by rw [← h.image, space.length_image t]
  read {image m} h {address length} _ range := by
    apply (read_ends view_of_slow u t (fits_contents t m) ⟨h.under, rfl, rfl⟩ range).mono
    · rintro _ m' ⟨⟨hunder, hshows⟩, rfl⟩
      exact ⟨h.shows hshows hunder, by rw [← space.image_eq, h.image]⟩
    · exact fun _ _ hnever => hnever.elim

/-- A write in the eeprom has been waited for in vain, and the memories are of this kind then. -/
def Mishap.stalling (stuck : Bytes → Media g → Prop) : Mishap g where
  tells := (· = .busy)
  cuts _ bytes n := n = bytes.length
  stuck := stuck
  torn _ := False

/-- All of a write is there that has been waited for in vain. -/
theorem Begun.eq_overlay {stuck : Bytes → Media g → Prop} {address : Nat} {bytes image' : Bytes}
    (h : Begun (.stalling stuck) image address bytes image') :
    image' = image.overlay address bytes := by
  obtain ⟨n, rfl, -, rfl⟩ := h
  rw [List.take_length]

/-- The memories are sound, and the eeprom has been polled in vain behind the last write to it. -/
def Stalls (space : Space g) (around : Bytes × Bytes) (image : Bytes) (m : Media g) : Prop :=
  space.Exposes slow around image m ∧
    ∃ address length earlier, Stalled ⟨.eeprom, .write, address, length⟩ earlier m.journal

/-- How a space behaves in a slow eeprom. -/
theorem conduct_of_slow (u : g.Uniform) (t : space.Truthful) (around : Bytes × Bytes) :
    space.Conduct 0 space.boundary (space.Exposes slow around)
      (.stalling (space.Stalls around)) where
  inside := by
    unfold total
    omega
  length h := by rw [← h.image, space.length_image t]
  read {image m} h {address length} _ range :=
    ((legible_of_slow u t around).read h (Nat.zero_le _) (by unfold total; omega)).mono
      (fun _ _ h' => h') fun _ _ hnever => (not_halts hnever).elim
  write {image m} h {address bytes} _ range := by
    apply (write_slow t h range).mono
    · exact fun _ _ h' => h'
    · rintro e m' ⟨he, h', hstalled⟩
      exact ⟨he, .inr ⟨_, ⟨_, rfl, Nat.le_refl _, by rw [List.take_length]⟩, h', _, _, _, hstalled⟩⟩

end Space

end CircularLog
