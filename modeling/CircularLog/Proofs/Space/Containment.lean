import CircularLog.Proofs.Space.Write

/-!
# How far a failing write can reach

Whatever becomes of the driver calls of a write, and whether it ends with an error or with a
defect, what it can spoil is bounded (`reach_of_write`). Nothing is asked of the space here: its
words need not fit into the pages and its capacities need not be those of the memories, as a call
that the memories refuse changes nothing. Only readings have to be honest, since the bytes around a
request are programmed over themselves.

The pieces of a request are written one after the other, each inside its page, so a write stops in
one piece: those before are in their places, those behind are untouched (`writePieces_cases`), and
the damage is that of the piece (`Damaged`). Within a piece, each step is followed by what it leaves
however it ends: programming clears bits of the words (`programWords_yields`), and renewing a page
erases it first (`renewPage_yields`).
-/

namespace CircularLog

namespace Media

variable {g : Geometry} {m : Media g} {left kept : Media g → Prop}

/-! ## Calls with a lapse -/

/-- A reading call returns what the reading gives, if no reading lies. -/
theorem readThrough_yields {call : Call} {read : Action FailureKind (Media g) Bytes}
    (honest : m.Honest) (access : call.access = .read) {value : Bytes → Media g → Prop}
    (stops : left (m.called call)) (reads : read.Yields (m.called call) value left) :
    (readThrough call read).Yields m value left := by
  simp only [readThrough, Action.yields_bind, yields_submit]
  cases hlapse : (Fault.next call.medium call.access m.faults).1 with
  | none => exact reads
  | some lapse =>
    simp only [Action.yields_bind, Action.yields_pure]
    cases hreport : lapse.report with
    | some kind =>
      rw [reported, hreport]
      exact stops
    | none =>
      obtain ⟨fault, hmem, hscope, rfl⟩ := Fault.exists_of_next_eq_some hlapse
      rw [access] at hscope
      have hmask := honest fault hmem _ hscope hreport
      rw [reported, hreport]
      simpa only [Action.yields_pure, Bytes.flip_of_zero hmask] using reads

/-- What a writing call leaves, some first part of the bytes leaves when it is written. -/
theorem writeThrough_yields {call : Call} {unit : Nat} {bytes : Bytes}
    {write : Bytes → Action FailureKind (Media g) Unit} (idle : kept (m.called call))
    (writes : ∀ part, part <+: bytes → (write part).Yields (m.called call) (fun _ => kept) kept) :
    (writeThrough call unit write bytes).Yields m (fun _ => kept) kept := by
  simp only [writeThrough, Action.yields_bind, yields_submit]
  cases (Fault.next call.medium call.access m.faults).1 with
  | none => exact writes bytes (List.prefix_refl _)
  | some lapse =>
    simp only [ne_eq, Action.yields_bind, Action.yields_ite]
    exact ⟨fun _ => (writes _ (List.take_prefix _ _)).mono (fun _ _ h => yields_reported lapse h)
      fun _ h => h, fun _ => yields_reported lapse idle⟩

/-! ## The driver calls -/

/-- Reading the eeprom returns its contents, or stops; it changes nothing. -/
theorem eepromRead_yields (honest : m.Honest) (address length : Nat) :
    (eepromRead address length).Yields m
      (fun bytes m' => Quiet m m' ∧ address + length ≤ g.eepromBytes ∧
        bytes = m.eeprom.memory.toBytes.slice address length)
      (Quiet m) := by
  refine readThrough_yields honest rfl (Quiet.called m _) ?_
  simp only [yields_onEeprom, Eeprom.read, Action.yields_bind, Action.yields_modify,
    Action.yields_ite, Action.yields_get, Action.yields_pure, Action.yields_fail, Memory.slice_eq]
  have quiet := Quiet.called m ⟨.eeprom, .read, address, length⟩
  exact ⟨fun range => ⟨⟨rfl, rfl, quiet.honest⟩, range, rfl⟩, fun _ => ⟨rfl, rfl, quiet.honest⟩⟩

/-- Reading the flash returns its contents, or stops; it changes nothing. -/
theorem flashRead_yields (honest : m.Honest) (address length : Nat) :
    (flashRead address length).Yields m
      (fun bytes m' => Quiet m m' ∧ address + length ≤ g.flashBytes ∧
        bytes = m.flash.memory.toBytes.slice address length)
      (Quiet m) := by
  refine readThrough_yields honest rfl (Quiet.called m _) ?_
  have honest' := (Quiet.called m ⟨.flash, .read, address, length⟩).honest
  simp only [yields_onFlash, Flash.read, Action.yields_bind, Action.yields_modify]
  refine Action.yields_ensure _ (fun _ => ?_) ⟨rfl, rfl, honest'⟩
  unfold Flash.checkRange
  by_cases first : address % g.wordBytes = 0
  · by_cases range : g.flashBytes < address + length
    · rw [if_neg (Decidable.not_not.mpr first), if_pos range]
      exact ⟨rfl, rfl, honest'⟩
    · rw [if_neg (Decidable.not_not.mpr first), if_neg range]
      simp only [Action.ofExcept, Action.yields_pure, Action.yields_get, Memory.slice_eq]
      exact ⟨⟨rfl, rfl, honest'⟩, Nat.le_of_not_lt range, rfl⟩
  · rw [if_pos first]
    exact ⟨rfl, rfl, honest'⟩

/-- Between two states of the media, no cell of the eeprom but these was written, and none of the
flash; readings are as honest as before. -/
structure KeptAround (m : Media g) (address length : Nat) (m' : Media g) : Prop where
  eeprom : ∀ i, i < address ∨ address + length ≤ i →
    m'.eeprom.memory.toBytes[i]? = m.eeprom.memory.toBytes[i]?
  flash : m'.flash.memory = m.flash.memory
  honest : m.Honest → m'.Honest

/-- What is quiet may follow. -/
theorem KeptAround.quiet {m₁ m₂ : Media g} {address length : Nat}
    (h : KeptAround m address length m₁) (h' : Quiet m₁ m₂) : KeptAround m address length m₂ :=
  ⟨h'.eeprom ▸ h.eeprom, h'.flash.trans h.flash, h'.honest ∘ h.honest⟩

/-- Writing the eeprom leaves everything around the bytes as it was. -/
theorem eepromWrite_yields (address : Nat) (bytes : Bytes) :
    (eepromWrite address bytes).Yields m (fun _ => KeptAround m address bytes.length)
      (KeptAround m address bytes.length) := by
  have honest' := (Quiet.called m ⟨.eeprom, .write, address, bytes.length⟩).honest
  refine writeThrough_yields ⟨fun _ _ => rfl, rfl, honest'⟩ fun part hpart => ?_
  have hlen := hpart.length_le
  simp only [yields_onEeprom, Eeprom.write, Action.yields_bind, Action.yields_modify,
    Action.yields_ite, Action.yields_fail]
  refine ⟨fun _ => ⟨fun i hi => ?_, rfl, honest'⟩, fun _ => ⟨fun _ _ => rfl, rfl, honest'⟩⟩
  exact Memory.getElem?_toBytes_combine_of_outside _ _ (by omega)

/-- Programming the flash clears all or some of the bits that are to be cleared, or nothing where
the call is refused. -/
theorem flashProgram_yields (address : Nat) (bytes : Bytes) :
    let wanted := (m.flash.memory.combine (fun _ old new => old &&& new) address bytes).toBytes
    (flashProgram address bytes).Yields m (fun _ => Stirred m m.eeprom.memory.toBytes wanted)
      (Stirred m m.eeprom.memory.toBytes wanted) := by
  intro wanted
  have honest' := (Quiet.called m ⟨.flash, .write, address, bytes.length⟩).honest
  refine writeThrough_yields ⟨.refl _ _, .refl _ _, honest'⟩ fun part hpart => ?_
  simp only [yields_onFlash, Flash.program, Action.yields_bind, Action.yields_modify,
    Flash.takeTimeout, Action.yields_get, ne_eq, ite_not, Action.yields_ite, Action.yields_pure,
    Action.yields_fail]
  refine ⟨fun _ => ?_, fun _ => ⟨.refl _ _, .refl _ _, honest'⟩⟩
  cases Flash.checkRange g address part.length with
  | error e => exact ⟨.refl _ _, .refl _ _, honest'⟩
  | ok _ =>
    refine Action.yields_ensure _ (fun _ => ?_) ⟨.refl _ _, .refl _ _, honest'⟩
    exact ⟨.refl _ _, Memory.mixed_combine _ _ _ hpart, honest'⟩

end Media

namespace Space

variable {g : Geometry} {space : Space g} {m m₁ : Media g} {left : Media g → Prop}

/-- Between two states of the media, these bytes were laid over the flash, inside of it; readings
are as honest as before. -/
structure Put (m : Media g) (address : Nat) (bytes : Bytes) (m' : Media g) : Prop where
  range : bytes ≠ [] → address + bytes.length ≤ g.flashBytes
  eeprom : m'.eeprom.memory.toBytes = m.eeprom.memory.toBytes
  flash : m'.flash.memory.toBytes = m.flash.memory.toBytes.overlay address bytes
  honest : m.Honest → m'.Honest

/-- Nothing has been laid over the flash since now. -/
theorem Put.refl (m : Media g) (address : Nat) : Put m address [] m := ⟨nofun, rfl, by simp, id⟩

/-- What is put right behind other bytes joins them. -/
theorem Put.append {m₂ : Media g} {address : Nat} {front back : Bytes} (h : Put m address front m₁)
    (h' : Put m₁ (address + front.length) back m₂) : Put m address (front ++ back) m₂ := by
  have hlen := m.flash.memory.length_toBytes
  by_cases hback : back = []
  · subst hback
    rw [List.append_nil]
    exact ⟨h.range, h'.eeprom.trans h.eeprom, by rw [h'.flash, h.flash, Bytes.overlay_nil],
      h'.honest ∘ h.honest⟩
  · have hrange : address + (front ++ back).length ≤ g.flashBytes := by
      rw [List.length_append, ← Nat.add_assoc]
      exact h'.range hback
    exact ⟨fun _ => hrange, h'.eeprom.trans h.eeprom,
      by rw [h'.flash, h.flash, Bytes.overlay_append (by rwa [hlen])], h'.honest ∘ h.honest⟩

/-- A driver call stops as it does by itself. -/
@[simp] theorem yields_driver {α : Type} {value : α → Media g → Prop} {left : Media g → Prop}
    (medium : Medium) (x : Action FailureKind (Media g) α) :
    (driver medium x).Yields m value left ↔ x.Yields m value left :=
  Action.yields_mapError _ _

/-- Rounding down that does not fit a word changes nothing. -/
theorem yields_roundDown {value : Nat → Media g → Prop} {unit address first : Nat}
    (hfirst : unitFloor unit address = first) (holds : value first m) (stops : left m) :
    (roundDown unit address : Action Error (Media g) Nat).Yields m value left := by
  subst hfirst
  exact Action.yields_product _ _ _ (fun _ => holds) stops

/-- Rounding up that does not fit a word changes nothing. -/
theorem yields_roundUp {value : Nat → Media g → Prop} {unit address last : Nat}
    (hlast : unitCeil unit address = last) (holds : value last m) (stops : left m) :
    (roundUp unit address : Action Error (Media g) Nat).Yields m value left := by
  subst hlast
  unfold roundUp
  unfold unitCeil at holds
  split
  · next whole =>
    rw [if_pos whole] at holds
    exact holds
  · next whole =>
    rw [if_neg whole] at holds
    rw [Action.yields_bind]
    refine Action.yields_difference _ _ (fun _ => ?_) stops
    exact Action.yields_sum _ _ _ (fun _ => holds) stops

/-- Comparing ends with a value only if the chunks are there; it changes nothing. -/
theorem confirm_yields {read : Nat → Nat → Action Error (Media g) Bytes} {contents : Bytes}
    (reads : ∀ {m₁} address length, Media.Quiet m m₁ → (read address length).Yields m₁
      (fun bytes m' => Media.Quiet m m' ∧ address + length ≤ contents.length ∧
        bytes = contents.slice address length) (Media.Quiet m))
    (quiet : Media.Quiet m m₁) (address size index : Nat) {chunks : List Bytes}
    (even : Bytes.Even size (chunks.map List.length)) :
    (confirm read address size index chunks).Yields m₁
      (fun _ m' => Media.Quiet m m' ∧
        (chunks ≠ [] → address + index * size + chunks.flatten.length ≤ contents.length) ∧
        contents.slice (address + index * size) chunks.flatten.length = chunks.flatten)
      (Media.Quiet m) := by
  induction chunks generalizing m₁ index with
  | nil => exact ⟨quiet, nofun, by simp⟩
  | cons chunk chunks ih =>
    obtain ⟨-, full, even⟩ := even
    simp only [confirm, Action.yields_bind, Action.yields_ite, Action.yields_fail,
      List.flatten_cons, List.length_append]
    refine Action.yields_product _ _ _ (fun _ => ?_) quiet
    refine Action.yields_sum _ _ _ (fun _ => ?_) quiet
    refine (Action.settled_front _ _).yields (fun _ => ?_) quiet
    refine (reads (address + index * size) chunk.length quiet).mono ?_ fun _ h => h
    rintro _ m₂ ⟨quiet₂, range, rfl⟩
    refine ⟨fun same => ?_, fun _ => quiet₂⟩
    cases chunks with
    | nil => exact ⟨quiet₂, fun _ => by simpa using range, by simpa using same⟩
    | cons second others =>
      -- Only the last chunk is shorter than the others, so the next one is where this one stops.
      have next : address + (index + 1) * size = address + index * size + chunk.length := by
        rw [full (by simp), Nat.succ_mul, Nat.add_assoc]
      refine (ih quiet₂ (index + 1) even).mono ?_ fun _ h => h
      rintro _ m₃ ⟨quiet₃, ranges, there⟩
      rw [next] at ranges there
      refine ⟨quiet₃, fun _ => ?_, by rw [Bytes.slice_add, same, there]⟩
      simpa only [Nat.add_assoc] using ranges (by simp)

/-- Chunks of some bytes are there. -/
theorem chunks_ne_nil {size : Nat} {bytes : Bytes} (some : bytes ≠ []) :
    bytes.chunks size ≠ [] := by
  intro hnil
  have hflat := Bytes.flatten_chunks size bytes
  rw [hnil, List.flatten_nil] at hflat
  exact some hflat.symm

/-- A write to the eeprom that ends with a value has laid its bytes over the contents; one that
stops has changed at most these bytes. -/
theorem writeEeprom_yields (honest : m.Honest) {address : Nat} {bytes : Bytes} (some : bytes ≠ []) :
    (writeEeprom address bytes).Yields m
      (fun _ m' => Media.KeptAround m address bytes.length m' ∧
        m'.eeprom.memory.toBytes = m.eeprom.memory.toBytes.overlay address bytes)
      (Media.KeptAround m address bytes.length) := by
  have hlen := m.eeprom.memory.length_toBytes
  have hflat := Bytes.flatten_chunks chunkBytes bytes
  simp only [writeEeprom, Action.yields_bind, yields_driver]
  refine (Media.eepromWrite_yields address bytes).mono ?_ fun _ h => h
  intro _ m₁ h₁
  have hlen₁ := m₁.eeprom.memory.length_toBytes
  refine ((awaitIdle_ends pollLimit).yields fun _ _ h => h.2).mono ?_ fun _ hq => h₁.quiet hq
  intro _ m₂ hq₂
  have reads {m₃ : Media g} (a n : Nat) (hq : Media.Quiet m₁ m₃) :
      (driver .eeprom (Media.eepromRead a n)).Yields m₃ (fun bytes m' => Media.Quiet m₁ m' ∧
        a + n ≤ m₁.eeprom.memory.toBytes.length ∧ bytes = m₁.eeprom.memory.toBytes.slice a n)
        (Media.Quiet m₁) := by
    rw [yields_driver, hlen₁, ← hq.eeprom]
    exact (Media.eepromRead_yields (hq.honest (h₁.honest honest)) a n).mono
      (fun _ _ h => ⟨hq.trans h.1, h.2⟩) fun _ h => hq.trans h
  refine (confirm_yields reads hq₂ address chunkBytes 0
    (Bytes.even_chunks (by decide) bytes)).mono ?_ fun _ hq => h₁.quiet hq
  rintro _ m₃ ⟨hq₃, range, there⟩
  rw [hflat, Nat.zero_mul, Nat.add_zero, ← hq₃.eeprom] at there
  have range := range (chunks_ne_nil some)
  rw [hflat, Nat.zero_mul, Nat.add_zero] at range
  have h₃ := h₁.quiet hq₃
  exact ⟨h₃, Bytes.eq_overlay (by omega) there h₃.eeprom⟩

/-- A call that is submitted again leaves what it leaves once, if it leaves that again. -/
theorem resubmit_yields {call : Action FailureKind (Media g) Unit} {kept : Media g → Prop}
    (once : call.Yields m (fun _ => kept) kept)
    (again : ∀ m₁, kept m₁ → call.Yields m₁ (fun _ => kept) kept) :
    (resubmit call).Yields m (fun _ => kept) kept := by
  refine once.rescue fun kind m₁ h₁ => ?_
  rw [Action.yields_ite]
  exact ⟨fun _ => again m₁ h₁, fun _ => h₁⟩

/-- Words that were programmed are in the flash; where programming stops, they were at most
cleared. -/
theorem programWords_yields (honest : m.Honest) {address : Nat} {words : Bytes}
    (some : words ≠ []) :
    (programWords address words).Yields m
      (fun _ => Put m address words)
      (Media.Stirred m m.eeprom.memory.toBytes
        (m.flash.memory.combine (fun _ old new => old &&& new) address words).toBytes) := by
  have hlen := m.flash.memory.length_toBytes
  have hflat := Bytes.flatten_chunks (g.wordFloor chunkBytes) words
  simp only [programWords, roundDown_eq (show chunkBytes < 0x1_0000_0000 by decide), pure_bind,
    Action.yields_bind, yields_driver]
  -- Words that were programmed twice have been cleared no further than once.
  refine (resubmit_yields (Media.flashProgram_yields address words) fun m₁ h₁ => ?_).mono ?_
    fun _ h => h
  · have merge {m₂ : Media g} (h₂ : Media.Stirred m₁ m₁.eeprom.memory.toBytes
        (m₁.flash.memory.combine (fun _ old new => old &&& new) address words).toBytes m₂) :
        Media.Stirred m m.eeprom.memory.toBytes
          (m.flash.memory.combine (fun _ old new => old &&& new) address words).toBytes m₂ := by
      refine ⟨?_, Media.mixed_clear_again h₁.flash h₂.flash, h₂.honest ∘ h₁.honest⟩
      rw [h₂.eeprom_eq, h₁.eeprom_eq]
      exact .refl _ _
    exact (Media.flashProgram_yields address words).mono (fun _ _ h => merge h) fun _ h => merge h
  intro _ m₁ h₁
  have hlen₁ := m₁.flash.memory.length_toBytes
  have reads {m₂ : Media g} (a n : Nat) (hq : Media.Quiet m₁ m₂) :
      (driver .flash (Media.flashRead a n)).Yields m₂ (fun bytes m' => Media.Quiet m₁ m' ∧
        a + n ≤ m₁.flash.memory.toBytes.length ∧ bytes = m₁.flash.memory.toBytes.slice a n)
        (Media.Quiet m₁) := by
    rw [yields_driver, hlen₁, ← hq.flash]
    exact (Media.flashRead_yields (hq.honest (h₁.honest honest)) a n).mono
      (fun _ _ h => ⟨hq.trans h.1, h.2⟩) fun _ h => hq.trans h
  refine Action.yields_ensure _ (fun hsome => ?_) h₁
  refine (confirm_yields reads (.refl m₁) address (g.wordFloor chunkBytes) 0
    (Bytes.even_chunks hsome words)).mono ?_ fun _ hq => h₁.quiet hq
  rintro _ m₂ ⟨hq₂, range, there⟩
  rw [hflat, Nat.zero_mul, Nat.add_zero, ← hq₂.flash] at there
  have range := range (chunks_ne_nil some)
  rw [hflat, Nat.zero_mul, Nat.add_zero, hlen₁] at range
  have h₂ := h₁.quiet hq₂
  refine ⟨fun _ => range, h₂.eeprom_eq, Bytes.eq_overlay (by omega) there fun i hi => ?_, h₂.honest⟩
  exact h₂.flash.getElem?_eq (Memory.getElem?_toBytes_combine_of_outside _ _ hi)

/-- Renewing a page for bytes inside it lays them over the flash, or stops with damage to that page
only. -/
theorem renewPage_yields (honest : m.Honest) {address : Nat} {bytes : Bytes}
    (page : address + bytes.length ≤ g.pageFloor address + g.pageBytes) :
    (renewPage address bytes).Yields m
      (fun _ => Put m address bytes)
      (Damaged m address bytes.length) := by
  have hfloor : g.pageFloor address ≤ address := unitFloor_le _ _
  have hpos := g.pageBytes_pos
  have hlen := m.flash.memory.length_toBytes
  have hones : (List.replicate g.pageBytes (0xFF : UInt8)).length = g.pageBytes :=
    List.length_replicate
  have unharmed := damaged_of_quiet (.refl m) address bytes.length
  simp only [renewPage, Action.yields_bind, yields_driver]
  refine yields_roundDown (rfl : _ = g.pageFloor address) ?_ unharmed
  refine Action.yields_difference _ _ (fun _ => ?_) unharmed
  refine (Action.settled_front _ _).yields (fun _ => ?_) unharmed
  refine (Media.flashRead_yields honest _ _).mono ?_ fun _ h => damaged_of_quiet h ..
  rintro _ m₁ ⟨hq₁, range, rfl⟩
  have unharmed := damaged_of_quiet hq₁ address bytes.length
  refine Action.yields_sum _ _ _ (fun _ => ?_) unharmed
  refine Action.yields_copy _ _ _ _ (fun _ _ => ?_) unharmed
  refine Action.yields_sum _ _ _ (fun _ => ?_) unharmed
  -- A page whose erasing was not completed has cells of both kinds.
  have cell {m₂ : Media g} (h₂ : Media.Stirred m m.eeprom.memory.toBytes
      (m.flash.memory.toBytes.overlay (g.pageFloor address) (List.replicate g.pageBytes 0xFF)) m₂)
      (i : Nat) : m₂.flash.memory.toBytes[i]? = m.flash.memory.toBytes[i]? ∨
        g.pageFloor address ≤ i ∧ i < g.pageFloor address + g.pageBytes ∧
          m₂.flash.memory.toBytes[i]? = some 0xFF := by
    rcases h₂.flash i with hi | hi
    · exact .inl hi
    · rw [Bytes.getElem?_overlay_eq (by omega), hones] at hi
      grind
  refine ((erasePage_ends range hq₁).yields fun _ _ h => h).mono ?_
    fun m₂ h₂ => ⟨h₂.eeprom_eq, fun i _ => cell h₂ i, h₂.honest⟩
  intro _ m₂ h₂
  have hslice : (m.flash.memory.toBytes.slice (g.pageFloor address) g.pageBytes).length =
      g.pageBytes := Bytes.length_slice (by omega)
  have hwords : ((m.flash.memory.toBytes.slice (g.pageFloor address) g.pageBytes).overlay
      (address - g.pageFloor address) bytes).length = g.pageBytes := by
    rw [Bytes.length_overlay (by omega), hslice]
  have outside (i : Nat) (hi : i < g.pageFloor address ∨ g.pageFloor address + g.pageBytes ≤ i) :
      m₂.flash.memory.toBytes[i]? = m.flash.memory.toBytes[i]? := by
    refine h₂.flash.getElem?_eq ?_
    rw [Bytes.getElem?_overlay_eq (by omega), if_neg (by omega)]
  refine (programWords_yields (h₂.honest honest)
    (List.ne_nil_of_length_pos (by rwa [hwords]))).mono ?_ ?_
  · intro _ m₃ h₃
    refine ⟨fun _ => by omega, h₃.eeprom.trans h₂.eeprom_eq, ?_, h₃.honest ∘ h₂.honest⟩
    rw [h₃.flash, Bytes.overlay_congr m.flash.memory.toBytes (by omega) (by simp)
      (by rwa [hwords]), Bytes.overlay_overlay_slice (by omega) hfloor page]
  · intro m₃ h₃
    refine ⟨h₃.eeprom_eq.trans h₂.eeprom_eq, fun i hi => ?_, h₃.honest ∘ h₂.honest⟩
    -- The bytes around the request are programmed over themselves or over erased cells.
    rcases h₃.flash i with hi₃ | hi₃
    · rw [hi₃]
      exact cell h₂ i
    · rw [hi₃, Memory.getElem?_toBytes_combine]
      have word := Bytes.getElem?_overlay_slice m.flash.memory.toBytes (by omega) hfloor page i hi
      have := cell h₂ i
      grind [Media.ones_and, UInt8.and_self]

/-- Writing bytes inside a page lays them over the flash, or stops with damage to that page only. -/
theorem writePiece_yields (honest : m.Honest) {address : Nat} {bytes : Bytes}
    (pos : 0 < bytes.length) (page : address + bytes.length ≤ g.pageFloor address + g.pageBytes) :
    (writePiece address bytes).Yields m
      (fun _ => Put m address bytes)
      (Damaged m address bytes.length) := by
  have hfloor : g.wordFloor address ≤ address := unitFloor_le _ _
  have hceil : address + bytes.length ≤ g.wordCeil (address + bytes.length) := le_unitCeil _ _
  have hlen := m.flash.memory.length_toBytes
  have unharmed := damaged_of_quiet (.refl m) address bytes.length
  simp only [writePiece, readWords, Action.yields_bind, Action.yields_pure, yields_driver]
  refine yields_roundDown (rfl : _ = g.wordFloor address) ?_ unharmed
  refine Action.yields_sum _ _ _ (fun _ => ?_) unharmed
  refine yields_roundUp (rfl : _ = g.wordCeil (address + bytes.length)) ?_ unharmed
  refine Action.yields_difference _ _ (fun _ => ?_) unharmed
  refine (Action.settled_front _ _).yields (fun _ => ?_) unharmed
  generalize hspan : g.wordCeil (address + bytes.length) - g.wordFloor address = span
  refine (Media.flashRead_yields honest _ _).mono ?_ fun _ h => damaged_of_quiet h ..
  rintro _ m₁ ⟨hq₁, range, rfl⟩
  have unharmed := damaged_of_quiet hq₁ address bytes.length
  refine Action.yields_difference _ _ (fun _ => ?_) unharmed
  refine Action.yields_sum _ _ _ (fun _ => ?_) unharmed
  refine Action.yields_part _ _ _ (fun _ _ => ?_) unharmed
  rw [Nat.add_sub_cancel_left]
  have hslice : (m.flash.memory.toBytes.slice (g.wordFloor address) span).length = span :=
    Bytes.length_slice (by omega)
  have hcurrent : (m.flash.memory.toBytes.slice (g.wordFloor address) span).slice
      (address - g.wordFloor address) bytes.length =
      m.flash.memory.toBytes.slice address bytes.length := by
    rw [Bytes.slice_slice (by omega), Nat.add_sub_cancel' hfloor]
  simp only [hcurrent, Action.yields_ite, Action.yields_pure, Action.yields_bind]
  -- Nothing to do, words that clear bits only, or a page to renew.
  refine ⟨fun same => ?_, fun _ => ⟨fun clears => ?_, fun _ => ?_⟩⟩
  · refine ⟨fun _ => by omega, by rw [hq₁.eeprom], ?_, hq₁.honest⟩
    rw [hq₁.flash, Bytes.overlay_of_slice_eq (by omega) same]
  · have hwords : ((m.flash.memory.toBytes.slice (g.wordFloor address) span).overlay
        (address - g.wordFloor address) bytes).length = span := by
      rw [Bytes.length_overlay (by omega), hslice]
    refine Action.yields_copy _ _ _ _ (fun _ _ => ?_) unharmed
    refine (programWords_yields (hq₁.honest honest)
      (List.ne_nil_of_length_pos (by omega))).mono ?_ ?_
    · intro _ m₂ h₂
      refine ⟨fun _ => by omega, by rw [h₂.eeprom, hq₁.eeprom], ?_, h₂.honest ∘ hq₁.honest⟩
      rw [h₂.flash, hq₁.flash, Bytes.overlay_overlay_slice (by omega) hfloor (by omega)]
    · intro m₂ h₂
      rw [hq₁.flash, hq₁.eeprom] at h₂
      have h₂ := h₂.of_quiet hq₁
      refine ⟨h₂.eeprom_eq, fun i hi => .inl (h₂.flash.getElem?_eq ?_), h₂.honest⟩
      -- The bytes around the request are programmed over themselves.
      have hrange : g.wordFloor address + span ≤ m.flash.memory.toBytes.length := by omega
      have word := Bytes.getElem?_overlay_slice _ hrange hfloor (by omega) i hi
      rw [Memory.getElem?_toBytes_combine]
      grind [UInt8.and_self]
  · refine (renewPage_yields (hq₁.honest honest) page).mono ?_ fun _ h => h.of_quiet hq₁
    intro _ m₂ h₂
    exact ⟨h₂.range, by rw [h₂.eeprom, hq₁.eeprom], by rw [h₂.flash, hq₁.flash],
      h₂.honest ∘ hq₁.honest⟩

/-- Pieces inside pages are written one behind the other: all of them, or writing stops in one of
them, those before being in their places and that one being damage to its page only. -/
theorem writePieces_cases (honest : m.Honest) {address : Nat} {pieces : List Bytes}
    (pages : g.InPages address (pieces.map List.length)) :
    match writePieces address pieces m with
    | .ok _ m' => Put m address pieces.flatten m'
    | .error stop m' => ∃ done piece rest m₁, pieces = done ++ piece :: rest ∧
        writePieces address done m = .ok () m₁ ∧
        writePiece (address + done.flatten.length) piece m₁ = .error stop m' ∧
        Put m address done.flatten m₁ ∧
        Damaged m₁ (address + done.flatten.length) piece.length m' := by
  induction pieces generalizing m address with
  | nil => exact .refl m address
  | cons piece pieces ih =>
    obtain ⟨pos, page, pages⟩ := pages
    have first := writePiece_yields honest pos page
    cases hpiece : writePiece address piece m with
    | error stop m₁ =>
      rw [writePieces, Action.bind_of_error hpiece]
      refine ⟨[], piece, pieces, m, rfl, rfl, by simpa using hpiece, .refl m address, ?_⟩
      simpa [Action.Yields, hpiece] using first
    | ok _ m₁ =>
      have h₁ : Put m address piece m₁ := by simpa only [Action.Yields, hpiece] using first
      have hrun (others : List Bytes) : writePieces address (piece :: others) m =
          writePieces (address + piece.length) others m₁ := by
        rw [writePieces, Action.bind_of_ok hpiece]
      have rest := ih (h₁.honest honest) pages
      rw [hrun]
      -- What becomes of the others, becomes of them behind the first one.
      cases hothers : writePieces (address + piece.length) pieces m₁ with
      | ok _ m₂ =>
        rw [hothers] at rest
        exact h₁.append rest
      | error stop m₂ =>
        rw [hothers] at rest
        obtain ⟨done, failed, others, m₃, rfl, hdone, hfailed, h₃, hdamage⟩ := rest
        have hsum : address + (piece :: done).flatten.length =
            address + piece.length + done.flatten.length := by
          rw [List.flatten_cons, List.length_append, Nat.add_assoc]
        exact ⟨piece :: done, failed, others, m₃, rfl, (hrun done).trans hdone, hsum ▸ hfailed,
          h₁.append h₃, hsum ▸ hdamage⟩

/-! ## The whole request -/

/-- What a write of bytes over the flash leaves that stopped in a page: in front of the page, the
bytes are in their places; around the bytes, some cells of the page may have been erased; and behind
the page, nothing was touched. -/
structure StoppedIn (m : Media g) (cell : Nat) (bytes : Bytes) (page : Nat) (m' : Media g) :
    Prop where
  before : ∀ i, i < page → m'.flash.memory.toBytes[i]? =
    if cell ≤ i ∧ i < cell + bytes.length then bytes[i - cell]?
    else m.flash.memory.toBytes[i]?
  inside : ∀ i, page ≤ i → i < page + g.pageBytes → i < cell ∨ cell + bytes.length ≤ i →
    m'.flash.memory.toBytes[i]? = m.flash.memory.toBytes[i]? ∨
      m'.flash.memory.toBytes[i]? = some 0xFF
  behind : ∀ i, page + g.pageBytes ≤ i →
    m'.flash.memory.toBytes[i]? = m.flash.memory.toBytes[i]?

/-- Damage in one piece of a request that fills pages is damage in its page. -/
theorem Damaged.stoppedIn {m' : Media g} {cell : Nat} {done rest : List Bytes} {piece : Bytes}
    (fills : g.FillPages cell ((done ++ piece :: rest).map List.length))
    (page : cell + done.flatten.length + piece.length ≤
      g.pageFloor (cell + done.flatten.length) + g.pageBytes)
    (put : Put m cell done.flatten m₁)
    (damaged : Damaged m₁ (cell + done.flatten.length) piece.length m') :
    StoppedIn m cell (done ++ piece :: rest).flatten (g.pageFloor (cell + done.flatten.length))
      m' := by
  have hlen := m.flash.memory.length_toBytes
  have hfloor : g.pageFloor (cell + done.flatten.length) ≤ cell + done.flatten.length :=
    unitFloor_le _ _
  have hflat : (done ++ piece :: rest).flatten.length =
      done.flatten.length + (piece.length + rest.flatten.length) := by simp
  -- A part with others before it starts with its page.
  have hstart : done.flatten ≠ [] →
      g.pageFloor (cell + done.flatten.length) = cell + done.flatten.length := by
    intro hsome
    have hdone : done.map List.length ≠ [] := by
      rintro hnil
      rw [List.map_eq_nil_iff.mp hnil] at hsome
      exact hsome rfl
    rw [List.map_append, List.map_cons] at fills
    have h := fills.pageFloor_eq hdone
    rwa [Bytes.total_map_length] at h
  have put_apply (i : Nat) : m₁.flash.memory.toBytes[i]? =
      if cell ≤ i ∧ i < cell + done.flatten.length then done.flatten[i - cell]?
      else m.flash.memory.toBytes[i]? := by
    by_cases hnil : done.flatten = []
    · rw [put.flash, hnil, Bytes.overlay_nil, if_neg (by simp)]
    · rw [put.flash, Bytes.getElem?_overlay_eq (by rw [hlen]; exact put.range hnil)]
  constructor
  case before =>
    intro i hi
    have hkept := (damaged.flash i (by omega)).resolve_right (by omega)
    rw [hkept, put_apply, hflat]
    by_cases hcell : cell ≤ i
    · -- Bytes of the request in front of the page are those of the parts before.
      have hpage : g.pageFloor (cell + done.flatten.length) = cell + done.flatten.length := by
        refine hstart fun hnil => ?_
        rw [hnil, List.length_nil, Nat.add_zero] at hfloor hi
        omega
      rw [if_pos (by omega), if_pos (by omega), List.flatten_append,
        List.getElem?_append_left (by omega)]
    · rw [if_neg (by omega), if_neg (by omega)]
  case inside =>
    intro i lower upper hi
    rcases damaged.flash i (by omega) with hkept | ⟨-, -, herased⟩
    · exact .inl (by rw [hkept, put_apply, if_neg (by omega)])
    · exact .inr herased
  case behind =>
    intro i hi
    have hkept := (damaged.flash i (by omega)).resolve_right (by omega)
    rw [hkept, put_apply, if_neg (by omega)]

/-- The part of a request in the flash is put there, or stops in a page of the range. -/
theorem writeBehind_cases (honest : m.Honest) {cell : Nat} {bytes : Bytes}
    (lower : space.start ≤ cell) (upper : cell + bytes.length ≤ space.stop) :
    match writePieces cell (Bytes.cut (g.pageParts cell bytes.length) bytes) m with
    | .ok _ m' => Put m cell bytes m'
    | .error stop m' => ∃ done piece rest m₁,
        Bytes.cut (g.pageParts cell bytes.length) bytes = done ++ piece :: rest ∧
        writePieces cell done m = .ok () m₁ ∧
        writePiece (cell + done.flatten.length) piece m₁ = .error stop m' ∧
        m'.eeprom.memory.toBytes = m.eeprom.memory.toBytes ∧
        space.start ≤ g.pageFloor (cell + done.flatten.length) ∧
        g.pageFloor (cell + done.flatten.length) + g.pageBytes ≤ space.stop ∧
        StoppedIn m cell bytes (g.pageFloor (cell + done.flatten.length)) m' := by
  have hflat := g.flatten_cut_pageParts cell (rfl : bytes.length = _)
  have pages := g.inPages_cut_pageParts cell (rfl : bytes.length = _)
  have fills := g.fillPages_cut_pageParts cell (rfl : bytes.length = _)
  have cases := writePieces_cases honest pages
  split at cases
  · rwa [hflat] at cases
  · obtain ⟨done, piece, rest, m₁, hsplit, hdone, hpiece, hput, hdamaged⟩ := cases
    rw [hsplit, List.map_append, List.map_cons] at pages
    obtain ⟨pos, page⟩ := pages.part
    rw [Bytes.total_map_length] at page
    have hlen : bytes.length = done.flatten.length + (piece.length + rest.flatten.length) := by
      rw [← hflat, hsplit]
      simp
    have stopped := hdamaged.stoppedIn (hsplit ▸ fills) page hput
    rw [← hsplit, hflat] at stopped
    exact ⟨done, piece, rest, m₁, hsplit, hdone, hpiece, hdamaged.eeprom.trans hput.eeprom,
      g.le_pageFloor space.start_mod (by omega), g.pageFloor_add_le space.stop_mod (by omega),
      stopped⟩

/-- A write stopped in a page of the flash: the part of the request in the eeprom and the pieces
before were written, and it is the piece in this page whose writing stopped. -/
def StopsAt (space : Space g) (m : Media g) (address : Nat) (bytes : Bytes) (page : Nat)
    (stop : Stop Error) (m' : Media g) : Prop :=
  let near := space.eepromPart address bytes.length
  let cell := space.flashCell (address + near)
  ∃ m₁, (if near = 0 then m₁ = m else writeEeprom address (bytes.take near) m = .ok () m₁) ∧
    ∃ done piece rest m₂,
      Bytes.cut (g.pageParts cell (bytes.length - near)) (bytes.drop near) = done ++ piece :: rest ∧
      writePieces cell done m₁ = .ok () m₂ ∧
      g.pageFloor (cell + done.flatten.length) = page ∧
      writePiece (cell + done.flatten.length) piece m₂ = .error stop m'

/-- A write stops in the eeprom, or has written the part of the request there and goes on with the
pieces in the flash. -/
theorem write_cases (honest : m.Honest) {address : Nat} {bytes : Bytes}
    (range : address + bytes.length ≤ space.total) :
    let near := space.eepromPart address bytes.length
    let cell := space.flashCell (address + near)
    (∃ stop m', near ≠ 0 ∧ writeEeprom address (bytes.take near) m = .error stop m' ∧
      space.write address bytes m = .error stop m' ∧ Media.KeptAround m address near m') ∨
    ∃ m₁, (if near = 0 then m₁ = m else writeEeprom address (bytes.take near) m = .ok () m₁) ∧
      Media.KeptAround m address near m₁ ∧
      m₁.eeprom.memory.toBytes = m.eeprom.memory.toBytes.overlay address (bytes.take near) ∧
      space.write address bytes m = writePieces cell
        (Bytes.cut (g.pageParts cell (bytes.length - near)) (bytes.drop near)) m₁ := by
  intro near cell
  have hnear : near = min (space.boundary - address) bytes.length := rfl
  have hlen : (bytes.take near).length = near := by rw [List.length_take]; omega
  -- Without a part in the eeprom, the write goes on in the flash at once.
  by_cases hzero : near = 0
  · refine .inr ⟨m, by rw [if_pos hzero], ⟨fun _ _ => rfl, rfl, id⟩, by simp [hzero], ?_⟩
    by_cases hnil : bytes = []
    · subst hnil
      simp [write_eq, Geometry.pageParts, Bytes.cut, writePieces]
    · simp only [write_eq, hnil, if_false, require_of_le range, pure_bind]
      rw [if_neg (not_not_intro hzero)]
  · have hsome : bytes ≠ [] := by
      rintro rfl
      simp at hnear
      exact hzero hnear
    have hwrite : space.write address bytes m = (writeEeprom address (bytes.take near) >>= fun _ =>
        writePieces cell (Bytes.cut (g.pageParts cell (bytes.length - near)) (bytes.drop near)))
        m := by
      simp only [write_eq, hsome, if_false, require_of_le range, pure_bind]
      rw [if_pos hzero]
    have front : (writeEeprom address (bytes.take near)).Yields m _ _ :=
      writeEeprom_yields honest (List.ne_nil_of_length_pos (by omega))
    rw [hlen] at front
    cases hfront : writeEeprom address (bytes.take near) m with
    | error stop m' =>
      rw [Action.bind_of_error hfront] at hwrite
      exact .inl ⟨stop, m', hzero, rfl, hwrite, by simpa only [Action.Yields, hfront] using front⟩
    | ok _ m₁ =>
      rw [Action.bind_of_ok hfront] at hwrite
      simp only [Action.Yields, hfront] at front
      exact .inr ⟨m₁, by rw [if_neg hzero], front.1, front.2, hwrite⟩

/-- What a write inside the range can do to the memories, if no reading lies. Whatever it ends with,
the bytes of the eeprom around the request and the flash around the range are as they were. If it
ends with a value, the request is in its place and that is all. If it stops in the eeprom, the flash
is untouched. And if it stops in a page of the flash, what comes before the page is in its place,
what comes behind it is untouched, and bytes of this page that were not to be written are as they
were or erased. -/
theorem reach_of_write (space : Space g) (honest : m.Honest) {address : Nat} {bytes : Bytes}
    (range : address + bytes.length ≤ space.total) :
    let near := space.eepromPart address bytes.length
    let cell := space.flashCell (address + near)
    let m' := (space.write address bytes).leaves m
    (∀ i, i < address ∨ address + near ≤ i →
      m'.eeprom.memory.toBytes[i]? = m.eeprom.memory.toBytes[i]?) ∧
    (∀ i, i < space.start ∨ space.stop ≤ i →
      m'.flash.memory.toBytes[i]? = m.flash.memory.toBytes[i]?) ∧
    match (space.write address bytes).told m with
    | none => m'.eeprom.memory.toBytes = m.eeprom.memory.toBytes.overlay address (bytes.take near) ∧
        m'.flash.memory.toBytes = m.flash.memory.toBytes.overlay cell (bytes.drop near)
    | some stop => near ≠ 0 ∧ writeEeprom address (bytes.take near) m = .error stop m' ∧
          m'.flash.memory.toBytes = m.flash.memory.toBytes ∨
        ∃ page, space.StopsAt m address bytes page stop m' ∧
          m'.eeprom.memory.toBytes = m.eeprom.memory.toBytes.overlay address (bytes.take near) ∧
          space.start ≤ page ∧ page + g.pageBytes ≤ space.stop ∧
          StoppedIn m cell (bytes.drop near) page m' := by
  intro near cell
  have hnear : near = min (space.boundary - address) bytes.length := rfl
  have horder := space.start_le_stop
  have hlen := m.flash.memory.length_toBytes
  have hdrop : (bytes.drop near).length = bytes.length - near := List.length_drop
  have htotal : space.total = space.boundary + (space.stop - space.start) := rfl
  have hcell : cell = space.start + (address + near - space.boundary) := rfl
  -- The write stops in the eeprom, or it is done there and goes on in the flash.
  simp only [Action.leaves, Action.told]
  rcases write_cases honest range with ⟨stop, m', hfar, hfront, hwrite, hkept⟩ |
    ⟨m₁, hfront, hkept, hput, hwrite⟩
  · rw [hwrite]
    exact ⟨hkept.eeprom, fun _ _ => by rw [hkept.flash], .inl ⟨hfar, hfront, by rw [hkept.flash]⟩⟩
  · have lower : space.start ≤ cell := Nat.le_add_right _ _
    have upper : cell + (bytes.drop near).length ≤ space.stop := by omega
    have behind := writeBehind_cases (hkept.honest honest) lower upper
    rw [hdrop] at behind
    rw [hwrite]
    split at behind
    · next m' hrun =>
      rw [hrun]
      refine ⟨fun i hi => ?_, fun i hi => ?_, ?_, ?_⟩
      · rw [behind.eeprom, hkept.eeprom i hi]
      · rw [behind.flash, hkept.flash]
        by_cases hnil : bytes.drop near = []
        · rw [hnil, Bytes.overlay_nil]
        · have hfits := behind.range hnil
          rw [Bytes.getElem?_overlay_eq (by omega), if_neg (by omega)]
      · rw [behind.eeprom, hput]
      · rw [behind.flash, hkept.flash]
    · next stop m' hrun =>
      obtain ⟨done, piece, rest, m₂, hsplit, hdone, hpiece, heeprom, hstart, hstop, stopped⟩ :=
        behind
      rw [hrun]
      -- The part in the eeprom has not touched the flash, so it can be counted from the start.
      have stopped : StoppedIn m cell (bytes.drop near) (g.pageFloor (cell + done.flatten.length))
          m' := by
        obtain ⟨before, inside, after⟩ := stopped
        rw [hkept.flash] at before inside after
        exact ⟨before, inside, after⟩
      refine ⟨fun i hi => ?_, fun i hi => ?_, .inr ⟨_, ?_, ?_, hstart, hstop, stopped⟩⟩
      · rw [heeprom, hkept.eeprom i hi]
      · rcases hi with hi | hi
        · rw [stopped.before i (by omega), if_neg (by omega)]
        · exact stopped.behind i (by omega)
      · exact ⟨m₁, hfront, done, piece, rest, m₂, hsplit, hdone, rfl, hpiece⟩
      · rw [heeprom, hput]

end Space

/-! ## A small example -/

/-- A page of zeros, in a flash that stores nothing and fails whenever it is programmed. -/
def Media.wornOut : Media Geometry.tiny :=
  { Media.fresh .tiny with
    flash := (Flash.fresh _).poke 4 [0, 0, 0, 0]
    faults := [⟨[(.flash, .write)], 0, none, ⟨0, some .other, [], false⟩⟩] }

/-- A write over both memories whose page is erased and then cannot be programmed: it stops in that
page. -/
theorem Space.reach_of_write_wornOut :
    (Space.tiny.write 3 [1, 2]).told Media.wornOut = some (.error (.device .flash .other)) ∧
      ∃ page, Space.StoppedIn Media.wornOut 4 [2] page
        ((Space.tiny.write 3 [1, 2]).leaves Media.wornOut) := by
  have honest : Media.wornOut.Honest := by
    simp [Media.Honest, Media.wornOut, Fault.Honest]
  have told : (Space.tiny.write 3 [1, 2]).told Media.wornOut =
      some (.error (.device .flash .other)) := by decide +kernel
  have range : 3 + ([1, 2] : Bytes).length ≤ Space.tiny.total := by decide
  obtain ⟨-, -, reach⟩ := Space.reach_of_write Space.tiny honest range
  rw [told] at reach
  rcases reach with ⟨-, -, unchanged⟩ | ⟨page, -, -, -, -, stopped⟩
  · exact absurd unchanged (by decide +kernel)
  · exact ⟨told, page, stopped⟩

end CircularLog
