import CircularLog.Proofs.Space.Read

/-!
# What an acknowledged write has done

Where no fault lets readings lie, a write that ends with a value has laid its bytes over the image
and touched nothing else, whatever became of the driver calls it made (`write_ends`). This comes
from the comparison: no byte outside of the range of a call is ever changed, and every byte inside
is read back. A write that fails may leave a page damaged: bytes of it that were not to be written
are as before or erased (`Damaged`), and everything outside of that page is as it should be.
-/

namespace CircularLog

namespace Media

variable {g : Geometry} {m m₁ m₂ : Media g} {eeprom flash : Bytes}

/-- What is quiet may follow a change. -/
theorem Stirred.quiet (h : Stirred m eeprom flash m₁) (h' : Quiet m₁ m₂) :
    Stirred m eeprom flash m₂ :=
  ⟨h'.eeprom ▸ h.eeprom, h'.flash ▸ h.flash, h'.honest ∘ h.honest⟩

/-- What is quiet may precede a change. -/
theorem Stirred.of_quiet (h : Quiet m m₁) (h' : Stirred m₁ eeprom flash m₂) :
    Stirred m eeprom flash m₂ :=
  ⟨h.eeprom ▸ h'.eeprom, h.flash ▸ h'.flash, h'.honest ∘ h.honest⟩

/-- Where no change is wanted of the eeprom, there is none. -/
theorem Stirred.eeprom_eq (h : Stirred m m.eeprom.memory.toBytes flash m₁) :
    m₁.eeprom.memory.toBytes = m.eeprom.memory.toBytes :=
  List.ext_getElem? fun _ => h.eeprom.getElem?_eq rfl

/-- Where no change is wanted of the flash, there is none. -/
theorem Stirred.flash_eq (h : Stirred m eeprom m.flash.memory.toBytes m₁) :
    m₁.flash.memory.toBytes = m.flash.memory.toBytes :=
  List.ext_getElem? fun _ => h.flash.getElem?_eq rfl

/-- Between two states of the media, the memories became what is given, and readings are as honest
as before. -/
structure Became (m : Media g) (eeprom flash : Bytes) (m' : Media g) : Prop where
  eeprom : m'.eeprom.memory.toBytes = eeprom
  flash : m'.flash.memory.toBytes = flash
  honest : m.Honest → m'.Honest

/-- Where all was quiet, the memories are what they were. -/
theorem Quiet.became (h : Quiet m m₁) :
    Became m m.eeprom.memory.toBytes m.flash.memory.toBytes m₁ :=
  ⟨by rw [h.eeprom], by rw [h.flash], h.honest⟩

/-- Programming over erased cells puts the bytes there. -/
theorem ones_and (byte : UInt8) : 0xFF &&& byte = byte := UInt8.neg_one_and

/-- What a second programming of the same bytes clears the first was to clear already. -/
theorem mixed_clear_again {size address : Nat} {old mid : Memory size} {bytes new : Bytes}
    (h : Bytes.Mixed old.toBytes (old.combine (fun _ o n => o &&& n) address bytes).toBytes
      mid.toBytes)
    (h' : Bytes.Mixed mid.toBytes (mid.combine (fun _ o n => o &&& n) address bytes).toBytes new) :
    Bytes.Mixed old.toBytes (old.combine (fun _ o n => o &&& n) address bytes).toBytes new := by
  refine h.trans h' (fun i hi => ?_) (fun i hi => ?_)
  · simp only [Memory.getElem?_toBytes_combine, hi]
  · rw [Memory.getElem?_toBytes_combine] at hi ⊢
    rw [Memory.getElem?_toBytes_combine]
    by_cases hle : address ≤ i
    · cases hb : bytes[i - address]? <;> cases ho : old.toBytes[i]? <;>
        simp_all [UInt8.and_assoc]
    · simp_all

/-- What a second erasing of the same pages sets the first was to set already. -/
theorem mixed_erase_again {start : Nat} {old mid ones new : Bytes}
    (fits : start + ones.length ≤ old.length) (hlen : mid.length = old.length)
    (h : Bytes.Mixed old (old.overlay start ones) mid)
    (h' : Bytes.Mixed mid (mid.overlay start ones) new) :
    Bytes.Mixed old (old.overlay start ones) new := by
  refine h.trans h' (fun i hi => ?_) (fun i hi => ?_)
  · rw [Bytes.getElem?_overlay_eq (by omega), Bytes.getElem?_overlay_eq fits, hi]
  · rw [Bytes.getElem?_overlay_eq (by omega)]
    rw [Bytes.getElem?_overlay_eq fits] at hi ⊢
    grind

end Media

namespace Space

variable {g : Geometry} {space : Space g} {m m₁ : Media g}

/-- The errors that the memories can make a write end with. -/
def WriteError (e : Error) : Prop := e.isInterruption = true ∨ e = .inconsistent

/-! ## The eeprom -/

/-- Waiting for the eeprom changes nothing. -/
theorem awaitIdle_ends (polls : Nat) :
    (awaitIdle polls : Action Error (Media g) Unit).Ends m (fun _ m' => Media.Quiet m m')
      (Fails (Media.Quiet m)) := by
  induction polls generalizing m with
  | zero =>
    rw [awaitIdle, Action.ends_fail]
    exact ⟨rfl, .refl m⟩
  | succ polls ih =>
    simp only [awaitIdle, Action.ends_bind, ends_driver, Action.ends_ite, Action.ends_pure]
    refine Media.eepromPoll_ends.mono ?_ fun _ _ h => ⟨rfl, h⟩
    intro _ m₁ hq
    refine ⟨fun _ => ih.mono ?_ ?_, fun _ => hq⟩
    · exact fun _ _ h => hq.trans h
    · exact fun _ _ h => ⟨h.1, hq.trans h.2⟩

/-- An acknowledged write to the eeprom has laid its bytes over the contents; one that failed has
changed at most these bytes. -/
theorem writeEeprom_ends (honest : m.Honest) (short : g.eepromBytes < 0x1_0000_0000)
    {address : Nat} {bytes : Bytes} (range : address + bytes.length ≤ g.eepromBytes) :
    (writeEeprom address bytes).Ends m
      (fun _ => Media.Became m (m.eeprom.memory.toBytes.overlay address bytes)
        m.flash.memory.toBytes)
      (fun e m' => WriteError e ∧ Media.Stirred m (m.eeprom.memory.toBytes.overlay address bytes)
        m.flash.memory.toBytes m') := by
  have hlen := m.eeprom.memory.length_toBytes
  simp only [writeEeprom, Action.ends_bind, ends_driver]
  refine (Media.eepromWrite_ends range).mono ?_ fun _ _ h => ⟨.inl rfl, h⟩
  intro _ m₁ h₁
  have hlen₁ := m₁.eeprom.memory.length_toBytes
  refine (awaitIdle_ends pollLimit).mono ?_ fun _ _ h => ⟨.inl h.1, h₁.quiet h.2⟩
  intro _ m₂ hq₂
  refine (confirm_eeprom_ends (view_of_honest (h₁.honest honest)) hq₂ hlen₁ short
    (by omega)).mono ?_ ?_
  · rintro _ m₃ ⟨hq₃, same⟩
    have h₃ := h₁.quiet hq₃
    rw [← hq₃.eeprom] at same
    refine ⟨Bytes.eq_overlay (by omega) same fun i hi => ?_, h₃.flash_eq, h₃.honest⟩
    refine h₃.eeprom.getElem?_eq ?_
    rw [Bytes.getElem?_overlay_eq (by omega), if_neg (by omega)]
  · rintro e m₃ (⟨he, hq₃⟩ | ⟨he, hq₃, -⟩)
    · exact ⟨.inl he, h₁.quiet hq₃⟩
    · exact ⟨.inr he, h₁.quiet hq₃⟩

/-! ## The flash -/

/-- A call that is submitted again, where it failed and that may help, ends as it does at last. -/
theorem resubmit_ends {call : Action FailureKind (Media g) Unit} {done : Media g → Prop}
    {first failed : FailureKind → Media g → Prop} (once : call.Ends m (fun _ => done) first)
    (again : ∀ m₁, first .other m₁ → call.Ends m₁ (fun _ => done) failed)
    (gives : ∀ kind m₁, kind ≠ .other → first kind m₁ → failed kind m₁) :
    (resubmit call).Ends m (fun _ => done) failed := by
  simp only [resubmit, Action.ends_rescue, Action.ends_ite, Action.ends_fail]
  exact once.mono (fun _ _ h => h) fun kind m₁ h => ⟨fun hkind => again m₁ (hkind ▸ h),
    fun hkind => gives kind m₁ hkind h⟩

/-- Acknowledged words are in the flash; those of a failed programming were at most cleared. -/
theorem programWords_ends (u : g.Uniform) (t : space.Truthful) (honest : m.Honest) {address : Nat}
    {words : Bytes} (first : g.wordSize ∣ address) (whole : g.wordSize ∣ words.length)
    (upper : address + words.length ≤ space.stop) :
    (programWords address words).Ends m
      (fun _ => Media.Became m m.eeprom.memory.toBytes
        (m.flash.memory.toBytes.overlay address words))
      (fun e m' => WriteError e ∧ Media.Stirred m m.eeprom.memory.toBytes
        (m.flash.memory.combine (fun _ old new => old &&& new) address words).toBytes m') := by
  have hlen := m.flash.memory.length_toBytes
  have hfirst := g.mod_wordBytes u (Nat.mod_eq_zero_of_dvd first)
  have hwhole := g.mod_wordBytes u (Nat.mod_eq_zero_of_dvd whole)
  have range := Nat.le_trans upper t.stop_le
  rw [programWords_eq space]
  simp only [Action.ends_bind, ends_driver]
  -- Words that were programmed twice have been cleared no further than once.
  refine (resubmit_ends (Media.flashProgram_ends hfirst hwhole range) ?_ fun _ _ _ h => h).mono ?_
    fun _ _ h => ⟨.inl rfl, h⟩
  · intro m₁ h₁
    have again : (Media.flashProgram address words).Ends m₁ _ _ :=
      Media.flashProgram_ends hfirst hwhole range
    refine again.mono (fun _ m₂ h₂ => ?_) (fun _ m₂ h₂ => ?_)
    all_goals
      refine ⟨?_, Media.mixed_clear_again h₁.flash h₂.flash, h₂.honest ∘ h₁.honest⟩
      rw [h₂.eeprom_eq, h₁.eeprom_eq]
      exact .refl _ _
  intro _ m₁ h₁
  have hlen₁ := m₁.flash.memory.length_toBytes
  -- What was read back is there, whatever the programming reported.
  refine (confirm_flash_ends (view_of_honest (h₁.honest honest)) u space (.refl m₁) hlen₁ first
    whole (by omega) upper).mono ?_ ?_
  · rintro _ m₂ ⟨hq₂, same⟩
    have h₂ := h₁.quiet hq₂
    rw [← hq₂.flash] at same
    refine ⟨h₂.eeprom_eq, Bytes.eq_overlay (by omega) same fun i hi => ?_, h₂.honest⟩
    exact h₂.flash.getElem?_eq (Memory.getElem?_toBytes_combine_of_outside _ _ hi)
  · rintro e m₂ (⟨he, hq₂⟩ | ⟨he, hq₂, -⟩)
    · exact ⟨.inl he, h₁.quiet hq₂⟩
    · exact ⟨.inr he, h₁.quiet hq₂⟩

/-- What a failed write of bytes inside a page leaves: outside of the bytes, all is as before, but
for cells of that page that may have been erased. -/
structure Damaged (m : Media g) (address length : Nat) (m' : Media g) : Prop where
  eeprom : m'.eeprom.memory.toBytes = m.eeprom.memory.toBytes
  flash : ∀ i, i < address ∨ address + length ≤ i →
    m'.flash.memory.toBytes[i]? = m.flash.memory.toBytes[i]? ∨
      g.pageFloor address ≤ i ∧ i < g.pageFloor address + g.pageBytes ∧
        m'.flash.memory.toBytes[i]? = some 0xFF
  honest : m.Honest → m'.Honest

/-- Where all was quiet, there is no damage. -/
theorem damaged_of_quiet {m' : Media g} (h : Media.Quiet m m') (address length : Nat) :
    Damaged m address length m' :=
  ⟨by rw [h.eeprom], fun i _ => .inl (by rw [h.flash]), h.honest⟩

/-- What is quiet may precede the damage. -/
theorem Damaged.of_quiet {m₁ m' : Media g} {address length : Nat} (h : Media.Quiet m m₁)
    (h' : Damaged m₁ address length m') : Damaged m address length m' :=
  ⟨h'.eeprom.trans (by rw [h.eeprom]), h.flash ▸ h'.flash, h'.honest ∘ h.honest⟩

/-- Erasing a page sets all of its bits or none, also where it is submitted again. -/
theorem erasePage_ends {address : Nat} (range : g.pageFloor address + g.pageBytes ≤ g.flashBytes)
    (quiet : Media.Quiet m m₁) :
    let wanted := m.flash.memory.toBytes.overlay (g.pageFloor address)
      (List.replicate g.pageBytes 0xFF)
    (resubmit (Media.flashErase (g.pageFloor address) (g.pageFloor address + g.pageBytes))).Ends m₁
      (fun _ => Media.Stirred m m.eeprom.memory.toBytes wanted)
      (fun _ => Media.Stirred m m.eeprom.memory.toBytes wanted) := by
  intro wanted
  have hlen := m.flash.memory.length_toBytes
  have hlast : (g.pageFloor address + g.pageBytes) % g.pageBytes = 0 := by
    rw [Nat.add_mod_right, unitFloor_mod]
  have erases (m₂ : Media g) : (Media.flashErase (g.pageFloor address)
      (g.pageFloor address + g.pageBytes)).Ends m₂ _ _ :=
    Media.flashErase_ends (Nat.le_add_right _ _) range (unitFloor_mod _ _) hlast
  simp only [Nat.add_sub_cancel_left] at erases
  refine resubmit_ends ?_ (fun m₂ h₂ => ?_) fun _ _ _ h => h
  · have h₁ := erases m₁
    rw [quiet.flash, quiet.eeprom] at h₁
    exact h₁.mono (fun _ _ h => .of_quiet quiet h) fun _ _ h => .of_quiet quiet h
  · refine (erases m₂).mono (fun _ m₃ h₃ => ?_) (fun _ m₃ h₃ => ?_)
    all_goals
      refine ⟨?_, Media.mixed_erase_again (by rw [List.length_replicate]; omega) (by simp) h₂.flash
        h₃.flash, h₃.honest ∘ h₂.honest⟩
      rw [h₃.eeprom_eq, h₂.eeprom_eq]
      exact .refl _ _

/-- Renewing a page for bytes inside it lays them over the flash, or fails with damage to that page
only. -/
theorem renewPage_ends (u : g.Uniform) (t : space.Truthful) (honest : m.Honest) {address : Nat}
    {bytes : Bytes} (pos : 0 < bytes.length)
    (page : address + bytes.length ≤ g.pageFloor address + g.pageBytes)
    (upper : address + bytes.length ≤ space.stop) :
    (renewPage address bytes).Ends m
      (fun _ => Media.Became m m.eeprom.memory.toBytes
        (m.flash.memory.toBytes.overlay address bytes))
      (fun e m' => WriteError e ∧ Damaged m address bytes.length m') := by
  have hfloor : g.pageFloor address ≤ address := unitFloor_le _ _
  have hstop : g.pageFloor address + g.pageBytes ≤ space.stop :=
    g.pageFloor_add_le space.stop_mod (by omega)
  have range := Nat.le_trans hstop t.stop_le
  have hlen := m.flash.memory.length_toBytes
  have hfirst := g.pageFloor_mod_wordSize u address
  have hpage := Nat.mod_eq_zero_of_dvd u.wordSize_dvd
  have hones : (List.replicate g.pageBytes (0xFF : UInt8)).length = g.pageBytes :=
    List.length_replicate
  rw [renewPage_eq pos page upper]
  simp only [Action.ends_bind, ends_driver]
  refine (Media.flashRead_ends honest (g.mod_wordBytes u hfirst) (g.mod_wordBytes u hpage)
    range).mono ?_ fun _ _ h => ⟨.inl rfl, damaged_of_quiet h ..⟩
  rintro _ m₁ ⟨hq₁, rfl⟩
  -- A page whose erasing was not completed has cells of both kinds.
  have cell {m₂ : Media g} (h₂ : Media.Stirred m m.eeprom.memory.toBytes
      (m.flash.memory.toBytes.overlay (g.pageFloor address) (List.replicate g.pageBytes 0xFF)) m₂)
      (i : Nat) : m₂.flash.memory.toBytes[i]? = m.flash.memory.toBytes[i]? ∨
        g.pageFloor address ≤ i ∧ i < g.pageFloor address + g.pageBytes ∧
          m₂.flash.memory.toBytes[i]? = some 0xFF := by
    rcases h₂.flash i with hi | hi
    · exact .inl hi
    · rw [Bytes.getElem?_overlay_eq (by omega), hones] at hi
      grind
  refine (erasePage_ends range hq₁).mono ?_
    fun _ m₂ h₂ => ⟨.inl rfl, h₂.eeprom_eq, fun i _ => cell h₂ i, h₂.honest⟩
  intro _ m₂ h₂
  have hslice : (m.flash.memory.toBytes.slice (g.pageFloor address) g.pageBytes).length =
      g.pageBytes := Bytes.length_slice (by omega)
  have hwords : ((m.flash.memory.toBytes.slice (g.pageFloor address) g.pageBytes).overlay
      (address - g.pageFloor address) bytes).length = g.pageBytes := by
    rw [Bytes.length_overlay (by omega), hslice]
  have outside (i : Nat) (hi : i < g.pageFloor address ∨ g.pageFloor address + g.pageBytes ≤ i) :
      m₂.flash.memory.toBytes[i]? = m.flash.memory.toBytes[i]? := by
    refine h₂.flash.getElem?_eq ?_
    rw [Bytes.getElem?_overlay_eq (by omega), if_neg (by omega)]
  refine (programWords_ends u t (h₂.honest honest) (Nat.dvd_of_mod_eq_zero hfirst)
    (by rw [hwords]; exact u.wordSize_dvd) (by omega)).mono ?_ ?_
  · intro _ m₃ h₃
    refine ⟨h₃.eeprom.trans h₂.eeprom_eq, ?_, h₃.honest ∘ h₂.honest⟩
    rw [h₃.flash, Bytes.overlay_congr m.flash.memory.toBytes (by omega) (by simp)
      (by rwa [hwords]), Bytes.overlay_overlay_slice (by omega) hfloor page]
  · rintro e m₃ ⟨he, h₃⟩
    refine ⟨he, h₃.eeprom_eq.trans h₂.eeprom_eq, fun i hi => ?_, h₃.honest ∘ h₂.honest⟩
    -- The bytes around the request are programmed over themselves or over erased cells.
    rcases h₃.flash i with hi₃ | hi₃
    · rw [hi₃]
      exact cell h₂ i
    · rw [hi₃, Memory.getElem?_toBytes_combine]
      have word := Bytes.getElem?_overlay_slice m.flash.memory.toBytes (by omega) hfloor page i hi
      have := cell h₂ i
      grind [Media.ones_and, UInt8.and_self]

/-- Writing bytes inside a page lays them over the flash, or fails with damage to that page only. -/
theorem writePiece_ends (u : g.Uniform) (t : space.Truthful) (honest : m.Honest) {address : Nat}
    {bytes : Bytes} (pos : 0 < bytes.length)
    (page : address + bytes.length ≤ g.pageFloor address + g.pageBytes)
    (lower : space.start ≤ address) (upper : address + bytes.length ≤ space.stop) :
    (writePiece address bytes).Ends m
      (fun _ => Media.Became m m.eeprom.memory.toBytes
        (m.flash.memory.toBytes.overlay address bytes))
      (fun e m' => WriteError e ∧ Damaged m address bytes.length m') := by
  obtain ⟨hfloor, hceil, hfirst, hlast, hstart, hstop⟩ := words_inside u pos page lower upper
  have hflash := t.stop_le
  have hlen := m.flash.memory.length_toBytes
  rw [writePiece_eq u pos page lower upper]
  simp only [Action.ends_bind]
  refine (readWords_ends (view_of_honest honest) u t (.refl m) pos page lower upper).mono ?_
    fun _ _ h => ⟨.inl h.1, damaged_of_quiet h.2 ..⟩
  rintro _ m₁ ⟨hq₁, rfl⟩
  generalize hspan : g.wordCeil (address + bytes.length) - g.wordFloor address = span
  have hspan' : g.wordSize ∣ span := hspan ▸ g.wordSize_dvd_words address _
  have hslice : (m.flash.memory.toBytes.slice (g.wordFloor address) span).length = span :=
    Bytes.length_slice (by omega)
  have hcurrent : (m.flash.memory.toBytes.slice (g.wordFloor address) span).slice
      (address - g.wordFloor address) bytes.length =
      m.flash.memory.toBytes.slice address bytes.length := by
    rw [Bytes.slice_slice (by omega), Nat.add_sub_cancel' hfloor]
  simp only [hcurrent, Action.ends_ite, Action.ends_pure]
  -- Nothing to do, words that clear bits only, or a page to renew.
  refine ⟨fun same => ?_, fun _ => ⟨fun clears => ?_, fun _ => ?_⟩⟩
  · rw [Bytes.overlay_of_slice_eq (by omega) same]
    exact hq₁.became
  · have hwords : ((m.flash.memory.toBytes.slice (g.wordFloor address) span).overlay
        (address - g.wordFloor address) bytes).length = span := by
      rw [Bytes.length_overlay (by omega), hslice]
    have hword : g.wordSize ∣ g.wordFloor address := Nat.dvd_of_mod_eq_zero (unitFloor_mod _ _)
    refine (programWords_ends u t (hq₁.honest honest) hword (by rwa [hwords]) (by omega)).mono ?_ ?_
    · intro _ m₂ h₂
      refine ⟨by rw [h₂.eeprom, hq₁.eeprom], ?_, h₂.honest ∘ hq₁.honest⟩
      rw [h₂.flash, hq₁.flash, Bytes.overlay_overlay_slice (by omega) hfloor (by omega)]
    · rintro e m₂ ⟨he, h₂⟩
      rw [hq₁.flash, hq₁.eeprom] at h₂
      have h₂ := h₂.of_quiet hq₁
      refine ⟨he, h₂.eeprom_eq, fun i hi => .inl (h₂.flash.getElem?_eq ?_), h₂.honest⟩
      -- The bytes around the request are programmed over themselves.
      have hrange : g.wordFloor address + span ≤ m.flash.memory.toBytes.length := by omega
      have word := Bytes.getElem?_overlay_slice _ hrange hfloor (by omega) i hi
      rw [Memory.getElem?_toBytes_combine]
      grind [UInt8.and_self]
  · refine (renewPage_ends u t (hq₁.honest honest) pos page upper).mono ?_ ?_
    · intro _ m₂ h₂
      exact ⟨by rw [h₂.eeprom, hq₁.eeprom], by rw [h₂.flash, hq₁.flash], h₂.honest ∘ hq₁.honest⟩
    · exact fun _ _ h => ⟨h.1, h.2.of_quiet hq₁⟩

/-- Writing pieces inside pages lays them over the flash; or it fails at one of them, those before
being in their places and that one being damage to its page only. -/
theorem writePieces_ends (u : g.Uniform) (t : space.Truthful) (honest : m.Honest) {address : Nat}
    {pieces : List Bytes} (pages : g.InPages address (pieces.map List.length))
    (lower : space.start ≤ address) (upper : address + pieces.flatten.length ≤ space.stop) :
    (writePieces address pieces).Ends m
      (fun _ => Media.Became m m.eeprom.memory.toBytes
        (m.flash.memory.toBytes.overlay address pieces.flatten))
      (fun e m' => WriteError e ∧ ∃ done piece rest m₁, pieces = done ++ piece :: rest ∧
        Media.Became m m.eeprom.memory.toBytes
          (m.flash.memory.toBytes.overlay address done.flatten) m₁ ∧
        Damaged m₁ (address + done.flatten.length) piece.length m') := by
  have hflash := t.stop_le
  have hlen := m.flash.memory.length_toBytes
  induction pieces generalizing m address with
  | nil => exact ⟨rfl, by simp, id⟩
  | cons piece pieces ih =>
    obtain ⟨pos, page, pages⟩ := pages
    simp only [List.flatten_cons, List.length_append] at upper ⊢
    simp only [writePieces, Action.ends_bind]
    refine (writePiece_ends u t honest pos page lower (by omega)).mono ?_ ?_
    · intro _ m₁ h₁
      refine (ih (h₁.honest honest) pages (by omega) (by omega) (by simp)).mono ?_ ?_
      · intro _ m₂ h₂
        refine ⟨h₂.eeprom.trans h₁.eeprom, ?_, h₂.honest ∘ h₁.honest⟩
        rw [h₂.flash, h₁.flash, Bytes.overlay_append (by rw [List.length_append]; omega)]
      · rintro e m₂ ⟨he, done, failed, rest, m₃, rfl, h₃, hdamage⟩
        rw [List.flatten_append, List.length_append] at upper
        refine ⟨he, piece :: done, failed, rest, m₃, rfl, ⟨h₃.eeprom.trans h₁.eeprom, ?_,
          h₃.honest ∘ h₁.honest⟩, ?_⟩
        · rw [h₃.flash, h₁.flash, List.flatten_cons,
            Bytes.overlay_append (by rw [List.length_append]; omega)]
        · rwa [List.flatten_cons, List.length_append, ← Nat.add_assoc]
    · rintro e m₁ ⟨he, hdamage⟩
      exact ⟨he, [], piece, pieces, m, rfl, ⟨rfl, by simp, id⟩, by simpa using hdamage⟩

/-! ## The whole space -/

/-- The cells of the flash in front of the range and behind it. -/
def around (space : Space g) (media : Media g) : Bytes × Bytes :=
  (media.flash.memory.toBytes.take space.start, media.flash.memory.toBytes.drop space.stop)

/-- What an acknowledged write of bytes leaves: they lie over the image, and the rest of the flash
is as it was. -/
structure Wrote (space : Space g) (m : Media g) (address : Nat) (bytes : Bytes) (m' : Media g) :
    Prop where
  image : space.image m' = (space.image m).overlay address bytes
  around : space.around m' = space.around m

/-- No bytes have been written where nothing was done. -/
theorem Wrote.refl (space : Space g) (m : Media g) (address : Nat) : space.Wrote m address [] m :=
  ⟨by simp, rfl⟩

/-- A write right behind another one joins it. -/
theorem Wrote.append {m₁ m₂ : Media g} {address : Nat} {front back : Bytes}
    (t : space.Truthful) (h : space.Wrote m address front m₁)
    (h' : space.Wrote m₁ (address + front.length) back m₂)
    (range : address + (front ++ back).length ≤ space.total) :
    space.Wrote m address (front ++ back) m₂ :=
  ⟨by rw [h'.image, h.image, Bytes.overlay_append (by rwa [space.length_image t])],
    h'.around.trans h.around⟩

/-- What is laid over the eeprom is laid over the image. -/
theorem wrote_eeprom (t : space.Truthful) {m' : Media g} {address : Nat} {bytes : Bytes}
    (range : address + bytes.length ≤ space.boundary)
    (heeprom : m'.eeprom.memory.toBytes = m.eeprom.memory.toBytes.overlay address bytes)
    (hflash : m'.flash.memory.toBytes = m.flash.memory.toBytes) :
    space.Wrote m address bytes m' where
  image := by rw [image_eq, heeprom, hflash, (fits_contents t m).overlay_eeprom range, image_eq]
  around := by rw [Space.around, Space.around, hflash]

/-- What is laid over the range of the flash is laid over the image. -/
theorem wrote_flash (t : space.Truthful) {m' : Media g} {address : Nat} {bytes : Bytes}
    (near : space.boundary ≤ address) (range : address + bytes.length ≤ space.total)
    (heeprom : m'.eeprom.memory.toBytes = m.eeprom.memory.toBytes)
    (hflash : m'.flash.memory.toBytes =
      m.flash.memory.toBytes.overlay (space.flashCell address) bytes) :
    space.Wrote m address bytes m' where
  image := by rw [image_eq, heeprom, hflash, (fits_contents t m).overlay_flash near range, image_eq]
  around := by
    have hstop := (fits_contents t m).flash
    have horder := space.start_le_stop
    have hfits : space.flashCell address + bytes.length ≤ m.flash.memory.toBytes.length :=
      Nat.le_trans (flashCell_add_le near range) hstop
    simp only [Space.around, hflash, flashCell, total] at *
    rw [Prod.mk.injEq]
    refine ⟨List.ext_getElem? fun i => ?_, List.ext_getElem? fun i => ?_⟩
    · rw [List.getElem?_take, List.getElem?_take, Bytes.getElem?_overlay_eq hfits]
      grind
    · rw [List.getElem?_drop, List.getElem?_drop, Bytes.getElem?_overlay_eq hfits]
      grind

/-- An acknowledged write has laid its bytes over the image and left everything else. -/
theorem write_ends (u : g.Uniform) (t : space.Truthful) (honest : m.Honest) {address : Nat}
    {bytes : Bytes} (range : address + bytes.length ≤ space.total) :
    (space.write address bytes).Ends m
      (fun _ m' => space.Wrote m address bytes m' ∧ m'.Honest)
      (fun e m' => WriteError e ∧ m'.Honest) := by
  have hnear : space.eepromPart address bytes.length =
      min (space.boundary - address) bytes.length := rfl
  have hb := t.boundary_eq
  have horder := space.start_le_stop
  rw [write_eq, Action.ends_ite]
  refine ⟨fun hnil => hnil ▸ ⟨.refl space m address, honest⟩, fun _ => ?_⟩
  simp only [require_of_le range, pure_bind]
  generalize space.eepromPart address bytes.length = near at hnear ⊢
  have hlen : (bytes.take near).length = near := by rw [List.length_take]; omega
  have hrest : (bytes.drop near).length = bytes.length - near := List.length_drop
  -- The part in the flash is the same whether there was one in the eeprom or not.
  have back {m₁ : Media g} (h₁ : space.Wrote m address (bytes.take near) m₁) (honest : m₁.Honest) :
      (writePieces (space.flashCell (address + near))
        (Bytes.cut (g.pageParts (space.flashCell (address + near)) (bytes.length - near))
          (bytes.drop near))).Ends m₁
      (fun _ m' => space.Wrote m address bytes m' ∧ m'.Honest)
      (fun e m' => WriteError e ∧ m'.Honest) := by
    have hflat := g.flatten_cut_pageParts (space.flashCell (address + near)) hrest
    have hpages := g.inPages_cut_pageParts (space.flashCell (address + near)) hrest
    by_cases hzero : bytes.length - near = 0
    · rw [hzero, Geometry.pageParts, if_pos rfl]
      rw [List.take_of_length_le (by omega)] at h₁
      exact ⟨h₁, honest⟩
    · have upper : space.flashCell (address + near) + (bytes.length - near) ≤ space.stop :=
        flashCell_add_le (by omega) (by omega)
      refine (writePieces_ends u t honest hpages (space.start_le_flashCell _)
        (by rwa [hflat, hrest])).mono ?_ ?_
      · intro _ m₂ h₂
        rw [hflat] at h₂
        have hback : space.Wrote m₁ (address + (bytes.take near).length) (bytes.drop near) m₂ := by
          rw [hlen]
          exact wrote_flash t (by omega) (by omega) h₂.eeprom h₂.flash
        have h := h₁.append t hback (by rwa [List.take_append_drop])
        rw [List.take_append_drop] at h
        exact ⟨h, h₂.honest honest⟩
      · rintro e m₂ ⟨he, _, _, _, _, _, h₃, hdamage⟩
        exact ⟨he, hdamage.honest (h₃.honest honest)⟩
  rw [Action.ends_ite]
  refine ⟨fun hsome => ?_, fun hzero => ?_⟩
  · rw [Action.ends_bind]
    refine (writeEeprom_ends honest t.eepromBytes_lt (by omega)).mono ?_ fun _ _ h =>
      ⟨h.1, h.2.honest honest⟩
    intro _ m₁ h₁
    exact back (wrote_eeprom t (by omega) h₁.eeprom h₁.flash) (h₁.honest honest)
  · have hzero : near = 0 := by omega
    subst hzero
    exact back (.refl space m address) honest

/-- A write that ends with a value was of nothing or inside the range, and whatever the faults were,
as long as no reading lied, its bytes lie over the image and nothing else has changed. -/
theorem image_of_write_ok {start stop : UInt32}
    (made : Space.create g g.eepromBytes g.flashBytes start stop = .ok space) (u : g.Uniform)
    {m' : Media g} {address : Nat} {bytes : Bytes} (honest : m.Honest)
    (ok : space.write address bytes m = .ok () m') :
    (bytes ≠ [] → address + bytes.length ≤ space.total) ∧
      space.image m' = (space.image m).overlay address bytes ∧
      (∀ i, i < address ∨ address + bytes.length ≤ i →
        (space.image m')[i]? = (space.image m)[i]?) ∧
      space.around m' = space.around m := by
  have t := truthful_of_create made
  by_cases hnil : bytes = []
  · subst hnil
    obtain rfl : m = m' := by
      rw [write, if_pos rfl] at ok
      exact (EStateM.Result.ok.inj ok).2
    exact ⟨fun h => absurd rfl h, by simp⟩
  · have range : address + bytes.length ≤ space.total := by
      refine Nat.le_of_not_lt fun far => ?_
      rw [write, if_neg hnil, require_of_lt far] at ok
      cases ok
    have wrote := ((write_ends u t honest range).of_ok ok).1
    refine ⟨fun _ => range, wrote.image, fun i hi => ?_, wrote.around⟩
    rw [wrote.image, Bytes.getElem?_overlay_eq (by rwa [space.length_image t]), if_neg (by omega)]

end Space

/-! ## A small example -/

/-- Four bytes of eeprom, and two pages of flash with two words of two bytes each. -/
def Geometry.tiny : Geometry where
  eepromBytes := 4
  pages := 2
  wordsPerPage := 2
  wordBytes := 2
  readSize := 2
  scratchBytes := 4

/-- Its sizes go into one another. -/
theorem Geometry.uniform_tiny : Geometry.tiny.Uniform := ⟨by decide, by decide, by decide⟩

/-- The eeprom and the second page of the flash. -/
def Space.tiny : Space Geometry.tiny where
  boundary := 4
  start := 4
  stop := 8
  start_mod := by decide
  stop_mod := by decide
  start_le_stop := by decide
  stop_lt := by decide
  page_le_scratch := by decide
  word_le_limit := by decide
  total_lt := by decide

/-- Fresh memories whose next call to program the flash stores nothing and fails. -/
def Media.failingOnce : Media Geometry.tiny :=
  { Media.fresh .tiny with
    faults := [⟨[(.flash, .write)], 0, some 1, ⟨0, some .other, [], false⟩⟩] }

set_option maxRecDepth 4000 in
/-- A write over both memories whose programming fails at first. -/
theorem Space.image_of_write_ok_failingOnce :
    ∃ m', Space.tiny.write 3 [1, 2, 3] Media.failingOnce = .ok () m' ∧
      Space.tiny.image m' = [0xFF, 0xFF, 0xFF, 1, 2, 3, 0xFF, 0xFF] := by
  have made : Space.create .tiny 4 8 4 8 = .ok Space.tiny := rfl
  have honest : Media.failingOnce.Honest := by
    simp [Media.Honest, Media.failingOnce, Fault.Honest]
  have ok : ∃ m', Space.tiny.write 3 [1, 2, 3] Media.failingOnce = .ok () m' := ⟨_, rfl⟩
  obtain ⟨m', ok⟩ := ok
  have h := Space.image_of_write_ok made Geometry.uniform_tiny honest ok
  exact ⟨m', ok, h.2.1⟩

end CircularLog
