import CircularLog.Proofs.Media.Outage
import CircularLog.Proofs.Space.Write

/-!
# Reading and writing through an outage

What the operations of a space do while each driver call acts as it should or fails without effect.
The contents can be seen (`view_of_outage`). Writing lays its bytes over the image; if it fails, the
pieces that it is made of, one in the eeprom and one for each page of the flash, are in their
places up to some point and untouched from there on, unless the outage began between the erasing
of a page and its programming (`write_meets`). Without an outage nothing fails.
-/

namespace CircularLog

namespace Memory

variable {size : Nat}

/-- Clearing bits puts bytes down that need no bit to be set. -/
theorem toBytes_combine_clear {memory : Memory size} {contents bytes : Bytes} {address : Nat}
    (holds : memory.toBytes = contents) (range : address + bytes.length ≤ size)
    (clears : ∀ (i : Nat) (old new : UInt8), contents[address + i]? = some old →
      bytes[i]? = some new → old &&& new = new) :
    (memory.combine (fun _ old new => old &&& new) address bytes).toBytes =
      contents.overlay address bytes := by
  have hlen := memory.length_toBytes
  rw [holds] at hlen
  refine List.ext_getElem? fun i => ?_
  rw [getElem?_toBytes_combine, holds, Bytes.getElem?_overlay_eq (by omega)]
  by_cases hle : address ≤ i
  · have := clears (i - address)
    rw [Nat.add_sub_cancel' hle] at this
    by_cases hlt : i < address + bytes.length
    · have hb : i - address < bytes.length := by omega
      have hc : i < contents.length := by omega
      simp_all
    · rw [List.getElem?_eq_none (by omega : bytes.length ≤ i - address)]
      simp [hlt]
  · simp [hle]

end Memory

namespace Bytes

/-- What `clearsTo` says of each byte. -/
theorem and_eq_of_clearsTo {old new : Bytes} (h : old.clearsTo new) {i : Nat} {o n : UInt8}
    (ho : old[i]? = some o) (hn : new[i]? = some n) : o &&& n = n := by
  have hmem : (o, n) ∈ old.zip new := by
    refine List.mem_of_getElem? (i := i) ?_
    rw [List.getElem?_zip_eq_some]
    exact ⟨ho, hn⟩
  simpa using List.all_eq_true.mp h _ hmem

end Bytes

namespace Space

open Media (Stands)

variable {g : Geometry} {space : Space g} {m : Media g} {manner : Manner}
  {light dark failed : Phase} {torn : Nat → Phase} {eeprom flash : Bytes}

/-- The error tells of a failing call, in a state of this kind. -/
def FailsIn (manner : Manner) (lost : Media g → Prop) (e : Error) (m : Media g) : Prop :=
  manner.tells e ∧ lost m

/-- As long as calls act or fail, the contents of the memories can be seen. -/
theorem view_of_outage (o : Outage manner light dark torn) :
    View (g := g) (Stands light eeprom flash) (FailsIn manner (Stands dark eeprom flash)) eeprom
      flash where
  eepromRead hm range :=
    Media.eepromRead_meets hm.1.able (o.call hm.1.phase _ (by simp)) hm.2 range
  flashRead hm start whole range :=
    Media.flashRead_meets hm.1.able (o.call hm.1.phase _ (by simp)) hm.2 start whole range

/-! ## The eeprom -/

/-- Where polls pass, the eeprom is idle before they run out. -/
theorem awaitIdle_passes (polls_pass : ∀ {plan journal}, light plan journal →
      Call.Meets manner ⟨.eeprom, .poll, 0, 0⟩ light (fun _ => .never) plan journal)
    {polls : Nat} (hpolls : polls ≤ pollLimit)
    (hm : Stands light eeprom flash m) (left : m.eeprom.busyLeft < polls) :
    (awaitIdle polls).Ends m (fun _ => Stands light eeprom flash) (fun _ _ => False) := by
  induction polls generalizing m with
  | zero => omega
  | succ polls ih =>
    have hendless : m.eeprom.busyLeft ≠ Eeprom.endless := by
      unfold pollLimit at hpolls
      unfold Eeprom.endless
      omega
    simp only [awaitIdle, Action.ends_bind, ends_driver, Action.ends_ite, Action.ends_pure]
    refine (Media.eepromPoll_meets hm.1.able (polls_pass hm.1.phase) hm.2 hendless).mono ?_
      fun _ _ h => h
    rintro busy m₁ ⟨h₁, hbusy⟩
    refine ⟨fun h => ih (by omega) h₁ ?_, fun _ => h₁⟩
    have := hbusy h
    omega

/-- Where polls are restless, waiting may be in vain, but changes nothing. -/
theorem awaitIdle_restless (r : manner.Restless light dark) (polls : Nat)
    (hm : Stands light eeprom flash m) :
    (awaitIdle polls).Ends m (fun _ => Stands light eeprom flash)
      (FailsIn manner (Stands dark eeprom flash)) := by
  have darken {m : Media g} (h : Stands light eeprom flash m) : Stands dark eeprom flash m :=
    ⟨⟨h.1.able, r.dark h.1.phase⟩, h.2⟩
  induction polls generalizing m with
  | zero => exact ⟨r.busy, darken hm⟩
  | succ polls ih =>
    simp only [awaitIdle, Action.ends_bind, ends_driver, Action.ends_ite, Action.ends_pure]
    refine (Media.eepromPoll_restless r hm).mono ?_ fun _ _ h => ⟨h.1, darken h.2⟩
    exact fun _ m₁ h₁ => ⟨fun _ => ih h₁, fun _ => h₁⟩

/-- Waiting for the eeprom behind a write changes nothing. -/
theorem awaitIdle_meets (o : Outage manner light dark torn) (hm : Stands light eeprom flash m)
    (left : m.eeprom.busyLeft < pollLimit) :
    (awaitIdle pollLimit).Ends m (fun _ => Stands light eeprom flash)
      (FailsIn manner (Stands dark eeprom flash)) := by
  rcases o.poll with polls_pass | restless
  · exact (awaitIdle_passes polls_pass (Nat.le_refl _) hm left).mono (fun _ _ h => h)
      fun _ _ h => h.elim
  · exact awaitIdle_restless restless _ hm

/-- A write to the eeprom lays its bytes over the contents; if it fails, either all of them are
there or those in front of the cut. -/
theorem writeEeprom_meets (o : Outage manner light dark torn) (hm : Stands light eeprom flash m)
    {address : Nat} {bytes : Bytes} (short : g.eepromBytes < 0x1_0000_0000)
    (range : address + bytes.length ≤ g.eepromBytes) :
    (writeEeprom address bytes).Ends m
      (fun _ => Stands light (eeprom.overlay address bytes) flash)
      (FailsIn manner fun m' =>
        Stands dark (eeprom.overlay address (bytes.take manner.cut)) flash m' ∨
          Stands dark (eeprom.overlay address bytes) flash m') := by
  have hlen : eeprom.length = g.eepromBytes := by
    rw [← hm.2.eeprom, Memory.length_toBytes]
  have hoverlay := Bytes.length_overlay (hlen ▸ range)
  simp only [writeEeprom, Action.ends_bind, ends_driver]
  refine (Media.eepromWrite_meets hm.1.able (o.call hm.1.phase _ (by simp)) hm.2 range).mono ?_
    fun _ _ h => ⟨h.1, .inl h.2⟩
  rintro _ m₁ ⟨h₁, left⟩
  refine (awaitIdle_meets o h₁ left).mono ?_ fun _ _ h => ⟨h.1, .inr h.2⟩
  intro _ m₂ h₂
  refine (confirm_eeprom_ends (view_of_outage o) h₂ (hoverlay.trans hlen) short (by omega)).mono
    (fun _ _ h => h.1) ?_
  rintro e m₃ (⟨he, h₃⟩ | ⟨-, -, differs⟩)
  · exact ⟨he, .inr h₃⟩
  · exact absurd (Bytes.slice_overlay (hlen ▸ range)) differs

/-! ## The flash -/

/-- Words that need no bit to be set are programmed over the flash; if that fails, either all of
them are there or none. -/
theorem programWords_meets (o : Outage manner light dark torn) (u : g.Uniform) (t : space.Truthful)
    (able : m.Able) (holds : m.Shows eeprom flash)
    (meets : ∀ call : Call, call.access = .write → call.medium = .flash →
      call.Meets manner light (call.Again manner light failed) m.faults m.journal)
    {address : Nat} {words : Bytes} (first : g.wordSize ∣ address)
    (whole : g.wordSize ∣ words.length) (upper : address + words.length ≤ space.stop)
    (clears : ∀ (i : Nat) (old new : UInt8), flash[address + i]? = some old →
      words[i]? = some new → old &&& new = new) :
    (programWords address words).Ends m
      (fun _ => Stands light eeprom (flash.overlay address words))
      (FailsIn manner fun m' => Stands failed eeprom flash m' ∨
        Stands dark eeprom (flash.overlay address words) m') := by
  have range := Nat.le_trans upper t.stop_le
  have hlen : flash.length = g.flashBytes := by
    rw [← holds.flash, Memory.length_toBytes]
  have hoverlay := Bytes.length_overlay (hlen ▸ range)
  have hfirst := g.mod_wordBytes u (Nat.mod_eq_zero_of_dvd first)
  have hwhole := g.mod_wordBytes u (Nat.mod_eq_zero_of_dvd whole)
  have program {m₁ : Media g} {failing : FailureKind → Phase} (able : m₁.Able)
      (holds : m₁.Shows eeprom flash) (meets : Call.Meets manner
        ⟨.flash, .write, address, words.length⟩ light failing m₁.faults m₁.journal) :
      (Media.flashProgram address words).Ends m₁
        (fun _ => Stands light eeprom (flash.overlay address words))
        (fun kind m' => manner.tells (.device .flash kind) ∧
          Stands (failing kind) eeprom flash m') := by
    have h := Media.flashProgram_meets able meets holds hfirst hwhole range
    rwa [Memory.toBytes_combine_clear holds.flash range clears] at h
  -- The words are submitted once more if the first programming fails, and then compared.
  rw [programWords_eq space]
  simp only [Action.ends_bind, ends_driver]
  refine (resubmit_ends (program able holds (meets _ rfl rfl)) (fun m₁ h₁ =>
    program h₁.2.1.able h₁.2.2 h₁.2.1.again) fun _ _ hkind h => ⟨h.1, h.2.gaveUp hkind⟩).mono ?_
      fun _ _ h => ⟨h.1, .inl h.2⟩
  intro _ m₁ h₁
  refine (confirm_flash_ends (view_of_outage o) u space h₁ (hoverlay.trans hlen) first whole
    (by omega) upper).mono (fun _ _ h => h.1) ?_
  rintro e m₂ (⟨he, h₂⟩ | ⟨-, -, differs⟩)
  · exact ⟨he, .inr h₂⟩
  · exact absurd (Bytes.slice_overlay (hlen ▸ range)) differs

/-- Erasing a page sets all of its bits, and the last call was that. -/
theorem erasePage_meets (o : Outage manner light dark torn) (hm : Stands light eeprom flash m)
    {address : Nat} (range : g.pageFloor address + g.pageBytes ≤ g.flashBytes) :
    (resubmit (Media.flashErase (g.pageFloor address) (g.pageFloor address + g.pageBytes))).Ends m
      (fun _ m' => Stands light eeprom
          (flash.overlay (g.pageFloor address) (List.replicate g.pageBytes 0xFF)) m' ∧
        ∃ journal, m'.journal = ⟨.flash, .erase, g.pageFloor address, g.pageBytes⟩ :: journal)
      (fun kind m' => manner.tells (.device .flash kind) ∧ Stands dark eeprom flash m') := by
  have hlast : (g.pageFloor address + g.pageBytes) % g.pageBytes = 0 := by
    rw [Nat.add_mod_right, unitFloor_mod]
  have hpos := g.pageBytes_pos
  have erases {m₁ : Media g} {failing : FailureKind → Phase} (able : m₁.Able)
      (holds : m₁.Shows eeprom flash)
        (meets : Call.Meets manner ⟨.flash, .erase, g.pageFloor address,
        g.pageFloor address + g.pageBytes - g.pageFloor address⟩ light failing
          m₁.faults m₁.journal) :=
    Media.flashErase_meets able meets holds (by omega) range (unitFloor_mod _ address) hlast
  simp only [Nat.add_sub_cancel_left] at erases
  have once := erases hm.1.able hm.2 (o.change hm.1.phase _ (.inr rfl) rfl)
  refine resubmit_ends (once.mono (fun _ _ h => ⟨h.1, _, h.2⟩) fun _ _ h => h) (fun m₁ h₁ => ?_)
    fun _ _ hkind h => ⟨h.1, h.2.gaveUp hkind⟩
  exact (erases h₁.2.1.able h₁.2.2 h₁.2.1.again).mono (fun _ _ h => ⟨h.1, _, h.2⟩) fun _ _ h => h

/-- The contents of the flash with the page of an address erased. -/
def blanked (g : Geometry) (flash : Bytes) (address : Nat) : Bytes :=
  flash.overlay (g.pageFloor address) (List.replicate g.pageBytes 0xFF)

/-- What the memories are like when a write of bytes inside a page has failed: all of them are
there or none, or the page is erased. -/
def Breaks (manner : Manner) (dark : Phase) (torn : Nat → Phase) (eeprom flash : Bytes)
    (address : Nat) (bytes : Bytes) : Error → Media g → Prop :=
  FailsIn manner fun m =>
    Stands (torn (g.pageFloor address)) eeprom (blanked g flash address) m ∨
    Stands dark eeprom flash m ∨ Stands dark eeprom (flash.overlay address bytes) m

/-- Renewing a page for bytes inside it lays them over the flash. -/
theorem renewPage_meets (o : Outage manner light dark torn) (u : g.Uniform) (t : space.Truthful)
    (hm : Stands light eeprom flash m) {address : Nat} {bytes : Bytes} (pos : 0 < bytes.length)
    (page : address + bytes.length ≤ g.pageFloor address + g.pageBytes)
    (upper : address + bytes.length ≤ space.stop) :
    (renewPage address bytes).Ends m
      (fun _ => Stands light eeprom (flash.overlay address bytes))
      (Breaks manner dark torn eeprom flash address bytes) := by
  have hlen : flash.length = g.flashBytes := by
    rw [← hm.2.flash, Memory.length_toBytes]
  have hfloor : g.pageFloor address ≤ address := unitFloor_le _ _
  have hstop : g.pageFloor address + g.pageBytes ≤ space.stop :=
    g.pageFloor_add_le space.stop_mod (by omega)
  have range := Nat.le_trans hstop t.stop_le
  have hfirst := g.pageFloor_mod_wordSize u address
  have hones : (List.replicate g.pageBytes (0xFF : UInt8)).length = g.pageBytes :=
    List.length_replicate
  rw [renewPage_eq pos page upper]
  simp only [Action.ends_bind, ends_driver]
  refine ((view_of_outage o).flashRead hm (g.mod_wordBytes u hfirst)
    (g.mod_wordBytes u (Nat.mod_eq_zero_of_dvd u.wordSize_dvd)) range).mono ?_
    fun _ _ h => ⟨h.1, .inr (.inl h.2)⟩
  rintro _ m₁ ⟨h₁, rfl⟩
  refine (erasePage_meets o h₁ range).mono ?_ fun _ _ h => ⟨h.1, .inr (.inl h.2)⟩
  rintro _ m₂ ⟨h₂, journal, hjournal⟩
  have hslice : (flash.slice (g.pageFloor address) g.pageBytes).length = g.pageBytes :=
    Bytes.length_slice (by omega)
  have hwords : ((flash.slice (g.pageFloor address) g.pageBytes).overlay
      (address - g.pageFloor address) bytes).length = g.pageBytes := by
    rw [Bytes.length_overlay (by omega), hslice]
  have herased : ((flash.overlay (g.pageFloor address) (List.replicate g.pageBytes 0xFF)).overlay
      (g.pageFloor address) ((flash.slice (g.pageFloor address) g.pageBytes).overlay
        (address - g.pageFloor address) bytes)) = flash.overlay address bytes := by
    rw [Bytes.overlay_congr flash (by omega) (Bytes.length_overlay (by omega)),
      Bytes.overlay_overlay_slice (by omega) hfloor page]
    intro i hi
    rw [Bytes.getElem?_overlay_eq (by omega), if_neg (by omega)]
  -- Behind the erasing only the old contents are lost, and a failure from here on is torn.
  have meets (call : Call) (hc : call.access = .write) (hflash : call.medium = .flash) :
      call.Meets manner light (call.Again manner light (torn (g.pageFloor address))) m₂.faults
        m₂.journal := by
    have hlight := h₂.1.phase
    rw [hjournal] at hlight ⊢
    exact o.renew hlight call hc hflash
  -- All bits of the page are set, so programming clears what it should.
  have clears (i : Nat) (old new : UInt8)
      (hold : (flash.overlay (g.pageFloor address)
        (List.replicate g.pageBytes 0xFF))[g.pageFloor address + i]? = some old)
      (hnew : ((flash.slice (g.pageFloor address) g.pageBytes).overlay
        (address - g.pageFloor address) bytes)[i]? = some new) : old &&& new = new := by
    have hi := (List.getElem?_eq_some_iff.mp hnew).1
    rw [Bytes.getElem?_overlay_eq (by omega), if_pos (by omega),
      List.getElem?_replicate_of_lt (by omega)] at hold
    rw [← Option.some.inj hold]
    exact Media.ones_and new
  refine (programWords_meets o u t h₂.1.able h₂.2 meets (Nat.dvd_of_mod_eq_zero hfirst)
    (by rw [hwords]; exact u.wordSize_dvd) (by omega) clears).mono ?_ ?_
  · rw [herased]
    exact fun _ _ h => h
  · rw [herased]
    rintro e m₃ ⟨he, h₃ | h₃⟩
    · exact ⟨he, .inl h₃⟩
    · exact ⟨he, .inr (.inr h₃)⟩

/-- Writing bytes inside a page lays them over the flash. -/
theorem writePiece_meets (o : Outage manner light dark torn) (u : g.Uniform) (t : space.Truthful)
    (hm : Stands light eeprom flash m) {address : Nat} {bytes : Bytes} (pos : 0 < bytes.length)
    (page : address + bytes.length ≤ g.pageFloor address + g.pageBytes)
    (lower : space.start ≤ address) (upper : address + bytes.length ≤ space.stop) :
    (writePiece address bytes).Ends m
      (fun _ => Stands light eeprom (flash.overlay address bytes))
      (Breaks manner dark torn eeprom flash address bytes) := by
  obtain ⟨hfloor, hceil, hfirst, hlast, hstart, hstop⟩ := words_inside u pos page lower upper
  have hflash := t.stop_le
  have hlen : flash.length = g.flashBytes := by
    rw [← hm.2.flash, Memory.length_toBytes]
  rw [writePiece_eq u pos page lower upper]
  simp only [Action.ends_bind]
  refine (readWords_ends (view_of_outage o) u t hm pos page lower upper).mono ?_
    fun _ _ h => ⟨h.1, .inr (.inl h.2)⟩
  rintro _ m₁ ⟨h₁, rfl⟩
  generalize hspan : g.wordCeil (address + bytes.length) - g.wordFloor address = span
  have hspan' : g.wordSize ∣ span := hspan ▸ g.wordSize_dvd_words address _
  have hslice : (flash.slice (g.wordFloor address) span).length = span :=
    Bytes.length_slice (by omega)
  have hcurrent : (flash.slice (g.wordFloor address) span).slice
      (address - g.wordFloor address) bytes.length = flash.slice address bytes.length := by
    rw [Bytes.slice_slice (by omega), Nat.add_sub_cancel' hfloor]
  have hoverlay : flash.overlay (g.wordFloor address) ((flash.slice (g.wordFloor address)
      span).overlay (address - g.wordFloor address) bytes) = flash.overlay address bytes :=
    Bytes.overlay_overlay_slice (by omega) hfloor (by omega)
  simp only [hcurrent, Action.ends_ite, Action.ends_pure]
  -- Nothing to do, words that clear bits only, or a page to renew.
  refine ⟨fun same => ?_, fun _ => ⟨fun clears => ?_, fun _ => ?_⟩⟩
  · rw [Bytes.overlay_of_slice_eq (by omega) same]
    exact h₁
  · have hwords : ((flash.slice (g.wordFloor address) span).overlay
        (address - g.wordFloor address) bytes).length = span := by
      rw [Bytes.length_overlay (by omega), hslice]
    have clears (i : Nat) (old new : UInt8) (hold : flash[g.wordFloor address + i]? = some old)
        (hnew : ((flash.slice (g.wordFloor address) span).overlay
          (address - g.wordFloor address) bytes)[i]? = some new) : old &&& new = new := by
      rw [Bytes.getElem?_overlay_eq (by omega), Bytes.getElem?_slice] at hnew
      by_cases hi : address - g.wordFloor address ≤ i ∧
          i < address - g.wordFloor address + bytes.length
      · rw [if_pos hi] at hnew
        refine Bytes.and_eq_of_clearsTo clears (i := i - (address - g.wordFloor address)) ?_ hnew
        rw [Bytes.getElem?_slice, if_pos (by omega), ← hold]
        congr 1
        omega
      · rw [if_neg hi] at hnew
        grind [UInt8.and_self]
    have hword : g.wordSize ∣ g.wordFloor address := Nat.dvd_of_mod_eq_zero (unitFloor_mod _ _)
    refine (programWords_meets o u t h₁.1.able h₁.2
      (fun call hc => o.change h₁.1.phase call (.inl hc)) hword (by rwa [hwords]) (by omega)
      clears).mono ?_ ?_
    · rw [hoverlay]
      exact fun _ _ h => h
    · rw [hoverlay]
      exact fun _ _ h => ⟨h.1, .inr h.2⟩
  · exact renewPage_meets o u t h₁ pos page upper

/-- Some first pieces have been written, and the page of the next one is erased. -/
def Torn (torn : Nat → Phase) (eeprom flash : Bytes) (address : Nat) (pieces : List Bytes)
    (m' : Media g) : Prop :=
  ∃ done piece, done ++ [piece] <+: pieces ∧ piece ≠ [] ∧
    (∃ m₁ : Media g, m₁.Shows eeprom (flash.overlay address done.flatten)) ∧
    Stands (torn (g.pageFloor (address + done.flatten.length))) eeprom
      (blanked g (flash.overlay address done.flatten) (address + done.flatten.length)) m'

/-- Writing pieces inside pages lays them over the flash; if it fails, some first of them are there
and no others, unless the page of the next one was erased. -/
theorem writePieces_meets (o : Outage manner light dark torn) (u : g.Uniform) (t : space.Truthful)
    (hm : Stands light eeprom flash m) {address : Nat} {pieces : List Bytes}
    (pages : g.InPages address (pieces.map List.length)) (lower : space.start ≤ address)
    (upper : address + pieces.flatten.length ≤ space.stop) :
    (writePieces address pieces).Ends m
      (fun _ => Stands light eeprom (flash.overlay address pieces.flatten))
      (FailsIn manner fun m' => Torn torn eeprom flash address pieces m' ∨
        ∃ done, done <+: pieces ∧ Stands dark eeprom (flash.overlay address done.flatten) m') := by
  have hflash := t.stop_le
  have hlen : flash.length = g.flashBytes := by
    rw [← hm.2.flash, Memory.length_toBytes]
  -- Piece by piece: what is over the flash when one fails is those in front of it.
  induction pieces generalizing m address flash with
  | nil => simpa [writePieces] using hm
  | cons piece pieces ih =>
    obtain ⟨pos, page, pages⟩ := pages
    rw [List.flatten_cons, List.length_append] at upper
    simp only [writePieces, Action.ends_bind]
    refine (writePiece_meets o u t hm pos page lower (by omega)).mono ?_ ?_
    · intro _ m₁ h₁
      have hlen₁ : (flash.overlay address piece).length = g.flashBytes := by
        rw [Bytes.length_overlay (by omega), hlen]
      -- The pieces behind the first one lie right behind it.
      have behind {done rest : List Bytes} (hdone : done ++ rest = pieces) :
          (flash.overlay address piece).overlay (address + piece.length) done.flatten =
            flash.overlay address (piece :: done).flatten := by
        rw [← hdone, List.flatten_append, List.length_append] at upper
        rw [List.flatten_cons, ← Bytes.overlay_append (by rw [List.length_append]; omega)]
      refine (ih h₁ pages (by omega) (by omega) hlen₁).mono ?_ ?_
      · intro _ m₂ h₂
        rwa [← behind (List.append_nil pieces)]
      · rintro e m₂ ⟨he, ⟨done, next, ⟨rest, hrest⟩, hne, hbefore, h₂⟩ | ⟨done, ⟨rest, hrest⟩, h₂⟩⟩
        · rw [List.append_assoc] at hrest
          rw [behind hrest] at h₂ hbefore
          refine ⟨he, .inl ⟨piece :: done, next, ⟨rest, by simp [← hrest]⟩, hne, hbefore, ?_⟩⟩
          rwa [Nat.add_assoc, ← List.length_append, ← List.flatten_cons] at h₂
        · rw [behind hrest] at h₂
          exact ⟨he, .inr ⟨piece :: done, ⟨rest, by simp [← hrest]⟩, h₂⟩⟩
    · rintro e m₁ ⟨he, h₁ | h₁ | h₁⟩
      · refine ⟨he, .inl ⟨[], piece, ⟨pieces, rfl⟩, List.length_pos_iff.mp pos,
          ⟨m, by simpa using hm.2⟩, by simpa using h₁⟩⟩
      · exact ⟨he, .inr ⟨[], List.nil_prefix, by simpa using h₁⟩⟩
      · exact ⟨he, .inr ⟨[piece], ⟨pieces, rfl⟩, by simpa using h₁⟩⟩

/-! ## The whole space -/

/-- The pieces that a write is made of: one for the eeprom, and one for each page of the flash. -/
def pieces (space : Space g) (address : Nat) (bytes : Bytes) : List Bytes :=
  let near := space.eepromPart address bytes.length
  let cell := space.flashCell (address + near)
  (if near = 0 then [] else [bytes.take near]) ++
    Bytes.cut (g.pageParts cell (bytes.length - near)) (bytes.drop near)

/-- The pieces of a write are all of it. -/
theorem flatten_pieces (space : Space g) (address : Nat) (bytes : Bytes) :
    (space.pieces address bytes).flatten = bytes := by
  rw [pieces, List.flatten_append, g.flatten_cut_pageParts _ List.length_drop]
  split
  · next hzero => simp [hzero]
  · simp

/-- A write may be cut off behind so many bytes: between its pieces, or behind some bytes of the
piece for the eeprom. -/
def MayCut (space : Space g) (cut address : Nat) (bytes : Bytes) (n : Nat) : Prop :=
  (∃ done, done <+: space.pieces address bytes ∧ n = done.flatten.length) ∨
    n = min cut (space.eepromPart address bytes.length)

/-- The address in the space where a page of the flash starts. -/
def pageStart (space : Space g) (first : Nat) : Nat := space.boundary + (first - space.start)

/-- Some first pieces have been written, and the page of the next one is erased. -/
def Blanked (space : Space g) (torn : Nat → Phase) (m : Media g) (address : Nat)
    (pieces : List Bytes) (m' : Media g) : Prop :=
  ∃ done first m₁, done <+: pieces ∧ done.flatten.length < pieces.flatten.length ∧
    space.boundary ≤ address + done.flatten.length ∧
    first = g.pageFloor (space.flashCell (address + done.flatten.length)) ∧
    space.Wrote m address done.flatten m₁ ∧ m'.Under (torn first) ∧
    space.Wrote m₁ (space.pageStart first) (List.replicate g.pageBytes 0xFF) m'

/-- What the memories are like when a write of pieces has failed: some of the pieces are there, or
the page of the next one is erased. -/
def Stops (space : Space g) (manner : Manner) (dark : Phase) (torn : Nat → Phase) (m : Media g)
    (address : Nat) (pieces : List Bytes) : Error → Media g → Prop :=
  FailsIn manner fun m' => space.Blanked torn m address pieces m' ∨
    ∃ done, done <+: pieces ∧ m'.Under dark ∧ space.Wrote m address done.flatten m'

/-- Memories in which the pieces in front have been written, and the page in which the next one
begins is erased. -/
theorem blanked_of_shows (t : space.Truthful) {m₁ : Media g} {address : Nat}
    {front rest : List Bytes} {piece : Bytes} {cell : Nat}
    (hcell : space.flashCell (address + front.flatten.length) = cell)
    (near : space.boundary ≤ address + front.flatten.length)
    (range : address + (front ++ piece :: rest).flatten.length ≤ space.total) (pos : piece ≠ [])
    (wrote : space.Wrote m address front.flatten m₁)
    (stands : Stands (torn (g.pageFloor cell)) m₁.eeprom.memory.toBytes
      (blanked g m₁.flash.memory.toBytes cell) m') :
    space.Blanked torn m address (front ++ piece :: rest) m' := by
  subst hcell
  have horder := space.start_le_stop
  have hpos := List.length_pos_iff.mpr pos
  rw [List.flatten_append, List.flatten_cons, List.length_append, List.length_append] at range
  have hlower := space.start_le_flashCell (address + front.flatten.length)
  have hupper := flashCell_add_le near (by omega : _ + piece.length ≤ space.total)
  have hfloor := g.le_pageFloor space.start_mod hlower
  have hceil := g.pageFloor_add_le space.stop_mod
    (by omega : space.flashCell (address + front.flatten.length) < space.stop)
  -- The page is one page of the range.
  have hpage : space.flashCell (space.pageStart
      (g.pageFloor (space.flashCell (address + front.flatten.length)))) =
      g.pageFloor (space.flashCell (address + front.flatten.length)) := by
    rw [pageStart, flashCell]
    omega
  refine ⟨front, _, m₁, List.prefix_append _ _, ?_, near, rfl, wrote, stands.1, ?_⟩
  · rw [List.flatten_append, List.flatten_cons, List.length_append, List.length_append]
    omega
  · refine wrote_flash t (Nat.le_add_right _ _) ?_ stands.2.eeprom ?_
    · rw [List.length_replicate, pageStart, total]
      omega
    · rw [hpage]
      exact stands.2.flash

/-- Writing the pieces in the flash behind those that have been written already. -/
theorem writeBehind_meets (o : Outage manner light dark torn) (u : g.Uniform) (t : space.Truthful)
    {m₁ : Media g} {address : Nat} {front behind : List Bytes} (under : m₁.Under light)
    (wrote : space.Wrote m address front.flatten m₁)
    (near : behind ≠ [] → space.boundary ≤ address + front.flatten.length)
    (pages : g.InPages (space.flashCell (address + front.flatten.length))
      (behind.map List.length))
    (range : address + (front ++ behind).flatten.length ≤ space.total) :
    (writePieces (space.flashCell (address + front.flatten.length)) behind).Ends m₁
      (fun _ m' => m'.Under light ∧ space.Wrote m address (front ++ behind).flatten m')
      (space.Stops manner dark torn m address (front ++ behind)) := by
  by_cases hnil : behind = []
  · subst hnil
    rw [List.append_nil]
    exact ⟨under, wrote⟩
  have hnear := near hnil
  rw [List.flatten_append, List.length_append] at range
  have hle {done : List Bytes} (hdone : done <+: behind) :
      done.flatten.length ≤ behind.flatten.length := by
    obtain ⟨rest, rfl⟩ := hdone
    rw [List.flatten_append, List.length_append]
    exact Nat.le_add_right _ _
  -- What has been written of them lies right behind the pieces in front.
  have extend {m' : Media g} {done : List Bytes} (hdone : done <+: behind)
      (heeprom : m'.eeprom.memory.toBytes = m₁.eeprom.memory.toBytes)
      (hflash : m'.flash.memory.toBytes = m₁.flash.memory.toBytes.overlay
        (space.flashCell (address + front.flatten.length)) done.flatten) :
      space.Wrote m address (front ++ done).flatten m' := by
    have hle := hle hdone
    rw [List.flatten_append]
    refine wrote.append t ?_ (by rw [List.length_append]; omega)
    exact wrote_flash t hnear (by omega) heeprom hflash
  have lower := space.start_le_flashCell (address + front.flatten.length)
  have upper : space.flashCell (address + front.flatten.length) + behind.flatten.length ≤
      space.stop := flashCell_add_le hnear (by omega)
  refine (writePieces_meets o u t ⟨under, rfl, rfl⟩ pages lower upper).mono ?_ ?_
  · rintro _ m₂ ⟨hunder, hshows⟩
    exact ⟨hunder, extend (List.prefix_refl behind) hshows.eeprom hshows.flash⟩
  · rintro e m₂ ⟨he, ⟨done, piece, hdone, hpiece, ⟨m₃, h₃⟩, hunder, hshows⟩ | ⟨done, hdone, hunder,
      hshows⟩⟩
    · obtain ⟨rest, rfl⟩ := hdone
      rw [List.append_assoc] at extend range ⊢
      have hsum : (front ++ done).flatten.length = front.flatten.length + done.flatten.length := by
        rw [List.flatten_append, List.length_append]
      have hcell : space.flashCell (address + (front ++ done).flatten.length) =
          space.flashCell (address + front.flatten.length) + done.flatten.length := by
        rw [hsum, flashCell, flashCell]
        omega
      refine ⟨he, .inl ?_⟩
      rw [← List.append_assoc]
      refine blanked_of_shows t hcell (by omega) ?_ hpiece
        (extend (List.prefix_append _ _) h₃.eeprom h₃.flash) ⟨hunder, ?_⟩
      · rw [List.append_assoc, List.flatten_append, List.length_append]
        exact range
      · rw [h₃.eeprom, h₃.flash]
        exact hshows
    · exact ⟨he, .inr ⟨front ++ done, (List.prefix_append_right_inj front).mpr hdone, hunder,
        extend hdone hshows.eeprom hshows.flash⟩⟩

/-- Writing inside the range lays the bytes over the image; if it fails, those in front of a cut,
unless the page of the next one is erased. -/
theorem write_meets (o : Outage manner light dark torn) (u : g.Uniform) (t : space.Truthful)
    (under : m.Under light) {address : Nat} {bytes : Bytes}
    (range : address + bytes.length ≤ space.total) :
    (space.write address bytes).Ends m
      (fun _ m' => m'.Under light ∧ space.Wrote m address bytes m')
      (FailsIn manner fun m' => space.Blanked torn m address (space.pieces address bytes) m' ∨
        ∃ n, space.MayCut manner.cut address bytes n ∧ m'.Under dark ∧
          space.Wrote m address (bytes.take n) m') := by
  have hnear : space.eepromPart address bytes.length =
      min (space.boundary - address) bytes.length := rfl
  have hb := t.boundary_eq
  have hall := space.flatten_pieces address bytes
  have stops {e : Error} {m' : Media g} (h : space.Stops manner dark torn m address
      (space.pieces address bytes) e m') : FailsIn manner (fun m' =>
        space.Blanked torn m address (space.pieces address bytes) m' ∨
          ∃ n, space.MayCut manner.cut address bytes n ∧ m'.Under dark ∧
            space.Wrote m address (bytes.take n) m') e m' := by
    obtain ⟨he, h' | ⟨done, hdone, hunder, hwrote⟩⟩ := h
    · exact ⟨he, .inl h'⟩
    · refine ⟨he, .inr ⟨_, .inl ⟨done, hdone, rfl⟩, hunder, ?_⟩⟩
      obtain ⟨rest, hrest⟩ := hdone
      rwa [← hall, ← hrest, List.flatten_append, List.take_left]
  rw [write_eq, Action.ends_ite]
  refine ⟨fun hnil => hnil ▸ ⟨under, .refl space m address⟩, fun _ => ?_⟩
  simp only [require_of_le range, pure_bind, pieces] at stops hall ⊢
  unfold MayCut at stops ⊢
  generalize space.eepromPart address bytes.length = near at hnear stops hall ⊢
  have hlen : (bytes.take near).length = near := by rw [List.length_take]; omega
  have hrest : (bytes.drop near).length = bytes.length - near := List.length_drop
  have hflat := g.flatten_cut_pageParts (space.flashCell (address + near)) hrest
  have hpages := g.inPages_cut_pageParts (space.flashCell (address + near)) hrest
  generalize Bytes.cut (g.pageParts (space.flashCell (address + near)) (bytes.length - near))
    (bytes.drop near) = behind at hflat hpages stops hall ⊢
  -- The part in the flash is the same whether there was one in the eeprom or not.
  have back {m₁ : Media g} {front : List Bytes} (hfront : front.flatten = bytes.take near)
      (h₁ : m₁.Under light) (wrote : space.Wrote m address (bytes.take near) m₁) :
      (writePieces (space.flashCell (address + near)) behind).Ends m₁
      (fun _ m' => m'.Under light ∧ space.Wrote m address bytes m')
      (space.Stops manner dark torn m address (front ++ behind)) := by
    have hall : (front ++ behind).flatten = bytes := by
      rw [List.flatten_append, hfront, hflat, List.take_append_drop]
    have hsize : front.flatten.length = near := by rw [hfront, hlen]
    have hsome (hne : behind ≠ []) : space.boundary ≤ address + front.flatten.length := by
      obtain ⟨piece, rest, rfl⟩ := List.exists_cons_of_ne_nil hne
      have hpos : 0 < piece.length := hpages.1
      rw [List.flatten_cons] at hflat
      have hlength := congrArg List.length hflat
      rw [List.length_append] at hlength
      omega
    have h := writeBehind_meets o u t h₁ (hfront ▸ wrote) hsome (by rwa [hsize]) (by rwa [hall])
    rwa [hall, hsize] at h
  rw [Action.ends_ite]
  refine ⟨fun hsome => ?_, fun hzero => ?_⟩
  · rw [Action.ends_bind]
    rw [if_neg hsome] at stops ⊢
    have hsplit : [bytes.take near].flatten = bytes.take near := by simp
    refine (writeEeprom_meets o ⟨under, rfl, rfl⟩ t.eepromBytes_lt (by omega)).mono ?_ ?_
    · rintro _ m₁ ⟨hunder, hshows⟩
      exact (back hsplit hunder (wrote_eeprom t (by omega) hshows.eeprom hshows.flash)).mono
        (fun _ _ h => h) fun _ _ h => stops h
    · rintro e m₁ ⟨he, ⟨hunder, hshows⟩ | ⟨hunder, hshows⟩⟩
      · rw [List.take_take] at hshows
        refine ⟨he, .inr ⟨_, .inr rfl, hunder, ?_⟩⟩
        exact wrote_eeprom t (by rw [List.length_take]; omega) hshows.eeprom hshows.flash
      · refine stops ⟨he, .inr ⟨[bytes.take near], List.prefix_append _ _, hunder, ?_⟩⟩
        rw [hsplit]
        exact wrote_eeprom t (by omega) hshows.eeprom hshows.flash
  · have hzero : near = 0 := by omega
    subst hzero
    rw [if_pos rfl] at stops ⊢
    exact (back rfl under (.refl space m address)).mono (fun _ _ h => h) fun _ _ h => stops h

/-- The request lies in the eeprom, or in one page of the flash. -/
def Whole (space : Space g) (address length : Nat) : Prop :=
  address + length ≤ space.boundary ∨ space.boundary ≤ address ∧
    space.flashCell address + length ≤ g.pageFloor (space.flashCell address) + g.pageBytes

/-- Such a request is written in one piece. -/
theorem pieces_of_whole {address : Nat} {bytes : Bytes} (whole : space.Whole address bytes.length)
    (pos : bytes ≠ []) : space.pieces address bytes = [bytes] := by
  have hpos := List.length_pos_iff.mpr pos
  rcases whole with h | ⟨h, page⟩
  · have hnear : space.eepromPart address bytes.length = bytes.length := by
      unfold eepromPart
      omega
    simp [pieces, hnear, Geometry.pageParts, Bytes.cut, pos]
  · have hnear : space.eepromPart address bytes.length = 0 := by
      unfold eepromPart
      omega
    have hmin : min (g.pageFloor (space.flashCell address) + g.pageBytes - space.flashCell address)
        bytes.length = bytes.length := by omega
    simp [pieces, hnear, Geometry.pageParts, Bytes.cut, pos, hmin, Bytes.pieces]

end Space

end CircularLog
