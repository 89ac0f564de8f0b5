import CircularLog.Proofs.Media.Journal
import CircularLog.Proofs.Partition.Frame
import CircularLog.Proofs.Space.Containment
import CircularLog.Proofs.Space.Flat

/-!
# What a space asks of the memories

Whatever is asked of a space and whatever becomes of its driver calls, it asks the memories for
nothing but cells of its own: the eeprom inside its size, the flash in whole words inside the range,
and for erasing one page of the range at a time (`Space.Admits`). Readings may lie and writes may
fail in any way, as only the lengths of what was read matter for what is asked next.

Each driver call that a space admits keeps the `Guards` of a property; from these, every reading and
every write keeps it, at any address (`Guards.read`, `Guards.write`). The memories refuse no call
that a space admits (`accepted_of_admits`), and what lies in the flash around the range stays as it
is (`guards_disciplined`).
-/

namespace CircularLog

variable {g : Geometry} {α : Type} {space : Space g} {m m₀ : Media g} {kept : Media g → Prop}
  {address length : Nat}

open CircularLog.Action (Keeps)

/-! ## Calls -/

/-- The memories carry the call out, in whatever state they are: they do it, or, where the flash has
to be changed, let it time out. Of a write they take any first part in whole programming units. -/
def Call.Accepted (g : Geometry) (call : Call) : Prop :=
  match call.medium, call.access with
  | .eeprom, .read => ∀ device : Eeprom g.eepromBytes,
      (Eeprom.read call.address call.length).Ends device
        (fun bytes _ => bytes.length = call.length) fun _ _ => False
  | .eeprom, .write => ∀ device : Eeprom g.eepromBytes, ∀ bytes : Bytes,
      bytes.length ≤ call.length →
      (Eeprom.write call.address bytes).Ends device (fun _ _ => True) fun _ _ => False
  | .eeprom, .poll => ∀ device : Eeprom g.eepromBytes,
      Eeprom.poll.Ends device (fun _ _ => True) fun _ _ => False
  | .flash, .read => ∀ device : Flash g,
      (Flash.read call.address call.length).Ends device
        (fun bytes _ => bytes.length = call.length) fun _ _ => False
  | .flash, .write => ∀ device : Flash g, ∀ bytes : Bytes,
      bytes.length ≤ call.length → g.wordBytes ∣ bytes.length →
      (Flash.program call.address bytes).Ends device (fun _ _ => True) fun e _ => e = .timeout
  | .flash, .erase => ∀ device : Flash g,
      (Flash.erase call.address (call.address + call.length)).Ends device (fun _ _ => True)
        fun e _ => e = .timeout
  | .eeprom, .erase => False
  | .flash, .poll => False

namespace Space

/-- Whole words inside the range of the flash. -/
structure InWords (space : Space g) (address length : Nat) : Prop where
  first : g.wordSize ∣ address
  whole : g.wordSize ∣ length
  lower : space.start ≤ address
  upper : address + length ≤ space.stop

/-- One page inside the range of the flash. -/
structure InPageRange (space : Space g) (address length : Nat) : Prop where
  first : g.pageBytes ∣ address
  whole : length = g.pageBytes
  lower : space.start ≤ address
  upper : address + length ≤ space.stop

/-- The calls that a space makes: for cells inside the eeprom, for whole words inside the range of
the flash, and for erasing one page of the range. -/
def Admits (space : Space g) (call : Call) : Prop :=
  match call.medium, call.access with
  | .eeprom, .read | .eeprom, .write | .eeprom, .poll =>
    call.address + call.length ≤ g.eepromBytes
  | .flash, .read | .flash, .write => space.InWords call.address call.length
  | .flash, .erase => space.InPageRange call.address call.length
  | .eeprom, .erase | .flash, .poll => False

/-- Whole words start at a word. -/
theorem InWords.mod_first (h : space.InWords address length) (u : g.Uniform) :
    address % g.wordBytes = 0 := g.mod_wordBytes u (Nat.mod_eq_zero_of_dvd h.first)

/-- Their length is a number of words. -/
theorem InWords.mod_whole (h : space.InWords address length) (u : g.Uniform) :
    length % g.wordBytes = 0 := g.mod_wordBytes u (Nat.mod_eq_zero_of_dvd h.whole)

/-- The memories refuse no call that a space admits. -/
theorem accepted_of_admits (u : g.Uniform) (t : space.Truthful) {call : Call}
    (h : space.Admits call) : call.Accepted g := by
  have hstop := t.stop_le
  -- The memories check alignment and size, and a call that is admitted passes each check. Where the
  -- flash times out, it has not come to them.
  obtain ⟨medium, access, address, length⟩ := call
  cases medium with
  | eeprom =>
    cases access with
    | read =>
      intro device
      have range : address + length ≤ g.eepromBytes := h
      simp only [Eeprom.read, Action.ends_bind, Action.ends_modify, range, if_true,
        Action.ends_get, Action.ends_pure, Memory.slice_eq]
      exact Bytes.length_slice (by rwa [Memory.length_toBytes])
    | write =>
      intro device bytes hlen
      have range : address + length ≤ g.eepromBytes := h
      have fits : address + bytes.length ≤ g.eepromBytes := by
        have : bytes.length ≤ length := hlen
        omega
      simp only [Eeprom.write, Action.ends_bind, Action.ends_modify, fits, if_true]
    | erase => exact h.elim
    | poll =>
      intro device
      simp only [Eeprom.poll, Action.ends_modifyGet]
  | flash =>
    cases access with
    | read =>
      intro device
      have words : space.InWords address length := h
      have range := words.upper
      simp only [Flash.read, Action.ends_bind, Action.ends_modify, Action.ends_ensure,
        Flash.checkRange, words.mod_first u, words.mod_whole u, ne_eq, not_true_eq_false, if_false,
        if_neg (by omega : ¬ g.flashBytes < address + length), Action.ofExcept, Action.ends_pure,
        Action.ends_get, Memory.slice_eq, true_and]
      exact Bytes.length_slice (by rw [Memory.length_toBytes]; omega)
    | write =>
      intro device bytes hlen hunit
      have words : space.InWords address length := h
      have range := words.upper
      have fits : ¬ g.flashBytes < address + bytes.length := by
        have : bytes.length ≤ length := hlen
        omega
      simp only [Flash.program, Action.ends_bind, Action.ends_modify, Flash.takeTimeout,
        Action.ends_get, ne_eq, ite_not, Action.ends_ite, Action.ends_pure, Action.ends_fail,
        Flash.checkRange, words.mod_first u, Nat.mod_eq_zero_of_dvd hunit, fits,
        not_true_eq_false, if_false, Action.ofExcept, Action.ends_ensure, implies_true, and_self]
    | erase =>
      intro device
      have page : space.InPageRange address length := h
      obtain ⟨first, rfl, -, upper⟩ := page
      have fits : ¬ g.flashBytes < address + g.pageBytes := by omega
      have last : (address + g.pageBytes) % g.pageBytes = 0 := by
        rw [Nat.add_mod_right, Nat.mod_eq_zero_of_dvd first]
      simp only [Flash.erase, Action.ends_bind, Action.ends_modify, Flash.takeTimeout,
        Action.ends_get, ne_eq, ite_not, Action.ends_ite, Action.ends_pure, Action.ends_fail,
        Action.ends_ensure, Nat.le_add_right, fits, last, Nat.mod_eq_zero_of_dvd first,
        not_true_eq_false, or_self, false_implies, not_false_eq_true, implies_true, and_self]
    | poll => exact h.elim

/-! ## Guards -/

/-- The driver calls that a space admits keep the property, however they end, and what is read has
the length asked for. -/
structure Guards (space : Space g) (kept : Media g → Prop) : Prop where
  eepromRead : ∀ {m address length}, kept m → address + length ≤ g.eepromBytes →
    (Media.eepromRead address length).Yields m
      (fun bytes m' => kept m' ∧ bytes.length = length) kept
  eepromWrite : ∀ {address bytes}, address + bytes.length ≤ g.eepromBytes →
    Keeps kept (Media.eepromWrite address bytes)
  eepromPoll : Keeps kept Media.eepromPoll
  flashRead : ∀ {m address length}, kept m → space.InWords address length →
    (Media.flashRead address length).Yields m (fun bytes m' => kept m' ∧ bytes.length = length) kept
  flashProgram : ∀ {address bytes}, space.InWords address bytes.length →
    Keeps kept (Media.flashProgram address bytes)
  flashErase : ∀ {start}, space.InPageRange start g.pageBytes →
    Keeps kept (Media.flashErase start (start + g.pageBytes))

/-- The words that hold a request inside a page of the range. -/
theorem inWords_of_page (u : g.Uniform) (pos : 0 < length)
    (page : address + length ≤ g.pageFloor address + g.pageBytes)
    (lower : space.start ≤ address) (upper : address + length ≤ space.stop) :
    space.InWords (g.wordFloor address)
      (g.wordCeil (address + length) - g.wordFloor address) := by
  obtain ⟨hfloor, hceil, hfirst, hlast, hstart, hstop⟩ := words_inside u pos page lower upper
  exact ⟨Nat.dvd_of_mod_eq_zero (unitFloor_mod _ _), g.wordSize_dvd_words _ _, by omega, by omega⟩

/-- The page of an address inside the range. -/
theorem inPageRange (lower : space.start ≤ address) (upper : address < space.stop) :
    space.InPageRange (g.pageFloor address) g.pageBytes where
  first := Nat.dvd_of_mod_eq_zero (unitFloor_mod _ _)
  whole := rfl
  lower := g.le_pageFloor space.start_mod lower
  upper := g.pageFloor_add_le space.stop_mod upper

/-- A page consists of whole words. -/
theorem InPageRange.inWords (h : space.InPageRange address length) (u : g.Uniform) :
    space.InWords address length where
  first := Nat.dvd_trans u.wordSize_dvd h.first
  whole := h.whole ▸ u.wordSize_dvd
  lower := h.lower
  upper := h.upper

namespace Guards

variable (k : space.Guards kept)
include k

/-! ### Reading -/

section Reading

variable (u : g.Uniform)
include u

/-- Reading words inside a page of the range gives as many bytes as these words have. -/
theorem readWords_yields (hm : kept m) (pos : 0 < length)
    (page : address + length ≤ g.pageFloor address + g.pageBytes)
    (lower : space.start ≤ address) (upper : address + length ≤ space.stop) :
    (readWords address length).Yields m
      (fun r m' => kept m' ∧ r.1 = g.wordFloor address ∧
        r.2.length = g.wordCeil (address + length) - g.wordFloor address)
      kept := by
  have words := inWords_of_page u pos page lower upper
  rw [readWords_eq u pos page lower upper]
  simp only [Action.yields_bind, yields_driver, Action.yields_pure]
  exact (k.flashRead hm words).mono (fun _ _ h => ⟨h.1, trivial, h.2⟩) fun _ h => h

/-- Reading piece after piece keeps the property, and gives as many bytes as were asked for. -/
theorem readPieces_yields (hm : kept m) {lengths : List Nat} (pages : g.InPages address lengths)
    (lower : space.start ≤ address) (upper : address + Bytes.total lengths ≤ space.stop) :
    (readPieces address lengths).Yields m
      (fun bytes m' => kept m' ∧ bytes.length = Bytes.total lengths) kept := by
  induction lengths generalizing m address with
  | nil => exact ⟨hm, rfl⟩
  | cons length lengths ih =>
    obtain ⟨pos, page, pages⟩ := pages
    rw [Bytes.total_cons] at upper
    obtain ⟨hfloor, hceil, -, -, -, -⟩ := words_inside u pos page lower (by omega)
    rw [readPieces, readPiece_eq u pos page lower (by omega)]
    simp only [Action.yields_bind, Action.yields_pure]
    refine (k.readWords_yields u hm pos page lower (by omega)).mono ?_ fun _ h => h
    rintro ⟨_, words⟩ m₁ ⟨h₁, rfl, hlen⟩
    refine (ih h₁ pages (by omega) (by omega)).mono ?_ fun _ h => h
    rintro rest m₂ ⟨h₂, hrest⟩
    have hpiece : (words.slice (address - g.wordFloor address) length).length = length :=
      Bytes.length_slice (by simp only at hlen; omega)
    exact ⟨h₂, by rw [List.length_append, hpiece, hrest, Bytes.total_cons]⟩

/-- Reading keeps the property at any address, and gives as many bytes as were asked for. -/
theorem read_yields (t : space.Truthful) (hm : kept m) (address length : Nat) :
    (space.read address length).Yields m (fun bytes m' => kept m' ∧ bytes.length = length)
      kept := by
  have hb := t.boundary_eq
  have horder := space.start_le_stop
  rw [read_eq, Action.yields_ite]
  refine ⟨fun hzero => ⟨hm, hzero.symm⟩, fun _ => ?_⟩
  by_cases range : address + length ≤ space.total
  case neg =>
    rw [require_of_lt (Nat.lt_of_not_le range)]
    exact hm
  have hnear : space.eepromPart address length = min (space.boundary - address) length := rfl
  rw [require_of_le range, pure_bind]
  generalize space.eepromPart address length = near at hnear ⊢
  -- The part in the flash is read the same whether there is one in the eeprom or not.
  have back {m₁ : Media g} (h₁ : kept m₁) :
      (readPieces (space.flashCell (address + near))
        (g.pageParts (space.flashCell (address + near)) (length - near))).Yields m₁
      (fun back m' => kept m' ∧ back.length = length - near) kept := by
    by_cases hrest : length - near = 0
    · simp only [hrest, Geometry.pageParts, if_true]
      exact ⟨h₁, rfl⟩
    · have hsum := g.total_pageParts (space.flashCell (address + near)) (length - near)
      have upper : space.flashCell (address + near) + (length - near) ≤ space.stop :=
        flashCell_add_le (by omega) (by omega)
      have h := k.readPieces_yields u h₁ (g.inPages_pageParts _ (length - near))
        (space.start_le_flashCell _) (hsum.symm ▸ upper)
      rwa [hsum] at h
  rw [Action.yields_ite]
  refine ⟨fun hzero => ?_, fun _ => ?_⟩
  · have back := back hm
    simp only [hzero, Action.yields_bind, Action.yields_pure] at back ⊢
    exact back
  · simp only [Action.yields_bind, yields_driver, Action.yields_pure]
    refine (k.eepromRead hm (by omega)).mono ?_ fun _ h => h
    rintro front m₁ ⟨h₁, hfront⟩
    refine (back h₁).mono ?_ fun _ h => h
    rintro rest m₂ ⟨h₂, hrest⟩
    exact ⟨h₂, by rw [List.length_append, hfront, hrest]; omega⟩

end Reading

/-! ### Writing -/

omit k in
/-- Comparing whole units inside a range keeps what readings of such units keep. -/
theorem keeps_confirm {read : Nat → Nat → Action Error (Media g) Bytes}
    {unit size lower upper : Nat}
    (hread : ∀ address length, unit ∣ address → unit ∣ length → lower ≤ address →
      address + length ≤ upper → Keeps kept (read address length))
    (index : Nat) {chunks : List Bytes} (even : Bytes.Even size (chunks.map List.length))
    (first : unit ∣ address + index * size) (whole : ∀ chunk ∈ chunks, unit ∣ chunk.length)
    (hlower : lower ≤ address) (hupper : address + index * size + chunks.flatten.length ≤ upper) :
    Keeps kept (confirm read address size index chunks) := by
  induction chunks generalizing index with
  | nil => exact Action.keeps_pure _
  | cons chunk chunks ih =>
    intro m hm
    obtain ⟨-, full, even⟩ := even
    have hchunk := whole chunk (by simp)
    rw [List.flatten_cons, List.length_append] at hupper
    simp only [confirm, Action.yields_bind, Action.yields_ite, Action.yields_fail]
    refine Action.yields_product _ _ _ (fun _ => ?_) hm
    refine Action.yields_sum _ _ _ (fun _ => ?_) hm
    refine (Action.settled_front _ _).yields (fun _ => ?_) hm
    refine (hread _ _ first hchunk (by omega) (by omega) m hm).mono ?_ fun _ h => h
    refine fun _ m₁ h₁ => ⟨fun _ => ?_, fun _ => h₁⟩
    by_cases hmore : chunks = []
    · subst hmore
      exact h₁
    · -- Only the last chunk is shorter than the others, so the next one is where this one stops.
      have next : address + (index + 1) * size = address + index * size + chunk.length := by
        rw [full (by simpa using hmore), Nat.succ_mul, Nat.add_assoc]
      exact ih (index + 1) even (next ▸ Nat.dvd_add first hchunk)
        (fun c hc => whole c (by simp [hc])) (by omega) m₁ h₁

/-- Waiting for the eeprom only polls it. -/
theorem awaitIdle (polls : Nat) : Keeps kept (awaitIdle (g := g) polls) := by
  induction polls with
  | zero => exact Action.keeps_fail _
  | succ polls ih =>
    exact (keeps_driver k.eepromPoll _).bind fun _ => .ite ih (Action.keeps_pure _)

/-- Writing to the eeprom keeps the property, and so does reading back what was written. -/
theorem writeEeprom {bytes : Bytes} (range : address + bytes.length ≤ g.eepromBytes) :
    Keeps kept (writeEeprom (g := g) address bytes) := by
  have reads (a n : Nat) (_ : 1 ∣ a) (_ : 1 ∣ n) (_ : 0 ≤ a) (h : a + n ≤ g.eepromBytes) :
      Keeps kept (driver (g := g) .eeprom (Media.eepromRead a n)) := keeps_driver
    (fun _ hm => (k.eepromRead hm h).mono (fun _ _ h => h.1) fun _ h => h) _
  refine (keeps_driver (k.eepromWrite range) _).bind fun _ => (k.awaitIdle _).bind fun _ => ?_
  exact keeps_confirm reads 0 (Bytes.even_chunks (by decide) bytes) (Nat.one_dvd _)
    (fun _ _ => Nat.one_dvd _) (Nat.zero_le _) (by rwa [Bytes.flatten_chunks, Nat.zero_mul])

/-- So does programming whole words of the range. -/
theorem programWords {words : Bytes} (h : space.InWords address words.length) :
    Keeps kept (programWords (g := g) address words) := by
  have reads (a n : Nat) (first : g.wordSize ∣ a) (whole : g.wordSize ∣ n)
      (lower : space.start ≤ a) (upper : a + n ≤ space.stop) :
      Keeps kept (driver (g := g) .flash (Media.flashRead a n)) := keeps_driver
    (fun _ hm => (k.flashRead hm ⟨first, whole, lower, upper⟩).mono (fun _ _ h => h.1)
      fun _ h => h) _
  rw [programWords_eq space]
  refine (keeps_driver (keeps_resubmit (k.flashProgram h)) _).bind fun _ => ?_
  exact keeps_confirm reads 0 (Bytes.even_chunks space.wordFloor_chunkBytes_pos words)
    (by simpa using h.first)
    (fun chunk hc => Bytes.dvd_length_of_mem_chunks
      (Nat.dvd_of_mod_eq_zero (unitFloor_mod _ chunkBytes)) h.whole hc)
    h.lower (by rw [Bytes.flatten_chunks, Nat.zero_mul]; exact h.upper)

variable (u : g.Uniform)
include u

/-- Renewing a page erases and programs that page only. -/
theorem renewPage {bytes : Bytes} (pos : 0 < bytes.length)
    (page : address + bytes.length ≤ g.pageFloor address + g.pageBytes)
    (lower : space.start ≤ address) (upper : address + bytes.length ≤ space.stop) :
    Keeps kept (renewPage (g := g) address bytes) := by
  have range : space.InPageRange (g.pageFloor address) g.pageBytes := inPageRange lower (by omega)
  have hfloor : g.pageFloor address ≤ address := unitFloor_le _ _
  intro m hm
  rw [renewPage_eq pos page upper, Action.yields_bind, yields_driver]
  refine (k.flashRead hm (range.inWords u)).mono ?_ fun _ h => h
  rintro old m₁ ⟨h₁, hlen⟩
  have hnew : (old.overlay (address - g.pageFloor address) bytes).length = g.pageBytes := by
    rw [Bytes.length_overlay (by omega), hlen]
  exact ((keeps_driver (keeps_resubmit (k.flashErase range)) _).bind fun _ =>
    k.programWords (hnew ▸ range.inWords u)) m₁ h₁

/-- Writing a piece of a page keeps the property, whether the page has to be erased or not. -/
theorem writePiece {bytes : Bytes} (pos : 0 < bytes.length)
    (page : address + bytes.length ≤ g.pageFloor address + g.pageBytes)
    (lower : space.start ≤ address) (upper : address + bytes.length ≤ space.stop) :
    Keeps kept (writePiece (g := g) address bytes) := by
  have inside := inWords_of_page u pos page lower upper
  obtain ⟨hfloor, hceil, -, -, -, -⟩ := words_inside u pos page lower upper
  intro m hm
  rw [writePiece_eq u pos page lower upper, Action.yields_bind]
  refine (k.readWords_yields u hm pos page lower upper).mono ?_ fun _ h => h
  rintro ⟨_, words⟩ m₁ ⟨h₁, rfl, hlen⟩
  have hnew : (words.overlay (address - g.wordFloor address) bytes).length =
      g.wordCeil (address + bytes.length) - g.wordFloor address := by
    rw [Bytes.length_overlay (by simp only at hlen; omega), hlen]
  have programs := k.programWords (hnew ▸ inside)
  exact Keeps.ite (Action.keeps_pure _)
    (.ite programs (k.renewPage u pos page lower upper)) m₁ h₁

/-- So does writing piece after piece. -/
theorem writePieces {pieces : List Bytes} (pages : g.InPages address (pieces.map List.length))
    (lower : space.start ≤ address)
    (upper : address + Bytes.total (pieces.map List.length) ≤ space.stop) :
    Keeps kept (writePieces (g := g) address pieces) := by
  induction pieces generalizing address with
  | nil => exact Action.keeps_pure _
  | cons piece pieces ih =>
    obtain ⟨pos, page, pages⟩ := pages
    rw [List.map_cons, Bytes.total_cons] at upper
    exact (k.writePiece u pos page lower (by omega)).bind fun _ =>
      ih pages (by omega) (by omega)

/-- Writing keeps the property at any address. -/
theorem write (t : space.Truthful) (address : Nat) (bytes : Bytes) :
    Keeps kept (space.write address bytes) := by
  have hb := t.boundary_eq
  have horder := space.start_le_stop
  rw [write_eq]
  refine .ite (Action.keeps_pure _) ?_
  by_cases range : address + bytes.length ≤ space.total
  case neg =>
    rw [require_of_lt (Nat.lt_of_not_le range)]
    exact fun _ hm => hm
  have hnear : space.eepromPart address bytes.length =
    min (space.boundary - address) bytes.length := rfl
  rw [require_of_le range, pure_bind]
  -- The request is cut where the eeprom ends; of how much lies in front of it, only the bound
  -- matters.
  generalize space.eepromPart address bytes.length = near at hnear ⊢
  have back : Keeps kept (Space.writePieces (space.flashCell (address + near))
      (Bytes.cut (g.pageParts (space.flashCell (address + near)) (bytes.length - near))
        (bytes.drop near))) := by
    by_cases hrest : bytes.length - near = 0
    · simp only [hrest, Geometry.pageParts, if_true, Bytes.cut]
      exact Action.keeps_pure _
    · have upper : space.flashCell (address + near) + (bytes.length - near) ≤ space.stop :=
        flashCell_add_le (by omega) (by omega)
      exact k.writePieces u (g.inPages_cut_pageParts _ List.length_drop)
        (space.start_le_flashCell _)
        (by rwa [g.map_length_cut_pageParts _ List.length_drop, g.total_pageParts])
  dsimp only
  split
  case isTrue some =>
    exact (k.writeEeprom (by rw [List.length_take]; omega)).bind fun _ => back
  case isFalse => exact back

/-- Filling keeps the property at any address. -/
theorem fill (t : space.Truthful) (address length : Nat) (value : UInt8) :
    Keeps kept (space.fill address length value) := by
  have chunks (address : Nat) (lengths : List Nat) :
      Keeps kept (space.fillChunks address value lengths) := by
    induction lengths generalizing address with
    | nil => exact Action.keeps_pure _
    | cons length lengths ih =>
      exact (Action.settled_part _ _ _).keeps.bind fun _ => (k.write u t _ _).bind fun _ =>
        (Action.settled_sum _ _ _).keeps.bind fun _ => ih _
  rw [Space.fill, require_eq]
  exact .bind (.ite (Action.keeps_fail _) (Action.keeps_pure _)) fun _ => chunks _ _

/-- Serving any request keeps the property. -/
theorem serve (t : space.Truthful) (request : Request) : Keeps kept (space.serve request) := by
  cases request with
  | read address length =>
    exact fun _ hm => (k.read_yields u t hm address length).mono (fun _ _ h => h.1) fun _ h => h
  | write address bytes => exact (k.write u t _ _).bind fun _ => Action.keeps_pure _
  | fill address length value => exact (k.fill u t _ _ _).bind fun _ => Action.keeps_pure _

/-- Readings of the space keep the property. -/
theorem reads (t : space.Truthful) : space.Reads kept where
  read hm _ := k.read_yields u t hm _ _

/-- Readings and writes of any part of the space keep the property. -/
theorem tends (t : space.Truthful) {lower upper : Nat} (inside : upper ≤ space.total) :
    space.Tends lower upper kept where
  toReads := k.reads u t
  inside := inside
  write _ _ := k.write u t _ _

end Guards

/-! ## The calls that are made -/

/-- Between two states of the media only calls were made that the space admits, and the cells of the
flash around its range are as they were. -/
structure Disciplined (space : Space g) (m m' : Media g) : Prop where
  calls : ∃ calls, m'.journal = calls ++ m.journal ∧ ∀ call ∈ calls, space.Admits call
  around : space.around m' = space.around m

/-- No call is no harm. -/
theorem Disciplined.refl (space : Space g) (m : Media g) : space.Disciplined m m :=
  ⟨⟨[], rfl, nofun⟩, rfl⟩

/-- A call that the space admits may follow. -/
theorem Disciplined.called (h : space.Disciplined m₀ m) (call : Call) (admits : space.Admits call) :
    space.Disciplined m₀ (m.called call) := by
  obtain ⟨calls, hjournal, hcalls⟩ := h.calls
  refine ⟨⟨call :: calls, ?_, List.forall_mem_cons.mpr ⟨admits, hcalls⟩⟩, h.around⟩
  rw [Media.called, hjournal, List.cons_append]

/-- What the eeprom does is neither in the journal nor in the flash. -/
theorem Disciplined.eeprom (h : space.Disciplined m₀ m) (eeprom : Eeprom g.eepromBytes) :
    space.Disciplined m₀ { m with eeprom } := ⟨h.calls, h.around⟩

/-- What the flash does inside of the range is neither in the journal nor around the range. -/
theorem Disciplined.flash (h : space.Disciplined m₀ m) {flash : Flash g}
    (outside : ∀ i, i < space.start ∨ space.stop ≤ i →
      flash.memory.toBytes[i]? = m.flash.memory.toBytes[i]?) :
    space.Disciplined m₀ { m with flash } := by
  refine ⟨h.calls, .trans ?_ h.around⟩
  rw [Space.around, Space.around, Prod.mk.injEq]
  refine ⟨List.ext_getElem? fun i => ?_, List.ext_getElem? fun i => ?_⟩
  · rw [List.getElem?_take, List.getElem?_take]
    split
    · exact outside i (.inl ‹_›)
    · rfl
  · rw [List.getElem?_drop, List.getElem?_drop]
    exact outside _ (.inr (Nat.le_add_right _ _))

/-- A reading call gives what the reading gives, but for its bits. -/
theorem readThrough_any {call : Call} {read : Action FailureKind (Media g) Bytes}
    (stops : kept (m.called call))
    (reads : read.Yields (m.called call) (fun bytes m' => kept m' ∧ bytes.length = length) kept) :
    (Media.readThrough call read).Yields m (fun bytes m' => kept m' ∧ bytes.length = length)
      kept := by
  simp only [Media.readThrough, Action.yields_bind, Media.yields_submit]
  cases (Fault.next call.medium call.access m.faults).1 with
  | none => exact reads
  | some lapse =>
    rw [Action.yields_bind, Media.reported]
    cases lapse.report with
    | some kind => exact stops
    | none =>
      simp only [Action.yields_pure, Action.yields_bind]
      exact reads.mono (fun _ _ h => ⟨h.1, by rw [Bytes.length_flip, h.2]⟩) fun _ h => h

/-- Whatever the plan of faults is, the calls that a space admits are all that is in the journal
behind them, and they do not reach the cells around the range. -/
theorem guards_disciplined (t : space.Truthful) (m₀ : Media g) :
    space.Guards (space.Disciplined m₀) where
  eepromRead {m address length} hm range := by
    have called := hm.called ⟨.eeprom, .read, address, length⟩ range
    refine readThrough_any called ?_
    simp only [Media.yields_onEeprom, Eeprom.read, Action.yields_bind, Action.yields_modify, range,
      if_true, Action.yields_get, Action.yields_pure, Memory.slice_eq]
    exact ⟨called.eeprom _, Bytes.length_slice (by rwa [Memory.length_toBytes])⟩
  eepromWrite {address bytes} range m hm := by
    have called := hm.called ⟨.eeprom, .write, address, bytes.length⟩ range
    refine Media.writeThrough_yields called fun part _ => ?_
    rw [Media.yields_onEeprom]
    exact Action.yields_of_forall _ _ (fun _ _ => called.eeprom _) fun _ => called.eeprom _
  eepromPoll m hm := by
    have called := hm.called ⟨.eeprom, .poll, 0, 0⟩ (Nat.zero_le _)
    simp only [Media.eepromPoll, Action.yields_bind, Media.yields_submit]
    cases (Fault.next .eeprom .poll m.faults).1 with
    | none =>
      rw [Media.yields_onEeprom]
      exact Action.yields_of_forall _ _ (fun _ _ => called.eeprom _) fun _ => called.eeprom _
    | some lapse =>
      rw [Action.yields_bind]
      exact (Media.yields_reported lapse called).mono (fun _ _ h => h) fun _ h => h
  flashRead {m address length} hm words := by
    have called := hm.called ⟨.flash, .read, address, length⟩ words
    have range := words.upper
    have hstop := t.stop_le
    refine readThrough_any called ?_
    simp only [Media.yields_onFlash, Flash.read, Action.yields_bind, Action.yields_modify]
    refine Action.yields_ensure _ (fun _ => ?_) (called.flash fun _ _ => rfl)
    cases Flash.checkRange g address length with
    | error e => exact called.flash fun _ _ => rfl
    | ok _ =>
      simp only [Action.ofExcept, Action.yields_pure, Action.yields_get, Memory.slice_eq]
      exact ⟨called.flash fun _ _ => rfl,
        Bytes.length_slice (by rw [Memory.length_toBytes]; omega)⟩
  flashProgram {address bytes} words m hm := by
    have called := hm.called ⟨.flash, .write, address, bytes.length⟩ words
    have lower := words.lower
    have upper := words.upper
    -- Some part of the bytes is programmed at most, and it lies inside the range.
    refine Media.writeThrough_yields called fun part hpart => ?_
    have hlen := hpart.length_le
    simp only [Media.yields_onFlash, Flash.program, Action.yields_bind, Action.yields_modify,
      Flash.takeTimeout, Action.yields_get, ne_eq, ite_not, Action.yields_ite, Action.yields_pure,
      Action.yields_fail]
    refine ⟨fun _ => ?_, fun _ => called.flash fun _ _ => rfl⟩
    cases Flash.checkRange g address part.length with
    | error e => exact called.flash fun _ _ => rfl
    | ok _ =>
      refine Action.yields_ensure _ (fun _ => ?_) (called.flash fun _ _ => rfl)
      exact called.flash fun i hi => Memory.getElem?_toBytes_combine_of_outside _ _ (by omega)
  flashErase {start} page m hm := by
    have lower := page.lower
    have upper := page.upper
    have hlength : start + g.pageBytes - start = g.pageBytes := Nat.add_sub_cancel_left _ _
    have called := hm.called ⟨.flash, .erase, start, start + g.pageBytes - start⟩
      (hlength.symm ▸ page)
    -- An erasing that gets that far clears cells of the one page; before that, it only counts.
    have erases : (Media.onFlash (Flash.erase start (start + g.pageBytes))).Yields
        (m.called ⟨.flash, .erase, start, start + g.pageBytes - start⟩)
        (fun _ => space.Disciplined m₀) (space.Disciplined m₀) := by
      have same {timeouts erases : Nat} : space.Disciplined m₀ { m.called _ with
          flash := { m.flash with timeouts, erases } } := called.flash fun _ _ => rfl
      simp only [Media.yields_onFlash, Flash.erase, Action.yields_bind, Action.yields_modify,
        Flash.takeTimeout, Action.yields_get, ne_eq, ite_not, Action.yields_ite,
        Action.yields_pure, Action.yields_fail]
      refine ⟨fun _ => Action.yields_ensure _ (fun _ => ⟨fun _ => same, fun _ => ⟨fun _ => same,
        fun _ => ?_⟩⟩) same, fun _ => same⟩
      exact called.flash fun i hi => Memory.getElem?_toBytes_combine_of_outside _ _ (by
        rw [List.length_replicate]
        omega)
    simp only [Media.flashErase, Action.yields_bind, Media.yields_submit]
    cases (Fault.next .flash .erase m.faults).1 with
    | none => exact erases
    | some lapse =>
      simp only [Action.yields_bind, Action.yields_ite]
      exact ⟨fun _ => erases.mono (fun _ _ h => Media.yields_reported lapse h) fun _ h => h,
        fun _ => Media.yields_reported lapse called⟩

end Space

end CircularLog
