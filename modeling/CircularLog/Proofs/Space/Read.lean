import CircularLog.Proofs.Space.Words

/-!
# What reading shows

The image of a space, byte by byte, and reading as a view of it. A `View` is a state of affairs in
which the reading calls of the driver return given contents or fail; in every view a read inside
the range returns that slice of the image or fails (`read_ends`), and comparing what is read with
what was written succeeds exactly if it is there (`confirm_ends`). One view is that of any plan
whose faults let no reading lie (`view_of_honest`).
-/

namespace CircularLog

namespace Space

variable {g : Geometry} {α : Type} {space : Space g} {m : Media g} {eeprom flash : Bytes}

/-! ## The image -/

/-- A space over memories that report their own sizes. -/
theorem truthful_of_create {start stop : UInt32}
    (made : Space.create g g.eepromBytes g.flashBytes start stop = .ok space) : space.Truthful := by
  unfold create at made
  split at made
  · contradiction
  split at made
  · contradiction
  split at made
  · contradiction
  next range =>
    split at made
    · contradiction
    split at made
    · contradiction
    split at made
    · contradiction
    split at made
    · contradiction
    · obtain rfl := Except.ok.inj made
      exact ⟨rfl, (Decidable.not_not.mp range).2⟩

/-- The image of given contents of the memories. -/
def imageOf (space : Space g) (eeprom flash : Bytes) : Bytes :=
  eeprom ++ flash.slice space.start (space.stop - space.start)

/-- The image is that of the contents. -/
theorem image_eq (space : Space g) (m : Media g) :
    space.image m = space.imageOf m.eeprom.memory.toBytes m.flash.memory.toBytes := rfl

/-- The contents have the sizes of the memories of the space. -/
structure Fits (space : Space g) (eeprom flash : Bytes) : Prop where
  eeprom : eeprom.length = space.boundary
  flash : space.stop ≤ flash.length

/-- The contents of the memories have their sizes. -/
theorem fits_contents (t : space.Truthful) (m : Media g) :
    space.Fits m.eeprom.memory.toBytes m.flash.memory.toBytes :=
  ⟨by rw [Memory.length_toBytes, t.boundary_eq], by rw [Memory.length_toBytes]; exact t.stop_le⟩

/-- The image has one byte for every address. -/
theorem Fits.length_imageOf (f : space.Fits eeprom flash) :
    (space.imageOf eeprom flash).length = space.total := by
  have hflash := f.flash
  have horder := space.start_le_stop
  rw [imageOf, List.length_append, Bytes.length_slice (by omega), f.eeprom, total]

/-- The byte that the image has at an address. -/
theorem Fits.getElem?_imageOf (f : space.Fits eeprom flash) (i : Nat) :
    (space.imageOf eeprom flash)[i]? =
      if i < space.boundary then eeprom[i]?
      else if i < space.total then flash[space.flashCell i]?
      else none := by
  have hlen := f.eeprom
  rw [imageOf]
  by_cases hi : i < space.boundary
  · rw [List.getElem?_append_left (by omega), if_pos hi]
  · rw [List.getElem?_append_right (by omega), Bytes.getElem?_slice, if_neg hi, hlen]
    simp only [total, flashCell]
    congr 1
    exact propext (by omega)

/-- Below the boundary the image is the eeprom. -/
theorem Fits.slice_eeprom (f : space.Fits eeprom flash) {address length : Nat}
    (h : address + length ≤ space.boundary) :
    (space.imageOf eeprom flash).slice address length = eeprom.slice address length := by
  refine List.ext_getElem? fun i => ?_
  rw [Bytes.getElem?_slice, Bytes.getElem?_slice, f.getElem?_imageOf]
  grind

/-- From the boundary on the image is the range of the flash. -/
theorem Fits.slice_flash (f : space.Fits eeprom flash) {address length : Nat}
    (near : space.boundary ≤ address) (h : address + length ≤ space.total) :
    (space.imageOf eeprom flash).slice address length =
      flash.slice (space.flashCell address) length := by
  refine List.ext_getElem? fun i => ?_
  rw [Bytes.getElem?_slice, Bytes.getElem?_slice, f.getElem?_imageOf]
  grind [flashCell]

/-- An overlay of the eeprom is one of the image. -/
theorem Fits.overlay_eeprom (f : space.Fits eeprom flash) {address : Nat} {bytes : Bytes}
    (range : address + bytes.length ≤ space.boundary) :
    space.imageOf (eeprom.overlay address bytes) flash =
      (space.imageOf eeprom flash).overlay address bytes := by
  have hlen := f.eeprom
  have himage := f.length_imageOf
  have f' : space.Fits (eeprom.overlay address bytes) flash :=
    ⟨by rw [Bytes.length_overlay (by omega), hlen], f.flash⟩
  have fits : address + bytes.length ≤ (space.imageOf eeprom flash).length := by
    rw [himage, total]
    omega
  refine List.ext_getElem? fun i => ?_
  rw [Bytes.getElem?_overlay_eq fits, f'.getElem?_imageOf, f.getElem?_imageOf,
    Bytes.getElem?_overlay_eq (by omega)]
  grind

/-- An overlay of the flash inside the range is one of the image. -/
theorem Fits.overlay_flash (f : space.Fits eeprom flash) {address : Nat} {bytes : Bytes}
    (near : space.boundary ≤ address) (range : address + bytes.length ≤ space.total) :
    space.imageOf eeprom (flash.overlay (space.flashCell address) bytes) =
      (space.imageOf eeprom flash).overlay address bytes := by
  have himage := f.length_imageOf
  have hfits : space.flashCell address + bytes.length ≤ flash.length :=
    Nat.le_trans (flashCell_add_le near range) f.flash
  have f' : space.Fits eeprom (flash.overlay (space.flashCell address) bytes) :=
    ⟨f.eeprom, by rw [Bytes.length_overlay hfits]; exact f.flash⟩
  have fits : address + bytes.length ≤ (space.imageOf eeprom flash).length := by
    rwa [himage]
  refine List.ext_getElem? fun i => ?_
  rw [Bytes.getElem?_overlay_eq fits, f'.getElem?_imageOf, f.getElem?_imageOf,
    Bytes.getElem?_overlay_eq hfits]
  grind [flashCell, total]

/-! ## Views -/

/-- A driver call ends as it does by itself, and names the memory with a failure. -/
@[simp] theorem ends_driver {value : α → Media g → Prop} {error : Error → Media g → Prop}
    (medium : Medium) (x : Action FailureKind (Media g) α) :
    (driver medium x).Ends m value error ↔
      x.Ends m value (fun kind m' => error (.device medium kind) m') :=
  Action.ends_mapError _ _

/-- In states that are `seen`, the reading calls return the contents and leave such a state, or
fail, with an error and in a state for which this is `lost`. -/
structure View (seen : Media g → Prop) (lost : Error → Media g → Prop) (eeprom flash : Bytes) :
    Prop where
  eepromRead : ∀ {m address length}, seen m → address + length ≤ g.eepromBytes →
    (Media.eepromRead address length).Ends m
      (fun bytes m' => seen m' ∧ bytes = eeprom.slice address length)
      (fun kind m' => lost (.device .eeprom kind) m')
  flashRead : ∀ {m address length}, seen m → address % g.wordBytes = 0 →
    length % g.wordBytes = 0 → address + length ≤ g.flashBytes →
    (Media.flashRead address length).Ends m
      (fun bytes m' => seen m' ∧ bytes = flash.slice address length)
      (fun kind m' => lost (.device .flash kind) m')

/-- The error tells of a memory that failed to do what it was asked, in a state of this kind. -/
def Fails (lost : Media g → Prop) (e : Error) (m : Media g) : Prop :=
  e.isInterruption = true ∧ lost m

/-- Where no fault lets readings lie, the contents of the memories can be seen. -/
theorem view_of_honest (honest : m.Honest) :
    View (Media.Quiet m) (Fails (Media.Quiet m)) m.eeprom.memory.toBytes
      m.flash.memory.toBytes where
  eepromRead hq range := by
    refine (Media.eepromRead_ends (hq.honest honest) range).mono ?_ fun _ _ h => ⟨rfl, hq.trans h⟩
    exact fun _ _ h => ⟨hq.trans h.1, by rw [h.2, hq.eeprom]⟩
  flashRead hq start whole range := by
    refine (Media.flashRead_ends (hq.honest honest) start whole range).mono ?_
      fun _ _ h => ⟨rfl, hq.trans h⟩
    exact fun _ _ h => ⟨hq.trans h.1, by rw [h.2, hq.flash]⟩

section View

variable {seen : Media g → Prop} {lost : Error → Media g → Prop}

/-- Reading words inside a page of the range returns the cells there or fails. -/
theorem readWords_ends (v : View seen lost eeprom flash) (u : g.Uniform) (t : space.Truthful)
    (hm : seen m) {address length : Nat} (pos : 0 < length)
    (page : address + length ≤ g.pageFloor address + g.pageBytes)
    (lower : space.start ≤ address) (upper : address + length ≤ space.stop) :
    (readWords address length).Ends m
      (fun r m' => seen m' ∧ r = (g.wordFloor address, flash.slice (g.wordFloor address)
        (g.wordCeil (address + length) - g.wordFloor address)))
      lost := by
  obtain ⟨hfloor, hceil, hfirst, hlast, hstart, hstop⟩ := words_inside u pos page lower upper
  have hflash := t.stop_le
  have hunit := Nat.mod_eq_zero_of_dvd (g.wordSize_dvd_words address (address + length))
  rw [readWords_eq u pos page lower upper]
  simp only [Action.ends_bind, ends_driver, Action.ends_pure]
  have hword : g.wordFloor address % g.wordBytes = 0 := g.mod_wordBytes u (unitFloor_mod _ _)
  refine (v.flashRead hm hword (g.mod_wordBytes u hunit) (by omega)).mono ?_ fun _ _ h => h
  rintro bytes m' ⟨h, rfl⟩
  exact ⟨h, rfl⟩

/-- Reading pieces inside pages of the range returns the cells there or fails. -/
theorem readPieces_ends (v : View seen lost eeprom flash) (u : g.Uniform) (t : space.Truthful)
    (hm : seen m) {address : Nat} {lengths : List Nat} (pages : g.InPages address lengths)
    (lower : space.start ≤ address) (upper : address + Bytes.total lengths ≤ space.stop) :
    (readPieces address lengths).Ends m
      (fun bytes m' => seen m' ∧ bytes = flash.slice address (Bytes.total lengths))
      lost := by
  induction lengths generalizing m address with
  | nil => exact ⟨hm, by simp⟩
  | cons length lengths ih =>
    obtain ⟨pos, page, pages⟩ := pages
    rw [Bytes.total_cons] at upper
    obtain ⟨hfloor, hceil, hfirst, hlast, -, -⟩ := words_inside u pos page lower (by omega)
    rw [readPieces, readPiece_eq u pos page lower (by omega)]
    simp only [Action.ends_bind, Action.ends_pure]
    refine (readWords_ends v u t hm pos page lower (by omega)).mono ?_ fun _ _ h => h
    rintro _ m₁ ⟨h₁, rfl⟩
    refine (ih h₁ pages (by omega) (by omega)).mono ?_ fun _ _ h => h
    rintro rest m₂ ⟨h₂, rfl⟩
    refine ⟨h₂, ?_⟩
    rw [Bytes.total_cons, Bytes.slice_add, Bytes.slice_slice (by omega), Nat.add_sub_cancel' hfloor]

/-- Reading inside the range returns that slice of the image or fails. -/
theorem read_ends (v : View seen lost eeprom flash) (u : g.Uniform) (t : space.Truthful)
    (f : space.Fits eeprom flash) (hm : seen m) {address length : Nat}
    (range : address + length ≤ space.total) :
    (space.read address length).Ends m
      (fun bytes m' => seen m' ∧ bytes = (space.imageOf eeprom flash).slice address length)
      lost := by
  have hnear : space.eepromPart address length = min (space.boundary - address) length := rfl
  have hb := t.boundary_eq
  have horder := space.start_le_stop
  rw [read_eq, Action.ends_ite]
  refine ⟨fun hzero => ⟨hm, by simp [hzero]⟩, fun hpos => ?_⟩
  simp only [require_of_le range, pure_bind]
  generalize space.eepromPart address length = near at hnear ⊢
  -- The part in the flash is read the same whether there is one in the eeprom or not.
  have back {m₁ : Media g} (h₁ : seen m₁) :
      (readPieces (space.flashCell (address + near))
        (g.pageParts (space.flashCell (address + near)) (length - near))).Ends m₁
      (fun back m' => seen m' ∧ (space.imageOf eeprom flash).slice address near ++ back =
        (space.imageOf eeprom flash).slice address length)
      lost := by
    by_cases hrest : length - near = 0
    · simp only [hrest, Geometry.pageParts, if_true]
      refine ⟨h₁, ?_⟩
      rw [List.append_nil, show near = length by omega]
    · have hsum := g.total_pageParts (space.flashCell (address + near)) (length - near)
      have upper : space.flashCell (address + near) + (length - near) ≤ space.stop :=
        flashCell_add_le (by omega) (by omega)
      refine (readPieces_ends v u t h₁ (g.inPages_pageParts
        (space.flashCell (address + near)) (length - near)) (space.start_le_flashCell _)
        (by rwa [hsum])).mono ?_ fun _ _ h => h
      rintro back m₂ ⟨h₂, rfl⟩
      refine ⟨h₂, ?_⟩
      rw [hsum, ← f.slice_flash (by omega) (by omega), ← Bytes.slice_add,
        Nat.add_sub_cancel' (by omega)]
  rw [Action.ends_ite]
  refine ⟨fun hzero => ?_, fun hsome => ?_⟩
  · have back := back hm
    rw [hzero, Bytes.slice_zero] at back
    simpa only [Action.ends_bind, Action.ends_pure, hzero, List.nil_append] using back
  · simp only [Action.ends_bind, ends_driver, Action.ends_pure]
    refine (v.eepromRead hm (by omega)).mono ?_ fun _ _ h => h
    rintro front m₁ ⟨h₁, rfl⟩
    rw [← f.slice_eeprom (by omega)]
    exact back h₁

/-! ## Comparing -/

/-- The sizes that a space is made for are machine words. -/
theorem Truthful.eepromBytes_lt (t : space.Truthful) : g.eepromBytes < 0x1_0000_0000 := by
  have htotal := space.total_lt
  have hb := t.boundary_eq
  omega

/-- Comparing whole units with the contents of a memory succeeds exactly if they are there, or a
reading fails. -/
theorem confirm_ends {read : Nat → Nat → Action Error (Media g) Bytes} {contents : Bytes}
    {unit size : Nat}
    (reads : ∀ {m address length}, seen m → unit ∣ address → unit ∣ length →
      address + length ≤ contents.length → (read address length).Ends m
        (fun bytes m' => seen m' ∧ bytes = contents.slice address length) lost)
    (hsize : size ≤ chunkBytes) (hm : seen m) (address index : Nat) {chunks : List Bytes}
    (even : Bytes.Even size (chunks.map List.length)) (first : unit ∣ address + index * size)
    (whole : ∀ chunk ∈ chunks, unit ∣ chunk.length)
    (range : address + index * size + chunks.flatten.length ≤ contents.length)
    (short : address + index * size + chunks.flatten.length < 0x1_0000_0000) :
    (confirm read address size index chunks).Ends m
      (fun _ m' => seen m' ∧
        contents.slice (address + index * size) chunks.flatten.length = chunks.flatten)
      (fun e m' => lost e m' ∨ e = .inconsistent ∧ seen m' ∧
        contents.slice (address + index * size) chunks.flatten.length ≠ chunks.flatten) := by
  induction chunks generalizing m index with
  | nil => exact ⟨hm, by simp⟩
  | cons chunk chunks ih =>
    have hchunk := whole chunk (by simp)
    obtain ⟨fits, full, even⟩ := even
    simp only [List.flatten_cons, List.length_append] at range short ⊢
    have hlen : (contents.slice (address + index * size) chunk.length).length = chunk.length :=
      Bytes.length_slice (by omega)
    rw [Bytes.slice_add]
    simp only [confirm, Action.ends_bind, Action.ends_product, Action.ends_sum, Action.ends_front,
      Action.ends_ite, Action.ends_fail]
    refine ⟨by omega, by omega, by omega, ?_⟩
    refine (reads hm first hchunk (by omega)).mono ?_ fun _ _ h => .inl h
    rintro _ m₁ ⟨h₁, rfl⟩
    -- A chunk that is the same leaves the rest to compare; one that differs ends it.
    refine ⟨fun same => ?_, fun differs => .inr ⟨trivial, h₁, fun h => ?_⟩⟩
    · by_cases hmore : chunks = []
      · subst hmore
        exact ⟨h₁, by simpa using same⟩
      · -- Only the last chunk is shorter than the others, so the next one is where this one stops.
        have next : address + (index + 1) * size = address + index * size + chunk.length := by
          rw [full (by simpa using hmore), Nat.succ_mul, Nat.add_assoc]
        rw [← next]
        refine (ih h₁ (index + 1) even (next ▸ Nat.dvd_add first hchunk)
          (fun c hc => whole c (by simp [hc])) (by omega) (by omega)).mono ?_ ?_
        · exact fun _ _ h => ⟨h.1, by rw [same, h.2]⟩
        · rintro e _ (h | ⟨he, hs, hne⟩)
          · exact .inl h
          · exact .inr ⟨he, hs, fun h => hne (List.append_inj h hlen).2⟩
    · exact differs (List.append_inj h hlen).1

/-- Comparing chunks with the eeprom. -/
theorem confirm_eeprom_ends (v : View seen lost eeprom flash) (hm : seen m) {address : Nat}
    {bytes : Bytes} (hlen : eeprom.length = g.eepromBytes) (short : g.eepromBytes < 0x1_0000_0000)
    (range : address + bytes.length ≤ eeprom.length) :
    (confirm (fun address length => driver .eeprom (Media.eepromRead address length)) address
      chunkBytes 0 (bytes.chunks chunkBytes)).Ends m
      (fun _ m' => seen m' ∧ eeprom.slice address bytes.length = bytes)
      (fun e m' => lost e m' ∨ e = .inconsistent ∧ seen m' ∧
        eeprom.slice address bytes.length ≠ bytes) := by
  have hflat := Bytes.flatten_chunks chunkBytes bytes
  have reads {m : Media g} {a n : Nat} (hm : seen m) (_ : 1 ∣ a) (_ : 1 ∣ n)
      (hrange : a + n ≤ eeprom.length) : (driver .eeprom (Media.eepromRead a n)).Ends m
        (fun bytes m' => seen m' ∧ bytes = eeprom.slice a n) lost := by
    rw [ends_driver]
    exact (v.eepromRead hm (by omega)).mono (fun _ _ h => h) fun _ _ h => h
  have h := confirm_ends reads (Nat.le_refl _) hm address 0
    (Bytes.even_chunks (by decide) bytes) (Nat.one_dvd _)
    (fun chunk (_ : chunk ∈ bytes.chunks chunkBytes) => Nat.one_dvd _)
    (by rw [hflat]; omega) (by rw [hflat]; omega)
  rwa [hflat, Nat.zero_mul, Nat.add_zero] at h

/-- Comparing chunks with whole words of the flash. -/
theorem confirm_flash_ends (v : View seen lost eeprom flash) (u : g.Uniform) (space : Space g)
    (hm : seen m) {address : Nat} {words : Bytes} (hlen : flash.length = g.flashBytes)
    (first : g.wordSize ∣ address) (whole : g.wordSize ∣ words.length)
    (range : address + words.length ≤ flash.length)
    (upper : address + words.length ≤ space.stop) :
    (confirm (fun address length => driver .flash (Media.flashRead address length)) address
      (g.wordFloor chunkBytes) 0 (words.chunks (g.wordFloor chunkBytes))).Ends m
      (fun _ m' => seen m' ∧ flash.slice address words.length = words)
      (fun e m' => lost e m' ∨ e = .inconsistent ∧ seen m' ∧
        flash.slice address words.length ≠ words) := by
  have hstop := space.stop_lt
  have hflat := Bytes.flatten_chunks (g.wordFloor chunkBytes) words
  have reads {m : Media g} {a n : Nat} (hm : seen m) (ha : g.wordSize ∣ a) (hn : g.wordSize ∣ n)
      (hrange : a + n ≤ flash.length) : (driver .flash (Media.flashRead a n)).Ends m
        (fun bytes m' => seen m' ∧ bytes = flash.slice a n) lost := by
    rw [ends_driver]
    exact (v.flashRead hm (g.mod_wordBytes u (Nat.mod_eq_zero_of_dvd ha))
      (g.mod_wordBytes u (Nat.mod_eq_zero_of_dvd hn)) (by omega)).mono
      (fun _ _ h => h) fun _ _ h => h
  have h := confirm_ends reads (unitFloor_le _ _) hm address 0
    (Bytes.even_chunks space.wordFloor_chunkBytes_pos words) (by simpa using first)
    (fun chunk hc => Bytes.dvd_length_of_mem_chunks
      (Nat.dvd_of_mod_eq_zero (unitFloor_mod _ chunkBytes)) whole hc)
    (by rw [hflat]; omega) (by rw [hflat]; omega)
  rwa [hflat, Nat.zero_mul, Nat.add_zero] at h

end View

end Space

end CircularLog
