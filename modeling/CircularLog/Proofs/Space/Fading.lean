import CircularLog.Proofs.Space.Containment
import CircularLog.Proofs.Space.Conduct

/-!
# What a write can take away

While a page is erased and written anew, its bytes around the request are nowhere but in the scratch
buffer, so a write that stops can lose them. But it puts nothing else in their place: around the
request each byte is as it was or erased, wherever in its pages the write stops and however often
this happens (`write_fades`). What is true of an image however it fades, such writes keep
(`write_lasting`). Nothing is assumed of the faults but that no reading lies.
-/

namespace CircularLog

variable {g : Geometry}

/-- Around so many bytes from an address on, each byte is as it was or erased. -/
def Bytes.Faded (image : Bytes) (address length : Nat) (image' : Bytes) : Prop :=
  ∀ i, i < address ∨ address + length ≤ i → image'[i]? = image[i]? ∨ image'[i]? = some 0xFF

/-- Around bytes that are laid over an image, each byte is as it was. -/
theorem Bytes.faded_overlay {image : Bytes} {address : Nat} {bytes : Bytes}
    (fits : address + bytes.length ≤ image.length) :
    image.Faded address bytes.length (image.overlay address bytes) := by
  intro i hi
  rw [Bytes.getElem?_overlay_eq fits, if_neg (by omega)]
  exact .inl rfl

namespace Space

variable {space : Space g} {m : Media g} {image : Bytes}

/-- No reading lies, and the space shows this image. -/
structure Displays (space : Space g) (image : Bytes) (m : Media g) : Prop where
  honest : m.Honest
  image : space.image m = image

/-- Failures leave the image on display. -/
def Mishap.displaying (space : Space g) : Mishap g :=
  ⟨fun _ => True, fun _ _ _ => True, space.Displays, fun _ => False⟩

/-- A reading that failed left the image on display. -/
theorem displays_of_halts {e : Error} (h : Halts (.displaying space) (· = image) e m) :
    space.Displays image m := by
  rcases h.2 with torn | ⟨_, rfl, displays⟩
  · exact torn.elim
  · exact displays

/-- As long as no reading lies, what is read is the image. -/
theorem legible_displays (u : g.Uniform) (t : space.Truthful) :
    space.Legible 0 space.total space.Displays (.displaying space) where
  inside := Nat.le_refl _
  length h := h.image ▸ space.length_image t _
  read := by
    intro image m hm address length _ range
    have same {m' : Media g} (quiet : Media.Quiet m m') : space.Displays image m' := by
      refine ⟨quiet.honest hm.honest, ?_⟩
      rw [← hm.image, image_eq, image_eq, quiet.eeprom, quiet.flash]
    refine (read_ends (view_of_honest hm.honest) u t (fits_contents t m) (.refl m) range).mono ?_ ?_
    · rintro _ m' ⟨quiet, rfl⟩
      exact ⟨same quiet, by rw [← image_eq, hm.image]⟩
    · exact fun _ m' h => ⟨trivial, .inr ⟨image, rfl, same h.2⟩⟩

/-- What became of an image when a write stopped in the eeprom. -/
theorem faded_of_kept (t : space.Truthful) {m' : Media g} {address near length : Nat}
    (h : Media.KeptAround m address near m') (part : near ≤ length) :
    (space.image m).Faded address length (space.image m') := by
  intro i hi
  rw [image_eq, image_eq, (fits_contents t m').getElem?_imageOf,
    (fits_contents t m).getElem?_imageOf, h.flash]
  split
  · exact .inl (h.eeprom i (by omega))
  · exact .inl rfl

/-- What became of an image when a write stopped in a page of the flash. -/
theorem faded_of_stopped (t : space.Truthful) {m' : Media g} {address page : Nat} {bytes : Bytes}
    (heeprom : m'.eeprom.memory.toBytes = m.eeprom.memory.toBytes.overlay address
      (bytes.take (space.eepromPart address bytes.length)))
    (stopped : StoppedIn m (space.flashCell (address + space.eepromPart address bytes.length))
      (bytes.drop (space.eepromPart address bytes.length)) page m') :
    (space.image m).Faded address bytes.length (space.image m') := by
  have hnear : space.eepromPart address bytes.length =
      min (space.boundary - address) bytes.length := rfl
  have hboundary := (fits_contents t m).eeprom
  have hcell (a : Nat) : space.flashCell a = space.start + (a - space.boundary) := rfl
  have hdrop : (bytes.drop (space.eepromPart address bytes.length)).length =
      bytes.length - space.eepromPart address bytes.length := List.length_drop
  have htake : (bytes.take (space.eepromPart address bytes.length)).length =
      space.eepromPart address bytes.length := by rw [List.length_take]; omega
  intro i hi
  rw [image_eq, image_eq, (fits_contents t m').getElem?_imageOf,
    (fits_contents t m).getElem?_imageOf]
  -- A byte of the eeprom is out of the request, or one that the request has written.
  by_cases hfront : i < space.boundary
  · rw [if_pos hfront, if_pos hfront, heeprom]
    refine .inl ?_
    by_cases hzero : space.eepromPart address bytes.length = 0
    · rw [hzero, List.take_zero, Bytes.overlay_nil]
    · rw [Bytes.getElem?_overlay_eq (by omega), if_neg (by omega)]
  · rw [if_neg hfront, if_neg hfront]
    split
    · -- The cell lies in front of the page, in it, or behind it, and not among the written ones.
      have hout : space.flashCell i <
          space.flashCell (address + space.eepromPart address bytes.length) ∨
          space.flashCell (address + space.eepromPart address bytes.length) +
            (bytes.drop (space.eepromPart address bytes.length)).length ≤ space.flashCell i := by
        rw [hcell, hcell, hdrop]
        omega
      by_cases hbefore : space.flashCell i < page
      · rw [stopped.before _ hbefore, if_neg (by omega)]
        exact .inl rfl
      · by_cases hinside : space.flashCell i < page + g.pageBytes
        · exact stopped.inside _ (by omega) hinside hout
        · exact .inl (stopped.behind _ (by omega))
    · exact .inl rfl

/-- A write lays its bytes over the image, or stops, and then the bytes around the request are as
they were or erased. -/
theorem write_fades (u : g.Uniform) (t : space.Truthful) (hm : space.Displays image m)
    {address : Nat} {bytes : Bytes} (range : address + bytes.length ≤ space.total) :
    (space.write address bytes).Yields m
      (fun _ => space.Displays (image.overlay address bytes))
      (fun m' => ∃ image', space.Displays image' m' ∧ image.Faded address bytes.length image') := by
  have ends := write_ends u t hm.honest range
  obtain ⟨honest, rfl⟩ := hm
  have hnear : space.eepromPart address bytes.length =
      min (space.boundary - address) bytes.length := rfl
  have hdrop : (bytes.drop (space.eepromPart address bytes.length)).length =
      bytes.length - space.eepromPart address bytes.length := List.length_drop
  have horder := space.start_le_stop
  -- The value is known already; it is what the write leaves where it stops that has to be found.
  have stops : ∀ stop m', space.write address bytes m = .error stop m' →
      (space.image m).Faded address bytes.length (space.image m') := by
    intro stop m' hrun
    rcases write_cases honest range with ⟨stop', m₁, -, -, hwrite, hkept⟩ |
      ⟨m₁, -, hkept, hput, hwrite⟩
    · obtain ⟨-, rfl⟩ := EStateM.Result.error.inj (hrun.symm.trans hwrite)
      exact faded_of_kept t hkept (by omega)
    · have hcell : space.flashCell (address + space.eepromPart address bytes.length) =
          space.start + (address + space.eepromPart address bytes.length - space.boundary) := rfl
      have htotal : space.total = space.boundary + (space.stop - space.start) := rfl
      have lower : space.start ≤
          space.flashCell (address + space.eepromPart address bytes.length) := by omega
      have upper : space.flashCell (address + space.eepromPart address bytes.length) +
          (bytes.drop (space.eepromPart address bytes.length)).length ≤ space.stop := by omega
      have behind := writeBehind_cases (hkept.honest honest) lower upper
      rw [hdrop] at behind
      rw [hwrite] at hrun
      rw [hrun] at behind
      obtain ⟨_, _, _, _, -, -, -, heeprom, -, -, stopped⟩ := behind
      have stopped₀ : StoppedIn m _ _ _ m' :=
        ⟨hkept.flash ▸ stopped.before, hkept.flash ▸ stopped.inside, hkept.flash ▸ stopped.behind⟩
      exact faded_of_stopped t (heeprom.trans hput) stopped₀
  unfold Action.Ends at ends
  unfold Action.Yields
  cases hrun : space.write address bytes m with
  | ok _ m' =>
    rw [hrun] at ends
    exact ⟨ends.2, ends.1.image⟩
  | error stop m' =>
    rw [hrun] at ends
    cases stop with
    | error e => exact ⟨_, ⟨ends.2, rfl⟩, stops _ m' hrun⟩
    | defect d => exact ends.elim

/-- A good image is on display. -/
def Shown (space : Space g) (good : Bytes → Prop) (m : Media g) : Prop :=
  ∃ image, space.Displays image m ∧ good image

/-- What is true of an image however it fades around a write between two addresses. -/
def Lasting (lower upper : Nat) (good : Bytes → Prop) : Prop :=
  ∀ ⦃image image' : Bytes⦄ ⦃address length : Nat⦄, image'.length = image.length → lower ≤ address →
    address + length ≤ upper → image.Faded address length image' → good image → good image'

/-- What lasts on its own lasts together. -/
theorem Lasting.and {lower upper : Nat} {good good' : Bytes → Prop} (h : Lasting lower upper good)
    (h' : Lasting lower upper good') : Lasting lower upper fun image => good image ∧ good' image :=
  fun _ _ _ _ len lo up faded hgood => ⟨h len lo up faded hgood.1, h' len lo up faded hgood.2⟩

/-- What lasts between two addresses lasts between two that lie inside. -/
theorem Lasting.within {lower upper lower' upper' : Nat} {good : Bytes → Prop}
    (h : Lasting lower upper good) (hlower : lower ≤ lower') (hupper : upper' ≤ upper) :
    Lasting lower' upper' good :=
  fun _ _ _ _ len lo up => h len (Nat.le_trans hlower lo) (Nat.le_trans up hupper)

/-- A write keeps what lasts. -/
theorem write_lasting (u : g.Uniform) (t : space.Truthful) {lower upper : Nat}
    (inside : upper ≤ space.total) {good : Bytes → Prop} (lasting : Lasting lower upper good)
    (hm : space.Displays image m) (hgood : good image) {address : Nat} {bytes : Bytes}
    (hlower : lower ≤ address) (hupper : address + bytes.length ≤ upper) :
    (space.write address bytes).Yields m
      (fun _ m' => space.Displays (image.overlay address bytes) m' ∧
        good (image.overlay address bytes))
      (space.Shown good) := by
  have hlen : image.length = space.total := hm.image ▸ space.length_image t m
  refine (write_fades u t hm (by omega)).mono (fun _ m' h => ⟨h, ?_⟩) ?_
  · have fits : address + bytes.length ≤ image.length := by omega
    exact lasting (Bytes.length_overlay fits) hlower hupper (Bytes.faded_overlay fits) hgood
  · rintro m' ⟨image', h', faded⟩
    have hlen' : image'.length = space.total := h'.image ▸ space.length_image t m'
    exact ⟨image', h', lasting (hlen'.trans hlen.symm) hlower hupper faded hgood⟩

/-- Filling keeps what lasts, and ends with the bytes filled. -/
theorem fill_lasting (u : g.Uniform) (t : space.Truthful) {lower upper : Nat}
    (inside : upper ≤ space.total) {good : Bytes → Prop} (lasting : Lasting lower upper good)
    (hm : space.Displays image m) (hgood : good image) {address length : Nat} (value : UInt8)
    (hlower : lower ≤ address) (hupper : address + length ≤ upper) :
    (space.fill address length value).Yields m
      (fun _ => space.Shown fun image' => good image' ∧
        ∀ i, address ≤ i → i < address + length → image'[i]? = some value)
      (space.Shown good) := by
  -- From chunk to chunk, what has been filled so far stays filled.
  have step {first next : Nat} {m : Media g} (count : Nat) (hfirst : lower ≤ first)
      (hnext : first ≤ next) (hcount : next + count ≤ upper)
      (hm : space.Shown (fun image => good image ∧
        ∀ i, first ≤ i → i < next → image[i]? = some value) m) :
      (space.write next (List.replicate count value)).Yields m
        (fun _ => space.Shown fun image' => good image' ∧
          ∀ i, first ≤ i → i < next + count → image'[i]? = some value)
        (space.Shown good) := by
    obtain ⟨image, hm, hgood, hfilled⟩ := hm
    have hlen : image.length = space.total := hm.image ▸ space.length_image t m
    refine (write_lasting u t inside lasting hm hgood (by omega)
      (by rw [List.length_replicate]; omega)).mono (fun _ m' h => ?_) fun _ h => h
    refine ⟨_, h.1, h.2, fun i hi hi' => ?_⟩
    rw [Bytes.getElem?_overlay_eq (by rw [List.length_replicate]; omega), List.length_replicate]
    by_cases hnew : next ≤ i
    · rw [if_pos ⟨hnew, hi'⟩, List.getElem?_replicate, if_pos (by omega)]
    · rw [if_neg (by omega)]
      exact hfilled i hi (by omega)
  have chunks {first next : Nat} {lengths : List Nat} {m : Media g} (hfirst : lower ≤ first)
      (hnext : first ≤ next) (short : ∀ n ∈ lengths, n ≤ chunkBytes)
      (htotal : next + Bytes.total lengths ≤ upper)
      (hm : space.Shown (fun image => good image ∧
        ∀ i, first ≤ i → i < next → image[i]? = some value) m) :
      (space.fillChunks next value lengths).Yields m
        (fun _ => space.Shown fun image' => good image' ∧
          ∀ i, first ≤ i → i < next + Bytes.total lengths → image'[i]? = some value)
        (space.Shown good) := by
    induction lengths generalizing next m with
    | nil => simpa only [fillChunks, Bytes.total_nil, Nat.add_zero, Action.yields_pure] using hm
    | cons count lengths ih =>
      rw [Bytes.total_cons] at htotal ⊢
      rw [fillChunks_cons space value lengths (short _ List.mem_cons_self) (by omega),
        Action.yields_bind]
      refine (step count hfirst hnext (by omega) hm).mono (fun _ m₁ h₁ => ?_) fun _ h => h
      have rest := ih (by omega) (fun _ h => short _ (List.mem_cons_of_mem _ h)) (by omega) h₁
      rwa [Nat.add_assoc] at rest
  have hsum := Bytes.total_pieces chunkBytes length
  rw [fill, require_of_le (by omega), pure_bind]
  have all := chunks hlower (Nat.le_refl _) (fun _ => Bytes.le_of_mem_pieces (by decide))
    (by rwa [hsum]) ⟨image, hm, hgood, fun i hi hi' => by omega⟩
  rwa [hsum] at all

end Space

end CircularLog
