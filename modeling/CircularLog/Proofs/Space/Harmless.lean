import CircularLog.Proofs.Media.Harmless
import CircularLog.Proofs.Partition.Frame

/-!
# Failures without effects

Where failing calls have no effect, a write that fails leaves its first pieces and nothing else,
unless the page of the next piece was erased and could not be programmed again. In the eeprom that
cannot be, so the memories are as sound behind a failure as before it (`conduct_of_harmless`), and
what lies there stays whatever becomes of the flash (`tends_of_harmless`). In the flash, what is
known of the image is what it would be without that page: the space is `Marred`, that is, it shows
this image with the page blotted out. Erasing bytes goes on as if the page were there
(`blot_overlay_ones`), and bytes outside of the page can be seen (`getElem?_blot`).
-/

namespace CircularLog

namespace Space

variable {g : Geometry} {space : Space g} {m : Media g} {plan₀ : List Fault} {page : Option Nat}
  {around : Bytes × Bytes} {image : Bytes} {first address : Nat} {phase : Phase}
  {phases : Option Nat → Phase}

/-- Failing calls have no effect, and the phase stays the same. -/
def Mishap.harmless (space : Space g) (phase : Phase) (around : Bytes × Bytes) : Mishap g :=
  .piecewise space .clean (space.Exposes phase around) fun _ => False

/-- Where no page stays erased, failures leave the memories as sound as they were. -/
theorem Mishap.mild_piecewise (space : Space g) (phase : Phase) (around : Bytes × Bytes) :
    (Mishap.piecewise space .clean (space.Exposes phase around) fun m =>
      ∃ _ : Nat, m.Under .never).Mild (space.Exposes phase around) :=
  ⟨fun _ _ h => h, fun _ ⟨_, h⟩ => h.phase⟩

/-- Other faults make no difference to what the memories show. -/
theorem Exposes.facing {phase phase' : Phase} {plan : List Fault}
    (h : space.Exposes phase around image m) (hplan : phase' plan []) :
    space.Exposes phase' around image (m.facing plan) :=
  h.shows ⟨rfl, rfl⟩ ⟨⟨h.under.able.1, h.under.able.2, h.under.able.3⟩, hplan⟩

/-! ## Pages of a space -/

/-- The address lies in the page of the flash that starts here. -/
def InPage (space : Space g) (first address : Nat) : Prop :=
  space.boundary ≤ address ∧ g.pageFloor (space.flashCell address) = first

instance (space : Space g) (first address : Nat) : Decidable (space.InPage first address) :=
  inferInstanceAs (Decidable (_ ∧ _))

/-- A page of the flash that starts here belongs to the space. -/
structure HasPage (space : Space g) (first : Nat) : Prop where
  aligned : first % g.pageBytes = 0
  lower : space.start ≤ first
  upper : first + g.pageBytes ≤ space.stop

/-- The page of an address in the flash belongs to the space. -/
theorem hasPage (lower : space.boundary ≤ address) (upper : address < space.total) :
    space.HasPage (g.pageFloor (space.flashCell address)) where
  aligned := unitFloor_mod _ _
  lower := g.le_pageFloor space.start_mod (Nat.le_add_right _ _)
  upper := by
    refine g.pageFloor_add_le space.stop_mod ?_
    unfold flashCell total at *
    omega

/-- The addresses of a page of the space. -/
theorem HasPage.inPage_iff (h : space.HasPage first) :
    space.InPage first address ↔
      space.pageStart first ≤ address ∧ address < space.pageStart first + g.pageBytes := by
  have hlower := h.lower
  unfold InPage pageStart flashCell
  constructor
  · rintro ⟨hboundary, rfl⟩
    have hle := unitFloor_le g.pageBytes (space.start + (address - space.boundary))
    have hlt := lt_unitFloor_add g.pageBytes_pos (space.start + (address - space.boundary))
    unfold Geometry.pageFloor
    omega
  · rintro ⟨hle, hlt⟩
    refine ⟨by omega, Nat.le_antisymm ?_ (g.le_pageFloor h.aligned (by omega))⟩
    have hmod : (first + g.pageBytes) % g.pageBytes = 0 := by rw [Nat.add_mod_right, h.aligned]
    have hceil := g.pageFloor_add_le hmod
      (by omega : space.start + (address - space.boundary) < first + g.pageBytes)
    omega

/-! ## Blots -/

/-- The image with the page, if any, erased. -/
def blot (space : Space g) (page : Option Nat) (image : Bytes) : Bytes :=
  match page with
  | none => image
  | some first => image.overlay (space.pageStart first) (List.replicate g.pageBytes 0xFF)

/-- A page of the space ends where the space does or before. -/
theorem HasPage.fits (h : space.HasPage first) :
    space.pageStart first + (List.replicate g.pageBytes (0xFF : UInt8)).length ≤ space.total := by
  have hlower := h.lower
  have hupper := h.upper
  rw [List.length_replicate]
  unfold pageStart total
  omega

section Blot

variable (pages : ∀ first ∈ page, space.HasPage first) (hlen : image.length = space.total)
include pages hlen

/-- The image stays as long as it is. -/
theorem length_blot : (space.blot page image).length = image.length := by
  cases page with
  | none => rfl
  | some first => exact Bytes.length_overlay (hlen ▸ (pages first rfl).fits)

/-- Outside of the page the bytes are those of the image. -/
theorem getElem?_blot (outside : ∀ first ∈ page, ¬ space.InPage first address) :
    (space.blot page image)[address]? = image[address]? := by
  cases page with
  | none => rfl
  | some first =>
    have hpage := outside first rfl
    rw [(pages first rfl).inPage_iff] at hpage
    rw [blot, Bytes.getElem?_overlay_eq (hlen ▸ (pages first rfl).fits), List.length_replicate,
      if_neg hpage]

/-- Inside of the page they are erased. -/
theorem getElem?_blot_of_inPage (hfirst : first ∈ page) (inside : space.InPage first address) :
    (space.blot page image)[address]? = some 0xFF := by
  obtain rfl : page = some first := hfirst
  have hfits := (pages first rfl).fits
  rw [(pages first rfl).inPage_iff] at inside
  rw [blot, Bytes.getElem?_overlay_eq (hlen ▸ hfits), List.length_replicate, if_pos inside,
    List.getElem?_replicate_of_lt (by omega)]

/-- Each byte is that of the image, or is erased. -/
theorem getElem?_blot_or (address : Nat) :
    (space.blot page image)[address]? = image[address]? ∨
      (space.blot page image)[address]? = some 0xFF := by
  by_cases outside : ∀ first ∈ page, ¬ space.InPage first address
  · exact .inl (getElem?_blot pages hlen outside)
  · obtain ⟨first, hfirst, inside⟩ : ∃ first ∈ page, space.InPage first address := by
      simpa using outside
    exact .inr (getElem?_blot_of_inPage pages hlen hfirst inside)

/-- What is erased on a page or anywhere else is erased. -/
theorem blot_overlay_ones {length : Nat} (range : address + length ≤ space.total) :
    (space.blot page image).overlay address (List.replicate length 0xFF) =
      space.blot page (image.overlay address (List.replicate length 0xFF)) := by
  cases page with
  | none => rfl
  | some first =>
    have hfits := (pages first rfl).fits
    have hones : (List.replicate length (0xFF : UInt8)).length = length := List.length_replicate
    rw [List.length_replicate] at hfits
    refine List.ext_getElem? fun i => ?_
    unfold blot
    rw [Bytes.getElem?_overlay_eq (by rw [Bytes.length_overlay] <;> simp <;> omega),
      Bytes.getElem?_overlay_eq (by simp; omega),
      Bytes.getElem?_overlay_eq (by rw [Bytes.length_overlay] <;> simp <;> omega),
      Bytes.getElem?_overlay_eq (by simp; omega)]
    simp only [List.length_replicate, List.getElem?_replicate]
    grind

/-- Where only some other bytes are different, they are different with the page erased, too. -/
theorem blot_congr {image' : Bytes} (hlen' : image'.length = image.length)
    (same : image'[address]? = image[address]?) :
    (space.blot page image')[address]? = (space.blot page image)[address]? := by
  cases page with
  | none => exact same
  | some first =>
    have hfits := (pages first rfl).fits
    unfold blot
    rw [Bytes.getElem?_overlay_eq (by omega), Bytes.getElem?_overlay_eq (by omega), same]

end Blot

/-! ## The eeprom where failing calls have no effect -/

section Eeprom

variable (o : Outage .clean phase phase fun _ => phase) (u : g.Uniform) (t : space.Truthful)
include o u t

/-- How a space behaves in the eeprom where failing calls have no effect. -/
theorem conduct_of_harmless (around : Bytes × Bytes) :
    space.Conduct 0 space.boundary (space.Exposes phase around)
      (.harmless space phase around) where
  inside := by
    unfold total
    omega
  length h := by rw [← h.image, space.length_image t]
  read {image m} h {address length} _ range :=
    (read_exposes o u t h (by unfold total; omega)).mono (fun _ _ h' => h') fun _ _ h' =>
      ⟨h'.1, .inr ⟨image, rfl, h'.2⟩⟩
  write {image m} h {address bytes} _ range := by
    refine (write_exposes o u t h (by unfold total; omega)).mono (fun _ _ h' => h') ?_
    rintro e m' ⟨he, ⟨n, _, -, hless, hnear, -⟩ | ⟨n, hcut, h'⟩⟩
    · omega
    · exact ⟨he, .inr ⟨_, begun_of_mayCut hcut, h'⟩⟩

/-- Reading keeps what is known of the image. -/
theorem reads_of_harmless (around : Bytes × Bytes) (good : Bytes → Prop) :
    space.Reads fun m => ∃ image, space.Exposes phase around image m ∧ good image where
  read := by
    rintro m address length ⟨image, hm, hgood⟩ range
    have hlen : image.length = space.total := by rw [← hm.image, space.length_image t]
    refine ((read_exposes o u t hm range).yields fun _ _ h' => ⟨image, h'.2, hgood⟩).mono ?_
      fun _ h' => h'
    rintro bytes m' ⟨h', rfl⟩
    exact ⟨⟨image, h', hgood⟩, Bytes.length_slice (by omega)⟩

/-- What depends on other bytes of the eeprom only is kept by writes between two addresses, even if
a page of the flash stays erased. -/
theorem tends_of_harmless {lower upper : Nat} (inside : upper ≤ space.total) {good : Bytes → Prop}
    (closed : ∀ {image image' : Bytes}, image.length = space.total → image'.length = space.total →
      (∀ i, i < space.boundary → i < lower ∨ upper ≤ i → image'[i]? = image[i]?) →
      good image → good image') (around : Bytes × Bytes) :
    space.Tends lower upper fun m => ∃ image, space.Exposes phase around image m ∧ good image where
  toReads := reads_of_harmless o u t around good
  inside := inside
  write := by
    rintro address bytes hlower hupper m ⟨image, hm, hgood⟩
    have hlen : image.length = space.total := by rw [← hm.image, space.length_image t]
    have kept {phase' : Phase} {image' : Bytes} {m' : Media g}
        (h' : space.Exposes phase' around image' m') : image'.length = space.total := by
      rw [← h'.image, space.length_image t]
    have htake (n : Nat) : (bytes.take n).length ≤ bytes.length := List.length_take_le' _ _
    -- Bytes in front of a cut lie between the addresses.
    have overlaid (n i : Nat) (hi : i < lower ∨ upper ≤ i) :
        (image.overlay address (bytes.take n))[i]? = image[i]? := by
      have := htake n
      rw [Bytes.getElem?_overlay_eq (by omega), if_neg (by omega)]
    refine ((write_exposes o u t hm (by omega)).yields ?_).mono ?_ fun _ h' => h'
    · rintro e m' ⟨-, ⟨n, first, -, hless, hnear, rfl, h'⟩ | ⟨n, -, h'⟩⟩
      · have := htake n
        refine ⟨_, h', closed hlen (kept h') (fun i hi hi' => ?_) hgood⟩
        have hlen' : (image.overlay address (bytes.take n)).length = space.total := by
          rw [Bytes.length_overlay (by omega), hlen]
        have hpage := (hasPage hnear (by omega)).fits
        have hstart : space.boundary ≤
          space.pageStart (g.pageFloor (space.flashCell (address + n))) :=
          Nat.le_add_right _ _
        -- The page lies in the flash.
        rw [Bytes.getElem?_overlay_eq (by omega), if_neg (by omega), overlaid n i hi']
      · exact ⟨_, h', closed hlen (kept h') (fun i _ hi => overlaid n i hi) hgood⟩
    · intro _ m' h'
      refine ⟨_, h', closed hlen (kept h') (fun i _ hi => ?_) hgood⟩
      rw [Bytes.getElem?_overlay_eq (by omega), if_neg (by omega)]

end Eeprom

/-! ## Marred spaces -/

/-- The space shows this image with the page, if any, erased; the page has an address between the
bounds, it was not programmed again, and the memories are in the phase that goes with it. -/
structure Marred (space : Space g) (lower upper : Nat) (phases : Option Nat → Phase)
    (around : Bytes × Bytes) (page : Option Nat) (image : Bytes) (m : Media g) : Prop where
  pages : ∀ first ∈ page, space.HasPage first
  near : ∀ first ∈ page, ∃ address, lower ≤ address ∧ address < upper ∧ space.InPage first address
  length : image.length = space.total
  exposes : space.Exposes (phases page) around (space.blot page image) m

/-- Failing calls have no effect, but a page may stay erased that has an address between the
bounds. -/
def Mishap.marring (space : Space g) (lower upper : Nat) (phases : Option Nat → Phase)
    (around : Bytes × Bytes) : Mishap g :=
  .piecewise space .clean
    (fun image m => ∃ page, space.Marred lower upper phases around page image m) fun _ => False

/-- A space without such a page shows the image. -/
theorem marred_none {lower upper : Nat} (t : space.Truthful)
    (h : space.Exposes (phases none) around image m) :
    space.Marred lower upper phases around none image m :=
  ⟨nofun, nofun, by rw [← h.image, space.length_image t], h⟩

variable (u : g.Uniform) (t : space.Truthful)
include u t

/-- How a space behaves where failing calls have no effect: what a failure leaves is known, but for
a page that may stay erased. -/
theorem conduct_marring {light : Phase}
    (o : Outage .clean light (phases none) fun first => phases (some first))
    (around : Bytes × Bytes) {lower upper : Nat} (inside : upper ≤ space.total) :
    space.Conduct lower upper (space.Exposes light around)
      (.marring space lower upper phases around) where
  inside := inside
  length h := by rw [← h.image, space.length_image t]
  read {image m} h {address length} _ range :=
    (read_exposes o u t h (Nat.le_trans range inside)).mono (fun _ _ h' => h') fun _ _ h' =>
      ⟨h'.1, .inr ⟨image, rfl, none, marred_none t h'.2⟩⟩
  write {image m} h {address bytes} hlower range := by
    have hlen : image.length = space.total := by rw [← h.image, space.length_image t]
    refine (write_exposes o u t h (Nat.le_trans range inside)).mono (fun _ _ h' => h') ?_
    rintro e m' ⟨he, ⟨n, _, hcut, hless, hnear, rfl, h'⟩ | ⟨n, hcut, h'⟩⟩
    · refine ⟨he, .inr ⟨_, begun_of_mayCut hcut, some _, ?_, ?_, ?_, h'⟩⟩
      · rintro _ ⟨⟩
        exact hasPage hnear (by omega)
      · rintro _ ⟨⟩
        exact ⟨address + n, by omega, by omega, hnear, rfl⟩
      · rw [Bytes.length_overlay (by rw [List.length_take]; omega), hlen]
    · exact ⟨he, .inr ⟨_, begun_of_mayCut hcut, none, marred_none t h'⟩⟩

/-- Erasing bytes of a marred space erases them, if it does not fail. -/
theorem Marred.write_ones {lower upper : Nat}
    (h : space.Marred lower upper (.Marred plan₀) around page image m) {length : Nat}
    (range : address + length ≤ space.total) :
    (space.write address (List.replicate length 0xFF)).Ends m
      (fun _ => space.Marred lower upper (.Marred plan₀) around page
        (image.overlay address (List.replicate length 0xFF))) fun _ _ => True := by
  have hones : (List.replicate length (0xFF : UInt8)).length = length := List.length_replicate
  have hlen := h.length
  have c := conduct_of_outage (Phase.outage_marred plan₀ page) u t around
  refine (c.write h.exposes (Nat.zero_le _) (by rwa [hones])).mono ?_ fun _ _ _ => trivial
  intro _ m' h'
  rw [blot_overlay_ones h.pages h.length range] at h'
  exact ⟨h.pages, h.near, by rw [Bytes.length_overlay (by omega), hlen], h'⟩

/-- Whatever is done to a marred space, the page stays in the journal. -/
theorem tends_marred (plan₀ : List Fault) (page : Option Nat) {lower upper : Nat}
    (inside : upper ≤ space.total) :
    space.Tends lower upper fun m =>
      ∃ page', (∀ first ∈ page, first ∈ page') ∧ m.Under (.Marred plan₀ page') := by
  have halts {page' : Option Nat} (hpage : ∀ first ∈ page, first ∈ page') {around : Bytes × Bytes}
      {images : Bytes → Prop} (e : Error) (m : Media g)
      (h : Halts (.piecewise space .clean (space.Exposes (.Marred plan₀ page') around) fun m =>
        ∃ first, m.Under (.Marred plan₀ (some (page'.getD first)))) images e m) :
      ∃ page', (∀ first ∈ page, first ∈ page') ∧ m.Under (.Marred plan₀ page') := by
    obtain ⟨-, ⟨first, hunder⟩ | ⟨image, -, h'⟩⟩ := h
    · refine ⟨_, fun other hother => ?_, hunder⟩
      rw [hpage other hother]
      rfl
    · exact ⟨page', hpage, h'.under⟩
  refine ⟨⟨?_⟩, inside, ?_⟩
  · rintro m address length ⟨page', hpage, hunder⟩ range
    have c := conduct_of_outage (Phase.outage_marred plan₀ page') u t (space.around m)
    refine ((c.read ⟨hunder, rfl, rfl⟩ (Nat.zero_le _) range).yields (halts hpage)).mono ?_
      fun _ h => h
    rintro bytes m' ⟨h', rfl⟩
    exact ⟨⟨page', hpage, h'.under⟩, Bytes.length_slice (by rw [space.length_image t]; omega)⟩
  · rintro address bytes - hupper m ⟨page', hpage, hunder⟩
    have c := conduct_of_outage (Phase.outage_marred plan₀ page') u t (space.around m)
    refine ((c.write ⟨hunder, rfl, rfl⟩ (Nat.zero_le _) (by omega)).yields (halts hpage)).mono ?_
      fun _ h => h
    exact fun _ m' h' => ⟨page', hpage, h'.under⟩

end Space

end CircularLog
