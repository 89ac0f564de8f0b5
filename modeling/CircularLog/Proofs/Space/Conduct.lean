import CircularLog.Proofs.Space.Outage

/-!
# What a space does for its users

A `Conduct` is what the users of a space rely on between two addresses: in a state that is `sound`
with an image, a read returns its part of the image, and a write lays its bytes over it. Where one
of them fails, a `Mishap` says by which errors this is told, behind which of its bytes a write may
be cut off, and what the memories are like then: `stuck` with the image that has the bytes in front
of the cut, or `torn`, and nothing is said of their image. `conduct_of_outage` has this from the
calls of the driver, and all that is known of a partition is proved from it.
-/

namespace CircularLog

namespace Space

/-- How the operations of a space fail. -/
structure Mishap (g : Geometry) where
  /-- The errors that tell of a failure. -/
  tells : Error → Prop
  /-- A write of these bytes to an address may be cut off behind so many of them. -/
  cuts : Nat → Bytes → Nat → Prop
  /-- What the memories are like that show an image all the same. -/
  stuck : Bytes → Media g → Prop
  /-- What the memories are like of which no image is known. -/
  torn : Media g → Prop

variable {g : Geometry} {space : Space g} {m : Media g} {sound : Bytes → Media g → Prop}
  {mishap : Mishap g} {image : Bytes}

namespace Mishap

/-- Nothing fails. -/
def never : Mishap g := ⟨fun _ => False, fun _ _ _ => False, fun _ _ => False, fun _ => False⟩

/-- Anything may become of a failure. -/
def any : Mishap g := ⟨fun _ => True, fun _ _ _ => True, fun _ _ => True, fun _ => True⟩

/-- Calls fail in this manner, and writes are cut off between their pieces or inside the piece for
the eeprom. -/
def piecewise (space : Space g) (manner : Manner) (stuck : Bytes → Media g → Prop)
    (torn : Media g → Prop) : Mishap g where
  tells := manner.tells
  cuts := space.MayCut manner.cut
  stuck := stuck
  torn := torn

end Mishap

/-- An operation has failed; the memories are stuck with one of these images, or torn. -/
def Halts (mishap : Mishap g) (images : Bytes → Prop) (e : Error) (m : Media g) : Prop :=
  mishap.tells e ∧ (mishap.torn m ∨ ∃ image, images image ∧ mishap.stuck image m)

/-- There may be more images for the memories to be stuck with. -/
theorem Halts.mono {images images' : Bytes → Prop} {e : Error} (h : Halts mishap images e m)
    (weaker : ∀ image, mishap.stuck image m → images image → images' image) :
    Halts mishap images' e m :=
  ⟨h.1, h.2.imp_right fun ⟨image, himage, hstuck⟩ => ⟨image, weaker image hstuck himage, hstuck⟩⟩

/-- Failures leave the memories as sound as they were. -/
structure Mishap.Mild (mishap : Mishap g) (sound : Bytes → Media g → Prop) : Prop where
  stuck : ∀ image m, mishap.stuck image m → sound image m
  torn : ∀ m, ¬ mishap.torn m

/-- What never happens is mild. -/
theorem Mishap.mild_never : (Mishap.never : Mishap g).Mild sound :=
  ⟨fun _ _ h => h.elim, fun _ h => h⟩

/-- After a mild failure, the memories are sound with one of the images. -/
theorem Mishap.Mild.exists_sound (mild : mishap.Mild sound) {images : Bytes → Prop} {e : Error}
    (h : Halts mishap images e m) : ∃ image, images image ∧ sound image m :=
  h.2.elim (fun h => absurd h (mild.torn m)) fun ⟨image, himage, h⟩ =>
    ⟨image, himage, mild.stuck image m h⟩

/-- The bytes in front of a cut lie over the image. -/
def Begun (mishap : Mishap g) (image : Bytes) (address : Nat) (bytes image' : Bytes) : Prop :=
  ∃ n, mishap.cuts address bytes n ∧ n ≤ bytes.length ∧
    image' = image.overlay address (bytes.take n)

/-- How a space shows its image between two addresses. -/
structure Legible (space : Space g) (lower upper : Nat) (sound : Bytes → Media g → Prop)
    (mishap : Mishap g) : Prop where
  inside : upper ≤ space.total
  /-- The image has one byte for every address. -/
  length : ∀ {image m}, sound image m → image.length = space.total
  /-- A read returns that part of the image and changes nothing. -/
  read : ∀ {image m}, sound image m → ∀ {address length}, lower ≤ address →
    address + length ≤ upper →
    (space.read address length).Ends m
      (fun bytes m' => sound image m' ∧ bytes = image.slice address length)
      (Halts mishap (· = image))

/-- How the operations of a space act on its image between two addresses. -/
structure Conduct (space : Space g) (lower upper : Nat) (sound : Bytes → Media g → Prop)
    (mishap : Mishap g) : Prop extends space.Legible lower upper sound mishap where
  /-- A write lays its bytes over the image. -/
  write : ∀ {image m}, sound image m → ∀ {address bytes}, lower ≤ address →
    address + bytes.length ≤ upper →
    (space.write address bytes).Ends m (fun _ => sound (image.overlay address bytes))
      (Halts mishap (Begun mishap image address bytes))

/-- What is legible between two addresses is so between two others inside of them. -/
theorem Legible.within {lower upper lower' upper' : Nat}
    (c : space.Legible lower upper sound mishap) (hlower : lower ≤ lower')
    (hupper : upper' ≤ upper) : space.Legible lower' upper' sound mishap :=
  ⟨Nat.le_trans hupper c.inside, c.length,
    fun hm _ _ h h' => c.read hm (Nat.le_trans hlower h) (Nat.le_trans h' hupper)⟩

/-- What holds between two addresses holds between two others inside of them. -/
theorem Conduct.within {lower upper lower' upper' : Nat}
    (c : space.Conduct lower upper sound mishap)
    (hlower : lower ≤ lower') (hupper : upper' ≤ upper) :
    space.Conduct lower' upper' sound mishap :=
  ⟨c.toLegible.within hlower hupper,
    fun hm _ _ h h' => c.write hm (Nat.le_trans hlower h) (Nat.le_trans h' hupper)⟩

/-- What is known of failures may be said in another way. -/
theorem Conduct.mono {lower upper : Nat} {mishap' : Mishap g}
    (c : space.Conduct lower upper sound mishap)
    (reads : ∀ {image e m}, Halts mishap (· = image) e m → Halts mishap' (· = image) e m)
    (writes : ∀ {image address bytes e m}, Halts mishap (Begun mishap image address bytes) e m →
      Halts mishap' (Begun mishap' image address bytes) e m) :
    space.Conduct lower upper sound mishap' :=
  ⟨⟨c.inside, c.length,
    fun hm _ _ h range => (c.read hm h range).mono (fun _ _ h => h) fun _ _ => reads⟩,
    fun hm _ _ h range => (c.write hm h range).mono (fun _ _ h => h) fun _ _ => writes⟩

/-- The bytes of a write in front of a cut are there. -/
theorem begun_of_mayCut {manner : Manner} {stuck : Bytes → Media g → Prop} {torn : Media g → Prop}
    {address n : Nat} {bytes : Bytes} (h : space.MayCut manner.cut address bytes n) :
    Begun (.piecewise space manner stuck torn) image address bytes
      (image.overlay address (bytes.take n)) := by
  refine ⟨n, h, ?_, rfl⟩
  rcases h with ⟨done, ⟨rest, hrest⟩, rfl⟩ | rfl
  · rw [← space.flatten_pieces address bytes, ← hrest, List.flatten_append, List.length_append]
    exact Nat.le_add_right _ _
  · unfold eepromPart
    omega

/-- The memories are in the phase, and the space shows this image and has this around it. -/
structure Exposes (space : Space g) (phase : Phase) (around : Bytes × Bytes) (image : Bytes)
    (m : Media g) : Prop where
  under : m.Under phase
  image : space.image m = image
  around : space.around m = around

/-- What has been written lies over the image that the space shows. -/
theorem Exposes.wrote {phase phase' : Phase} {around : Bytes × Bytes} {m' : Media g} {address : Nat}
    {bytes : Bytes} (h : space.Exposes phase around image m) (under : m'.Under phase')
    (wrote : space.Wrote m address bytes m') :
    space.Exposes phase' around (image.overlay address bytes) m' :=
  ⟨under, by rw [wrote.image, h.image], wrote.around.trans h.around⟩

/-- What the space shows depends on the contents of the memories only. -/
theorem Exposes.shows {phase phase' : Phase} {around : Bytes × Bytes} {m' : Media g}
    (h : space.Exposes phase around image m)
    (shows : m'.Shows m.eeprom.memory.toBytes m.flash.memory.toBytes) (under : m'.Under phase') :
    space.Exposes phase' around image m' := by
  refine ⟨under, ?_, ?_⟩
  · rw [← h.image, space.image_eq, shows.eeprom, shows.flash, space.image_eq]
  · rw [← h.around, Space.around, shows.flash, Space.around]

/-- Some first bytes have been written, and the page of the next one, which is one of the flash, is
erased. -/
def Blotted (space : Space g) (cut : Nat) (torn : Nat → Phase) (around : Bytes × Bytes)
    (image : Bytes) (address : Nat) (bytes : Bytes) (m : Media g) : Prop :=
  ∃ n first, space.MayCut cut address bytes n ∧ n < bytes.length ∧ space.boundary ≤ address + n ∧
    first = g.pageFloor (space.flashCell (address + n)) ∧
    space.Exposes (torn first) around ((image.overlay address (bytes.take n)).overlay
      (space.pageStart first) (List.replicate g.pageBytes 0xFF)) m

section Calls

variable {manner : Manner} {light dark : Phase} {torn : Nat → Phase} {around : Bytes × Bytes}
  (o : Outage manner light dark torn) (u : g.Uniform) (t : space.Truthful)
  (h : space.Exposes light around image m)
include o u t h

/-- A read gives its part of the image, or fails and changes nothing. -/
theorem read_exposes {address length : Nat} (range : address + length ≤ space.total) :
    (space.read address length).Ends m
      (fun bytes m' => space.Exposes light around image m' ∧ bytes = image.slice address length)
      (fun e m' => manner.tells e ∧ space.Exposes dark around image m') := by
  refine (read_ends (view_of_outage o) u t (fits_contents t m) ⟨h.under, rfl, rfl⟩ range).mono ?_ ?_
  · rintro _ m' ⟨⟨hunder, hshows⟩, rfl⟩
    exact ⟨h.shows hshows hunder, by rw [← space.image_eq, h.image]⟩
  · rintro e m' ⟨he, hunder, hshows⟩
    exact ⟨he, h.shows hshows hunder⟩

/-- A write lays its bytes over the image, or fails, and then those in front of a cut are there, or
a page is erased. -/
theorem write_exposes {address : Nat} {bytes : Bytes}
    (range : address + bytes.length ≤ space.total) : (space.write address bytes).Ends m
      (fun _ => space.Exposes light around (image.overlay address bytes))
      (fun e m' => manner.tells e ∧
        (space.Blotted manner.cut torn around image address bytes m' ∨
          ∃ n, space.MayCut manner.cut address bytes n ∧
            space.Exposes dark around (image.overlay address (bytes.take n)) m')) := by
  refine (write_meets o u t h.under range).mono (fun _ m' h' => h.wrote h'.1 h'.2) ?_
  rintro e m' ⟨he, hblanked | ⟨n, hcut, hunder, hwrote⟩⟩
  · -- The pieces in front are there, and all of the page of the next one is erased.
    obtain ⟨done, first, m₁, hprefix, hless, hnear, hfirst, hwrote, hunder, herased⟩ := hblanked
    have htake : bytes.take done.flatten.length = done.flatten := by
      obtain ⟨rest, hrest⟩ := hprefix
      rw [← space.flatten_pieces address bytes, ← hrest, List.flatten_append, List.take_left]
    rw [space.flatten_pieces] at hless
    refine ⟨he, .inl ⟨_, first, .inl ⟨done, hprefix, rfl⟩, hless, hnear, hfirst, hunder, ?_,
      herased.around.trans (hwrote.around.trans h.around)⟩⟩
    rw [herased.image, hwrote.image, h.image, htake]
  · exact ⟨he, .inr ⟨n, hcut, h.wrote hunder hwrote⟩⟩

end Calls

/-- As long as calls act or fail, a space does what it promises, and leaves the cells around its
range alone. -/
theorem conduct_of_outage {manner : Manner} {light dark : Phase} {torn : Nat → Phase}
    (o : Outage manner light dark torn) (u : g.Uniform) (t : space.Truthful)
    (around : Bytes × Bytes) :
    space.Conduct 0 space.total (space.Exposes light around)
      (.piecewise space manner (space.Exposes dark around)
        fun m => ∃ first, m.Under (torn first)) where
  inside := Nat.le_refl _
  length h := by rw [← h.image, space.length_image t]
  read {image m} h {address length} _ range :=
    (read_exposes o u t h range).mono (fun _ _ h' => h') fun _ _ h' =>
      ⟨h'.1, .inr ⟨image, rfl, h'.2⟩⟩
  write {image m} h {address bytes} _ range := by
    refine (write_exposes o u t h range).mono (fun _ _ h' => h') ?_
    rintro e m' ⟨he, ⟨_, first, -, -, -, -, h'⟩ | ⟨n, hcut, h'⟩⟩
    · exact ⟨he, .inl ⟨first, h'.under⟩⟩
    · exact ⟨he, .inr ⟨_, begun_of_mayCut hcut, h'⟩⟩

/-- Nothing fails where nothing can. -/
theorem not_halts {images : Bytes → Prop} {e : Error} : ¬ Halts .never images e m := fun h => h.1

/-- Where it can get neither dark nor torn, no operation inside the range fails. -/
theorem conduct_of_passing {manner : Manner} {light : Phase}
    (o : Outage manner light .never fun _ => .never) (u : g.Uniform) (t : space.Truthful)
    (around : Bytes × Bytes) :
    space.Conduct 0 space.total (space.Exposes light around) .never := by
  have never {images images' : Bytes → Prop} {e : Error} {m : Media g}
      (h : Halts (.piecewise space manner (space.Exposes .never around) fun m =>
        ∃ _ : Nat, m.Under .never) images e m) : Halts .never images' e m :=
    (h.2.elim (fun ⟨_, h⟩ => h.phase) fun ⟨_, _, h⟩ => h.under.phase).elim
  exact (conduct_of_outage o u t around).mono never never

/-- Without faults no operation inside the range fails. -/
theorem conduct_of_clear (u : g.Uniform) (t : space.Truthful) (around : Bytes × Bytes) :
    space.Conduct 0 space.total (space.Exposes .clear around) .never :=
  conduct_of_passing Outage.faultless u t around

section Reading

open Media (Stands)

variable {eeprom flash : Bytes}

/-- Without faults, what is read are the contents, and reading it is all that happens. -/
theorem view_of_reading (since : List Call) :
    View (g := g) (Stands (.reading since) eeprom flash) (fun _ _ => False) eeprom flash where
  eepromRead hm range :=
    (Media.eepromRead_meets hm.1.able (Phase.meets_reading hm.1.phase rfl) hm.2 range).mono
      (fun _ _ h => h) fun _ _ h => h.2.1.phase
  flashRead hm start whole range :=
    (Media.flashRead_meets hm.1.able (Phase.meets_reading hm.1.phase rfl) hm.2 start whole
      range).mono (fun _ _ h => h) fun _ _ h => h.2.1.phase

/-- Without faults a space is legible while nothing else is done. -/
theorem legible_of_reading (u : g.Uniform) (t : space.Truthful) (fits : space.Fits eeprom flash)
    (since : List Call) :
    space.Legible 0 space.total (fun image m => image = space.imageOf eeprom flash ∧
      Stands (.reading since) eeprom flash m) .never where
  inside := Nat.le_refl _
  length h := h.1 ▸ fits.length_imageOf
  read {image m} h {address length} _ range := by
    apply (read_ends (view_of_reading since) u t fits h.2 range).mono
    · exact fun _ _ h' => ⟨⟨h.1, h'.1⟩, h.1 ▸ h'.2⟩
    · exact fun _ _ hnever => hnever.elim

end Reading

/-- Nothing around the bounds changes while one reads and writes between them. -/
theorem Conduct.since {lower upper : Nat} (c : space.Conduct lower upper sound .never)
    (before : Bytes) :
    space.Conduct lower upper (fun image m => sound image m ∧
      ∀ i, i < lower ∨ upper ≤ i → image[i]? = before[i]?) .never where
  inside := c.inside
  length h := c.length h.1
  read h _ _ hlower range :=
    (c.read h.1 hlower range).mono (fun _ _ h' => ⟨⟨h'.1, h.2⟩, h'.2⟩) fun _ _ h => h.1.elim
  write {image m} h {address bytes} hlower range := by
    have hlen := c.length h.1
    have inside := c.inside
    refine (c.write h.1 hlower range).mono (fun _ _ h' => ⟨h', fun i hi => ?_⟩)
      fun _ _ h => h.1.elim
    rw [Bytes.getElem?_overlay_eq (by omega), if_neg (by omega), h.2 i hi]

/-- A request that is made in one piece is cut off before its first byte or behind its last one, or
where the write to the eeprom was. -/
theorem cut_of_whole {cut address n : Nat} {bytes : Bytes}
    (whole : space.Whole address bytes.length) (h : space.MayCut cut address bytes n) :
    n = 0 ∨ n = bytes.length ∨ n = min cut (space.eepromPart address bytes.length) := by
  rcases h with ⟨done, hdone, rfl⟩ | rfl
  · by_cases hnil : bytes = []
    · have hflat := space.flatten_pieces address bytes
      obtain ⟨rest, hpieces⟩ := hdone
      rw [← hpieces, hnil, List.flatten_append, List.append_eq_nil_iff] at hflat
      exact .inl (by rw [hflat.1, List.length_nil])
    · rw [pieces_of_whole whole hnil] at hdone
      rcases List.prefix_cons_iff.mp hdone with rfl | ⟨rest, rfl, hrest⟩
      · exact .inl rfl
      · exact .inr (.inl (by simp [List.prefix_nil.mp hrest]))
  · exact .inr (.inr rfl)

/-- Where failing calls have no effect, a request that is made in one piece is cut off before its
first byte or behind its last one. -/
theorem cut_whole {address n : Nat} {bytes : Bytes} (whole : space.Whole address bytes.length)
    (h : space.MayCut 0 address bytes n) : n = 0 ∨ n = bytes.length := by
  rcases cut_of_whole whole h with h | h | h
  · exact .inl h
  · exact .inr h
  · exact .inl (h.trans (Nat.zero_min _))

/-- A request to the eeprom is cut off where the write to it was. -/
theorem cut_eeprom {cut address n : Nat} {bytes : Bytes}
    (eeprom : address + bytes.length ≤ space.boundary) (h : space.MayCut cut address bytes n) :
    n = 0 ∨ n = bytes.length ∨ n = min cut bytes.length := by
  have hpart : space.eepromPart address bytes.length = bytes.length := by
    unfold eepromPart
    omega
  have hcut := cut_of_whole (.inl eeprom) h
  rwa [hpart] at hcut

/-- Copies of a value laid behind others are more copies. -/
theorem overlay_replicate {address n k : Nat} {value : UInt8}
    (h : address + (n + k) ≤ image.length) :
    (image.overlay address (List.replicate n value)).overlay (address + n)
        (List.replicate k value) =
      image.overlay address (List.replicate (n + k) value) := by
  have hfits : address + (List.replicate n value ++ List.replicate k value).length ≤
      image.length := by
    rw [List.length_append, List.length_replicate, List.length_replicate]
    exact h
  have happend := Bytes.overlay_append hfits
  rwa [List.replicate_append_replicate, List.length_replicate] at happend

/-- Some copies of the value lie over the image from the address on, so many at most. -/
def Filling (image : Bytes) (address length : Nat) (value : UInt8) (image' : Bytes) : Prop :=
  ∃ n, n ≤ length ∧ image' = image.overlay address (List.replicate n value)

/-- A filling that was begun has written some copies. -/
theorem Begun.filling {address length : Nat} {value : UInt8} {image' : Bytes}
    (h : Begun mishap image address (List.replicate length value) image') :
    Filling image address length value image' := by
  obtain ⟨n, -, hn, rfl⟩ := h
  rw [List.length_replicate] at hn
  exact ⟨n, hn, by rw [List.take_replicate, Nat.min_eq_left hn]⟩

/-- What is filled behind copies that lie there is more copies. -/
theorem Filling.behind {address front back : Nat} {value : UInt8} {image' : Bytes}
    (range : address + (front + back) ≤ image.length)
    (h : Filling (image.overlay address (List.replicate front value)) (address + front) back value
      image') : Filling image address (front + back) value image' := by
  obtain ⟨n, hn, rfl⟩ := h
  exact ⟨front + n, by omega, overlay_replicate (by omega)⟩

/-- Filling chunks lays copies of the value over the image; if it fails, over some first part. -/
theorem Conduct.fillChunks {lower upper : Nat} (c : space.Conduct lower upper sound mishap)
    {value : UInt8} {address : Nat} {lengths : List Nat} (hm : sound image m)
    (hlower : lower ≤ address) (short : ∀ length ∈ lengths, length ≤ chunkBytes)
    (range : address + Bytes.total lengths ≤ upper) :
    (space.fillChunks address value lengths).Ends m
      (fun _ => sound (image.overlay address (List.replicate (Bytes.total lengths) value)))
      (Halts mishap (Filling image address (Bytes.total lengths) value)) := by
  induction lengths generalizing m image address with
  | nil => simpa [Space.fillChunks] using hm
  | cons length lengths ih =>
    have hlen := c.length hm
    have hinside := c.inside
    rw [Bytes.total_cons] at range ⊢
    rw [fillChunks_cons space value lengths (short _ List.mem_cons_self) (by omega),
      Action.ends_bind]
    refine (c.write hm hlower (by rw [List.length_replicate]; omega)).mono ?_ ?_
    · intro _ m₁ h₁
      refine (ih h₁ (by omega) (fun _ h => short _ (List.mem_cons_of_mem _ h)) (by omega)).mono ?_
        fun _ _ h => h.mono fun _ _ h => h.behind (by omega)
      rw [overlay_replicate (by omega)]
      exact fun _ _ h => h
    · refine fun _ _ h => h.mono fun _ _ h => ?_
      obtain ⟨n, hn, rfl⟩ := h.filling
      exact ⟨n, by omega, rfl⟩

/-- Filling lays copies of the value over the image; if it fails, over some first part. -/
theorem Conduct.fill {lower upper : Nat} (c : space.Conduct lower upper sound mishap)
    {value : UInt8} {address length : Nat} (hm : sound image m) (hlower : lower ≤ address)
    (range : address + length ≤ upper) :
    (space.fill address length value).Ends m
      (fun _ => sound (image.overlay address (List.replicate length value)))
      (Halts mishap (Filling image address length value)) := by
  have hsum := Bytes.total_pieces chunkBytes length
  have h : (space.fillChunks address value (Bytes.pieces chunkBytes length)).Ends m _ _ :=
    c.fillChunks hm hlower (fun _ => Bytes.le_of_mem_pieces (by decide)) (by rwa [hsum])
  rw [Space.fill, require_of_le (Nat.le_trans range c.inside), pure_bind]
  rwa [hsum] at h

end Space

end CircularLog
