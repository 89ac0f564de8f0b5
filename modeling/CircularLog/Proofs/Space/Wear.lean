import Mathlib.Data.Finset.Card
import Mathlib.Data.Finset.Range
import CircularLog.Proofs.Media.Wear
import CircularLog.Proofs.Space.Resubmission

/-!
# What a write wears

Without faults a write erases the pages in which it has to set a bit, programs those in which it has
to change a byte, and writes to the eeprom if it reaches there: once each, and no others
(`wear_of_write`). Whether a page is erased is decided by the bytes asked for, not by the words
around them (`flashWear_of_page`), and writing one page decides nothing about the next
(`flashWear_append`). So a write that is repeated leaves the flash alone.
-/

namespace CircularLog

/-! ## Bits that are set -/

/-- Some bit is 0 in the old byte and 1 in the new one. -/
def Raises (old new : UInt8) : Prop :=
  ∃ k < 8, old.toNat.testBit k = false ∧ new.toNat.testBit k = true

instance : DecidableRel Raises := fun old new =>
  inferInstanceAs (Decidable (∃ k < 8, old.toNat.testBit k = false ∧ new.toNat.testBit k = true))

/-- Where no bit is to be set, clearing bits is enough. -/
theorem not_raises_iff {old new : UInt8} : ¬ Raises old new ↔ old &&& new = new := by
  constructor
  · intro keeps
    refine UInt8.toNat_inj.mp (Nat.eq_of_testBit_eq fun k => ?_)
    rw [UInt8.toNat_and, Nat.testBit_and]
    by_cases hk : k < 8
    · have := keeps.imp fun h => ⟨k, hk, h⟩
      grind
    · have small : new.toNat < 2 ^ k :=
        Nat.lt_of_lt_of_le new.toNat_lt (Nat.pow_le_pow_right (by decide) (by omega))
      rw [Nat.testBit_lt_two_pow small, Bool.and_false]
  · rintro same ⟨k, -, hold, hnew⟩
    rw [← same, UInt8.toNat_and, Nat.testBit_and, hold] at hnew
    cases hnew

namespace Bytes

variable {old new : Bytes}

/-- Bits have to be set in some byte if clearing them is not enough for all. -/
theorem clearsTo_iff (h : old.length = new.length) :
    old.clearsTo new ↔ ¬ ∃ i < new.length, Raises (old.getD i 0) (new.getD i 0) := by
  simp only [not_exists, not_and, not_raises_iff, List.getD_eq_getElem?_getD]
  constructor
  · intro clears i hi
    have ho : old[i]? = some old[i] := List.getElem?_eq_getElem (h ▸ hi)
    have hn : new[i]? = some new[i] := List.getElem?_eq_getElem hi
    rw [ho, hn]
    exact and_eq_of_clearsTo clears ho hn
  · intro clears
    refine List.all_eq_true.mpr fun pair hmem => ?_
    obtain ⟨i, hpair⟩ := List.mem_iff_getElem?.mp hmem
    obtain ⟨ho, hn⟩ := List.getElem?_zip_eq_some.mp hpair
    have := clears i (List.getElem?_eq_some_iff.mp hn).1
    rw [ho, hn] at this
    exact beq_iff_eq.mpr this

/-- No bit has to be set where nothing has to be changed. -/
theorem clearsTo_self (bytes : Bytes) : bytes.clearsTo bytes :=
  (clearsTo_iff rfl).mpr fun ⟨_, _, raises⟩ => not_raises_iff.mpr UInt8.and_self raises

/-- Strings of one length differ in some byte, or not at all. -/
theorem eq_iff_getD (h : old.length = new.length) :
    old = new ↔ ¬ ∃ i < new.length, old.getD i 0 ≠ new.getD i 0 := by
  simp only [not_exists, not_and, Decidable.not_not]
  refine ⟨fun same _ _ => same ▸ rfl, fun same => List.ext_getElem h fun i ho hn => ?_⟩
  simpa [List.getD_eq_getElem?_getD, ho, hn] using same i hn

/-- The bytes of a slice are those of the string from its address on. -/
theorem getD_slice {image : Bytes} {address length i : Nat} (hi : i < length) :
    (image.slice address length).getD i 0 = image.getD (address + i) 0 := by
  rw [List.getD_eq_getElem?_getD, getElem?_slice, if_pos hi, List.getD_eq_getElem?_getD]

end Bytes

namespace Space

variable {g : Geometry} {space : Space g} {m m₀ : Media g} {w : Wear} {eeprom flash image : Bytes}
  {address : Nat} {bytes : Bytes} {rel : UInt8 → UInt8 → Prop} [DecidableRel rel]

/-! ## Pages -/

/-- The pages of the flash with a byte that is asked for and stands so to the byte that is there. -/
def pagesWhere (space : Space g) (rel : UInt8 → UInt8 → Prop) [DecidableRel rel] (image : Bytes)
    (address : Nat) (bytes : Bytes) : Finset Nat :=
  ((Finset.range bytes.length).filter fun i =>
    space.boundary ≤ address + i ∧ rel (image.getD (address + i) 0) (bytes.getD i 0)).image
      fun i => space.flashCell (address + i) / g.pageBytes

/-- A page is one of these exactly if such a byte lies in it. -/
theorem mem_pagesWhere {page : Nat} : page ∈ space.pagesWhere rel image address bytes ↔
    ∃ i < bytes.length, space.boundary ≤ address + i ∧
      rel (image.getD (address + i) 0) (bytes.getD i 0) ∧
      space.flashCell (address + i) / g.pageBytes = page := by
  simp only [pagesWhere, Finset.mem_image, Finset.mem_filter, Finset.mem_range, and_assoc]

/-- They are the same where the same is there. -/
theorem pagesWhere_congr {image' : Bytes}
    (same : image'.slice address bytes.length = image.slice address bytes.length) :
    space.pagesWhere rel image' address bytes = space.pagesWhere rel image address bytes := by
  ext page
  rw [mem_pagesWhere, mem_pagesWhere]
  refine exists_congr fun i => and_congr_right fun hi => ?_
  rw [← Bytes.getD_slice hi, same, Bytes.getD_slice hi]

/-- There are none in the eeprom. -/
theorem pagesWhere_of_near (near : ∀ i < bytes.length, address + i < space.boundary) :
    space.pagesWhere rel image address bytes = ∅ := by
  refine Finset.eq_empty_of_forall_notMem fun page hpage => ?_
  obtain ⟨i, hi, hflash, -⟩ := mem_pagesWhere.mp hpage
  exact absurd (near i hi) (Nat.not_lt.mpr hflash)

/-- There are none where the bytes are there already, if no byte stands so to itself. -/
theorem pagesWhere_of_same (irrefl : ∀ byte, ¬ rel byte byte)
    (same : image.slice address bytes.length = bytes) :
    space.pagesWhere rel image address bytes = ∅ := by
  refine Finset.eq_empty_of_forall_notMem fun page hpage => ?_
  obtain ⟨i, hi, -, hrel, -⟩ := mem_pagesWhere.mp hpage
  rw [← Bytes.getD_slice hi, same] at hrel
  exact irrefl _ hrel

/-- Inside a page there is one or none. -/
theorem card_pagesWhere_of_page (flash : space.boundary ≤ address)
    (page : space.flashCell address + bytes.length ≤
      g.pageFloor (space.flashCell address) + g.pageBytes) :
    (space.pagesWhere rel image address bytes).card =
      if ∃ i < bytes.length, rel (image.getD (address + i) 0) (bytes.getD i 0) then 1 else 0 := by
  have hfloor : g.pageFloor (space.flashCell address) ≤ space.flashCell address := unitFloor_le _ _
  have single (i : Nat) (hi : i < bytes.length) :
      space.flashCell (address + i) / g.pageBytes = space.flashCell address / g.pageBytes := by
    unfold flashCell Geometry.pageFloor unitFloor at *
    refine Nat.div_eq_of_lt_le (by omega) ?_
    rw [Nat.succ_mul]
    omega
  split
  · next hsome =>
    obtain ⟨i, hi, hrel⟩ := hsome
    refine Finset.card_eq_one.mpr ⟨space.flashCell address / g.pageBytes, ?_⟩
    refine Finset.eq_singleton_iff_unique_mem.mpr
      ⟨mem_pagesWhere.mpr ⟨i, hi, by omega, hrel, single i hi⟩, fun other hother => ?_⟩
    obtain ⟨j, hj, -, -, rfl⟩ := mem_pagesWhere.mp hother
    exact single j hj
  · next hnone =>
    refine Finset.card_eq_zero.mpr (Finset.eq_empty_of_forall_notMem fun other hother => hnone ?_)
    obtain ⟨i, hi, -, hrel, -⟩ := mem_pagesWhere.mp hother
    exact ⟨i, hi, hrel⟩

/-- A request in two parts: the pages of the one and of the other. -/
theorem pagesWhere_append (front back : Bytes) :
    space.pagesWhere rel image address (front ++ back) =
      space.pagesWhere rel image address front ∪
        space.pagesWhere rel image (address + front.length) back := by
  ext page
  simp only [Finset.mem_union, mem_pagesWhere, List.length_append, List.getD_eq_getElem?_getD]
  constructor
  · rintro ⟨i, hi, hflash, hrel, hpage⟩
    by_cases hfront : i < front.length
    · rw [List.getElem?_append_left hfront] at hrel
      exact .inl ⟨i, hfront, hflash, hrel, hpage⟩
    · obtain ⟨j, rfl⟩ := Nat.exists_eq_add_of_le (Nat.not_lt.mp hfront)
      rw [List.getElem?_append_right (by omega), Nat.add_sub_cancel_left] at hrel
      rw [← Nat.add_assoc] at hflash hrel hpage
      exact .inr ⟨j, by omega, hflash, hrel, hpage⟩
  · rintro (⟨i, hi, hflash, hrel, hpage⟩ | ⟨j, hj, hflash, hrel, hpage⟩)
    · rw [← List.getElem?_append_left hi] at hrel
      exact ⟨i, by omega, hflash, hrel, hpage⟩
    · rw [Nat.add_assoc] at hflash hrel hpage
      refine ⟨front.length + j, by omega, hflash, ?_, hpage⟩
      rwa [List.getElem?_append_right (by omega), Nat.add_sub_cancel_left]

/-- No page holds bytes of both parts of a request: the first one ends in the eeprom, or the second
one starts with a page. -/
def Apart (space : Space g) (address : Nat) (front back : Bytes) : Prop :=
  front ≠ [] → back ≠ [] → address + front.length ≤ space.boundary ∨
    g.pageFloor (space.flashCell (address + front.length)) =
      space.flashCell (address + front.length)

/-- Parts that share no page have as many pages as each by itself. -/
theorem card_pagesWhere_append {front back : Bytes} (apart : space.Apart address front back) :
    (space.pagesWhere rel image address (front ++ back)).card =
      (space.pagesWhere rel image address front).card +
        (space.pagesWhere rel image (address + front.length) back).card := by
  rw [pagesWhere_append, Finset.card_union_of_disjoint]
  refine Finset.disjoint_left.mpr fun page hfront hback => ?_
  obtain ⟨i, hi, hflash, -, rfl⟩ := mem_pagesWhere.mp hfront
  obtain ⟨j, hj, -, -, hpage⟩ := mem_pagesWhere.mp hback
  rcases apart (List.ne_nil_of_length_pos (by omega)) (List.ne_nil_of_length_pos (by omega)) with
    near | start
  · omega
  · -- A byte of the first part lies in front of the page that the second part starts with.
    have before : space.flashCell (address + i) < space.flashCell (address + front.length) := by
      unfold flashCell
      omega
    have behind : space.flashCell (address + front.length) ≤
        space.flashCell (address + front.length + j) := by
      unfold flashCell
      omega
    rw [← start, Geometry.pageFloor, unitFloor, ← Nat.div_lt_iff_lt_mul g.pageBytes_pos] at before
    have := Nat.div_le_div_right (c := g.pageBytes) behind
    omega

/-! ## Steps of a write -/

/-- What the part of a request that lies in the flash wears. -/
def flashWear (space : Space g) (image : Bytes) (address : Nat) (bytes : Bytes) : Wear :=
  ⟨(space.pagesWhere Raises image address bytes).card,
    (space.pagesWhere (· ≠ ·) image address bytes).card, 0⟩

/-- Without trouble, what is submitted again if it fails is submitted once. -/
theorem yields_resubmit {call : Call} {redo : Memory g.flashBytes → Memory g.flashBytes}
    {x : Action FailureKind (Media g) Unit} (settles : Media.Settles call redo x)
    (untroubled : m.trouble = .clear) {value : Unit → Media g → Prop} {left : Media g → Prop} :
    (driver .flash (resubmit x)).Yields m value left ↔ x.Yields m value left := by
  rw [driver, Action.yields_mapError]
  unfold Action.Yields
  rw [settles.resubmit_eq untroubled]

/-- Writing to the eeprom writes to it once. -/
theorem writeEeprom_wears (worn : Media.Worn m₀ w m) (address : Nat) (bytes : Bytes) :
    (writeEeprom address bytes).Yields m (fun _ => Media.Worn m₀ (w + ⟨0, 0, 1⟩))
      (fun _ => True) := by
  rw [writeEeprom, Action.yields_bind, driver, Action.yields_mapError]
  refine (Media.yields_worn worn.untroubled (.eepromWrite address bytes)).mono (fun _ m₁ h₁ => ?_)
    fun _ _ => trivial
  exact ((driven_confirmed address bytes).keepsWorn m₁ (worn.trans h₁)).mono (fun _ _ h => h)
    fun _ _ => trivial

/-- Programming words programs once. -/
theorem programWords_wears (worn : Media.Worn m₀ w m) (address : Nat) (words : Bytes) :
    (programWords address words).Yields m (fun _ => Media.Worn m₀ (w + ⟨0, 1, 0⟩))
      (fun _ => True) := by
  rw [programWords, Action.yields_bind,
    yields_resubmit (Media.settles_flashProgram address words) worn.untroubled]
  refine (Media.yields_worn worn.untroubled (.flashProgram address words)).mono (fun _ m₁ h₁ => ?_)
    fun _ _ => trivial
  exact ((driven_read_back address words).keepsWorn m₁ (worn.trans h₁)).mono (fun _ _ h => h)
    fun _ _ => trivial

/-- Renewing a page erases once and programs once. -/
theorem renewPage_wears (worn : Media.Worn m₀ w m) {address : Nat} (pos : 0 < bytes.length)
    (page : address + bytes.length ≤ g.pageFloor address + g.pageBytes)
    (upper : address + bytes.length ≤ space.stop) :
    (renewPage address bytes).Yields m (fun _ => Media.Worn m₀ (w + ⟨1, 1, 0⟩))
      (fun _ => True) := by
  rw [renewPage_eq pos page upper]
  simp only [Action.yields_bind]
  refine ((driven_flashRead _ _).still.keepsWorn m worn).mono (fun page m₁ h₁ => ?_)
    fun _ _ => trivial
  rw [yields_resubmit (Media.settles_flashErase _ _) h₁.untroubled]
  refine (Media.yields_worn h₁.untroubled (.flashErase (g.pageFloor address))).mono
    (fun _ m₂ h₂ => ?_) fun _ _ => trivial
  have programs := programWords_wears (h₁.trans h₂) (g.pageFloor address)
    (page.overlay (address - g.pageFloor address) bytes)
  rwa [Wear.add_assoc] at programs

/-- A request in two parts that share no page: each wears what it would by itself, and the first
being written changes nothing of that. -/
theorem flashWear_append {front back : Bytes}
    (range : address + (front ++ back).length ≤ image.length)
    (apart : space.Apart address front back) :
    space.flashWear image address (front ++ back) = space.flashWear image address front +
      space.flashWear (image.overlay address front) (address + front.length) back := by
  rw [List.length_append] at range
  have same : (image.overlay address front).slice (address + front.length) back.length =
      image.slice (address + front.length) back.length :=
    Bytes.slice_overlay_of_disjoint (by omega) (.inr (Nat.le_refl _))
  simp only [flashWear, Wear.add_mk, card_pagesWhere_append apart, pagesWhere_congr same]

/-- What a request writes to the eeprom is no part of any page. -/
theorem flashWear_drop (near : Nat) (inside : near ≤ bytes.length)
    (eeprom : 0 < near → address + near ≤ space.boundary)
    (range : address + bytes.length ≤ image.length) :
    space.flashWear image address bytes =
      space.flashWear (image.overlay address (bytes.take near)) (address + near)
        (bytes.drop near) := by
  have hfront : (bytes.take near).length = near := by rw [List.length_take, Nat.min_eq_left inside]
  have apart : space.Apart address (bytes.take near) (bytes.drop near) := by
    intro some _
    rw [hfront]
    exact .inl (eeprom (hfront ▸ List.length_pos_iff.mpr some))
  have none {rel : UInt8 → UInt8 → Prop} [DecidableRel rel] :
      space.pagesWhere rel image address (bytes.take near) = ∅ :=
    pagesWhere_of_near fun i hi => by omega
  have h := flashWear_append (by rwa [List.take_append_drop]) apart
  rw [List.take_append_drop, hfront] at h
  rw [h, flashWear, flashWear, none, none, Wear.add_mk]
  simp only [Finset.card_empty, Nat.zero_add]

/-- What the bytes of a piece wear, by the decisions of the program. -/
theorem flashWear_of_page (range : address + bytes.length ≤ image.length)
    (flash : space.boundary ≤ address)
    (page : space.flashCell address + bytes.length ≤
      g.pageFloor (space.flashCell address) + g.pageBytes) :
    space.flashWear image address bytes =
      ⟨if (image.slice address bytes.length).clearsTo bytes then 0 else 1,
        if image.slice address bytes.length = bytes then 0 else 1, 0⟩ := by
  have hlen := Bytes.length_slice range
  have there {rel : UInt8 → UInt8 → Prop} :
      (∃ i < bytes.length, rel (image.getD (address + i) 0) (bytes.getD i 0)) ↔
        ∃ i < bytes.length, rel ((image.slice address bytes.length).getD i 0) (bytes.getD i 0) :=
    exists_congr fun i => and_congr_right fun hi => by rw [Bytes.getD_slice hi]
  simp only [flashWear, card_pagesWhere_of_page flash page, there, Bytes.clearsTo_iff hlen,
    Bytes.eq_iff_getD hlen, ite_not]

open Media (Stands)

/-- Writing bytes inside a page erases it and programs it if it has to. -/
theorem writePiece_wears (u : g.Uniform) (t : space.Truthful) (hm : Stands .clear eeprom flash m)
    (worn : Media.Worn m₀ w m) (pos : 0 < bytes.length) (near : space.boundary ≤ address)
    (page : space.flashCell address + bytes.length ≤
      g.pageFloor (space.flashCell address) + g.pageBytes)
    (range : address + bytes.length ≤ space.total) :
    (writePiece (space.flashCell address) bytes).Yields m
      (fun _ => Media.Worn m₀ (w + space.flashWear (space.imageOf eeprom flash) address bytes))
      (fun _ => True) := by
  have fits := hm.2.eeprom ▸ hm.2.flash ▸ space.fits_contents t m
  have lower := space.start_le_flashCell address
  have upper := flashCell_add_le near range
  obtain ⟨hfloor, hceil, -, -, -, -⟩ := words_inside u pos page lower upper
  rw [flashWear_of_page (by rwa [fits.length_imageOf]) near page, fits.slice_flash near range]
  have reads := (readWords_ends (view_of_outage Outage.faultless) u t hm pos page lower
    upper).and_yields ((driven_readWords _ _).still.keepsWorn m worn)
  rw [writePiece_eq u pos page lower upper]
  simp only [Action.yields_bind]
  refine (reads.yields fun _ _ _ => trivial).mono ?_ fun _ (_ : True) => trivial
  rintro _ m₁ ⟨⟨h₁, rfl⟩, worn₁⟩
  have hcurrent : (flash.slice (g.wordFloor (space.flashCell address))
      (g.wordCeil (space.flashCell address + bytes.length) - g.wordFloor
        (space.flashCell address))).slice
        (space.flashCell address - g.wordFloor (space.flashCell address)) bytes.length =
      flash.slice (space.flashCell address) bytes.length := by
    rw [Bytes.slice_slice (by omega), Nat.add_sub_cancel' hfloor]
  -- Nothing is to be done, the words are programmed in place, or the page is renewed.
  simp only [hcurrent, Action.yields_ite, Action.yields_pure]
  refine ⟨fun same => ?_, fun differs => ⟨fun clears => ?_, fun raises => ?_⟩⟩
  · rw [same, if_pos (Bytes.clearsTo_self bytes), if_pos rfl]
    exact worn₁
  · rw [if_pos clears, if_neg differs]
    exact programWords_wears worn₁ _ _
  · rw [if_neg raises, if_neg differs]
    exact renewPage_wears worn₁ pos page upper

/-- Writing pieces erases and programs the pages of each that it has to, and what is written of one
is not there to be written for another. -/
theorem writePieces_wears (u : g.Uniform) (t : space.Truthful) (hm : Stands .clear eeprom flash m)
    (worn : Media.Worn m₀ w m) {pieces : List Bytes}
    (near : pieces ≠ [] → space.boundary ≤ address)
    (pages : g.InPages (space.flashCell address) (pieces.map List.length))
    (fills : g.FillPages (space.flashCell address) (pieces.map List.length))
    (range : address + pieces.flatten.length ≤ space.total) :
    (writePieces (space.flashCell address) pieces).Yields m
      (fun _ => Media.Worn m₀
        (w + space.flashWear (space.imageOf eeprom flash) address pieces.flatten))
      (fun _ => True) := by
  -- The contents that a piece is compared with are those behind the pieces in front of it.
  induction pieces generalizing m address flash w with
  | nil => exact worn
  | cons piece pieces ih =>
    obtain ⟨pos, page, pages⟩ := pages
    obtain ⟨fill, fills⟩ := fills
    have near := near (List.cons_ne_nil _ _)
    have hcell : space.flashCell address + piece.length =
        space.flashCell (address + piece.length) := by
      unfold flashCell
      omega
    rw [hcell] at pages fills fill
    rw [List.flatten_cons] at range ⊢
    have fits := hm.2.eeprom ▸ hm.2.flash ▸ space.fits_contents t m
    have apart : space.Apart address piece pieces.flatten := by
      intro _ some
      have hpieces : pieces.map List.length ≠ [] := by
        rintro hnil
        exact some (by rw [List.map_eq_nil_iff.mp hnil]; rfl)
      exact .inr (by rw [fill hpieces, g.pageFloor_add_pageBytes])
    rw [flashWear_append (by rwa [fits.length_imageOf]) apart, ← Wear.add_assoc]
    rw [List.length_append] at range
    have hpiece : address + piece.length ≤ space.total := by omega
    have first := (writePiece_meets Outage.faultless u t hm pos page (space.start_le_flashCell _)
      (flashCell_add_le near hpiece)).and_yields (writePiece_wears u t hm worn pos near page hpiece)
    simp only [writePieces, Action.yields_bind]
    refine (first.yields fun _ _ _ => trivial).mono (fun _ m₁ h₁ => ?_) fun _ (_ : True) => trivial
    have rest := ih h₁.1 h₁.2 (fun _ => by omega) pages fills (by omega)
    rwa [fits.overlay_flash near (by omega), ← hcell] at rest

/-! ## The whole space -/

/-- Writing inside the range erases and programs the pages that it has to, and writes to the eeprom
once if it reaches there. -/
theorem write_wears (u : g.Uniform) (t : space.Truthful) (under : m.Under .clear)
    (range : address + bytes.length ≤ space.total) :
    (space.write address bytes).Yields m
      (fun _ => Media.Worn m (⟨0, 0, if address < space.boundary ∧ bytes ≠ [] then 1 else 0⟩ +
        space.flashWear (space.image m) address bytes))
      (fun _ => True) := by
  have hlen := space.length_image t m
  rw [write_eq, Action.yields_ite]
  refine ⟨fun hnil => ?_, fun hsome => ?_⟩
  · subst hnil
    rw [if_neg (by simp)]
    exact .refl under.untroubled
  have hnear : space.eepromPart address bytes.length =
      min (space.boundary - address) bytes.length := rfl
  have hpos := List.length_pos_iff.mpr hsome
  simp only [require_of_le range, pure_bind]
  generalize space.eepromPart address bytes.length = near at hnear ⊢
  have hfront : (bytes.take near).length = near := by rw [List.length_take]; omega
  have hrest : (bytes.drop near).length = bytes.length - near := List.length_drop
  have hflat := g.flatten_cut_pageParts (space.flashCell (address + near)) hrest
  have hpages := g.inPages_cut_pageParts (space.flashCell (address + near)) hrest
  have hfills := g.fillPages_cut_pageParts (space.flashCell (address + near)) hrest
  generalize Bytes.cut (g.pageParts (space.flashCell (address + near)) (bytes.length - near))
    (bytes.drop near) = behind at hflat hpages hfills ⊢
  rw [flashWear_drop near (by omega) (by omega) (by rwa [hlen])]
  -- The part in the flash is the same whether there was one in the eeprom or not.
  have back {m₁ : Media g} {eeprom' : Bytes} {writings : Nat}
      (h₁ : Stands .clear eeprom' m.flash.memory.toBytes m₁)
      (himage : space.imageOf eeprom' m.flash.memory.toBytes =
        (space.image m).overlay address (bytes.take near))
      (worn : Media.Worn m ⟨0, 0, writings⟩ m₁) :
      (writePieces (space.flashCell (address + near)) behind).Yields m₁
        (fun _ => Media.Worn m (⟨0, 0, writings⟩ + space.flashWear
          ((space.image m).overlay address (bytes.take near)) (address + near) (bytes.drop near)))
        (fun _ => True) := by
    have reaches (some : behind ≠ []) : space.boundary ≤ address + near := by
      obtain ⟨piece, rest, rfl⟩ := List.exists_cons_of_ne_nil some
      have hpiece : 0 < piece.length := hpages.1
      have hlength := congrArg List.length hflat
      rw [List.flatten_cons, List.length_append] at hlength
      omega
    have h := writePieces_wears u t h₁ worn reaches hpages hfills (by rw [hflat, hrest]; omega)
    rwa [hflat, himage] at h
  rw [Action.yields_ite]
  refine ⟨fun hfar => ?_, fun hzero => ?_⟩
  · rw [if_pos ⟨by omega, hsome⟩, Action.yields_bind]
    have fits := space.fits_contents t m
    have first := (writeEeprom_meets Outage.faultless ⟨under, rfl, rfl⟩ t.eepromBytes_lt
      (by rw [hfront, ← t.boundary_eq]; omega)).and_yields
        (writeEeprom_wears (.refl under.untroubled) address (bytes.take near))
    refine (first.yields fun _ _ _ => trivial).mono (fun _ m₁ h₁ => ?_) fun _ (_ : True) => trivial
    exact back h₁.1 (fits.overlay_eeprom (by omega)) h₁.2
  · obtain rfl : near = 0 := Decidable.not_not.mp hzero
    rw [if_neg (by omega)]
    exact back ⟨under, rfl, rfl⟩ (by rw [List.take_zero, Bytes.overlay_nil]; rfl)
      (.refl under.untroubled)

/-- A write inside the range erases each page in which some byte that is asked for has a bit set
that is not set there, programs each page in which some byte that is asked for is not there, and
writes to the eeprom once if it reaches there. Repeated at once, it neither programs nor erases. -/
theorem wear_of_write {start stop : UInt32}
    (made : Space.create g g.eepromBytes g.flashBytes start stop = .ok space) (u : g.Uniform)
    (faultless : m.Under .clear) {address : Nat} {bytes : Bytes}
    (range : address + bytes.length ≤ space.total) :
    ∃ m', space.write address bytes m = .ok () m' ∧
      m'.flash.erases =
        m.flash.erases + (space.pagesWhere Raises (space.image m) address bytes).card ∧
      m'.flash.writes =
        m.flash.writes + (space.pagesWhere (· ≠ ·) (space.image m) address bytes).card ∧
      m'.eeprom.writes =
        m.eeprom.writes + (if address < space.boundary ∧ bytes ≠ [] then 1 else 0) ∧
      ∃ m'', space.write address bytes m' = .ok () m'' ∧
        m''.flash.erases = m'.flash.erases ∧ m''.flash.writes = m'.flash.writes := by
  have t := truthful_of_create made
  have once {m : Media g} (under : m.Under .clear) :
      ∃ m', space.write address bytes m = .ok () m' ∧ m'.Under .clear ∧
        space.image m' = (space.image m).overlay address bytes ∧
        m'.wear = m.wear + (⟨0, 0, if address < space.boundary ∧ bytes ≠ [] then 1 else 0⟩ +
          space.flashWear (space.image m) address bytes) := by
    have exposes : space.Exposes .clear (space.around m) (space.image m) m := ⟨under, rfl, rfl⟩
    obtain ⟨_, m', hrun, hexposes, hworn⟩ := (((conduct_of_clear u t _).write exposes
      (Nat.zero_le _) range).and_yields (write_wears u t under range)).exists_ok
        fun _ _ h => not_halts h.1
    exact ⟨m', hrun, hexposes.under, hexposes.image, hworn.wear⟩
  obtain ⟨m', hrun, under, himage, hwear⟩ := once faultless
  obtain ⟨m'', hrun', -, -, hwear'⟩ := once under
  -- What has been written is there, so that the second time no page is one to be touched.
  have same : (space.image m').slice address bytes.length = bytes := by
    rw [himage]
    exact Bytes.slice_overlay (by rwa [space.length_image t])
  have untouched : space.flashWear (space.image m') address bytes = 0 := by
    rw [flashWear, pagesWhere_of_same (fun _ => not_raises_iff.mpr UInt8.and_self) same,
      pagesWhere_of_same (fun _ h => h rfl) same]
    rfl
  rw [untouched] at hwear'
  refine ⟨m', hrun, ?_, ?_, congrArg Wear.writings hwear, m'', hrun', congrArg Wear.erasings hwear',
    congrArg Wear.programmings hwear'⟩
  · exact (congrArg Wear.erasings hwear).trans (congrArg (m.flash.erases + ·) (Nat.zero_add _))
  · exact (congrArg Wear.programmings hwear).trans (congrArg (m.flash.writes + ·) (Nat.zero_add _))

/-- The eeprom and both pages of the flash. -/
def twoPages : Space Geometry.tiny :=
  { Space.tiny with
    start := 0
    start_mod := by decide
    start_le_stop := by decide
    total_lt := by decide }

/-- Six bytes reach from the eeprom over one page to another. In the first page bits are cleared
only, and in the second one, which holds zeros, a bit is set. -/
theorem wear_of_write_twoPages :
    ∃ m', twoPages.write 3 [9, 0xFF, 0x0F, 0xFF, 0xFF, 1] Media.zeroPage = .ok () m' ∧
      m'.flash.erases = 1 ∧ m'.flash.writes = 2 ∧ m'.eeprom.writes = 1 ∧
      ∃ m'', twoPages.write 3 [9, 0xFF, 0x0F, 0xFF, 0xFF, 1] m' = .ok () m'' ∧
        m''.flash.erases = 1 ∧ m''.flash.writes = 2 := by
  have made : Space.create .tiny 4 8 0 8 = .ok twoPages := rfl
  have faultless : Media.zeroPage.Under .clear := ⟨⟨rfl, rfl, by decide⟩, rfl⟩
  have range : 3 + ([9, 0xFF, 0x0F, 0xFF, 0xFF, 1] : Bytes).length ≤ twoPages.total := by decide
  obtain ⟨m', hrun, herases, hwrites, heeprom, m'', hrun', herases', hwrites'⟩ :=
    wear_of_write made Geometry.uniform_tiny faultless range
  have raised : (twoPages.pagesWhere Raises (twoPages.image Media.zeroPage) 3
      [9, 0xFF, 0x0F, 0xFF, 0xFF, 1]).card = 1 := by decide +kernel
  have changed : (twoPages.pagesWhere (· ≠ ·) (twoPages.image Media.zeroPage) 3
      [9, 0xFF, 0x0F, 0xFF, 0xFF, 1]).card = 2 := by decide +kernel
  rw [raised] at herases
  rw [changed] at hwrites
  exact ⟨m', hrun, herases, hwrites, heeprom, m'', hrun', herases'.trans herases,
    hwrites'.trans hwrites⟩

end Space

end CircularLog
