import CircularLog.Proofs.Partition.Recovery
import CircularLog.Proofs.Space.Fading

/-!
# Setting up can stop anywhere

A partition is `Vacant` if a header, should there be one, stands before an erased table. A header
has no erased byte, so no fading makes one (`header_of_faded`), and an erased table stays erased
however it fades: so a write outside of a vacant partition leaves it vacant, even if it takes the
header or the table with it. When the partition itself is set up, there is no header while the table
is erased, and the table is whole when the header is written: wherever this stops, it is still
vacant (`ensureFormatted_vacates`).
-/

namespace CircularLog

variable {g : Geometry} {space : Space g} {m : Media g} {image : Bytes}

open Space (Lasting)

namespace Partition

variable {p q : Partition}

/-- If the header stands, the table is erased. -/
def Vacant (p : Partition) (image : Bytes) : Prop :=
  image.slice p.base headerBytes = magic → p.Wiped image

/-- Nothing becomes a header by fading. -/
theorem header_of_faded {image' : Bytes} {address length : Nat}
    (faded : image.Faded address length image')
    (apart : p.table ≤ address ∨ address + length ≤ p.base)
    (header : image'.slice p.base headerBytes = magic) :
    image.slice p.base headerBytes = magic := by
  have htable : p.table = p.base + headerBytes := rfl
  have hbytes : (0xFF : UInt8) ∉ magic := by decide
  refine List.ext_getElem? fun i => ?_
  have hbyte := congrArg (·[i]?) header
  simp only [Bytes.getElem?_slice] at hbyte ⊢
  rw [← hbyte]
  split
  · next hi =>
    rw [if_pos hi] at hbyte
    refine (faded (p.base + i) (by omega)).elim Eq.symm fun herased => ?_
    exact absurd (List.mem_of_getElem? (hbyte.symm.trans herased)) hbytes
  · rfl

/-- Without a header, a partition stays so. -/
theorem lasting_headless {upper : Nat} :
    Lasting p.table upper fun image => image.slice p.base headerBytes ≠ magic :=
  fun _ _ _ _ _ lower _ faded headless header =>
    headless (header_of_faded faded (.inl lower) header)

/-- An erased table stays erased. -/
theorem lasting_wiped {lower : Nat} : Lasting lower p.table p.Wiped := by
  intro image image' address length _ _ upper faded wiped i hi hi'
  exact (faded i (by omega)).elim (fun same => same.trans (wiped i hi hi')) fun h => h

/-- A partition stays vacant, whatever is written into another. -/
theorem lasting_vacant (apart : p.stop ≤ q.base ∨ q.stop ≤ p.base) :
    Lasting p.base p.stop q.Vacant := by
  intro image image' address length _ lower upper faded vacant header
  have hparts := q.parts
  have wiped := vacant (header_of_faded faded (by omega) header)
  intro i hi hi'
  exact (faded i (by omega)).elim (fun same => same.trans (wiped i hi hi')) fun h => h

variable (u : g.Uniform) (t : space.Truthful)
include u t

/-- Setting a vacant partition up puts its header before an erased table, or stops and leaves it
vacant. What lasts is kept. -/
theorem ensureFormatted_vacates (fits : p.stop ≤ space.total) {good : Bytes → Prop}
    (lasting : Lasting p.base p.stop good) (hm : space.Displays image m) (hgood : good image)
    (vacant : p.Vacant image) :
    (p.ensureFormatted space).Yields m
      (fun _ => space.Shown fun image' => good image' ∧ p.Wiped image' ∧
        image'.slice p.base headerBytes = magic)
      (space.Shown fun image' => good image' ∧ p.Vacant image') := by
  have hparts := p.parts
  have hmagic : magic.length = headerBytes := Bytes.length_ofNat _ _
  rw [ensureFormatted, Action.yields_bind]
  refine (((Space.legible_displays u t).read hm (Nat.zero_le _) (by omega)).yields
    fun _ _ => Space.displays_of_halts).mono ?_ fun m' h => ⟨image, h, hgood, vacant⟩
  rintro _ m₁ ⟨h₁, rfl⟩
  rw [Action.yields_ite]
  refine ⟨fun header => ⟨image, h₁, hgood, vacant header, header⟩, fun headless => ?_⟩
  -- There is no header while the table is erased.
  have erasing : Lasting p.table p.area fun image => good image ∧
      image.slice p.base headerBytes ≠ magic :=
    (lasting.within (by omega) (by omega)).and lasting_headless
  rw [Action.yields_bind]
  refine (Space.fill_lasting u t (by omega) erasing h₁ ⟨hgood, headless⟩ 0xFF (Nat.le_refl _)
    (Nat.le_refl _)).mono ?_ fun m' h => ?_
  · rintro _ m₂ ⟨image₂, h₂, ⟨hgood₂, -⟩, hfilled⟩
    have hlen₂ : image₂.length = space.total := h₂.image ▸ space.length_image t m₂
    -- The table is whole when the header is written.
    have titling : Lasting p.base p.table fun image => good image ∧ p.Wiped image :=
      (lasting.within (Nat.le_refl _) (by omega)).and lasting_wiped
    refine (Space.write_lasting u t (by omega) titling h₂ ⟨hgood₂, hfilled⟩ (Nat.le_refl _)
      (by omega)).mono ?_ ?_
    · rintro _ m₃ ⟨h₃, hgood₃, hwiped₃⟩
      refine ⟨_, h₃, hgood₃, hwiped₃, ?_⟩
      rw [← hmagic]
      exact Bytes.slice_overlay (by omega)
    · rintro m₃ ⟨image₃, h₃, hgood₃, hwiped₃⟩
      exact ⟨image₃, h₃, hgood₃, fun _ => hwiped₃⟩
  · obtain ⟨image', h', hgood', headless'⟩ := h
    exact ⟨image', h', hgood', fun header => absurd header headless'⟩

/-- Recovery of an erased table changes nothing, wherever it stops. -/
theorem recover_wiped (fits : p.stop ≤ space.total) (hm : space.Displays image m)
    (wiped : p.Wiped image) (header : image.slice p.base headerBytes = magic) (status : Status) :
    ((p.recover space).startingFrom status).Yields m (fun _ => space.Displays image)
      (space.Displays image) := by
  have legible := (Space.legible_displays u t).within (Nat.zero_le p.table) fits
  have ends := p.recover_ends legible (wiped.holds header) hm status
  have started : ((p.recover space).startingFrom status).Ends m (fun _ => space.Displays image)
      (Space.Halts (.displaying space) (· = image)) :=
    (Action.ends_startingFrom _ _).mpr (ends.mono (fun _ _ h => h.1) fun _ _ h => h)
  exact started.yields fun _ _ => Space.displays_of_halts

end Partition

end CircularLog
