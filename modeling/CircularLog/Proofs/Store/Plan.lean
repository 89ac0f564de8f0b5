import CircularLog.Proofs.Store.Operations

/-!
# Which layouts are placed

A list of layouts is placed as a whole or not at all. Five things can be wrong with a layout where
it stands in the list (`Flaw`, `Space.Flawed`), and the error tells the first of them that the first
layout with any has (`Space.Refused`); that no layout has any comes down to six conditions on the
list (`Space.Admissible`, `Space.flawless_iff`).

Layouts without a flaw get their partitions whatever comes behind them
(`Space.planBehind_flawless`), so that both ends of the list are read off one equation: where
nothing comes behind them, the partitions tile the addresses from the base on (`Tile`); where a
layout with a flaw does, the plan ends with its error. All of this is settled before the first
driver call (`Store.placed_or_refused`).
-/

namespace CircularLog

/-! ## Layouts in a list -/

/-- Something holds of each layout behind those that stand in front of it. -/
def EachBehind (holds : List Layout → Layout → Prop) (layouts : List Layout) : Prop :=
  ∀ before layout behind, layouts = before ++ layout :: behind → holds before layout

section EachBehind

variable {holds : List Layout → Layout → Prop} {layouts : List Layout} {layout : Layout}

/-- Anything holds of each of no layouts. -/
theorem eachBehind_nil : EachBehind holds [] := by
  intro before layout behind split
  simp at split

/-- One more layout at the end stands behind all others, which stand where they stood. -/
theorem eachBehind_snoc :
    EachBehind holds (layouts ++ [layout]) ↔ EachBehind holds layouts ∧ holds layouts layout := by
  constructor
  · intro each
    refine ⟨fun before other behind split => ?_, each layouts layout [] rfl⟩
    exact each before other (behind ++ [layout]) (by simp [split])
  · rintro ⟨each, last⟩ before other behind split
    rcases List.eq_nil_or_concat behind with rfl | ⟨front, final, rfl⟩
    · obtain ⟨rfl, single⟩ := List.append_inj' split rfl
      rwa [← (List.cons.inj single).1]
    · rw [List.concat_eq_append, ← List.cons_append, ← List.append_assoc] at split
      exact each before other front (List.append_inj' split rfl).1

end EachBehind

namespace Layout

/-- The address behind some layouts, if they are placed one behind the other from an address on. -/
def reach (base : Nat) (layouts : List Layout) : Nat :=
  base + (layouts.map (·.sizeBytes.toNat)).sum

/-- No layouts reach no further than where they start. -/
@[simp] theorem reach_nil (base : Nat) : reach base [] = base := rfl

/-- One more layout reaches as much further as it is long. -/
@[simp] theorem reach_snoc (base : Nat) (layouts : List Layout) (layout : Layout) :
    reach base (layouts ++ [layout]) = reach base layouts + layout.sizeBytes.toNat := by
  simp [reach, Nat.add_assoc]

/-- The address belongs to the area of the layout, if it is placed behind the others. -/
def InArea (base : Nat) (before : List Layout) (layout : Layout) (address : Nat) : Prop :=
  reach base before + 4 + 12 * layout.maxItems.toNat ≤ address ∧
    address < reach base before + layout.sizeBytes.toNat

/-- The partition is one that the layout asks for. -/
structure Describes (layout : Layout) (p : Partition) : Prop where
  id : p.id = layout.id
  maxItems : p.maxItems = layout.maxItems.toNat
  stop : p.stop = p.base + layout.sizeBytes.toNat
  /-- If the size was computed for an area, that is how long the area is. -/
  area : ∀ length, requiredBytes layout.maxItems length = .ok layout.sizeBytes →
    p.areaLength = length.toNat

end Layout

/-! ## Flaws -/

/-- What can be wrong with a layout in a list. -/
inductive Flaw where
  /-- A layout in front of it has the same id. -/
  | duplicate
  /-- It ends behind the space. -/
  | misfit
  /-- It has no row, or no byte behind its rows. -/
  | cramped
  /-- Its area lies on both memories. -/
  | astride
  /-- As many layouts as there are slots stand in front of it. -/
  | surplus

namespace Flaw

/-- The place of a flaw in the order in which flaws are looked for. -/
def rank : Flaw → Nat
  | duplicate => 0
  | misfit => 1
  | cramped => 2
  | astride => 3
  | surplus => 4

/-- What a flaw is told as. -/
def error : Flaw → Error
  | duplicate => .invalidRange
  | misfit => .outOfRoom
  | cramped => .invalidRange
  | astride => .invalidRange
  | surplus => .outOfRoom

end Flaw

namespace Space

variable {g : Geometry} (space : Space g) (slots base : Nat)

/-- All addresses with some property lie on one memory. -/
def OnOneMedium (addresses : Nat → Prop) : Prop :=
  ∃ medium, ∀ address, addresses address → space.mediumOf address = medium

/-- The layout has this flaw where it stands, behind the others. -/
def Flawed (before : List Layout) (layout : Layout) : Flaw → Prop
  | .duplicate => ∃ other ∈ before, other.id = layout.id
  | .misfit => space.total < Layout.reach base before + layout.sizeBytes.toNat
  | .cramped =>
    layout.maxItems.toNat = 0 ∨ layout.sizeBytes.toNat ≤ 4 + 12 * layout.maxItems.toNat
  | .astride => ¬ space.OnOneMedium (layout.InArea base before)
  | .surplus => slots ≤ before.length

/-- The layout has this flaw, and none that is looked for earlier. -/
def FirstFlaw (before : List Layout) (layout : Layout) (flaw : Flaw) : Prop :=
  space.Flawed slots base before layout flaw ∧
    ∀ earlier : Flaw, earlier.rank < flaw.rank →
      ¬ space.Flawed slots base before layout earlier

/-- No layout has a flaw where it stands. -/
def Flawless (layouts : List Layout) : Prop :=
  EachBehind (fun before layout => ∀ flaw, ¬ space.Flawed slots base before layout flaw) layouts

/-- This is the first flaw of the first layout that has any. -/
def Refused (layouts : List Layout) (flaw : Flaw) : Prop :=
  ∃ before layout behind, layouts = before ++ layout :: behind ∧
    space.Flawless slots base before ∧ space.FirstFlaw slots base before layout flaw

/-- What a list of layouts must be like. -/
structure Admissible (layouts : List Layout) : Prop where
  ids : (layouts.map (·.id)).Nodup
  count : layouts.length ≤ slots
  rows : ∀ layout ∈ layouts, 1 ≤ layout.maxItems.toNat
  sizes : ∀ layout ∈ layouts, 4 + 12 * layout.maxItems.toNat < layout.sizeBytes.toNat
  room : layouts ≠ [] → Layout.reach base layouts ≤ space.total
  media : EachBehind (fun before layout => space.OnOneMedium (layout.InArea base before)) layouts

variable {space slots base} {layouts before : List Layout} {layout : Layout}

/-- An area lies on one memory if its first and its last byte do, as the memories are not mixed. -/
theorem onOneMedium_iff {first stop : Nat} (nonempty : first < stop) :
    space.OnOneMedium (fun address => first ≤ address ∧ address < stop) ↔
      space.mediumOf first = space.mediumOf (stop - 1) := by
  constructor
  · rintro ⟨medium, all⟩
    rw [all first (by omega), all (stop - 1) (by omega)]
  · intro same
    refine ⟨space.mediumOf first, fun address ⟨lower, upper⟩ => ?_⟩
    unfold mediumOf at same ⊢
    by_cases near : stop - 1 < space.boundary
    · rw [if_pos (by omega), if_pos (by omega)]
    · rw [if_neg near] at same
      have far : ¬ first < space.boundary := fun h => by simp [h] at same
      rw [if_neg far, if_neg (by omega)]

/-- One more layout keeps a list admissible exactly if it has no flaw. -/
theorem admissible_snoc :
    space.Admissible slots base (layouts ++ [layout]) ↔
      space.Admissible slots base layouts ∧
        ∀ flaw, ¬ space.Flawed slots base layouts layout flaw := by
  constructor
  · intro h
    have room := h.room (by simp)
    have count := h.count
    rw [Layout.reach_snoc] at room
    rw [List.length_append, List.length_singleton] at count
    obtain ⟨media, last⟩ := eachBehind_snoc.mp h.media
    have ids := h.ids
    rw [List.map_append, List.nodup_append] at ids
    refine ⟨⟨ids.1, by omega, fun other hother => h.rows other (by simp [hother]),
      fun other hother => h.sizes other (by simp [hother]), fun _ => by omega, media⟩, ?_⟩
    have rows := h.rows layout (by simp)
    have sizes := h.sizes layout (by simp)
    -- Each flaw denies one of the conditions.
    intro flaw flawed
    cases flaw with
    | duplicate =>
      obtain ⟨other, hother, same⟩ := flawed
      exact ids.2.2 other.id (List.mem_map_of_mem hother) layout.id (by simp) same
    | misfit => exact absurd flawed (Nat.not_lt.mpr room)
    | cramped =>
      simp only [Flawed] at flawed
      omega
    | astride => exact flawed last
    | surplus =>
      simp only [Flawed] at flawed
      omega
  · rintro ⟨h, sound⟩
    have cramped := sound .cramped
    have count := sound .surplus
    simp only [Flawed] at cramped count
    -- Each condition holds of the last layout, as it has not the flaw.
    refine ⟨?_, ?_, ?_, ?_, fun _ => ?_, eachBehind_snoc.mpr ⟨h.media, ?_⟩⟩
    · rw [List.map_append, List.nodup_append]
      refine ⟨h.ids, List.nodup_singleton _, fun id hid other hother same => ?_⟩
      obtain ⟨front, hfront, rfl⟩ := List.mem_map.mp hid
      rw [List.map_singleton, List.mem_singleton] at hother
      exact sound .duplicate ⟨front, hfront, same.trans hother⟩
    · rw [List.length_append, List.length_singleton]
      omega
    · exact List.forall_mem_append.mpr ⟨h.rows, List.forall_mem_singleton.mpr (by omega)⟩
    · exact List.forall_mem_append.mpr ⟨h.sizes, List.forall_mem_singleton.mpr (by omega)⟩
    · rw [Layout.reach_snoc]
      exact Nat.le_of_not_lt (sound .misfit)
    · exact Classical.not_not.mp (sound .astride)

/-- A list is admissible exactly if no layout in it has a flaw. -/
theorem flawless_iff : space.Flawless slots base layouts ↔ space.Admissible slots base layouts := by
  -- From the front to the end of the list, as a flaw depends on what stands in front of a layout.
  induction layouts using List.reverseRecOn with
  | nil =>
    refine ⟨fun _ => ⟨List.nodup_nil, Nat.zero_le _, nofun, nofun, absurd rfl, eachBehind_nil⟩, ?_⟩
    exact fun _ => eachBehind_nil
  | append_singleton layouts layout ih =>
      rw [Flawless, eachBehind_snoc, ← Flawless, ih, admissible_snoc]

/-- In a list with a flaw there is a first one. -/
theorem exists_refused (flawed : ¬ space.Flawless slots base layouts) :
    ∃ flaw, space.Refused slots base layouts flaw := by
  induction layouts using List.reverseRecOn with
  | nil => exact absurd eachBehind_nil flawed
  | append_singleton layouts layout ih =>
    by_cases sound : space.Flawless slots base layouts
    · rw [Flawless, eachBehind_snoc, not_and] at flawed
      obtain ⟨some, hsome⟩ := Classical.not_forall_not.mp (flawed sound)
      obtain ⟨flaw, hflaw, least⟩ :=
        (measure Flaw.rank).wf.has_min {f | space.Flawed slots base layouts layout f} ⟨some, hsome⟩
      exact ⟨flaw, layouts, layout, [], rfl, sound, hflaw, fun earlier hrank hearlier =>
        least earlier hearlier hrank⟩
    · obtain ⟨flaw, before, first, behind, rfl, h⟩ := ih sound
      exact ⟨flaw, before, first, behind ++ [layout], by simp, h⟩

end Space

/-! ## Partitions -/

/-- Stretches of addresses, each told by its first address and its length, that fill the addresses
from one to another: each has some address, and starts where the one in front of it ends. -/
def Tile : Nat → List (Nat × Nat) → Nat → Prop
  | start, [], stop => start = stop
  | start, (first, length) :: rest, stop => first = start ∧ 0 < length ∧
      Tile (first + length) rest stop

/-- Stretches that start where others end go on with them. -/
theorem Tile.append {start middle stop : Nat} {front back : List (Nat × Nat)}
    (h : Tile start front middle) (h' : Tile middle back stop) :
    Tile start (front ++ back) stop := by
  induction front generalizing start with
  | nil =>
    obtain rfl : start = middle := h
    exact h'
  | cons stretch front ih => exact ⟨h.1, h.2.1, ih h.2.2⟩

/-- What a partition consists of: its header, its table and its area. -/
def Partition.stretches (p : Partition) : List (Nat × Nat) :=
  [(p.base, headerBytes), (p.table, p.tableLength), (p.area, p.areaLength)]

/-- Header, table and area make up the partition. -/
theorem Partition.tile_stretches (p : Partition) : Tile p.base p.stretches p.stop :=
  ⟨rfl, by decide, rfl, Nat.mul_pos p.maxItems_pos (by decide), rfl, p.areaLength_pos, rfl⟩

/-- A size that was computed is the sum of its parts. -/
theorem Layout.toNat_of_requiredBytes {maxItems : UInt16} {length size : UInt32}
    (h : requiredBytes maxItems length = .ok size) :
    size.toNat = headerBytes + maxItems.toNat * rowBytes + length.toNat := by
  unfold requiredBytes at h
  dsimp only at h
  split at h
  · next small =>
    obtain rfl := Except.ok.inj h
    exact UInt32.toNat_ofNat_of_lt' small
  · cases h

/-- Partitions have the ids of the layouts that they are placed for. -/
theorem Layout.map_id_of_describes {layouts : List Layout} {parts : List Partition}
    (describe : List.Forall₂ Describes layouts parts) : parts.map (·.id) = layouts.map (·.id) := by
  induction describe with
  | nil => rfl
  | cons describes _ ih => rw [List.map_cons, List.map_cons, describes.id, ih]

/-- A layout with rows and an area behind them is placed where it ends at a machine word. -/
theorem Layout.exists_place {layout : Layout} {base : Nat} (rows : layout.maxItems.toNat ≠ 0)
    (size : headerBytes + layout.maxItems.toNat * rowBytes < layout.sizeBytes.toNat)
    (stop : base + layout.sizeBytes.toNat < 0x1_0000_0000) :
    ∃ p, layout.place base = .ok p ∧ p.base = base ∧ layout.Describes p := by
  unfold place
  rw [dif_neg rows, dif_neg (Nat.not_le.mpr size), dif_neg (Nat.not_le.mpr stop)]
  refine ⟨_, rfl, rfl, rfl, rfl, ?_, fun length computed => ?_⟩
  · simp only [Partition.stop, Partition.area, Partition.table, Partition.tableLength]
    omega
  · have sum := toNat_of_requiredBytes computed
    simp only
    omega

namespace Space

variable {g : Geometry} {space : Space g} {slots base : Nat} {before layouts : List Layout}
  {layout : Layout} {placed : List Partition}

/-- The area that a layout is given is the one whose medium is looked at. -/
theorem onOneMedium_area {p : Partition} (hbase : p.base = Layout.reach base before)
    (describes : layout.Describes p) :
    space.OnOneMedium (layout.InArea base before) ↔
      space.mediumOf p.area = space.mediumOf (p.stop - 1) := by
  have area : p.area = Layout.reach base before + 4 + 12 * layout.maxItems.toNat := by
    simp only [Partition.area, Partition.table, Partition.tableLength, headerBytes, rowBytes, hbase,
      describes.maxItems]
    omega
  have nonempty : p.area < p.stop := Nat.lt_add_of_pos_right p.areaLength_pos
  rw [← onOneMedium_iff nonempty, area, describes.stop, hbase]
  rfl

section Step

variable (ids : placed.map (·.id) = before.map (·.id))
include ids

/-- An id is taken if a layout in front has it. -/
theorem any_placed : placed.any (·.id == layout.id) = true ↔
    space.Flawed slots base before layout .duplicate := by
  have same : placed.any (·.id == layout.id) = before.any (·.id == layout.id) := by
    have h := congrArg (·.any (· == layout.id)) ids
    simpa only [List.any_map, Function.comp_def] using h
  rw [same, List.any_eq_true]
  simp only [beq_iff_eq, Flawed]

/-- A layout without a flaw is placed, and then those behind it are. -/
theorem planBehind_sound (sound : ∀ flaw, ¬ space.Flawed slots base before layout flaw) :
    ∃ p, layout.Describes p ∧ p.base = Layout.reach base before ∧ ∀ behind,
      space.planBehind slots placed (Layout.reach base before) (layout :: behind) =
        (space.planBehind slots (placed ++ [p]) (Layout.reach base (before ++ [layout])) behind).map
          (p :: ·) := by
  have count : placed.length = before.length := by simpa using congrArg List.length ids
  have misfit := sound .misfit
  have cramped := sound .cramped
  have surplus := sound .surplus
  have htotal : space.total < 0x1_0000_0000 := space.total_lt
  simp only [Flawed, not_or, Nat.not_le] at misfit cramped surplus
  obtain ⟨p, hp, hbase, describes⟩ := layout.exists_place cramped.1
    (by simp only [headerBytes, rowBytes]; omega)
    (by omega : Layout.reach base before + layout.sizeBytes.toNat < 0x1_0000_0000)
  have media := (onOneMedium_area hbase describes).mp (Classical.not_not.mp (sound .astride))
  refine ⟨p, describes, hbase, fun behind => ?_⟩
  rw [planBehind_eq, if_neg ((any_placed ids).not.mpr (sound .duplicate)), if_neg misfit, hp]
  dsimp only
  rw [if_neg (not_not.mpr media), if_neg (by omega), Layout.reach_snoc]

/-- The first flaw of a layout decides the error. -/
theorem planBehind_flawed {flaw : Flaw} (first : space.FirstFlaw slots base before layout flaw)
    (behind : List Layout) :
    space.planBehind slots placed (Layout.reach base before) (layout :: behind) =
      .error (.error flaw.error) := by
  have count : placed.length = before.length := by simpa using congrArg List.length ids
  obtain ⟨flawed, earlier⟩ := first
  -- The checks are gone through in the order of the flaws, up to the one that fails.
  have distinct (h : Flaw.duplicate.rank < flaw.rank) : ¬ placed.any (·.id == layout.id) = true :=
    (any_placed ids).not.mpr (earlier .duplicate h)
  have fits (h : Flaw.misfit.rank < flaw.rank) :
      ¬ space.total < Layout.reach base before + layout.sizeBytes.toNat := earlier .misfit h
  have places (h : Flaw.cramped.rank < flaw.rank) :
      ∃ p, layout.place (Layout.reach base before) = .ok p ∧ p.base = Layout.reach base before ∧
        layout.Describes p := by
    have cramped := earlier .cramped h
    have hfits := fits (Nat.lt_trans (by decide) h)
    have htotal : space.total < 0x1_0000_0000 := space.total_lt
    simp only [Flawed, not_or, Nat.not_le] at cramped
    exact layout.exists_place cramped.1 (by simp only [headerBytes, rowBytes]; omega) (by omega)
  rw [planBehind_eq]
  cases flaw with
  | duplicate => rw [if_pos ((any_placed ids).mpr flawed), Flaw.error]
  | misfit =>
    have beyond : space.total < Layout.reach base before + layout.sizeBytes.toNat := flawed
    rw [if_neg (distinct (by decide)), if_pos beyond, Flaw.error]
  | cramped =>
    have refused : layout.place (Layout.reach base before) = .error (.error .invalidRange) := by
      simp only [Flawed] at flawed
      unfold Layout.place
      by_cases rows : layout.maxItems.toNat = 0
      · rw [dif_pos rows]
      · rw [dif_neg rows, dif_pos (by simp only [headerBytes, rowBytes]; omega)]
    rw [if_neg (distinct (by decide)), if_neg (fits (by decide)), refused, Flaw.error]
  | astride =>
    obtain ⟨p, hp, hbase, describes⟩ := places (by decide)
    have media := (onOneMedium_area hbase describes).not.mp flawed
    rw [if_neg (distinct (by decide)), if_neg (fits (by decide)), hp]
    dsimp only
    rw [if_pos media, Flaw.error]
  | surplus =>
    obtain ⟨p, hp, hbase, describes⟩ := places (by decide)
    have media := (onOneMedium_area hbase describes).mp
      (Classical.not_not.mp (earlier .astride (by decide)))
    have full : slots ≤ before.length := flawed
    rw [if_neg (distinct (by decide)), if_neg (fits (by decide)), hp]
    dsimp only
    rw [if_neg (not_not.mpr media), if_pos (by omega), Flaw.error]

end Step

/-- Layouts without a flaw are placed whatever comes behind them, and their partitions tile the
addresses up to where that starts. -/
theorem planBehind_flawless {front : List Layout} (placed : List Partition) (before : List Layout)
    (ids : placed.map (·.id) = before.map (·.id))
    (sound : space.Flawless slots base (before ++ front)) :
    ∃ parts, List.Forall₂ Layout.Describes front parts ∧
      Tile (Layout.reach base before) (parts.flatMap Partition.stretches)
        (Layout.reach base (before ++ front)) ∧
      ∀ behind, space.planBehind slots placed (Layout.reach base before) (front ++ behind) =
        (space.planBehind slots (placed ++ parts) (Layout.reach base (before ++ front)) behind).map
          (parts ++ ·) := by
  induction front generalizing before placed with
  | nil =>
    refine ⟨[], .nil, by simp [Tile], fun behind => ?_⟩
    cases h : space.planBehind slots placed (Layout.reach base before) behind
      <;> simp [h, Except.map]
  | cons layout front ih =>
    obtain ⟨p, describes, hbase, step⟩ :=
      planBehind_sound ids fun flaw => sound before layout front rfl flaw
    rw [List.append_cons] at sound ⊢
    obtain ⟨parts, rest, tile, plan⟩ := ih (placed ++ [p]) _
      (by rw [List.map_append, List.map_append, ids, List.map_singleton, List.map_singleton,
        describes.id]) sound
    refine ⟨p :: parts, .cons describes rest, ?_, fun behind => ?_⟩
    · have stop : p.stop = Layout.reach base (before ++ [layout]) := by
        rw [Layout.reach_snoc, describes.stop, hbase]
      rw [List.flatMap_cons]
      exact (hbase ▸ p.tile_stretches).append (stop ▸ tile)
    · rw [List.cons_append, step, plan, ← List.append_cons]
      cases space.planBehind slots _ _ behind <;> rfl

/-- Layouts without a flaw have a plan, and its partitions tile the addresses from the base on. -/
theorem exists_plan (admissible : space.Admissible slots base layouts) :
    ∃ parts, space.plan slots base layouts = .ok parts ∧
      List.Forall₂ Layout.Describes layouts parts ∧
      Tile base (parts.flatMap Partition.stretches) (Layout.reach base layouts) := by
  obtain ⟨parts, describe, tile, plan⟩ := planBehind_flawless [] [] rfl
    (flawless_iff.mpr admissible)
  refine ⟨parts, ?_, describe, tile⟩
  simpa [Space.plan, planBehind, Except.map] using plan []

/-- The first flaw of the first layout with any is the error of the plan. -/
theorem plan_of_refused {flaw : Flaw} (refused : space.Refused slots base layouts flaw) :
    space.plan slots base layouts = .error (.error flaw.error) := by
  obtain ⟨before, layout, behind, rfl, sound, first⟩ := refused
  obtain ⟨parts, describe, -, plan⟩ := planBehind_flawless [] [] rfl sound
  rw [Space.plan, ← Layout.reach_nil base, plan, List.nil_append, List.nil_append,
    planBehind_flawed (Layout.map_id_of_describes describe) first, Except.map]

end Space

/-! ## Mounting -/

namespace Store

variable {g : Geometry} {space : Space g} {slots base : Nat} {layouts : List Layout}
  {parts : List Partition} {store : Store g} {m : Media g}

/-- Mounting gives one volume for each partition. -/
theorem mountEach_partitions (space : Space g) (parts : List Partition) (m : Media g) :
    (mountEach space parts).Yields m (fun volumes _ => volumes.map (·.partition) = parts)
      fun _ => True := by
  induction parts generalizing m with
  | nil => exact rfl
  | cons p rest ih =>
    unfold mountEach
    simp only [Action.yields_bind, Action.yields_pure]
    refine Action.yields_of_forall _ _ (fun _ m₁ => ?_) fun _ => trivial
    refine Action.yields_of_forall _ _ (fun _ m₂ => ?_) fun _ => trivial
    exact (ih m₂).mono (fun volumes _ h => by rw [List.map_cons, h]) fun _ h => h

/-- A mounted store has the partitions that were placed. -/
theorem partitions_of_mount (planned : space.plan slots base layouts = .ok parts)
    (mounts : mount space slots base layouts m = .ok store) :
    store.volumes.map (·.partition) = parts := by
  have h := mountEach_partitions space parts m
  obtain ⟨volumes, m', hrun, rfl⟩ := eq_of_mount planned mounts
  unfold Action.Yields at h
  rw [hrun] at h
  exact h

/-- Each partition that was placed can be asked for. -/
theorem partition_of_mount (planned : space.plan slots base layouts = .ok parts)
    (mounts : mount space slots base layouts m = .ok store) {p : Partition} (hp : p ∈ parts) :
    store.partition p.id = .ok p := by
  have found : (Volume.lookup p.id store.volumes).map (·.partition) = some p := by
    rw [← (laid_of_plan planned).find?_eq hp, ← partitions_of_mount planned mounts, List.find?_map]
    rfl
  obtain ⟨volume, hvolume, rfl⟩ := Option.map_eq_some_iff.mp found
  unfold Store.partition Store.volume
  rw [hvolume]
  rfl

/-- Layouts are placed if and only if they are admissible. Then their partitions are what each asks
for, tile the addresses from the base on in the order of the list, and are all that mounting goes on
with. If not, the first flaw of the first layout with any is the answer, and the memories, with the
calls that were made on them, are as they were. -/
theorem placed_or_refused (space : Space g) (slots base : Nat) (layouts : List Layout) :
    ((∃ parts, space.plan slots base layouts = .ok parts) ↔ space.Admissible slots base layouts) ∧
    (space.Admissible slots base layouts →
      ∃ parts, List.Forall₂ Layout.Describes layouts parts ∧
        Tile base (parts.flatMap Partition.stretches) (Layout.reach base layouts) ∧
        ∀ m : Media g,
          (mount space slots base layouts m =
            match mountEach space parts m with
            | .ok volumes m' => .ok ⟨space, m', volumes, false⟩
            | .error stop m' => .error (stop, m')) ∧
          ∀ store, mount space slots base layouts m = .ok store →
            store.volumes.map (·.partition) = parts ∧
              ∀ p ∈ parts, store.partition p.id = .ok p) ∧
    (¬ space.Admissible slots base layouts →
      ∃ flaw, space.Refused slots base layouts flaw) ∧
    ∀ flaw, space.Refused slots base layouts flaw →
      ∀ m : Media g, mount space slots base layouts m = .error (.error flaw.error, m) := by
  refine ⟨⟨?_, ?_⟩, ?_, ?_, ?_⟩
  · rintro ⟨parts, planned⟩
    refine Classical.byContradiction fun inadmissible => ?_
    obtain ⟨flaw, refused⟩ := Space.exists_refused (Space.flawless_iff.not.mpr inadmissible)
    rw [Space.plan_of_refused refused] at planned
    cases planned
  · intro admissible
    obtain ⟨parts, planned, -⟩ := Space.exists_plan admissible
    exact ⟨parts, planned⟩
  · intro admissible
    obtain ⟨parts, planned, describe, tile⟩ := Space.exists_plan admissible
    refine ⟨parts, describe, tile, fun m => ⟨mount_of_plan planned m, fun store mounts => ?_⟩⟩
    exact ⟨partitions_of_mount planned mounts, fun p hp => partition_of_mount planned mounts hp⟩
  · exact fun inadmissible => Space.exists_refused (Space.flawless_iff.not.mpr inadmissible)
  · exact fun flaw refused m => mount_of_refused (Space.plan_of_refused refused) m

end Store

end CircularLog
