import CircularLog.Proofs.Partition.Format
import CircularLog.Proofs.Store.Discipline

/-!
# Mounting for the first time can stop anywhere

Memories in which no partition has a header may be mounted again and again, each attempt cut off by
whatever becomes of the driver calls: as long as no reading lies, no attempt leaves a header before
a table that is not erased (`Attempted.vacant`), nor is there one behind any call of it
(`vacant_behind`), as what is there behind a call is what another attempt leaves that is cut off
there. So when the faults are over, mounting finds every partition empty (`formatted_of_attempts`).
-/

namespace CircularLog

namespace Store

variable {g : Geometry} {space : Space g} {parts : List Partition} {slots base : Nat}
  {layouts : List Layout} {m m' : Media g}

open CircularLog.Action (Keeps)

/-! ## One attempt -/

/-- What mounting does with the memories. -/
def mounting (space : Space g) (slots base : Nat) (layouts : List Layout) :
    Action Error (Media g) (List Volume) := do
  mountEach space (← Action.ofStop (space.plan slots base layouts))

/-- The memories behind an attempt to mount, however it ends. -/
theorem media_started (space : Space g) (slots base : Nat) (layouts : List Layout) (m : Media g) :
    (Host.started space slots base layouts m).media =
      (mounting space slots base layouts).leaves m := by
  unfold Host.started mount Action.leaves mounting
  cases hrun : (do mountEach space (← Action.ofStop (space.plan slots base layouts)) :
    Action Error (Media g) (List Volume)) m <;> rfl

/-- Mounting is a dialogue with the driver. -/
theorem driven_mounting (space : Space g) (slots base : Nat) (layouts : List Layout) :
    Driven Call.Any (mounting space slots base layouts) := by
  refine (driven_ofStop _).bind fun parts => ?_
  induction parts with
  | nil => exact driven_pure _
  | cons p rest ih =>
    exact (p.driven_ensureFormatted space).bind fun _ =>
      ((p.driven_recover space).startingFrom _).bind fun _ => ih.bind fun _ => driven_pure _

/-- Mounting keeps the partitions vacant, wherever it stops. -/
theorem keeps_mountEach (u : g.Uniform) (t : space.Truthful) (laid : Laid space parts)
    {rest : List Partition} (sub : ∀ p ∈ rest, p ∈ parts) :
    Keeps (space.Shown fun image => ∀ p ∈ parts, p.Vacant image) (mountEach space rest) := by
  induction rest with
  | nil => exact Action.keeps_pure _
  | cons p rest ih =>
    obtain ⟨hp, hrest⟩ := List.forall_mem_cons.mp sub
    have fits := laid.inside p hp
    -- Setting up this partition leaves the others vacant, however the bytes around it fade.
    have others : Space.Lasting p.base p.stop fun image => ∀ q ∈ parts, q ≠ p → q.Vacant image :=
      fun _ _ _ _ len lower upper faded h q hq hne =>
        Partition.lasting_vacant (laid.apart_of_ne hp hq (Ne.symm hne)).bytes len lower upper faded
          (h q hq hne)
    have whole {image : Bytes} (h : ∀ q ∈ parts, q ≠ p → q.Vacant image)
        (hvacant : p.Vacant image) : ∀ q ∈ parts, q.Vacant image := by
      intro q hq
      by_cases heq : q = p
      · exact heq ▸ hvacant
      · exact h q hq heq
    rintro m ⟨image, hm, vacant⟩
    simp only [mountEach, Action.yields_bind, Action.yields_pure]
    refine (Partition.ensureFormatted_vacates u t fits others hm (fun q hq _ => vacant q hq)
      (vacant p hp)).mono ?_ ?_
    · rintro _ m₁ ⟨image₁, h₁, vacant₁, wiped, header⟩
      have shown {m' : Media g} (h : space.Displays image₁ m') :
          space.Shown (fun image => ∀ p ∈ parts, p.Vacant image) m' :=
        ⟨image₁, h, whole vacant₁ fun _ => wiped⟩
      refine (Partition.recover_wiped u t fits h₁ wiped header Status.empty).mono ?_ fun _ => shown
      intro _ m₂ h₂
      exact (ih hrest m₂ (shown h₂)).mono (fun _ _ h => h) fun _ h => h
    · rintro m₁ ⟨image₁, h₁, vacant₁, hvacant⟩
      exact ⟨image₁, h₁, whole vacant₁ hvacant⟩

/-- Every partition is vacant. -/
def AllVacant (space : Space g) (parts : List Partition) (m : Media g) : Prop :=
  ∀ p ∈ parts, p.Vacant (space.image m)

/-- An attempt leaves the partitions vacant. -/
theorem vacant_mounting (u : g.Uniform) (t : space.Truthful)
    (planned : space.plan slots base layouts = .ok parts) (honest : m.Honest)
    (vacant : AllVacant space parts m) :
    AllVacant space parts ((mounting space slots base layouts).leaves m) := by
  have keeps := keeps_mountEach u t (laid_of_plan planned) fun _ h => h
  have same : mounting space slots base layouts = mountEach space parts := by
    rw [mounting, planned]
    rfl
  obtain ⟨image, displays, h⟩ := keeps.leaves ⟨_, ⟨honest, rfl⟩, vacant⟩
  rw [same, AllVacant, displays.image]
  exact h

/-- Behind each call of an attempt, the partitions are vacant. -/
theorem vacant_behind (u : g.Uniform) (t : space.Truthful)
    (planned : space.plan slots base layouts = .ok parts) (honest : m.Honest)
    (vacant : AllVacant space parts m) {d : Dialogue g Error (List Volume)}
    (runs : d.run = mounting space slots base layouts) (calls : Nat) :
    AllVacant space parts (d.behind calls m) := by
  obtain ⟨plan, hplan, alike⟩ := d.exists_cut calls honest
  have cut := vacant_mounting (m := { m with faults := plan }) u t planned hplan vacant
  rw [← runs] at cut
  have same : space.image (d.behind calls m) =
      space.image (d.run.leaves { m with faults := plan }) := by
    rw [Space.image, Space.image, alike.eeprom, alike.flash]
  unfold AllVacant at cut ⊢
  rwa [same]

/-! ## Many attempts -/

/-- The memories that any number of attempts to mount leave, one after the other, each under another
plan in which no reading lies. -/
inductive Attempted (space : Space g) (slots base : Nat) (layouts : List Layout) (m : Media g) :
    Media g → Prop
  | none : Attempted space slots base layouts m m
  | again {m' : Media g} {plan : List Fault} (timeouts busyPolls : Nat) (stuck : Option Nat)
      (honest : ∀ fault ∈ plan, fault.Honest) (before : Attempted space slots base layouts m m') :
      Attempted space slots base layouts m
        (Host.started space slots base layouts (m'.failing plan timeouts busyPolls stuck)).media

/-- Attempts leave the partitions vacant. -/
theorem Attempted.vacant (u : g.Uniform) (t : space.Truthful)
    (planned : space.plan slots base layouts = .ok parts)
    (attempted : Attempted space slots base layouts m m') (vacant : AllVacant space parts m) :
    AllVacant space parts m' := by
  induction attempted with
  | none => exact vacant
  | again timeouts busyPolls stuck honest _ ih =>
    rw [media_started]
    exact vacant_mounting u t planned honest ih

/-- Where the partitions are vacant, mounting without faults finds them empty. -/
theorem mount_vacant (u : g.Uniform) (t : space.Truthful)
    (planned : space.plan slots base layouts = .ok parts) (faultless : m.Under .clear)
    (vacant : AllVacant space parts m) :
    ∃ store, mount space slots base layouts m = .ok store ∧
      ∀ p ∈ parts, store.status p.id = .ok Status.empty ∧ store.Finds p [] := by
  have c := Space.conduct_of_clear u t (space.around m)
  have laid := laid_of_plan planned
  have boots : ∀ p ∈ parts, p.Boots (space.image m) Log.empty := by
    intro p hp
    by_cases header : (space.image m).slice p.base headerBytes = Partition.magic
    · exact .inl ((vacant p hp header).holds header)
    · exact .inr ⟨header, rfl⟩
  obtain ⟨store, hmount, hsound⟩ :=
    mount_ok (fun _ => Log.empty) c planned ⟨faultless, rfl, rfl⟩ boots
  exact ⟨store, hmount, fun p hp =>
    ⟨status_of_lookup (hsound.known laid hp), hsound.finds c laid hp⟩⟩

/-- Of memories in which no partition has a header, whatever they hold otherwise, any number of
attempts to mount a store can be cut off by faults that let no reading lie. When the faults are
over, mounting ends with a store in which every partition is empty. And behind each call of each
attempt, no row of a partition holds an item whose header stands. -/
theorem formatted_of_attempts {start stop : UInt32}
    (made : Space.create g g.eepromBytes g.flashBytes start stop = .ok space) (u : g.Uniform)
    (planned : space.plan slots base layouts = .ok parts)
    (blank : ∀ p ∈ parts, (space.image m).slice p.base headerBytes ≠ Partition.magic)
    (attempted : Attempted space slots base layouts m m') :
    (∀ busyPolls, busyPolls < pollLimit →
      ∃ store, mount space slots base layouts (m'.failing [] 0 busyPolls none) = .ok store ∧
        ∀ p ∈ parts, store.status p.id = .ok Status.empty ∧ store.Finds p []) ∧
    (∃ d : Dialogue g Error (List Volume), d.run = mounting space slots base layouts) ∧
    ∀ d : Dialogue g Error (List Volume), d.run = mounting space slots base layouts →
      ∀ (plan : List Fault) (timeouts busyPolls : Nat) (stuck : Option Nat),
        (∀ fault ∈ plan, fault.Honest) → ∀ calls, ∀ p ∈ parts,
          let image := space.image (d.behind calls (m'.failing plan timeouts busyPolls stuck))
          image.slice p.base headerBytes = Partition.magic →
            ∀ row, row < p.maxItems → p.rowAt image row = none := by
  have t := Space.truthful_of_create made
  have vacant : AllVacant space parts m' :=
    attempted.vacant u t planned fun p hp header => absurd header (blank p hp)
  refine ⟨fun busyPolls few => ?_, ?_, ?_⟩
  · exact mount_vacant u t planned ⟨⟨rfl, rfl, few⟩, rfl⟩ vacant
  · obtain ⟨d, runs, -⟩ := driven_mounting space slots base layouts
    exact ⟨d, runs⟩
  · intro d runs plan timeouts busyPolls stuck honest calls p hp image header row hrow
    have h := vacant_behind (m := m'.failing plan timeouts busyPolls stuck) u t planned honest
      vacant runs calls p hp header
    exact h.rowAt_eq hrow

end Store

/-! ## A small example -/

/-- Memories all of whose bits are clear. -/
def Media.zeroed : Media Geometry.small :=
  { Media.fresh .small with
    eeprom := (Eeprom.fresh _).poke 0 (List.replicate 16 0)
    flash := (Flash.fresh _).poke 0 (List.replicate 12 0) }

/-- A partition whose table lies on both memories. -/
def Partition.astride : Partition :=
  { Partition.small with
    base := 2, areaLength := 10, areaLength_pos := by decide, stop_lt := by decide }

/-- In a first attempt the flash cannot be programmed behind an erasing, and in a second one the
header is cut off. -/
theorem Store.formatted_of_attempts_astride :
    ∃ m : Media .small, Attempted Space.small 1 2 [⟨7, 26, 1⟩] Media.zeroed m ∧
      (Space.small.image m).slice 2 18 = [1, 80, 0, 0] ++ List.replicate 14 0xFF ∧
      ∃ store, mount Space.small 1 2 [⟨7, 26, 1⟩] (m.failing [] 0 2 none) = .ok store ∧
        store.status 7 = .ok Status.empty ∧ store.Finds Partition.astride [] := by
  have planned : Space.small.plan 1 2 [⟨7, 26, 1⟩] = .ok [Partition.astride] := rfl
  have blank : ∀ p ∈ [Partition.astride], (Space.small.image Media.zeroed).slice p.base
      headerBytes ≠ Partition.magic := by decide
  let unprogrammed : List Fault := [⟨[(.flash, .write)], 0, none, ⟨0, some .other, [], false⟩⟩]
  let unwritten : List Fault := [⟨[(.eeprom, .write)], 1, none, ⟨2, some .other, [], false⟩⟩]
  have first : Attempted Space.small 1 2 [⟨7, 26, 1⟩] Media.zeroed _ :=
    .again 0 2 none (by simp [unprogrammed, Fault.Honest] : ∀ fault ∈ unprogrammed, fault.Honest)
      .none
  have attempted : Attempted Space.small 1 2 [⟨7, 26, 1⟩] Media.zeroed _ :=
    .again 0 2 none (by simp [unwritten, Fault.Honest] : ∀ fault ∈ unwritten, fault.Honest) first
  obtain ⟨finished, -, -⟩ :=
    formatted_of_attempts Space.create_small Geometry.uniform_small planned blank attempted
  obtain ⟨store, hmount, hempty⟩ := finished 2 (by decide)
  exact ⟨_, attempted, by decide +kernel, store, hmount, hempty _ (List.mem_singleton_self _)⟩

end CircularLog
