import Mathlib.Data.List.Pairwise
import CircularLog.Proofs.Partition.Recovery
import CircularLog.Store.Latch

/-!
# Mounting finds the logs

The partitions of a plan lie one behind the other inside the space and have different ids (`Laid`,
`laid_of_plan`). A store is `Sound` with a log for each of them if the image holds the logs and the
fill states are theirs. Mounting makes such a store of an image in which every partition holds a
log or has no header yet (`mount_ok`): setting one partition up and finding its log again touches
none of the others.
-/

namespace CircularLog

variable {g : Geometry} {space : Space g} {parts : List Partition}

/-! ## Plans -/

/-- Two partitions have different ids and no byte in common. -/
structure Partition.Apart (p q : Partition) : Prop where
  ids : p.id ≠ q.id
  bytes : p.stop ≤ q.base ∨ q.stop ≤ p.base

instance : Std.Symm Partition.Apart := ⟨fun _ _ h => ⟨h.ids.symm, h.bytes.symm⟩⟩

/-- The partitions lie inside the space and are apart from each other. -/
structure Laid (space : Space g) (parts : List Partition) : Prop where
  inside : ∀ p ∈ parts, p.stop ≤ space.total
  apart : parts.Pairwise Partition.Apart

/-- A partition that was placed has the id of its layout and lies where it was put. -/
theorem Layout.id_base_place {layout : Layout} {base : Nat} {p : Partition}
    (h : layout.place base = .ok p) : p.id = layout.id ∧ p.base = base := by
  unfold Layout.place at h
  split at h
  · simp at h
  · split at h
    · simp at h
    · split at h
      · simp at h
      · obtain rfl := Except.ok.inj h
        exact ⟨rfl, rfl⟩

/-- What is looked at before a layout is placed behind others. -/
theorem Space.planBehind_eq (space : Space g) (slots address : Nat) (placed : List Partition)
    (layout : Layout) (behind : List Layout) :
    space.planBehind slots placed address (layout :: behind) =
      if placed.any (·.id == layout.id) then .error (.error .invalidRange)
      else if space.total < address + layout.sizeBytes.toNat then .error (.error .outOfRoom)
      else match layout.place address with
        | .error stop => .error stop
        | .ok p =>
          if space.mediumOf p.area ≠ space.mediumOf (p.stop - 1) then .error (.error .invalidRange)
          else if slots ≤ placed.length then .error (.error .outOfRoom)
          else (space.planBehind slots (placed ++ [p]) (address + layout.sizeBytes.toNat)
            behind).map (p :: ·) := by
  simp only [planBehind, bind, Except.bind, throw, throwThe, MonadExceptOf.throw, pure, Except.pure]
  refine if_congr Iff.rfl rfl (if_congr Iff.rfl rfl ?_)
  cases layout.place address with
  | error e => rfl
  | ok p =>
    refine if_congr Iff.rfl rfl (if_congr Iff.rfl rfl ?_)
    cases space.planBehind slots (placed ++ [p]) (address + layout.sizeBytes.toNat) behind <;> rfl

/-- A plan for one more layout puts its partition first. -/
theorem planBehind_cons {slots address : Nat} {placed parts : List Partition} {layout : Layout}
    {layouts : List Layout}
    (h : space.planBehind slots placed address (layout :: layouts) = .ok parts) :
    ∃ p rest, parts = p :: rest ∧ layout.place address = .ok p ∧
      (∀ q ∈ placed, q.id ≠ layout.id) ∧ address + layout.sizeBytes.toNat ≤ space.total ∧
      space.planBehind slots (placed ++ [p]) (address + layout.sizeBytes.toNat) layouts =
        .ok rest := by
  rw [Space.planBehind_eq] at h
  split at h
  · contradiction
  next hids =>
  split at h
  · contradiction
  next hroom =>
  cases hp : layout.place address with
  | error e => simp [hp] at h
  | ok p =>
    simp only [hp] at h
    split at h
    · contradiction
    split at h
    · contradiction
    cases hrest : space.planBehind slots (placed ++ [p]) (address + layout.sizeBytes.toNat)
      layouts with
    | error e => simp [hrest, Except.map] at h
    | ok rest =>
      rw [hrest] at h
      refine ⟨p, rest, (Except.ok.inj h).symm, rfl, fun q hq hid => hids ?_, by omega, hrest⟩
      exact List.any_eq_true.mpr ⟨q, hq, by simpa using hid⟩

/-- The partitions of a plan have their place behind an address and new ids. -/
theorem laid_of_planBehind {slots address : Nat} {placed parts : List Partition}
    {layouts : List Layout} (h : space.planBehind slots placed address layouts = .ok parts) :
    Laid space parts ∧ (∀ p ∈ parts, address ≤ p.base) ∧
      ∀ p ∈ parts, ∀ q ∈ placed, q.id ≠ p.id := by
  induction layouts generalizing placed address parts with
  | nil =>
    obtain rfl := Except.ok.inj h
    exact ⟨⟨nofun, .nil⟩, nofun, nofun⟩
  | cons layout layouts ih =>
    obtain ⟨p, rest, rfl, hp, hids, hroom, hrest⟩ := planBehind_cons h
    obtain ⟨hid, hbase⟩ := Layout.id_base_place hp
    have hstop := Layout.stop_place hp
    -- The partitions behind the first start where it stops, and none has its id.
    obtain ⟨laid, behind, fresh⟩ := ih hrest
    refine ⟨⟨?_, ?_⟩, ?_, ?_⟩
    · exact List.forall_mem_cons.mpr ⟨by omega, laid.inside⟩
    · exact .cons (fun q hq => ⟨fresh q hq p (by simp), .inl (hstop ▸ behind q hq)⟩) laid.apart
    · refine List.forall_mem_cons.mpr ⟨by omega, fun q hq => ?_⟩
      have hq := behind q hq
      omega
    · exact List.forall_mem_cons.mpr ⟨fun q hq => hid ▸ hids q hq,
        fun r hr q hq => fresh r hr q (by simp [hq])⟩

/-- The partitions of a plan are laid out. -/
theorem laid_of_plan {slots base : Nat} {layouts : List Layout}
    (h : space.plan slots base layouts = .ok parts) : Laid space parts :=
  (laid_of_planBehind h).1

/-- Different partitions are apart. -/
theorem Laid.apart_of_ne (laid : Laid space parts) {p q : Partition} (hp : p ∈ parts)
    (hq : q ∈ parts) (h : p ≠ q) : p.Apart q :=
  laid.apart.forall hp hq h

/-- Partitions with the same id are the same. -/
theorem Laid.eq_of_id (laid : Laid space parts) {p q : Partition} (hp : p ∈ parts) (hq : q ∈ parts)
    (h : p.id = q.id) : p = q :=
  Classical.byContradiction fun hne => (laid.apart_of_ne hp hq hne).ids h

/-- When something else is said of one partition, what is true of it and of what is said of the
others is true of all. -/
theorem Laid.forall_update {τ : Type} (laid : Laid space parts) {p : Partition} (hp : p ∈ parts)
    {values : UInt8 → τ} {value : τ} {motive : Partition → τ → Prop} (self : motive p value)
    (others : ∀ q ∈ parts, q ≠ p → motive q (values q.id)) :
    ∀ q ∈ parts, motive q (Function.update values p.id value q.id) := by
  intro q hq
  by_cases hid : q.id = p.id
  · obtain rfl := laid.eq_of_id hq hp hid
    rwa [Function.update_self]
  · rw [Function.update_of_ne hid]
    exact others q hq fun heq => hid (heq ▸ rfl)

/-- When one partition has changed and nothing outside of it, the others hold what they held. -/
theorem Laid.holds_update (laid : Laid space parts) {p : Partition} (hp : p ∈ parts)
    {image image' : Bytes} (hlen : image.length = space.total) {logs : UInt8 → Log} {log : Log}
    (holds : ∀ q ∈ parts, q.Holds image (logs q.id)) (hconfined : p.Confined image image')
    (holds' : p.Holds image' log) :
    ∀ q ∈ parts, q.Holds image' (Function.update logs p.id log q.id) := by
  refine laid.forall_update hp holds' fun q hq hne => ?_
  have hbytes := (laid.apart_of_ne hp hq (Ne.symm hne)).bytes
  exact hconfined.holds hbytes (hlen ▸ laid.inside q hq) (holds q hq)

/-! ## Sound stores -/

/-- The image holds these logs, and the store knows their fill states. -/
structure Store.Sound (sound : Bytes → Media g → Prop) (space : Space g) (parts : List Partition)
    (logs : UInt8 → Log) (store : Store g) : Prop where
  space : store.space = space
  volumes : store.volumes = parts.map fun p => ⟨p, (logs p.id).status⟩
  faulted : store.faulted = false
  holds : ∃ image, sound image store.media ∧ ∀ p ∈ parts, p.Holds image (logs p.id)
  settled : ∀ p ∈ parts, (logs p.id).Settled

/-! ## Mounting -/

variable {m : Media g} {sound : Bytes → Media g → Prop} {image : Bytes} {logs : UInt8 → Log}

section Placed

variable {slots base : Nat} {layouts : List Layout} {store : Store g}

/-- What cannot be placed is refused, and nothing becomes of the memories. -/
theorem Store.mount_of_refused {stop : Stop Error}
    (refused : space.plan slots base layouts = .error stop) (m : Media g) :
    mount space slots base layouts m = .error (stop, m) := by
  rw [mount, refused]
  rfl

/-- Placed partitions are all that mounting starts from. -/
theorem Store.mount_of_plan (planned : space.plan slots base layouts = .ok parts) (m : Media g) :
    mount space slots base layouts m =
      match mountEach space parts m with
      | .ok volumes m' => .ok ⟨space, m', volumes, false⟩
      | .error stop m' => .error (stop, m') := by
  rw [mount, planned]
  rfl

/-- A store is what its partitions were mounted with, and its latch is open. -/
theorem Store.eq_of_mount (planned : space.plan slots base layouts = .ok parts)
    (mounts : mount space slots base layouts m = .ok store) :
    ∃ volumes m', mountEach space parts m = .ok volumes m' ∧
      store = ⟨space, m', volumes, false⟩ := by
  rw [mount_of_plan planned] at mounts
  cases hrun : mountEach space parts m with
  | ok volumes m' =>
    rw [hrun] at mounts
    exact ⟨volumes, m', rfl, (Except.ok.inj mounts).symm⟩
  | error stop m' =>
    rw [hrun] at mounts
    cases mounts

end Placed

/-- Mounting leaves the latch open. -/
theorem Store.faulted_of_mount {slots base : Nat} {layouts : List Layout} {mounted : Store g}
    (mounts : mount space slots base layouts m = .ok mounted) : mounted.faulted = false := by
  unfold mount at mounts
  split at mounts
  · obtain rfl := Except.ok.inj mounts
    rfl
  · cases mounts

/-- Where mounting comes to a store, it has ended well. -/
theorem Store.mount_of_toOption {slots base : Nat} {layouts : List Layout} {store : Store g}
    (h : (mount space slots base layouts m).toOption = some store) :
    mount space slots base layouts m = .ok store := by
  cases hmount : mount space slots base layouts m with
  | ok mounted =>
    rw [hmount] at h
    exact congrArg Except.ok (Option.some.inj h)
  | error left =>
    rw [hmount] at h
    cases h

/-- Only where the partitions have been placed is a store mounted. -/
theorem Store.exists_plan_of_mount {slots base : Nat} {layouts : List Layout} {store : Store g}
    (mounts : mount space slots base layouts m = .ok store) :
    ∃ parts, space.plan slots base layouts = .ok parts := by
  cases hplan : space.plan slots base layouts with
  | ok parts => exact ⟨parts, rfl⟩
  | error e =>
    rw [mount_of_refused hplan] at mounts
    cases mounts

/-- What changes in another partition has no part in how this one boots. -/
theorem Partition.Confined.boots {p q : Partition} {image' : Bytes} {log : Log}
    (h : p.Confined image image') (apart : p.Apart q) (fits : q.stop ≤ image.length)
    (boots : q.Boots image log) : q.Boots image' log := by
  have hbytes := apart.bytes
  exact boots.congr fits (by rwa [h.length]) fun i _ _ => h.outside i (by omega)

/-- Mounting partitions one after the other finds the log of each, and leaves what others hold. -/
theorem Store.mountEach_ends (c : space.Conduct 0 space.total sound .never)
    (laid : Laid space parts) (hm : sound image m)
    (boots : ∀ p ∈ parts, p.Boots image (logs p.id)) :
    (mountEach space parts).Ends m
      (fun volumes m' => volumes = parts.map (fun p => ⟨p, (logs p.id).found.status⟩) ∧
        ∃ image', sound image' m' ∧ (∀ p ∈ parts, p.Holds image' (logs p.id)) ∧
          ∀ q : Partition, (∀ p ∈ parts, p.Apart q) → q.stop ≤ image.length →
            ∀ log, q.Holds image log → q.Holds image' log)
      (fun _ _ => False) := by
  -- From partition to partition: those mounted already are apart from the ones to come.
  induction parts generalizing m image with
  | nil => exact ⟨rfl, image, hm, nofun, fun _ _ _ _ h => h⟩
  | cons p rest ih =>
    obtain ⟨hp, hrest⟩ := List.pairwise_cons.mp laid.apart
    obtain ⟨fits, inside⟩ := List.forall_mem_cons.mp laid.inside
    obtain ⟨bootsp, bootsRest⟩ := List.forall_mem_cons.mp boots
    have hlen := c.length hm
    simp only [mountEach, Action.ends_bind, Action.ends_pure, Action.ends_startingFrom]
    refine (p.ensureFormatted_ends (c.within (Nat.zero_le _) fits) hm bootsp).mono ?_
      fun _ _ => Space.not_halts
    rintro _ m₁ ⟨image₁, h₁, hconfined, holds⟩
    refine (p.recover_ends (c.part fits).toLegible holds h₁ Status.empty).mono ?_
      fun _ _ => Space.not_halts
    rintro _ ⟨m₂, _⟩ ⟨h₂, rfl⟩
    refine (ih ⟨inside, hrest⟩ h₂ fun q hq => hconfined.boots (hp q hq)
      (hlen ▸ inside q hq) (bootsRest q hq)).mono ?_ fun _ _ h => h
    rintro _ m₃ ⟨rfl, image₃, h₃, holdsRest, others⟩
    have hlen₂ := c.length h₂
    refine ⟨rfl, image₃, h₃, List.forall_mem_cons.mpr ⟨?_, holdsRest⟩, ?_⟩
    · exact others p (fun q hq => Std.Symm.symm _ _ (hp q hq)) (by omega) _ holds
    · intro q apart hfits log hlog
      obtain ⟨apartp, apartRest⟩ := List.forall_mem_cons.mp apart
      exact others q apartRest (by omega) log (hconfined.holds apartp.bytes hfits hlog)

/-- Where every partition boots, mounting makes a sound store of what they hold. -/
theorem Store.mount_ok (logs : UInt8 → Log)
    (c : space.Conduct 0 space.total sound .never) {slots base : Nat}
    {layouts : List Layout} (planned : space.plan slots base layouts = .ok parts)
    (hm : sound image m) (boots : ∀ p ∈ parts, p.Boots image (logs p.id)) :
    ∃ store, mount space slots base layouts m = .ok store ∧
      store.Sound sound space parts fun id => (logs id).found := by
  obtain ⟨volumes, m', hrun, rfl, image', h', holds, -⟩ :=
    (mountEach_ends c (laid_of_plan planned) hm boots).exists_ok fun _ _ => id
  refine ⟨⟨space, m', _, false⟩, ?_, rfl, rfl, rfl, ⟨image', h', fun p hp => (holds p hp).found⟩,
    fun p _ => (logs p.id).settled_found⟩
  rw [mount_of_plan planned, hrun]

end CircularLog
