import CircularLog.Proofs.Partition.Boot
import CircularLog.Proofs.Store.Chains

/-!
# Mounting whatever the memories hold

Without faults mounting ends for all contents of the memories: with a store, or it finds them
inconsistent, and the latter exactly if a partition is corrupt. Each partition is started from its
own bytes (`mountEach_starts`), as they are apart from each other. So what the store says of a
partition, and what its table holds then, follows from what the table held before; and besides
headers and tables nothing has changed (`started_of_mount`).
-/

namespace CircularLog

variable {g : Geometry} {space : Space g} {parts : List Partition} {p : Partition}
  {sound : Bytes → Media g → Prop} {m : Media g} {image : Bytes} {slots base : Nat}
  {layouts : List Layout}

namespace Store

/-- Each partition has been started, and nothing outside of them has changed. -/
structure Launched (parts : List Partition) (image : Bytes) (runs : UInt8 → Run) (image' : Bytes) :
    Prop where
  started : ∀ p ∈ parts, p.Started image (runs p.id) image'
  around : ∀ i, (∀ p ∈ parts, i < p.base ∨ p.stop ≤ i) → image'[i]? = image[i]?

/-- To start one more partition before the others, which are apart from it, is to start them all. -/
theorem Launched.cons {rest : List Partition} {image₁ image' : Bytes} {run : Run}
    {runs : UInt8 → Run} (h : Launched rest image₁ runs image') (apart : ∀ q ∈ rest, p.Apart q)
    (confined : p.Confined image image₁) (started : p.Started image run image₁) :
    Launched (p :: rest) image (Function.update runs p.id run) image' := by
  constructor
  case started =>
    refine List.forall_mem_cons.mpr ⟨?_, fun q hq => ?_⟩
    · rw [Function.update_self]
      refine started.congr (fun _ _ _ => rfl) fun i hi hi' => h.around i fun q hq => ?_
      have hbytes := (apart q hq).bytes
      omega
    · have hbytes := (apart q hq).bytes
      rw [Function.update_of_ne (apart q hq).ids.symm]
      refine (h.started q hq).congr (fun i hi hi' => ?_) fun _ _ _ => rfl
      exact (confined.outside i (by omega)).symm
  case around =>
    intro i hi
    obtain ⟨hself, hothers⟩ := List.forall_mem_cons.mp hi
    rw [h.around i hothers, confined.outside i hself]

/-- Each partition is started, unless one is corrupt. -/
theorem mountEach_starts (c : space.Conduct 0 space.total sound .never) (laid : Laid space parts)
    (hm : sound image m) :
    (mountEach space parts).Ends m
      (fun volumes m' => (∀ p ∈ parts, ¬ p.Corrupt image) ∧ ∃ (image' : Bytes) (runs : UInt8 → Run),
        sound image' m' ∧ volumes = parts.map (fun p => ⟨p, (runs p.id).status⟩) ∧
        Launched parts image runs image')
      (fun e _ => e = .inconsistent ∧ ∃ p ∈ parts, p.Corrupt image) := by
  -- From partition to partition: those started already are apart from the ones to come.
  induction parts generalizing m image with
  | nil => exact ⟨nofun, image, fun _ => default, hm, rfl, ⟨nofun, fun _ _ => rfl⟩⟩
  | cons p rest ih =>
    obtain ⟨hp, hrest⟩ := List.pairwise_cons.mp laid.apart
    obtain ⟨fits, inside⟩ := List.forall_mem_cons.mp laid.inside
    have hstart := p.start_ends c fits hm
    simp only [mountEach, Action.ends_bind, Action.ends_pure] at hstart ⊢
    apply hstart.mono
    case herror =>
      rintro e _ ⟨he, hcorrupt⟩
      exact ⟨he, p, List.mem_cons_self, hcorrupt⟩
    rintro _ m₁ h₁
    apply h₁.mono
    case herror =>
      rintro e _ ⟨he, hcorrupt⟩
      exact ⟨he, p, List.mem_cons_self, hcorrupt⟩
    rintro _ m₂ ⟨hsane, image₂, run, h₂, hconfined, rfl, hstarted⟩
    have before (q : Partition) (hq : q ∈ rest) (i : Nat) (hi : q.base ≤ i) (hi' : i < q.stop) :
        image₂[i]? = image[i]? := by
      have hbytes := (hp q hq).bytes
      exact hconfined.outside i (by omega)
    apply (ih ⟨inside, hrest⟩ h₂).mono
    case herror =>
      rintro e _ ⟨he, q, hq, hcorrupt⟩
      refine ⟨he, q, List.mem_cons_of_mem p hq, hcorrupt.congr fun i hi hi' => ?_⟩
      exact (before q hq i hi hi').symm
    rintro _ m₃ ⟨hsaneRest, image₃, runs, h₃, rfl, hlaunched⟩
    refine ⟨?_, image₃, Function.update runs p.id run, h₃, ?_, hlaunched.cons hp hconfined hstarted⟩
    · exact List.forall_mem_cons.mpr
        ⟨hsane, fun q hq hcorrupt => hsaneRest q hq (hcorrupt.congr (before q hq))⟩
    · rw [List.map_cons, Function.update_self]
      congr 1
      apply List.map_congr_left
      intro q hq
      rw [Function.update_of_ne (hp q hq).ids.symm]

/-- Each partition has a run, the store has its fill state, and the latch is open. -/
structure Steady (sound : Bytes → Media g → Prop) (space : Space g) (parts : List Partition)
    (runs : UInt8 → Run) (store : Store g) : Prop where
  space : store.space = space
  volumes : store.volumes = parts.map fun p => ⟨p, (runs p.id).status⟩
  faulted : store.faulted = false
  tables : ∃ image, sound image store.media ∧ ∀ p ∈ parts, p.Tabled image (runs p.id)

/-- A steady store finds its fill state for the id of a partition. -/
theorem Steady.known {runs : UInt8 → Run} {store : Store g}
    (h : store.Steady sound space parts runs) (laid : Laid space parts) (hp : p ∈ parts) :
    Volume.lookup p.id store.volumes = some ⟨p, (runs p.id).status⟩ :=
  h.volumes ▸ Volume.lookup_of_mem laid hp fun q => (runs q.id).status

/-- When one partition has another run, and the others have those that they had, the store is steady
with the new fill state. -/
theorem Steady.update {runs : UInt8 → Run} {run : Run} {store : Store g}
    {image : Bytes} {m : Media g} (h : store.Steady sound space parts runs)
    (laid : Laid space parts) (hp : p ∈ parts) (hm : sound image m) (self : p.Tabled image run)
    (others : ∀ q ∈ parts, q ≠ p → q.Tabled image (runs q.id)) :
    Steady sound space parts (Function.update runs p.id run)
      ⟨space, m, Volume.update p.id run.status store.volumes, false⟩ where
  space := rfl
  volumes := by
    dsimp only
    rw [h.volumes, Volume.update_map Run.status]
  faulted := rfl
  tables := ⟨image, hm, laid.forall_update hp self others⟩

/-- What the store says of a partition is the fill state of its run. -/
theorem Steady.status_eq {runs : UInt8 → Run} {store : Store g}
    (h : store.Steady sound space parts runs) (laid : Laid space parts) (hp : p ∈ parts) :
    store.status p.id = .ok (runs p.id).status :=
  status_of_lookup (h.known laid hp)

/-- Mounting makes a store of memories in which no partition is corrupt, and finds the others
inconsistent. -/
theorem mount_starts (c : space.Conduct 0 space.total sound .never)
    (planned : space.plan slots base layouts = .ok parts) (hm : sound image m) :
    (∃ store runs, mount space slots base layouts m = .ok store ∧
      store.Steady sound space parts runs ∧ (∀ p ∈ parts, ¬ p.Corrupt image) ∧
      ∃ image', sound image' store.media ∧ Launched parts image runs image') ∨
    (∃ m', mount space slots base layouts m = .error (.error .inconsistent, m') ∧
      ∃ p ∈ parts, p.Corrupt image) := by
  have hends := mountEach_starts c (laid_of_plan planned) hm
  unfold Action.Ends at hends
  rw [mount_of_plan planned]
  cases hrun : mountEach space parts m with
  | ok volumes m' =>
    rw [hrun] at hends
    obtain ⟨hsane, image', runs, hm', rfl, hlaunched⟩ := hends
    refine .inl ⟨_, runs, rfl, ?_, hsane, image', hm', hlaunched⟩
    exact ⟨rfl, rfl, rfl, image', hm', fun p hp => (hlaunched.started p hp).tabled⟩
  | error stop m' =>
    rw [hrun] at hends
    cases stop with
    | error e =>
      obtain ⟨rfl, hcorrupt⟩ := hends
      exact .inr ⟨m', rfl, hcorrupt⟩
    | defect d => exact hends.elim

/-- Whatever the memories hold, mounting without faults ends with a store or finds them
inconsistent, and the latter exactly if a partition is corrupt. A store has started each partition,
and nothing but headers and tables has changed. -/
theorem started_of_mount {start stop : UInt32}
    (made : Space.create g g.eepromBytes g.flashBytes start stop = .ok space) (u : g.Uniform)
    (planned : space.plan slots base layouts = .ok parts) (faultless : m.Under .clear) :
    ((∃ store, mount space slots base layouts m = .ok store) ∨
      ∃ m', mount space slots base layouts m = .error (.error .inconsistent, m')) ∧
    ((∃ m', mount space slots base layouts m = .error (.error .inconsistent, m')) ↔
      ∃ p ∈ parts, p.Corrupt (space.image m)) ∧
    ∀ store, mount space slots base layouts m = .ok store →
      (∀ p ∈ parts, ∃ run, store.status p.id = .ok run.status ∧
        p.Started (space.image m) run (space.image store.media)) ∧
      (∀ i, (∀ p ∈ parts, i < p.base ∨ p.area ≤ i) →
        (space.image store.media)[i]? = (space.image m)[i]?) ∧
      space.around store.media = space.around m := by
  have t := Space.truthful_of_create made
  have c := Space.conduct_of_clear u t (space.around m)
  have laid := laid_of_plan planned
  have hm : space.Exposes .clear (space.around m) (space.image m) m := ⟨faultless, rfl, rfl⟩
  rcases mount_starts c planned hm with
    ⟨store, runs, hmount, hsteady, hsane, image', hm', hlaunched⟩ | ⟨m', hmount, hcorrupt⟩
  · rw [hmount]
    obtain rfl := hm'.image
    refine ⟨.inl ⟨store, rfl⟩, ⟨nofun, fun ⟨p, hp, hcorrupt⟩ => absurd hcorrupt (hsane p hp)⟩, ?_⟩
    rintro _ ⟨⟩
    refine ⟨fun p hp => ⟨runs p.id, hsteady.status_eq laid hp, hlaunched.started p hp⟩,
      fun i hi => ?_, hm'.around⟩
    -- A byte that is in no header and no table is in an area, or in no partition.
    by_cases harea : ∃ p ∈ parts, p.area ≤ i ∧ i < p.stop
    · obtain ⟨p, hp, hlower, hupper⟩ := harea
      exact (hlaunched.started p hp).area i hlower hupper
    · refine hlaunched.around i fun p hp => ?_
      have hside := hi p hp
      have hout : ¬ (p.area ≤ i ∧ i < p.stop) := fun h => harea ⟨p, hp, h⟩
      omega
  · rw [hmount]
    exact ⟨.inr ⟨m', rfl⟩, ⟨fun _ => hcorrupt, fun _ => ⟨m', rfl⟩⟩, nofun⟩

end Store

/-- Two rows whose ids do not follow each other. -/
def Media.scattered : Media (.tinyWith 32) :=
  let fresh := Media.fresh (.tinyWith 32)
  let rows := Row.encode ⟨9, 3, 1⟩ ++ Row.encode ⟨5, 0, 2⟩
  { fresh with
    eeprom := { fresh.eeprom with
      memory := fresh.eeprom.memory.combine (fun _ _ byte => byte) 0 (Partition.magic ++ rows) } }

/-- The memories are without faults. -/
theorem Media.under_clear_scattered : Media.scattered.Under .clear := ⟨⟨rfl, rfl, by decide⟩, rfl⟩

namespace Store

/-- Of two rows whose ids do not follow each other, the one with the larger id is erased. -/
theorem started_of_mount_scattered :
    ∃ store run, mount Space.roomy 1 0 [⟨7, 32, 2⟩] Media.scattered = .ok store ∧
      store.status 7 = .ok ⟨1, 1, 2⟩ ∧ run.status = ⟨1, 1, 2⟩ ∧
      Partition.roomy.Started (Space.roomy.image Media.scattered) run
        (Space.roomy.image store.media) ∧
      Partition.roomy.rowCells (Space.roomy.image store.media) 0 = Row.erased := by
  have run : (mount Space.roomy 1 0 [⟨7, 32, 2⟩] Media.scattered).toOption.map (fun store =>
      (store.status 7, Partition.roomy.rowCells (Space.roomy.image store.media) 0)) =
      some (.ok ⟨1, 1, 2⟩, Row.erased) := by decide +kernel
  obtain ⟨-, -, started⟩ := started_of_mount Space.create_roomy (Geometry.uniform_tinyWith 32)
    Space.plan_roomy Media.under_clear_scattered
  obtain ⟨store, hstore, run⟩ := Option.map_eq_some_iff.mp run
  obtain ⟨hfound, herased⟩ := Prod.mk.inj run
  have hmount := mount_of_toOption hstore
  obtain ⟨hparts, -, -⟩ := started store hmount
  obtain ⟨found, hstatus, hstarted⟩ := hparts _ (List.mem_singleton_self _)
  have hsame : (Except.ok found.status : Except Error Status) = .ok ⟨1, 1, 2⟩ :=
    hstatus.symm.trans hfound
  exact ⟨store, found, hmount, hfound, Except.ok.inj hsame, hstarted, herased⟩

end Store

end CircularLog
