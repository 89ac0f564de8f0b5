import CircularLog.Proofs.Partition.Frame
import CircularLog.Proofs.Store.Queues

/-!
# What every operation keeps

A store is `Shaped` if it is over a given space with given partitions, the row of the oldest item of
each is a row of its table, and its memories have a given property. As partitions read and write
where they should whatever they hold, operations lead from shaped stores to shaped stores, with any
number of appends and whatever the memories do, if reads and writes keep the property.
-/

namespace CircularLog

variable {g : Geometry} {α τ : Type} {space : Space g} {parts : List Partition} {p : Partition}
  {kept : Media g → Prop} {store : Store g}

open CircularLog.Action (Keeps alone)

namespace Store

/-- The store is over this space and has these partitions, the row of the oldest item of each is in
its table, and the memories have the property. -/
structure Shaped (space : Space g) (parts : List Partition) (kept : Media g → Prop)
    (store : Store g) : Prop where
  space : store.space = space
  partitions : store.volumes.map (·.partition) = parts
  rows : ∀ volume ∈ store.volumes, volume.status.oldestRow < volume.partition.maxItems
  media : kept store.media

/-- The memories may have a weaker property. -/
theorem Shaped.mono {kept' : Media g → Prop} (h : store.Shaped space parts kept)
    (weaker : ∀ m, kept m → kept' m) : store.Shaped space parts kept' :=
  ⟨h.space, h.partitions, h.rows, weaker _ h.media⟩

/-- What the store knows of other partitions has not changed. -/
def Updates (p : Partition) (store after : Store g) : Prop :=
  ∀ id, id ≠ p.id → Volume.lookup id after.volumes = Volume.lookup id store.volumes

/-- A new fill state for one id is not found for another. -/
theorem lookup_update {id other : UInt8} (h : other ≠ id) (status : Status)
    (volumes : List Volume) :
    Volume.lookup other (Volume.update id status volumes) = Volume.lookup other volumes := by
  induction volumes with
  | nil => rfl
  | cons volume volumes ih =>
    rw [Volume.update, List.map_cons, ← Volume.update]
    simp only [Volume.lookup, List.find?_cons] at ih ⊢
    by_cases hid : volume.partition.id = id
    · have hother : (volume.partition.id == other) = false := by simp [hid, Ne.symm h]
      simp only [hid, beq_self_eq_true, if_true] at hother ⊢
      simp only [hother, ih]
    · simp only [beq_eq_false_iff_ne.mpr hid, Bool.false_eq_true, if_false, ih]

/-- The new fill state is found for its id. -/
theorem lookup_update_self {id : UInt8} {volume : Volume} {volumes : List Volume}
    (known : Volume.lookup id volumes = some volume) (status : Status) :
    Volume.lookup id (Volume.update id status volumes) = some { volume with status } := by
  induction volumes with
  | nil => cases known
  | cons first volumes ih =>
    rw [Volume.update, List.map_cons, ← Volume.update]
    simp only [Volume.lookup, List.find?_cons] at ih known ⊢
    by_cases hid : first.partition.id = id
    · simp only [hid, beq_self_eq_true, if_true, Option.some.injEq] at known ⊢
      rw [known]
    · simp only [beq_eq_false_iff_ne.mpr hid, Bool.false_eq_true, if_false] at known ⊢
      exact ih known

/-- The volumes of the store are of its partitions. -/
theorem Shaped.mem_parts (h : store.Shaped space parts kept) {volume : Volume}
    (hvolume : volume ∈ store.volumes) : volume.partition ∈ parts :=
  h.partitions ▸ List.mem_map_of_mem hvolume

/-- The volume that is found for the id of a partition is the one of the partition. -/
theorem Shaped.of_lookup (h : store.Shaped space parts kept) (laid : Laid space parts)
    (hp : p ∈ parts) {volume : Volume} (hlookup : Volume.lookup p.id store.volumes = some volume) :
    volume.partition = p ∧ volume.status.oldestRow < p.maxItems := by
  have hmem := List.mem_of_find?_eq_some hlookup
  have hid : volume.partition.id = p.id := by simpa using List.find?_some hlookup
  obtain rfl := laid.eq_of_id (h.mem_parts hmem) hp hid
  exact ⟨rfl, h.rows volume hmem⟩

/-- The volumes of a shaped store have different ids. -/
theorem Shaped.distinct (h : store.Shaped space parts kept) (laid : Laid space parts) :
    store.volumes.Pairwise fun v w => v.partition.id ≠ w.partition.id := by
  have hparts := laid.apart
  rw [← h.partitions, List.pairwise_map] at hparts
  exact hparts.imp fun h => h.ids

/-- A shaped store has a volume for each of its partitions. -/
theorem Shaped.exists_lookup (h : store.Shaped space parts kept) (hp : p ∈ parts) :
    ∃ volume, Volume.lookup p.id store.volumes = some volume := by
  rw [← h.partitions] at hp
  obtain ⟨volume, hvolume, rfl⟩ := List.mem_map.mp hp
  exact Option.isSome_iff_exists.mp (List.find?_isSome.mpr ⟨volume, hvolume, beq_self_eq_true _⟩)

/-- An id that no partition has is found nowhere. -/
theorem Shaped.lookup_eq_none (h : store.Shaped space parts kept) {id : UInt8}
    (unknown : ¬ ∃ q ∈ parts, q.id = id) : Volume.lookup id store.volumes = none :=
  List.find?_eq_none.mpr fun volume hvolume hid =>
    unknown ⟨_, h.mem_parts hvolume, by simpa using hid⟩

/-- A store stays shaped when the fill state of a partition changes. -/
theorem Shaped.update (h : store.Shaped space parts kept) (laid : Laid space parts) (hp : p ∈ parts)
    {m : Media g} {status : Status} (hm : kept m) (hstatus : status.oldestRow < p.maxItems)
    (faulted : Bool) :
    Shaped space parts kept ⟨store.space, m, Volume.update p.id status store.volumes, faulted⟩ where
  space := h.space
  partitions := by
    rw [← h.partitions, Volume.update, List.map_map]
    refine List.map_congr_left fun volume _ => ?_
    simp only [Function.comp_apply]
    split <;> rfl
  rows volume hvolume := by
    obtain ⟨old, hold, rfl⟩ := List.mem_map.mp hvolume
    split
    · next hid =>
      obtain rfl := laid.eq_of_id (h.mem_parts hold) hp (by simpa using hid)
      exact hstatus
    · exact h.rows old hold
  media := hm

/-! ## Behind the latch -/

/-- What an operation keeps by itself it keeps behind the latch, which has no part in it. -/
theorem keeps_latched {x : Action Error (Store g × τ) α} {good : Store g × τ → Prop}
    (hx : Keeps good x)
    (sets : ∀ after, good after → good ({ after.1 with faulted := true }, after.2)) :
    Keeps good (latched x) := by
  have rescued : Keeps good (x.rescue fun error => do
      if error = .inconsistent then
        modify fun after => ({ after.1 with faulted := true }, after.2)
      Action.fail error) :=
    hx.rescue fun _ =>
      .ite ((Action.keeps_modify sets).bind fun _ => Action.keeps_fail _) (Action.keeps_fail _)
  exact Action.keeps_get.bind fun _ => .ite ((Action.keeps_fail _).bind fun _ => rescued) rescued

/-- Nothing else being held, there is nothing else to keep. -/
theorem keeps_alone {σ : Type} {x : Action Error (σ × Unit) α} {good : σ → Prop}
    (hx : Keeps (fun after : σ × Unit => good after.1) x) : Keeps good x.alone :=
  fun s hs => (Action.yields_alone x).mpr (hx (s, ()) hs)

/-- Behind a set latch nothing ends with a value. -/
theorem unfaulted_of_ok {x : Action Error (Store g × Unit) α} {a : α} {after : Store g}
    (ok : (latched x).alone store = .ok a after) : store.faulted = false := by
  refine Bool.eq_false_iff.mpr fun faulted => ?_
  rw [alone, latched_of_faulted _ _ faulted] at ok
  cases ok

/-- Reading a partition of a shaped store leaves a shaped store with the same volumes. -/
theorem keeps_reading (laid : Laid space parts) {volumes : List Volume} {id : UInt8}
    {f : Space g → Volume → Action Error (Media g × τ) α}
    (hf : ∀ p ∈ parts, p.id = id → ∀ status, status.oldestRow < p.maxItems →
      Keeps (fun after : Media g × τ => kept after.1) (f space ⟨p, status⟩)) :
    Keeps (fun after : Store g × τ => after.1.Shaped space parts kept ∧ after.1.volumes = volumes)
      (reading id f) := by
  rintro ⟨⟨space', media, volumes', faulted⟩, held⟩ ⟨h, rfl⟩
  obtain rfl : space' = space := h.space
  unfold Action.Yields reading
  dsimp only
  cases hlookup : Volume.lookup id volumes' with
  | none => exact ⟨h, rfl⟩
  | some volume =>
    have hmem := List.mem_of_find?_eq_some hlookup
    have hid : volume.partition.id = id := by simpa using List.find?_some hlookup
    have hrun := hf _ (h.mem_parts hmem) hid volume.status (h.rows volume hmem) (media, held)
      h.media
    unfold Action.Yields at hrun
    dsimp only
    cases hcase : f space' volume (media, held) with
    | ok a after =>
      rw [hcase] at hrun
      exact ⟨⟨rfl, h.partitions, h.rows, hrun⟩, rfl⟩
    | error stop after =>
      rw [hcase] at hrun
      exact ⟨⟨rfl, h.partitions, h.rows, hrun⟩, rfl⟩

/-- Asking a partition of a shaped store leaves a shaped store with the same volumes. -/
theorem keeps_asking (laid : Laid space parts) {volumes : List Volume} {id : UInt8}
    {f : Space g → Volume → Action Error (Media g) α}
    (hf : ∀ p ∈ parts, p.id = id → ∀ status, status.oldestRow < p.maxItems →
      Keeps kept (f space ⟨p, status⟩)) :
    Keeps (fun after => after.Shaped space parts kept ∧ after.volumes = volumes) (asking id f) :=
  keeps_alone <| keeps_latched
    (keeps_reading laid fun p hp hid status hstatus => (hf p hp hid status hstatus).beside)
    fun _ h => ⟨⟨h.1.space, h.1.partitions, h.1.rows, h.1.media⟩, h.2⟩

/-- Appending to a partition of a shaped store leaves a shaped store, and changes no other fill
state. -/
theorem Shaped.append_yields (laid : Laid space parts) (hp : p ∈ parts)
    (k : space.Tends p.base p.stop kept) (h : store.Shaped space parts kept) (payload : Bytes) :
    (append p.id payload).Yields store
      (fun _ after => after.Shaped space parts kept ∧ Updates p store after)
      (fun after => after.Shaped space parts kept ∧ Updates p store after) := by
  obtain ⟨volume, hlookup⟩ := h.exists_lookup hp
  obtain ⟨hpart, hrow⟩ := h.of_lookup laid hp hlookup
  obtain rfl := h.space
  rw [append, Action.yields_alone]
  by_cases hfaulted : store.faulted = true
  · rw [Action.Yields, latched_of_faulted _ _ hfaulted]
    exact ⟨h, fun _ _ => rfl⟩
  refine yields_latched (by simpa using hfaulted) ?_
    fun _ h => ⟨⟨h.1.space, h.1.partitions, h.1.rows, h.1.media⟩, h.2⟩
  rw [yields_changing hlookup, hpart]
  refine ((Partition.keeps_append k payload).bind fun _ => Action.keeps_pure _) (store.media,
    volume.status) ⟨h.media, hrow⟩ |>.mono ?_ ?_
  · exact fun _ after h' => ⟨h.update laid hp h'.1 h'.2 _, fun _ hid => lookup_update hid _ _⟩
  · exact fun after h' => ⟨h.update laid hp h'.1 h'.2 _, fun _ hid => lookup_update hid _ _⟩

/-! ## Mounting -/

/-- Recovery from an empty fill state finds a row of the table. -/
theorem recover_yields (k : space.Tends p.base p.stop kept) {m : Media g} (hm : kept m) :
    ((p.recover space).startingFrom Status.empty).Yields m
      (fun status m' => status.oldestRow < p.maxItems ∧ kept m') kept := by
  have h := Partition.keeps_recover_inTable k (m, Status.empty) ⟨hm, p.maxItems_pos⟩
  unfold Action.Yields Action.startingFrom at *
  cases hrun : p.recover space (m, Status.empty) with
  | ok a after => exact (hrun ▸ h).symm
  | error stop after => exact (hrun ▸ h).1

/-- Mounting the partitions one after the other gives volumes of a shaped store. -/
theorem mountEach_yields (k : ∀ p ∈ parts, space.Tends p.base p.stop kept) {m : Media g}
    (hm : kept m) :
    (mountEach space parts).Yields m
      (fun volumes m' => volumes.map (·.partition) = parts ∧
        (∀ volume ∈ volumes, volume.status.oldestRow < volume.partition.maxItems) ∧ kept m')
      kept := by
  induction parts generalizing m with
  | nil => exact ⟨rfl, nofun, hm⟩
  | cons p rest ih =>
    obtain ⟨kp, krest⟩ := List.forall_mem_cons.mp k
    simp only [mountEach, Action.yields_bind, Action.yields_pure]
    refine (Partition.keeps_ensureFormatted kp m hm).mono ?_ fun _ h => h
    intro _ m₁ h₁
    refine (recover_yields kp h₁).mono ?_ fun _ h => h
    rintro status m₂ ⟨hstatus, h₂⟩
    refine (ih krest h₂).mono ?_ fun _ h => h
    rintro volumes m₃ ⟨rfl, hrows, h₃⟩
    exact ⟨rfl, List.forall_mem_cons.mpr ⟨hstatus, hrows⟩, h₃⟩

/-- A store that was mounted is shaped. -/
theorem shaped_of_mount {slots base : Nat} {layouts : List Layout}
    (planned : space.plan slots base layouts = .ok parts)
    (k : ∀ p ∈ parts, space.Tends p.base p.stop kept) {m : Media g} (hm : kept m)
    (mounts : mount space slots base layouts m = .ok store) : store.Shaped space parts kept := by
  have h := mountEach_yields k hm
  obtain ⟨volumes, m', hrun, rfl⟩ := eq_of_mount planned mounts
  unfold Action.Yields at h
  rw [hrun] at h
  exact ⟨rfl, h.1, h.2.1, h.2.2⟩

/-- Where mounting stops, it leaves what the partitions keep. -/
theorem kept_of_mount_error {slots base : Nat} {layouts : List Layout} {m m' : Media g}
    {stop : Stop Error}
    (k : ∀ parts, space.plan slots base layouts = .ok parts →
      ∀ p ∈ parts, space.Tends p.base p.stop kept)
    (hm : kept m) (stops : mount space slots base layouts m = .error (stop, m')) : kept m' := by
  cases hplan : space.plan slots base layouts with
  | error e =>
    rw [mount_of_refused hplan] at stops
    obtain ⟨-, rfl⟩ := Prod.mk.inj (Except.error.inj stops)
    exact hm
  | ok parts =>
    have h := mountEach_yields (k parts hplan) hm
    unfold Action.Yields at h
    rw [mount_of_plan hplan] at stops
    cases hrun : mountEach space parts m with
    | ok volumes m₁ => simp [hrun] at stops
    | error stop' m₁ =>
      simp only [hrun] at h stops
      obtain ⟨-, rfl⟩ := Prod.mk.inj (Except.error.inj stops)
      exact h

/-! ## Requests -/

/-- What is known of an operation however it ends, is known of what it leaves. -/
theorem left_of_yields {x : Action Error (Store g) α} {good : Store g → Prop}
    (h : x.Yields store (fun _ => good) good) {after : Store g}
    (hleft : left x store = some after) : good after := by
  unfold Action.Yields at h
  unfold left at hleft
  split at hleft <;> simp_all

/-- What a keeping operation leaves. -/
theorem left_of_keeps {x : Action Error (Store g) α} {good : Store g → Prop} (hx : Keeps good x)
    (h : good store) {after : Store g} (hleft : left x store = some after) : good after :=
  left_of_yields (hx store h) hleft

section Asking

variable (laid : Laid space parts) (r : ∀ p ∈ parts, space.Reads kept) {volumes : List Volume}
include laid r

/-- Asking for the oldest key leaves the volumes, and what reads keep. -/
theorem keeps_oldestKey (id : UInt8) :
    Keeps (fun after : Store g => after.Shaped space parts kept ∧ after.volumes = volumes)
      (oldestKey id) :=
  keeps_asking laid fun p hp _ _ hstatus =>
    Partition.keeps_oldestKey (r p hp) (laid.inside p hp) hstatus

/-- So does asking for the next key. -/
theorem keeps_successor (key : Key) :
    Keeps (fun after : Store g => after.Shaped space parts kept ∧ after.volumes = volumes)
      (successor key) :=
  keeps_asking laid fun p hp _ _ hstatus =>
    Partition.keeps_successor (r p hp) (laid.inside p hp) hstatus key

/-- So does fetching an item. -/
theorem keeps_fetch (key : Key) (capacity : Nat) :
    Keeps (fun after : Store g => after.Shaped space parts kept ∧ after.volumes = volumes)
      (fetch key capacity) :=
  keeps_asking laid fun p hp _ _ _ =>
    Partition.keeps_fetch (r p hp) (laid.inside p hp) key capacity

end Asking

section Requests

variable (laid : Laid space parts) (k : ∀ p ∈ parts, space.Tends p.base p.stop kept)
include laid k

/-- Nothing is appended where the id is unknown, and a known one is that of a partition. -/
theorem keeps_append (id : UInt8) (payload : Bytes) :
    Keeps (fun store : Store g => store.Shaped space parts kept) (append id payload) := by
  intro store h
  by_cases known : ∃ p ∈ parts, p.id = id
  · obtain ⟨p, hp, rfl⟩ := known
    exact (h.append_yields laid hp (k p hp) payload).mono (fun _ _ h => h.1) fun _ h => h.1
  · exact (append_yields_unknown (h.lookup_eq_none known) payload).mono (fun _ _ h => h.elim)
      fun _ heq => heq ▸ h

end Requests

end Store

end CircularLog
