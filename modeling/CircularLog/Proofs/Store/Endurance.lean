import CircularLog.Proofs.Store.Host
import CircularLog.Proofs.Store.Start

/-!
# Runs in which failures are mild

Where failures leave the memories as sound as they were, a store whose latch is open is steady: each
of its partitions has a run with the fill state that the store knows, wherever the partition lies
(`Store.Endures`). An append leads from run to run, and one that is interrupted has recovered a run
of what was left; mounting recovers a run for each partition (`mountEach_endures`); and whatever
else is asked only reads. So it is after every run of a host, whatever has failed in it
(`Host.Endures.undergoAll`).
-/

namespace CircularLog

variable {g : Geometry} {space : Space g} {parts : List Partition} {p : Partition} {phase : Phase}
  {around : Bytes × Bytes} {mishap : Space.Mishap g} {m : Media g} {image : Bytes} {run : Run}
  {runs : UInt8 → Run} {slots base : Nat} {layouts : List Layout}

/-! ## Partitions -/

namespace Partition

variable {sound : Bytes → Media g → Prop} {payload : Bytes}

/-- Bytes that are written outside of a partition leave its run. -/
theorem Tabled.overlay (h : p.Tabled image run) {address : Nat} {bytes : Bytes}
    (range : address + bytes.length ≤ image.length)
    (apart : address + bytes.length ≤ p.base ∨ p.stop ≤ address) :
    p.Tabled (image.overlay address bytes) run := by
  have hparts := p.parts
  refine h.congr fun i hi hi' => ?_
  rw [Bytes.getElem?_overlay_eq range, if_neg (by omega)]

/-- The partition has a run, and this is its fill state. -/
def HasRun (sound : Bytes → Media g → Prop) (p : Partition) (after : Media g × Status) : Prop :=
  ∃ image run, sound image after.1 ∧ p.Tabled image run ∧ after.2 = run.status

/-- Recovery finds a run. -/
theorem Recovered.hasRun {after : Media g × Status} (h : p.Recovered sound image after) :
    p.HasRun sound after := by
  obtain ⟨image', run, h', htabled, hstatus, -⟩ := h
  exact ⟨image', run, h', htabled, hstatus⟩

/-- However an append ends, the partition has a run with the fill state that is left, unless it ends
inconsistent. -/
theorem Tabled.append_hasRun (c : space.Conduct p.table p.stop sound mishap)
    (mild : mishap.Mild sound) (interrupts : ∀ e, mishap.tells e → e.isInterruption = true)
    (h : p.Tabled image run) (hm : sound image m) (payload : Bytes) :
    (p.append space payload).Ends (m, run.status) (fun _ => p.HasRun sound)
      (fun e after => e = .inconsistent ∨ p.HasRun sound after) := by
  by_cases storable : p.Storable payload
  · apply (append_tabled c mild interrupts h hm storable).mono
    · rintro _ after ⟨-, count, -, h', htabled, hstatus⟩
      exact ⟨_, _, h', htabled, hstatus⟩
    · rintro e after ⟨_, -, ⟨-, _, hrecovered⟩ | hinconsistent⟩
      · exact .inr hrecovered.hasRun
      · exact .inl hinconsistent
  · have long : p.areaLength < payload.length ∨ 0x1_0000 ≤ payload.length := by
      unfold Storable at storable
      omega
    rw [Action.Ends, p.append_of_long space long]
    exact .inr ⟨image, run, hm, h, rfl⟩

end Partition

/-! ## Stores -/

namespace Store

variable {store after : Store g} {operation : Operation}

/-- The partitions have these runs. -/
def Tabling (sound : Bytes → Media g → Prop) (parts : List Partition) (runs : UInt8 → Run)
    (m : Media g) : Prop :=
  ∃ image, sound image m ∧ ∀ p ∈ parts, p.Tabled image (runs p.id)

/-- A steady store is over its space with its partitions. -/
theorem Steady.shaped {sound : Bytes → Media g → Prop} (h : store.Steady sound space parts runs) :
    store.Shaped space parts (Tabling sound parts runs) where
  space := h.space
  partitions := by rw [h.volumes, List.map_map]; exact List.map_id _
  rows volume hvolume := by
    rw [h.volumes] at hvolume
    obtain ⟨p, hp, rfl⟩ := List.mem_map.mp hvolume
    obtain ⟨_, _, htabled⟩ := h.tables
    exact (htabled p hp).row_lt
  media := h.tables

/-- The store is over its space with its partitions; and as long as the latch is open, each of them
has a run with the fill state that the store knows. -/
def Endures (sound : Bytes → Media g → Prop) (space : Space g) (parts : List Partition)
    (store : Store g) : Prop :=
  store.Shaped space parts (fun m => ∃ image, sound image m) ∧
    (store.faulted = false → ∃ runs, store.Steady sound space parts runs)

/-- Other faults make no difference to the runs. -/
theorem Steady.facing {phase' : Phase} {plan : List Fault}
    (h : store.Steady (space.Exposes phase around) space parts runs) (hplan : phase' plan []) :
    (store.facing plan).Steady (space.Exposes phase' around) space parts runs := by
  obtain ⟨image, hm, htabled⟩ := h.tables
  exact ⟨h.space, h.volumes, h.faulted, image, hm.facing hplan, htabled⟩

section Steps

variable (c : space.Conduct 0 space.total (space.Exposes phase around) mishap)
  (mild : mishap.Mild (space.Exposes phase around))
include c mild

/-- Mounting partitions one after the other recovers a run for each of them. -/
theorem mountEach_endures (laid : Laid space parts) (hm : space.Exposes phase around image m) :
    (mountEach space parts).Yields m
      (fun volumes m' => ∃ runs : UInt8 → Run,
        volumes = parts.map (fun p => ⟨p, (runs p.id).status⟩) ∧
        Tabling (space.Exposes phase around) parts runs m')
      fun _ => True := by
  -- From partition to partition: what is done to those to come leaves the run of the first one.
  induction parts generalizing m image with
  | nil => exact ⟨fun _ => default, rfl, image, hm, nofun⟩
  | cons p rest ih =>
    obtain ⟨hp, hrest⟩ := List.pairwise_cons.mp laid.apart
    obtain ⟨fits, inside⟩ := List.forall_mem_cons.mp laid.inside
    simp only [mountEach, Action.yields_bind, Action.yields_pure]
    refine (Partition.keeps_ensureFormatted (c.tends mild fits) m ⟨image, hm⟩).mono ?_
      fun _ _ => trivial
    rintro _ m₁ ⟨image₁, h₁⟩
    have recovers : ((p.recover space).startingFrom Status.empty).Ends m₁
        (fun status m₂ => p.HasRun (space.Exposes phase around) (m₂, status)) fun _ _ => True := by
      rw [Action.ends_startingFrom]
      exact (Partition.recover_tabled (c.part fits) h₁ Status.empty).mono
        (fun _ _ h => h.2.hasRun) fun _ _ _ => trivial
    refine (recovers.yields fun _ _ _ => trivial).mono ?_ fun _ h => h
    rintro status m₂ ⟨image₂, run, h₂, htabled, rfl⟩
    have k (q : Partition) (hq : q ∈ rest) : space.Tends q.base q.stop fun m =>
        ∃ image, space.Exposes phase around image m ∧ p.Tabled image run :=
      c.tends_good mild (inside q hq) fun {image address bytes} hlen h hlower hupper => by
        have hapart := (hp q hq).bytes
        have hfits := inside q hq
        exact h.overlay (by omega) (by omega)
    refine ((ih ⟨inside, hrest⟩ h₂).and (mountEach_yields k ⟨image₂, h₂, htabled⟩)).mono ?_
      fun _ _ => trivial
    rintro _ m₃ ⟨⟨runs, rfl, image₃, h₃, hothers⟩, -, -, image', h', hself⟩
    obtain rfl : image' = image₃ := h'.image.symm.trans h₃.image
    have hne (q : Partition) (hq : q ∈ rest) : q.id ≠ p.id := (hp q hq).ids.symm
    refine ⟨Function.update runs p.id run, ?_, image', h',
      List.forall_mem_cons.mpr ⟨?_, fun q hq => ?_⟩⟩
    · rw [List.map_cons, Function.update_self]
      congr 1
      refine List.map_congr_left fun q hq => ?_
      rw [Function.update_of_ne (hne q hq)]
    · rwa [Function.update_self]
    · rw [Function.update_of_ne (hne q hq)]
      exact hothers q hq

variable (interrupts : ∀ e, mishap.tells e → e.isInterruption = true)
  (planned : space.plan slots base layouts = .ok parts)

include planned

/-- A store that is mounted endures. -/
theorem endures_of_mount (hm : space.Exposes phase around image m)
    (mounts : mount space slots base layouts m = .ok store) :
    store.Endures (space.Exposes phase around) space parts := by
  have laid := laid_of_plan planned
  have k (p : Partition) (hp : p ∈ parts) : space.Tends p.base p.stop fun m =>
      ∃ image, space.Exposes phase around image m := c.tends mild (laid.inside p hp)
  refine ⟨shaped_of_mount planned k ⟨image, hm⟩ mounts, fun _ => ?_⟩
  have hends := mountEach_endures c mild laid hm
  obtain ⟨volumes, m', hrun, rfl⟩ := eq_of_mount planned mounts
  rw [Action.Yields, hrun] at hends
  obtain ⟨runs, rfl, htables⟩ := hends
  exact ⟨runs, rfl, rfl, rfl, htables⟩

include interrupts

/-- However an append ends, the store is steady afterwards, unless the latch is set. -/
theorem Steady.append_yields (h : store.Steady (space.Exposes phase around) space parts runs)
    (id : UInt8) (payload : Bytes) :
    (append id payload).Yields store
      (fun _ after => ∃ runs, after.Steady (space.Exposes phase around) space parts runs)
      fun after => after.faulted = false →
        ∃ runs, after.Steady (space.Exposes phase around) space parts runs := by
  have laid := laid_of_plan planned
  by_cases known : ∃ p ∈ parts, p.id = id
  · obtain ⟨p, hp, rfl⟩ := known
    obtain ⟨image, hm, htabled⟩ := h.tables
    have fits := laid.inside p hp
    -- What the append does to the partition keeps the runs of the others.
    have k : space.Tends p.base p.stop fun m => ∃ image, space.Exposes phase around image m ∧
        ∀ q ∈ parts, q ≠ p → q.Tabled image (runs q.id) :=
      c.tends_good mild fits fun {image address bytes} hlen others hlower hupper q hq hne => by
        have hapart := (laid.apart_of_ne hp hq (Ne.symm hne)).bytes
        have hfits := laid.inside q hq
        exact (others q hq hne).overlay (by omega) (by omega)
    have hself := (htabled p hp).append_hasRun (c.part fits) mild interrupts hm payload
    have hothers := Partition.keeps_append k payload (store.media, (runs p.id).status)
      ⟨⟨image, hm, fun q hq _ => htabled q hq⟩, (htabled p hp).row_lt⟩
    have updated {m' : Media g} {status : Status}
        (hruns : p.HasRun (space.Exposes phase around) (m', status))
        (hkept : ∃ image, space.Exposes phase around image m' ∧
          ∀ q ∈ parts, q ≠ p → q.Tabled image (runs q.id)) :
        ∃ runs, Steady (space.Exposes phase around) space parts runs
          ⟨space, m', Volume.update p.id status store.volumes, false⟩ := by
      obtain ⟨image', run, h', htabled', hstatus⟩ := hruns
      obtain ⟨image'', h'', others⟩ := hkept
      obtain rfl : image'' = image' := h''.image.symm.trans h'.image
      obtain rfl : status = run.status := hstatus
      exact ⟨_, h.update laid hp h'' htabled' others⟩
    have hopen : store.Open (space.Exposes phase around) space store.volumes image :=
      ⟨h.space, rfl, h.faulted, hm⟩
    refine ((hopen.append_ends (h.known laid hp) (hself.and_yields hothers)).yields ?_).mono ?_
      fun _ h => h
    · rintro e _ ⟨m', status, ⟨rfl | hruns, hkept, -⟩, rfl⟩ hfaulted
      · simp at hfaulted
      · rw [show decide (e = .inconsistent) = false from hfaulted]
        exact updated hruns hkept
    · rintro _ _ ⟨place, m', status, ⟨hruns, hkept, -⟩, -, rfl⟩
      exact updated hruns hkept
  · have unknown := h.shaped.lookup_eq_none known
    exact (append_yields_unknown unknown payload).mono (fun _ _ h => h.elim) fun _ hsame _ =>
      ⟨runs, hsame ▸ h⟩

/-- Every operation leaves a store that endures. -/
theorem Endures.operate (h : store.Endures (space.Exposes phase around) space parts)
    (operates : store.operate slots base layouts operation = some after) :
    after.Endures (space.Exposes phase around) space parts := by
  have laid := laid_of_plan planned
  have k (p : Partition) (hp : p ∈ parts) : space.Tends p.base p.stop fun m =>
      ∃ image, space.Exposes phase around image m := c.tends mild (laid.inside p hp)
  by_cases mounts : operation = .request .remount
  · subst mounts
    obtain ⟨image, hm⟩ := h.1.media
    have hmount : mount store.space slots base layouts store.media = .ok after :=
      mount_of_toOption operates
    rw [h.1.space] at hmount
    exact endures_of_mount c mild planned hm hmount
  refine ⟨h.1.operate laid k planned operates, fun hopen => ?_⟩
  -- The latch cannot have been set before, as only mounting opens it.
  have unfaulted : store.faulted = false := by
    refine Bool.eq_false_iff.mpr fun faulted => ?_
    rw [faulted_of_operate faulted mounts operates] at hopen
    cases hopen
  obtain ⟨runs, hsteady⟩ := h.2 unfaulted
  by_cases appends : ∃ id payload, operation = .request (.append id payload)
  · obtain ⟨id, payload, rfl⟩ := appends
    have hyields : (append id payload).Yields store
        (fun _ after => after.faulted = false →
          ∃ runs, after.Steady (space.Exposes phase around) space parts runs)
        fun after => after.faulted = false →
          ∃ runs, after.Steady (space.Exposes phase around) space parts runs :=
      (hsteady.append_yields c mild interrupts planned id payload).mono
        (fun _ _ h _ => h) fun _ h => h
    exact left_of_yields hyields operates hopen
  · obtain ⟨hshaped, hvolumes⟩ := operate_keeps laid (fun _ _ => c.reads_good mild _)
      (fun id payload happend => appends ⟨id, payload, happend⟩) mounts hsteady.shaped operates
    exact ⟨runs, hshaped.space, hvolumes.trans hsteady.volumes, hopen, hshaped.media⟩

end Steps

end Store

/-! ## Hosts -/

namespace Host

variable {host after : Host g} {incident : Incident} {incidents : List Incident}

/-- The store of the host endures, or the memories are sound where there is none. -/
def Endures (sound : Bytes → Media g → Prop) (space : Space g) (parts : List Partition) :
    Host g → Prop
  | mounted store => store.Endures sound space parts
  | bare m => ∃ image, sound image m

/-- Other faults make no difference to a host that endures. -/
theorem Endures.facing {phase' : Phase} {plan : List Fault}
    (h : host.Endures (space.Exposes phase around) space parts) (hplan : phase' plan []) :
    (host.facing plan).Endures (space.Exposes phase' around) space parts := by
  have sound {m : Media g} (hm : ∃ image, space.Exposes phase around image m) :
      ∃ image, space.Exposes phase' around image (m.facing plan) := by
    obtain ⟨image, hm⟩ := hm
    exact ⟨image, hm.facing hplan⟩
  cases host with
  | mounted store =>
    obtain ⟨hshaped, hsteady⟩ := h
    refine ⟨⟨hshaped.space, hshaped.partitions, hshaped.rows, sound hshaped.media⟩, fun hopen => ?_⟩
    obtain ⟨runs, hsteady⟩ := hsteady hopen
    exact ⟨runs, hsteady.facing hplan⟩
  | bare m => exact sound h

/-- With or without a store, the memories show some image. -/
theorem Endures.media (h : host.Endures (space.Exposes phase around) space parts) :
    ∃ image, space.Exposes phase around image host.media := by
  cases host with
  | mounted store => exact h.1.media
  | bare m => exact h

section Steps

variable (c : space.Conduct 0 space.total (space.Exposes phase around) mishap)
  (mild : mishap.Mild (space.Exposes phase around))
  (interrupts : ∀ e, mishap.tells e → e.isInterruption = true)
  (planned : space.plan slots base layouts = .ok parts)
include c mild planned

/-- Mounting, whether it fails or not, leaves a host that endures. -/
theorem endures_of_mounting (hm : space.Exposes phase around image m)
    (mounts : mounting space slots base layouts m = some after) :
    after.Endures (space.Exposes phase around) space parts := by
  unfold mounting at mounts
  cases hmount : Store.mount space slots base layouts m with
  | ok store =>
    rw [hmount] at mounts
    exact Option.some.inj mounts ▸ Store.endures_of_mount c mild planned hm hmount
  | error stopped =>
    obtain ⟨stop, m'⟩ := stopped
    have k (parts' : List Partition) (planned' : space.plan slots base layouts = .ok parts')
        (p : Partition) (hp : p ∈ parts') : space.Tends p.base p.stop fun m =>
          ∃ image, space.Exposes phase around image m :=
      c.tends mild ((laid_of_plan planned').inside p hp)
    have hkept : ∃ image, space.Exposes phase around image m' :=
      Store.kept_of_mount_error k ⟨image, hm⟩ hmount
    rw [hmount] at mounts
    cases stop with
    | error e => exact Option.some.inj mounts ▸ hkept
    | defect d => cases mounts

include interrupts

/-- An incident leaves a host that endures. -/
theorem Endures.undergo (hphase : ∀ plan, incident = .faults plan → phase plan [])
    (h : host.Endures (space.Exposes phase around) space parts)
    (undergoes : host.undergo space slots base layouts incident = some after) :
    after.Endures (space.Exposes phase around) space parts := by
  cases incident with
  | faults plan =>
    obtain rfl := Option.some.inj undergoes
    exact h.facing (hphase plan rfl)
  | operation asked =>
    by_cases hmounts : asked = .request .remount
    · subst hmounts
      obtain ⟨image, hm⟩ := h.media
      exact endures_of_mounting c mild planned hm undergoes
    · cases host with
      | mounted store =>
        rw [undergo_mounted hmounts, Option.map_eq_some_iff] at undergoes
        obtain ⟨store', operates, rfl⟩ := undergoes
        exact Store.Endures.operate c mild interrupts planned h operates
      | bare m =>
        rw [undergo_bare hmounts] at undergoes
        exact Option.some.inj undergoes ▸ h

/-- Incidents leave a host that endures, however many there are. -/
theorem Endures.undergoAll (hphase : ∀ plan, .faults plan ∈ incidents → phase plan [])
    (h : host.Endures (space.Exposes phase around) space parts)
    (undergoes : host.undergoAll space slots base layouts incidents = some after) :
    after.Endures (space.Exposes phase around) space parts := by
  induction incidents generalizing host with
  | nil => exact Option.some.inj undergoes ▸ h
  | cons incident incidents ih =>
    obtain ⟨next, hstep, hrest⟩ := Option.bind_eq_some_iff.mp undergoes
    have hnext := h.undergo c mild interrupts planned
      (fun plan hplan => hphase plan (hplan ▸ List.mem_cons_self)) hstep
    exact ih (fun plan hplan => hphase plan (List.mem_cons_of_mem _ hplan)) hnext hrest

end Steps

end Host

end CircularLog
