import CircularLog.Proofs.Space.Discipline
import CircularLog.Proofs.Store.Host

/-!
# Runs over all that can be asked

A run in which the space is read, written and filled, stores are mounted with any layouts, and
operations are asked of them, in any order and with any arguments, while driver calls meet other
faults from time to time. Whatever the memories hold and whatever becomes of the calls, such a run
keeps what the calls that the space admits keep (`Host.Orderly.meet`, `Host.Orderly.meetAll`), as
the partitions of a store, sound or not, are nothing but reads and writes of the space. So in a
whole run only such calls are made (`disciplined_of_meetAll`).
-/

namespace CircularLog

variable {g : Geometry} {α : Type} {space : Space g} {parts : List Partition}
  {kept : Media g → Prop} {slots base : Nat} {layouts : List Layout}

open CircularLog.Action (Keeps)

/-- What can be asked of a host: something of the space, a store with some layouts, or an
operation of the store; or driver calls meet other faults from now on, and the memories have other
failings. -/
inductive Demand : Type 1 where
  | faults (plan : List Fault) (timeouts busyPolls : Nat) (stuck : Option Nat)
  | space (asked : Space.Request)
  | mount (slots base : Nat) (layouts : List Layout)
  | operation (asked : Store.Operation)

namespace Store

/-- The store that an operation leaves, however it ends. To mount again is left to the host. -/
def behind (store : Store g) : Operation → Store g
  | .request (.append id payload) => (append id payload).leaves store
  | .request (.oldestKey id) => (oldestKey id).leaves store
  | .request (.successor key) => (successor key).leaves store
  | .request (.fetch key capacity) => (fetch key capacity).leaves store
  | .request .remount => store
  | .itemLength key => (itemLength key).leaves store
  | .find id capacity test held => ((find id capacity test).holding held).leaves store
  | .report id => (report id).leaves store

/-- Any operation of a shaped store leaves a shaped store. -/
theorem Shaped.behind {store : Store g} (laid : Laid space parts)
    (k : ∀ p ∈ parts, space.Tends p.base p.stop kept) (h : store.Shaped space parts kept)
    (asked : Operation) :
    (store.behind asked).Shaped space parts kept := by
  have reads (p : Partition) (hp : p ∈ parts) : space.Reads kept := (k p hp).toReads
  cases asked with
  | request request =>
    cases request with
    | append id payload => exact (keeps_append laid k id payload).leaves h
    | oldestKey id => exact ((keeps_oldestKey laid reads id).leaves ⟨h, rfl⟩).1
    | successor key => exact ((keeps_successor laid reads key).leaves ⟨h, rfl⟩).1
    | fetch key capacity => exact ((keeps_fetch laid reads key capacity).leaves ⟨h, rfl⟩).1
    | remount => exact h
  | itemLength key => exact ((keeps_itemLength laid reads key).leaves ⟨h, rfl⟩).1
  | find id capacity test held =>
    exact ((keeps_find laid reads id capacity test held).leaves ⟨h, rfl⟩).1
  | report id => exact ((keeps_report laid reads id).leaves ⟨h, rfl⟩).1

end Store

namespace Host

/-- A host with other memories. -/
def atop (media : Media g) : Host g → Host g
  | mounted store => mounted { store with media }
  | bare _ => bare media

/-- The host behind an attempt to mount a store, however it ends. -/
def started (space : Space g) (slots base : Nat) (layouts : List Layout)
    (media : Media g) : Host g :=
  match Store.mount space slots base layouts media with
  | .ok store => mounted store
  | .error (_, media) => bare media

/-- The host behind a demand, however it ends. Where there is no store, no operation is done. -/
def meet (space : Space g) : Host g → Demand → Host g
  | host, .faults plan timeouts busyPolls stuck =>
    host.atop (host.media.failing plan timeouts busyPolls stuck)
  | host, .space asked => host.atop ((space.serve asked).leaves host.media)
  | host, .mount slots base layouts => started space slots base layouts host.media
  | mounted store, .operation asked => mounted (store.behind asked)
  | bare media, .operation _ => bare media

/-- The host behind some demands, one after the other. -/
def meetAll (space : Space g) (host : Host g) (demands : List Demand) : Host g :=
  demands.foldl (meet space) host

/-- The memories have the property, and a store has the partitions of some plan, with the rows of
their oldest items in their tables. -/
def Orderly (space : Space g) (kept : Media g → Prop) : Host g → Prop
  | mounted store => ∃ parts, Laid space parts ∧ store.Shaped space parts kept
  | bare media => kept media

/-- With or without a store, the memories have the property. -/
theorem Orderly.media {host : Host g} (h : host.Orderly space kept) : kept host.media := by
  cases host with
  | mounted store =>
    obtain ⟨_, -, shaped⟩ := h
    exact shaped.media
  | bare media => exact h

/-- A host stays orderly over other memories with the property. -/
theorem Orderly.atop {host : Host g} (h : host.Orderly space kept) {m : Media g} (hm : kept m) :
    (host.atop m).Orderly space kept := by
  cases host with
  | mounted store =>
    obtain ⟨parts, laid, shaped⟩ := h
    exact ⟨parts, laid, shaped.space, shaped.partitions, shaped.rows, hm⟩
  | bare media => exact hm

/-- Mounting leaves an orderly host. -/
theorem orderly_started {m : Media g} (hm : kept m)
    (k : ∀ parts, space.plan slots base layouts = .ok parts →
      ∀ p ∈ parts, space.Tends p.base p.stop kept) :
    (started space slots base layouts m).Orderly space kept := by
  unfold started
  cases hmount : Store.mount space slots base layouts m with
  | ok store =>
    obtain ⟨parts, planned⟩ := Store.exists_plan_of_mount hmount
    exact ⟨parts, laid_of_plan planned, Store.shaped_of_mount planned (k parts planned) hm hmount⟩
  | error stop => exact Store.kept_of_mount_error k hm hmount

section Meeting

variable (k : space.Guards kept) (u : g.Uniform) (t : space.Truthful)
  (fails : ∀ m plan timeouts busyPolls stuck, kept m →
    kept (m.failing plan timeouts busyPolls stuck))
include k u t fails

/-- What the calls that the space admits keep is kept by each demand. -/
theorem Orderly.meet {host : Host g} (h : host.Orderly space kept) (demand : Demand) :
    (host.meet space demand).Orderly space kept := by
  have tends {parts : List Partition} (laid : Laid space parts) (p : Partition) (hp : p ∈ parts) :
      space.Tends p.base p.stop kept := k.tends u t (laid.inside p hp)
  cases demand with
  | faults plan timeouts busyPolls stuck => exact h.atop (fails _ _ _ _ _ h.media)
  | space asked => exact h.atop ((k.serve u t asked).leaves h.media)
  | mount slots base layouts =>
    exact orderly_started h.media fun _ planned => tends (laid_of_plan planned)
  | operation asked =>
    cases host with
    | mounted store =>
      obtain ⟨parts, laid, shaped⟩ := h
      exact ⟨parts, laid, shaped.behind laid (tends laid) asked⟩
    | bare media => exact h

/-- What the calls that the space admits keep is kept by any demands, one after the other. -/
theorem Orderly.meetAll {host : Host g} (h : host.Orderly space kept) (demands : List Demand) :
    (host.meetAll space demands).Orderly space kept := by
  induction demands generalizing host with
  | nil => exact h
  | cons demand demands ih => exact ih (h.meet k u t fails demand)

end Meeting

/-- Whatever is asked of a space and of stores on it, and whatever faults the driver calls meet, all
calls that are made are for cells that the space may use: readings and writes of the eeprom inside
its size, readings and writes of whole words inside the range of the flash, and erasing of one page
of the range. The memories refuse no such call. The flash around the range stays as it was. -/
theorem disciplined_of_meetAll {start stop : UInt32}
    (made : Space.create g g.eepromBytes g.flashBytes start stop = .ok space) (u : g.Uniform)
    (m : Media g) (demands : List Demand) :
    ∃ calls, ((bare m).meetAll space demands).media.journal = calls ++ m.journal ∧
      (∀ call ∈ calls, space.Admits call ∧ call.Accepted g) ∧
      space.around ((bare m).meetAll space demands).media = space.around m := by
  have t := Space.truthful_of_create made
  have orderly : (bare m).Orderly space (space.Disciplined m) := Space.Disciplined.refl space m
  have h := (orderly.meetAll (Space.guards_disciplined t m) u t
    (fun _ _ _ _ _ hm => ⟨hm.calls, hm.around⟩) demands).media
  obtain ⟨calls, hjournal, admitted⟩ := h.calls
  exact ⟨calls, hjournal, fun call hcall =>
    ⟨admitted call hcall, Space.accepted_of_admits u t (admitted call hcall)⟩, h.around⟩

/-- A store is mounted and appends an item while a reading of the flash lies and a call times out,
and then the space is read over its end. -/
theorem disciplined_of_meetAll_small :
    ∃ calls : List Call, calls.length = 23 ∧
      ∀ call ∈ calls, Space.small.Admits call ∧ call.Accepted .small := by
  let demands : List Demand := [.mount 1 0 [⟨7, 28, 1⟩],
    .faults [⟨[(.flash, .read)], 0, some 1, ⟨0, none, [0xFF], false⟩⟩] 1 2 none,
    .operation (.request (.append 7 [1, 2, 3])), .space (.read 20 9)]
  have count : ((bare (Media.fresh .small)).meetAll Space.small demands).media.journal.length =
      23 := by decide +kernel
  obtain ⟨calls, hjournal, hcalls, -⟩ :=
    disciplined_of_meetAll Space.create_small Geometry.uniform_small (Media.fresh .small) demands
  have hall : calls ++ [] = calls := List.append_nil calls
  refine ⟨calls, ?_, hcalls⟩
  rw [← hall]
  exact hjournal ▸ count

end Host

end CircularLog
