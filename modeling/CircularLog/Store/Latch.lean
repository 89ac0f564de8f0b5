import CircularLog.Store.Basic

/-!
# The latch

Once an operation has found the memories inconsistent, the store refuses every further one: the
latch is set and stays set. An operation reaches the memories through `reading` or `changing`,
which find the partition and put its fill state back. The operations carry along what the caller
holds, a key, a buffer or the state of a test, so that it is clear what becomes of that too.
-/

namespace CircularLog

namespace Store

variable {g : Geometry} {τ α : Type}

/-- Refuse if the latch is set, and set it if the action finds an inconsistency. -/
def latched (x : Action Error (Store g × τ) α) : Action Error (Store g × τ) α := do
  if (← get).1.faulted then
    Action.fail .inconsistent
  x.rescue fun error => do
    if error = .inconsistent then
      modify fun (store, held) => ({ store with faulted := true }, held)
    Action.fail error

/-- Behind a set latch nothing happens. -/
theorem latched_of_faulted (x : Action Error (Store g × τ) α) {store : Store g} (held : τ)
    (h : store.faulted = true) :
    latched x (store, held) = .error (.error .inconsistent) (store, held) := by
  simp [latched, Action.bind_apply, h]

/-- Let a partition's memories be read, beside something the caller holds. -/
def reading (id : UInt8) (f : Space g → Volume → Action Error (Media g × τ) α) :
    Action Error (Store g × τ) α := fun (⟨space, media, volumes, faulted⟩, held) =>
  match Volume.lookup id volumes with
  | none => .error (.error .invalidRange) (⟨space, media, volumes, faulted⟩, held)
  | some volume =>
    match f space volume (media, held) with
    | .ok a (media, held) => .ok a (⟨space, media, volumes, faulted⟩, held)
    | .error stop (media, held) => .error stop (⟨space, media, volumes, faulted⟩, held)

/-- Let a partition's memories and fill state be changed, beside something the caller holds. -/
def changing (id : UInt8) (f : Space g → Partition → Action Error (Media g × Status) α) :
    Action Error (Store g × τ) α := fun (⟨space, media, volumes, faulted⟩, held) =>
  match Volume.lookup id volumes with
  | none => .error (.error .invalidRange) (⟨space, media, volumes, faulted⟩, held)
  | some volume =>
    match f space volume.partition (media, volume.status) with
    | .ok a (media, status) =>
      .ok a (⟨space, media, Volume.update id status volumes, faulted⟩, held)
    | .error stop (media, status) =>
      .error stop (⟨space, media, Volume.update id status volumes, faulted⟩, held)

end Store

end CircularLog
