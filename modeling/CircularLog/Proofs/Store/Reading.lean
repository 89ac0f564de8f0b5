import CircularLog.Proofs.Media.Reading
import CircularLog.Proofs.Partition.Reading
import CircularLog.Proofs.Store.Frame
import CircularLog.Proofs.Store.Seek

/-!
# Inquiries only read

What a caller can ask of a store, but for storing an item, leaves the store as it is: the memories
are read and nothing else becomes of them, and the fill states stay (`Store.OnlyRead`). It is so for
every store, sound or not, whatever is asked and however the driver calls end. A key that is moved
is moved behind the last reading, so one that cannot be moved stays where it is
(`inquiries_only_read`).
-/

namespace CircularLog

variable {g : Geometry} {τ α : Type}

open CircularLog.Action (Keeps)

namespace Store

/-- The memories have been read since, and neither they nor the fill states have changed. -/
structure OnlyRead (store after : Store g) : Prop where
  media : Media.OnlyRead store.media after.media
  volumes : after.volumes = store.volumes
  space : after.space = store.space

/-- What a caller asks of a store, with a key, a buffer or the state of a test that it holds. -/
inductive Inquiry : {τ α : Type} → Action Error (Store g × τ) α → Prop
  | oldestKey (id : UInt8) : Inquiry ((oldestKey id).beside : Action Error (Store g × Unit) Key)
  | advance : Inquiry advance
  | find {π : Type} (id : UInt8) (capacity : Nat) (test : Bytes → StateM π Bool) :
    Inquiry (find id capacity test)
  | itemLength (key : Key) : Inquiry ((itemLength key).beside : Action Error (Store g × Unit) Nat)
  | load (key : Key) : Inquiry (load key)
  | report (id : UInt8) : Inquiry ((report id).beside : Action Error (Store g × Unit) String)

variable {store : Store g} {id : UInt8}

/-- Where a partition is only read, so is the store. -/
theorem onlyRead_reading {f : Space g → Volume → Action Error (Media g × τ) α}
    (hf : ∀ space volume, DrivenBeside Call.Reads (f space volume)) :
    Keeps (fun after : Store g × τ => OnlyRead store after.1) (reading id f) := by
  rintro ⟨⟨space, m, volumes, faulted⟩, held⟩ h
  unfold Action.Yields reading
  dsimp only
  cases Volume.lookup id volumes with
  | none => exact h
  | some volume =>
    have hrun := (hf space volume).onlyRead store.media (m, held) h.media
    unfold Action.Yields at hrun
    dsimp only
    cases hcase : f space volume (m, held) with
    | ok a after =>
      rw [hcase] at hrun
      exact ⟨hrun, h.volumes, h.space⟩
    | error stop after =>
      rw [hcase] at hrun
      exact ⟨hrun, h.volumes, h.space⟩

/-- The latch is no part of what is read. -/
theorem onlyRead_latched {f : Space g → Volume → Action Error (Media g × τ) α}
    (hf : ∀ space volume, DrivenBeside Call.Reads (f space volume)) :
    Keeps (fun after : Store g × τ => OnlyRead store after.1) (latched (reading id f)) :=
  keeps_latched (onlyRead_reading hf) fun _ h => ⟨h.media, h.volumes, h.space⟩

/-- So it is where nothing is held beside the store. -/
theorem onlyRead_asking {f : Space g → Volume → Action Error (Media g) α}
    (hf : ∀ space volume, Driven Call.Reads (f space volume)) :
    Keeps (OnlyRead store) (asking id f) :=
  keeps_alone (onlyRead_latched fun space volume => .beside (hf space volume))

/-- However an inquiry ends, it has only read. -/
theorem Inquiry.onlyRead {x : Action Error (Store g × τ) α} (inquiry : Inquiry x) :
    Keeps (fun after : Store g × τ => OnlyRead store after.1) x := by
  cases inquiry with
  | oldestKey id =>
    exact (onlyRead_asking fun space volume =>
      volume.partition.driven_oldestKey space volume.status).beside
  | advance =>
    have asks (key : Key) : Keeps (OnlyRead store) (successor key) :=
      onlyRead_asking fun space volume => volume.partition.driven_successor space volume.status key
    exact Action.keeps_get.bind fun held => (asks held.2).beside.bind fun _ =>
      Action.keeps_modify fun _ h => h
  | find id capacity test =>
    rw [find_eq]
    exact onlyRead_latched fun space volume =>
      volume.partition.driven_find space volume.status capacity test
  | itemLength key =>
    exact (onlyRead_asking fun space volume => volume.partition.driven_itemLength space key).beside
  | load key =>
    have asks (capacity : Nat) : Keeps (OnlyRead store) (fetch key capacity) :=
      onlyRead_asking fun space volume => volume.partition.driven_fetch space key capacity
    refine Action.keeps_get.bind fun held => (asks held.2.length).beside.bind fun payload => ?_
    exact .bind (Action.keeps_modify fun _ h => h) fun _ => Action.keeps_pure payload.length
  | report id =>
    have reports : Keeps (OnlyRead store) (Store.report id) := keeps_alone (onlyRead_reading
      fun space volume => .beside (volume.partition.driven_report space volume.status))
    exact reports.beside

/-- A key that cannot be moved stays. -/
theorem key_of_advance_error {key : Key} {stop : Stop Error}
    (stops : advance.told (store, key) = some stop) : (advance.leaves (store, key)).2 = key := by
  unfold Action.told at stops
  unfold Action.leaves
  unfold advance at stops ⊢
  simp only [Action.bind_apply, Action.get_apply, Action.beside] at stops ⊢
  cases hrun : successor key store with
  | ok next after => simp [hrun] at stops
  | error stop' after => rfl

/-- Whatever is asked of a store, and of a space, reads the memories and does nothing else, whatever
they hold and however the driver calls end. A key that is not moved, for an error or for a defect,
is the key that it was. -/
theorem inquiries_only_read (store : Store g) :
    (∀ {τ α : Type} (x : Action Error (Store g × τ) α), Inquiry x → ∀ held : τ,
      OnlyRead store (x.leaves (store, held)).1) ∧
    (∀ (space : Space g) (address length : Nat) (m : Media g),
      Media.OnlyRead m ((space.read address length).leaves m)) ∧
    ∀ (key : Key) (stop : Stop Error), advance.told (store, key) = some stop →
      (advance.leaves (store, key)).2 = key := by
  refine ⟨fun x inquiry held => ?_, fun space address length m => ?_, fun key stop => ?_⟩
  · exact inquiry.onlyRead.leaves ⟨.refl _, rfl, rfl⟩
  · exact ((Space.driven_read space address length).onlyRead m).leaves (.refl m)
  · exact key_of_advance_error

/-- The second reading of the eeprom fails. -/
def relapsing : Store (.tinyWith 20) where
  space := Space.near
  media :=
    { Media.fresh (.tinyWith 20) with
      faults := [⟨[(.eeprom, .read)], 1, some 1, ⟨0, some .other, [], false⟩⟩] }
  volumes := [⟨Partition.near, ⟨0, 1, 3⟩⟩]
  faulted := false

/-- A key is stale, and the row of the oldest item cannot be read. -/
theorem inquiries_only_read_relapsing :
    advance.told (relapsing, ⟨7, 0, 0⟩) = some (.error (.device .eeprom .other)) ∧
      (advance.leaves (relapsing, ⟨7, 0, 0⟩)).2 = ⟨7, 0, 0⟩ ∧
      OnlyRead relapsing (advance.leaves (relapsing, ⟨7, 0, 0⟩)).1 := by
  have stops : advance.told (relapsing, ⟨7, 0, 0⟩) = some (.error (.device .eeprom .other)) := by
    decide +kernel
  obtain ⟨reads, -, stays⟩ := inquiries_only_read relapsing
  exact ⟨stops, stays _ _ stops, reads _ .advance ⟨7, 0, 0⟩⟩

end Store

end CircularLog
