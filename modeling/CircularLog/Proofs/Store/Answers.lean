import CircularLog.Proofs.Partition.Table
import CircularLog.Proofs.Store.Operate

/-!
# What is asked of a store is answered

As long as the table of each partition says a run with the fill state that the store knows
(`Backed`), nothing that a caller asks troubles the store (`Untroubled`): there is an answer, or a
refusal that is no inconsistency, the latch stays open, and volumes and image stay as they are. That
is so for any key, a stale or a forged one too, any buffer and any test, because it is so for the
partitions (`Backed.operate`).
-/

namespace CircularLog

namespace Action

variable {ε σ τ α : Type}

/-- What is held beside an action is given with its value. -/
@[simp] theorem ends_holding {value : α × τ → σ → Prop} {error : ε → σ → Prop} {s : σ} (t : τ)
    (x : Action ε (σ × τ) α) : (x.holding t).Ends s value error ↔
      x.Ends (s, t) (fun a after => value (a, after.2) after.1) fun e after => error e after.1 := by
  unfold Ends holding
  cases x (s, t) with
  | ok a after => rfl
  | error stop after => cases stop <;> rfl

end Action

namespace Store

open CircularLog.Action (alone)

variable {g : Geometry} {space : Space g} {parts : List Partition} {volumes : List Volume}
  {sound : Bytes → Media g → Prop} {image : Bytes} {runs : UInt8 → Run} {store : Store g}
  {id : UInt8} {τ α : Type}

/-- The partitions that are known lie inside the space, and their tables say runs with the fill
states that are known. -/
def Backed (space : Space g) (volumes : List Volume) (image : Bytes) : Prop :=
  ∀ id volume, Volume.lookup id volumes = some volume →
    volume.partition.stop ≤ space.total ∧
      ∃ run, volume.partition.Tabled image run ∧ volume.status = run.status

/-- The volumes of partitions that have runs are backed. -/
theorem backed_of_tabled (laid : Laid space parts)
    (tabled : ∀ p ∈ parts, p.Tabled image (runs p.id)) :
    Backed space (parts.map fun p => ⟨p, (runs p.id).status⟩) image := by
  intro id volume hlookup
  obtain ⟨p, hp, rfl⟩ := List.mem_map.mp (List.mem_of_find?_eq_some hlookup)
  exact ⟨laid.inside p hp, runs p.id, tabled p hp, rfl⟩

/-- There is an answer or a refusal that is no inconsistency, and the store stays as it is. -/
def Untroubled (sound : Bytes → Media g → Prop) (space : Space g) (volumes : List Volume)
    (image : Bytes) (x : Action Error (Store g) α) (store : Store g) : Prop :=
  x.Ends store (fun _ after => after.Open sound space volumes image)
    fun e after => after.Open sound space volumes image ∧ e ≠ .inconsistent

/-- What ends untroubled leaves a store. -/
theorem Untroubled.exists_left {x : Action Error (Store g) α}
    (h : Untroubled sound space volumes image x store) :
    ∃ after, left x store = some after ∧ after.Open sound space volumes image := by
  unfold Untroubled Action.Ends at h
  unfold left
  cases hx : x store with
  | ok a after => exact ⟨after, rfl, (hx ▸ h :)⟩
  | error stop after =>
    rw [hx] at h
    cases stop with
    | error e => exact ⟨after, rfl, h.1⟩
    | defect d => exact h.elim

/-- No partition is read that is not known. -/
theorem reading_unknown (unknown : Volume.lookup id store.volumes = none)
    (f : Space g → Volume → Action Error (Media g × τ) α) (held : τ) :
    reading id f (store, held) = .error (.error .invalidRange) (store, held) := by
  obtain ⟨space, media, volumes, faulted⟩ := store
  simp only [reading, unknown]

/-- Reading a partition behind the latch is answered as the partition answers. -/
theorem Open.latched_reading_ends (h : store.Open sound space volumes image) {held : τ}
    {f : Space g → Volume → Action Error (Media g × τ) α} {value : α → Prop}
    (hf : ∀ volume, Volume.lookup id volumes = some volume →
      (f space volume).Ends (store.media, held) (fun a after => sound image after.1 ∧ value a)
        fun e after => sound image after.1 ∧ e ≠ .inconsistent) :
    (latched (reading id f)).Ends (store, held)
      (fun a after => after.1.Open sound space volumes image ∧ value a)
      fun e after => after.1.Open sound space volumes image ∧ e ≠ .inconsistent := by
  rw [ends_latched h.faulted]
  have opened {m : Media g} (hm : sound image m) :
      Open sound space volumes image ⟨space, m, store.volumes, store.faulted⟩ :=
    ⟨rfl, h.volumes, h.faulted, hm⟩
  cases hlookup : Volume.lookup id store.volumes with
  | none =>
    rw [Action.Ends, reading_unknown hlookup]
    exact ⟨fun he => absurd he (by decide), fun hne => ⟨h, hne⟩⟩
  | some volume =>
    rw [ends_reading hlookup, h.space]
    apply (hf volume (h.volumes ▸ hlookup)).mono
    · exact fun _ after hafter => ⟨opened hafter.1, hafter.2⟩
    · exact fun e after hafter => ⟨fun he => absurd he hafter.2, fun hne => ⟨opened hafter.1, hne⟩⟩

section Asking

variable (c : space.Conduct 0 space.total sound .never) (backed : Backed space volumes image)
  (h : store.Open sound space volumes image)
include c backed h

/-- What each partition answers, the store answers. -/
theorem untroubled_asking {f : Space g → Volume → Action Error (Media g) α}
    (hf : ∀ (p : Partition) (run : Run) (m : Media g), space.Conduct p.table p.stop sound .never →
      p.Tabled image run → sound image m →
        Partition.Answers sound .never image (f space ⟨p, run.status⟩) m) :
    Untroubled sound space volumes image (asking id f) store := by
  have answered (volume : Volume) (hlookup : Volume.lookup id volumes = some volume) :
      (Action.beside (f space volume)).Ends (store.media, ())
        (fun _ after => sound image after.1 ∧ True)
        fun e after => sound image after.1 ∧ e ≠ .inconsistent := by
    obtain ⟨inside, run, htabled, hstatus⟩ := backed id volume hlookup
    have hanswers := hf volume.partition run store.media (c.part inside) htabled h.media
    rw [← hstatus] at hanswers
    rw [Action.ends_beside]
    exact hanswers.ends.mono (fun _ _ hm => ⟨hm, trivial⟩) fun _ _ h => h
  rw [Untroubled, asking, Action.ends_alone]
  exact (h.latched_reading_ends answered).mono (fun _ _ h => h.1) fun _ _ h => h

/-- Asking for the oldest key leaves the store as open and as sound as it was. -/
theorem untroubled_oldestKey (id : UInt8) :
    Untroubled sound space volumes image (oldestKey id) store :=
  untroubled_asking c backed h fun _ _ _ cPart htabled hm => htabled.oldestKey cPart hm

/-- So does asking for the next key. -/
theorem untroubled_successor (key : Key) :
    Untroubled sound space volumes image (successor key) store :=
  untroubled_asking c backed h fun _ _ _ cPart htabled hm => htabled.successor cPart hm key

/-- So does asking for a length. -/
theorem untroubled_itemLength (key : Key) :
    Untroubled sound space volumes image (itemLength key) store :=
  untroubled_asking c backed h fun _ _ _ cPart htabled hm => htabled.itemLength cPart hm key

/-- So does fetching an item. -/
theorem untroubled_fetch (key : Key) (capacity : Nat) :
    Untroubled sound space volumes image (fetch key capacity) store :=
  untroubled_asking c backed h fun _ _ _ cPart htabled hm => htabled.fetch cPart hm key capacity

/-- So does searching, whatever the test says. -/
theorem find_untroubled {π : Type} (id : UInt8) (capacity : Nat) (test : Bytes → StateM π Bool)
    (held : π) :
    (find id capacity test).Ends (store, held)
      (fun _ after => after.1.Open sound space volumes image)
      fun e after => after.1.Open sound space volumes image ∧ e ≠ .inconsistent := by
  have found (volume : Volume) (hlookup : Volume.lookup id volumes = some volume) :
      (volume.partition.find space volume.status capacity test).Ends (store.media, held)
        (fun _ after => sound image after.1 ∧ True)
        fun e after => sound image after.1 ∧ e ≠ .inconsistent := by
    obtain ⟨inside, run, htabled, hstatus⟩ := backed id volume hlookup
    rw [hstatus]
    exact (htabled.find (c.part inside) h.media held capacity test).mono
      (fun _ _ hm => ⟨hm, trivial⟩) fun _ _ h => h
  rw [find_eq]
  exact (h.latched_reading_ends found).mono (fun _ _ h => h.1) fun _ _ h => h

/-- A search with the buffer of a caller is answered as one with a buffer of its own. -/
theorem seek_untroubled {π : Type} (id : UInt8) (test : Bytes → StateM π Bool) (buffer : Bytes)
    (held : π) :
    (seek id test).Ends (store, buffer, held)
      (fun _ after => after.1.Open sound space volumes image)
      fun e after => after.1.Open sound space volumes image ∧ e ≠ .inconsistent := by
  obtain ⟨filled, -, hrun⟩ := seek_eq id test store buffer held
  have hfind := find_untroubled c backed h id buffer.length test held
  unfold Action.Ends at hfind ⊢
  rw [hrun]
  cases hcase : find id buffer.length test (store, held) with
  | ok key after =>
    rw [hcase] at hfind
    exact hfind
  | error stop after =>
    rw [hcase] at hfind
    cases stop with
    | error e => exact hfind
    | defect d => exact hfind

/-- A report is given whether the latch is open or not. -/
theorem untroubled_report (id : UInt8) :
    Untroubled sound space volumes image (report id) store := by
  rw [Untroubled, report, Action.ends_alone]
  cases hlookup : Volume.lookup id store.volumes with
  | none =>
    rw [Action.Ends, reading_unknown hlookup]
    exact ⟨h, by decide⟩
  | some volume =>
    obtain ⟨inside, -⟩ := backed id volume (h.volumes ▸ hlookup)
    rw [ends_reading hlookup, Action.ends_beside, h.space]
    apply (Partition.report_answers (c.part inside) h.media volume.status).ends.mono
    · exact fun _ _ hm => ⟨rfl, h.volumes, h.faulted, hm⟩
    · exact fun _ _ hm => ⟨⟨rfl, h.volumes, h.faulted, hm.1⟩, hm.2⟩

/-- An operation that neither appends nor mounts leaves the store as it is. -/
theorem Backed.operate {slots base : Nat} {layouts : List Layout} {operation : Operation}
    (appends : ∀ id payload, operation ≠ .request (.append id payload))
    (mounts : operation ≠ .request .remount) :
    ∃ after, store.operate slots base layouts operation = some after ∧
      after.Open sound space volumes image := by
  cases operation with
  | request asked =>
    cases asked with
    | append id payload => exact absurd rfl (appends id payload)
    | remount => exact absurd rfl mounts
    | oldestKey id => exact (untroubled_oldestKey c backed h id).exists_left
    | successor key => exact (untroubled_successor c backed h key).exists_left
    | fetch key capacity => exact (untroubled_fetch c backed h key capacity).exists_left
  | itemLength key => exact (untroubled_itemLength c backed h key).exists_left
  | find id capacity test held =>
    apply Untroubled.exists_left
    rw [Untroubled, Action.ends_holding]
    exact find_untroubled c backed h id capacity test held
  | report id => exact (untroubled_report c backed h id).exists_left

end Asking

end Store

end CircularLog
