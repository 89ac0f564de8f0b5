import CircularLog.Proofs.Alike
import CircularLog.Proofs.Partition.Append
import CircularLog.Store.Operations

/-!
# Repeating what went well

An action `Repeats` over a relation of states if, wherever it ends with a value, it ends with the
same value from every related state, and leaves related states again. Here one state is that of a
run in which driver calls may misbehave as long as no reading lies, and the other that of a run
without faults, with the same contents (`Space.Mirrors`). Reading and writing repeat, as a write is
read back before it is acknowledged; so does an append, part by part, and so the two runs part only
where the first one fails. Nothing is assumed of what the memories hold.
-/

namespace CircularLog

namespace Action

variable {ε σ τ α β : Type}

/-- Where the action ends with a value, it ends with the same value from every related state, and
the states that it leaves are related again. -/
def Repeats (R : σ → σ → Prop) (x : Action ε σ α) : Prop :=
  ∀ s t, R s t → ∀ a s', x s = .ok a s' → ∃ t', x t = .ok a t' ∧ R s' t'

/-- The action never ends with a value. -/
def Barren (x : Action ε σ α) : Prop := ∀ s, x.Yields s (fun _ _ => False) fun _ => True

variable {R : σ → σ → Prop}

/-- A value is given from every state. -/
theorem repeats_pure (a : α) : Repeats R (pure a : Action ε σ α) := by
  rintro s t h _ _ ⟨⟩
  exact ⟨t, rfl, h⟩

/-- A failure never ends with a value. -/
theorem repeats_fail (e : ε) : Repeats R (fail e : Action ε σ α) := fun _ _ _ _ _ hok => nomatch hok

/-- What does not look at the state repeats. -/
theorem Settled.repeats {x : Action ε σ α} (hx : x.Settled) : Repeats R x := by
  cases hx with
  | pure a => exact repeats_pure a
  | abort d => exact fun _ _ _ _ _ hok => nomatch hok

/-- A sequence repeats if its parts do. -/
theorem Repeats.bind {x : Action ε σ β} {f : β → Action ε σ α} (hx : Repeats R x)
    (hf : ∀ b, Repeats R (f b)) : Repeats R (x >>= f) := by
  intro s t h a s' hok
  rw [bind_apply] at hok
  cases hrun : x s with
  | error e s₁ =>
    rw [hrun] at hok
    cases hok
  | ok b s₁ =>
    rw [hrun] at hok
    obtain ⟨t₁, hrun', h₁⟩ := hx s t h b s₁ hrun
    obtain ⟨t', hok', h'⟩ := hf b s₁ t₁ h₁ a s' hok
    exact ⟨t', (bind_of_ok hrun').trans hok', h'⟩

/-- Looking at the state is harmless where related states look the same. -/
theorem Repeats.get_bind {f : σ → Action ε σ α} (same : ∀ s t, R s t → f s = f t)
    (hf : ∀ s, Repeats R (f s)) : Repeats R (get >>= f) := by
  intro s t h a s' hok
  obtain ⟨t', hok', h'⟩ := hf s s t h a s' hok
  refine ⟨t', ?_, h'⟩
  show f t t = _
  rw [← same s t h, hok']

/-- A choice that does not depend on the state repeats if both of its actions do. -/
theorem Repeats.ite {x y : Action ε σ α} {p : Prop} [Decidable p] (hx : Repeats R x)
    (hy : Repeats R y) : Repeats R (if p then x else y) := by
  split
  · exact hx
  · exact hy

/-- A rescuer that only restates the failure has no part in what went well. -/
theorem Repeats.rescue {x : Action ε σ α} {handle : ε → Action ε σ α} (hx : Repeats R x)
    (barren : ∀ e, (handle e).Barren) : Repeats R (x.rescue handle) := by
  intro s t h a s' hok
  cases hrun : x s with
  | ok b s₁ =>
    rw [rescue_of_ok hrun] at hok
    cases hok
    obtain ⟨t', hrun', h'⟩ := hx s t h _ _ hrun
    exact ⟨t', rescue_of_ok hrun', h'⟩
  | error stop s₁ =>
    cases stop with
    | defect d => simp [Action.rescue, hrun] at hok
    | error e =>
      rw [rescue_of_error hrun] at hok
      have hnone := barren e s₁
      simp only [Yields, hok] at hnone

/-- What repeats does so beside states that are the same. -/
theorem Repeats.beside {x : Action ε σ α} (hx : Repeats R x) :
    Repeats (Beside R) (x.beside : Action ε (σ × τ) α) := by
  rintro ⟨s, held⟩ ⟨t, held'⟩ ⟨h, rfl⟩ a s' hok
  cases hrun : x s with
  | error e s₁ =>
    rw [beside_of_error held hrun] at hok
    cases hok
  | ok b s₁ =>
    rw [beside_of_ok held hrun] at hok
    cases hok
    obtain ⟨t₁, hrun', h₁⟩ := hx s t h _ _ hrun
    exact ⟨(t₁, held), beside_of_ok held hrun', h₁, rfl⟩

/-- An action repeats that does so beside nothing. -/
theorem Repeats.alone {x : Action ε (σ × Unit) α} (hx : Repeats (Beside R) x) :
    Repeats R x.alone := by
  intro s t h a s' hok
  unfold Action.alone at hok ⊢
  cases hrun : x (s, ()) with
  | error e after =>
    rw [hrun] at hok
    cases hok
  | ok b after =>
    rw [hrun] at hok
    cases hok
    obtain ⟨⟨t', _⟩, hrun', h', -⟩ := hx (s, ()) (t, ()) ⟨h, rfl⟩ _ _ hrun
    exact ⟨t', by rw [hrun'], h'⟩

/-- A change that keeps states related repeats. -/
theorem repeats_modify {f : σ → σ} (related : ∀ s t, R s t → R (f s) (f t)) :
    Repeats R (modify f : Action ε σ Unit) := by
  rintro s t h _ _ ⟨⟩
  exact ⟨f t, rfl, related s t h⟩

/-- A result that is there already is the same from every state. -/
theorem repeats_ofExcept (result : Except ε α) : Repeats R (ofExcept result : Action ε σ α) := by
  cases result with
  | ok a => exact repeats_pure a
  | error e => exact repeats_fail e

/-! ## Actions without a value -/

/-- A failure never ends with a value. -/
theorem barren_fail (e : ε) : Barren (fail e : Action ε σ α) := fun _ => trivial

/-- What a sequence ends with comes from its last part. -/
theorem Barren.bind {f : β → Action ε σ α} (hf : ∀ b, (f b).Barren) (x : Action ε σ β) :
    (x >>= f).Barren := by
  intro s
  rw [yields_bind]
  exact yields_of_forall x s (fun b s' => hf b s') fun _ => trivial

/-- A choice is barren if both of its actions are. -/
theorem Barren.ite {x y : Action ε σ α} {p : Prop} [Decidable p] (hx : x.Barren) (hy : y.Barren) :
    (if p then x else y).Barren := by
  split
  · exact hx
  · exact hy

end Action

open CircularLog.Action (Repeats Beside)

variable {g : Geometry}

/-! ## The space -/

namespace Space

variable {space : Space g}

/-- Two states of the media show the same; in the first no reading lies, and in the second nothing
goes wrong. -/
structure Mirrors (space : Space g) (a b : Media g) : Prop where
  honest : a.Honest
  under : b.Under .clear
  image : space.image a = space.image b
  around : space.around a = space.around b

/-- What is read in spite of faults is what is there. -/
theorem repeats_read (u : g.Uniform) (t : space.Truthful) (address length : Nat) :
    Repeats space.Mirrors (space.read address length) := by
  intro a b h bytes a' hok
  by_cases hnil : length = 0
  · rw [read, if_pos hnil] at hok ⊢
    exact Action.repeats_pure [] a b h bytes a' hok
  by_cases range : address + length ≤ space.total
  · obtain ⟨quiet, rfl⟩ := (read_ends (view_of_honest h.honest) u t (fits_contents t a)
      (Media.Quiet.refl a) range).of_ok hok
    obtain ⟨_, b', hrun, h', rfl⟩ := ((conduct_of_clear u t (space.around b)).read
      ⟨h.under, rfl, rfl⟩ (Nat.zero_le _) range).exists_ok fun _ _ => not_halts
    refine ⟨b', ?_, quiet.honest h.honest, h'.under, ?_, ?_⟩
    · rw [hrun, ← h.image, image_eq]
    · rw [h'.image, ← h.image, image_eq, image_eq, quiet.eeprom, quiet.flash]
    · rw [h'.around, ← h.around, Space.around, Space.around, quiet.flash]
  · rw [read, if_neg hnil, require_of_lt (by omega)] at hok
    cases hok

/-- What is written in spite of faults is what should be there. -/
theorem repeats_write (u : g.Uniform) (t : space.Truthful) (address : Nat) (bytes : Bytes) :
    Repeats space.Mirrors (space.write address bytes) := by
  intro a b h _ a' hok
  by_cases hnil : bytes = []
  · rw [write, if_pos hnil] at hok ⊢
    exact Action.repeats_pure _ a b h _ a' hok
  by_cases range : address + bytes.length ≤ space.total
  · obtain ⟨wrote, honest⟩ := (write_ends u t h.honest range).of_ok hok
    obtain ⟨_, b', hrun, h'⟩ := ((conduct_of_clear u t (space.around b)).write
      ⟨h.under, rfl, rfl⟩ (Nat.zero_le _) range).exists_ok fun _ _ => not_halts
    refine ⟨b', hrun, honest, h'.under, ?_, ?_⟩
    · rw [wrote.image, h.image, h'.image]
    · rw [wrote.around, h.around, h'.around]
  · rw [write, if_neg hnil, require_of_lt (by omega)] at hok
    cases hok

end Space

/-! ## The partition -/

namespace Partition

variable {space : Space g} (u : g.Uniform) (t : space.Truthful) (p : Partition)

/-- The fill state is the same beside related memories. -/
theorem repeats_status {R : Media g → Media g → Prop} : Repeats (Beside R) (status (g := g)) := by
  rintro ⟨a, held⟩ ⟨b, _⟩ ⟨h, rfl⟩ _ _ ⟨⟩
  exact ⟨(b, held), rfl, h, rfl⟩

/-- A fill state that is noted is the same beside related memories. -/
theorem repeats_setStatus {R : Media g → Media g → Prop} (held : Status) :
    Repeats (Beside R) (setStatus (g := g) held) := by
  rintro ⟨a, _⟩ ⟨b, _⟩ ⟨h, rfl⟩ _ _ ⟨⟩
  exact ⟨(b, held), rfl, h, rfl⟩

section Parts

include u t

/-- Reading a row repeats. -/
theorem repeats_readRow (row : Nat) : Repeats space.Mirrors (p.readRow space row) := by
  refine (settled_locateRow p row).repeats.bind fun _ => (Space.repeats_read u t _ _).bind
    fun bytes => ?_
  cases Row.decode bytes with
  | none => exact Action.repeats_pure _
  | some entry => exact .ite (Action.repeats_pure _) (Action.repeats_fail _)

/-- Reading a row that should hold something repeats. -/
theorem repeats_readStored (row : Nat) : Repeats space.Mirrors (p.readStored space row) := by
  refine (repeats_readRow u t p row).bind fun found => ?_
  cases found with
  | none => exact Action.repeats_fail _
  | some entry => exact Action.repeats_pure _

/-- Erasing a row repeats. -/
theorem repeats_eraseRow (row : Nat) : Repeats space.Mirrors (p.eraseRow space row) :=
  (settled_locateRow p row).repeats.bind fun _ => Space.repeats_write u t _ _

/-- Taking out the oldest item repeats. -/
theorem repeats_evict : Repeats (Beside space.Mirrors) (p.evict space) := by
  unfold evict
  have moves (row stored filled : Nat) : Repeats (Beside space.Mirrors) (do
      setStatus (g := g) ⟨← p.stepRow row, stored, filled⟩) :=
    (settled_stepRow p row).repeats.bind fun _ => repeats_setStatus _
  refine repeats_status.bind fun before => .ite ?_ ?_
  · exact (Action.repeats_fail _).bind fun _ => (repeats_readStored u t p _).beside.bind fun _ =>
      (repeats_eraseRow u t p _).beside.bind fun _ => (Action.settled_difference _ _).repeats.bind
        fun _ => (repeats_setStatus _).bind fun _ =>
          .ite ((Action.repeats_fail _).bind fun _ => moves _ _ _) (moves _ _ _)
  · exact (repeats_readStored u t p _).beside.bind fun _ =>
      (repeats_eraseRow u t p _).beside.bind fun _ => (Action.settled_difference _ _).repeats.bind
        fun _ => (repeats_setStatus _).bind fun _ =>
          .ite ((Action.repeats_fail _).bind fun _ => moves _ _ _) (moves _ _ _)

/-- Making room repeats, round by round. -/
theorem repeats_makeRoom (length rounds : Nat) :
    Repeats (Beside space.Mirrors) (p.makeRoom space length rounds) := by
  induction rounds with
  | zero => exact Action.repeats_fail _
  | succ rounds ih =>
    exact repeats_status.bind fun _ => (Action.settled_sum _ _ _).repeats.bind fun _ =>
      .ite ((repeats_evict u t p).bind fun _ => ih) (Action.repeats_pure _)

/-- Finding the place of the next item repeats. -/
theorem repeats_vacancy (held : Status) : Repeats space.Mirrors (p.vacancy space held) :=
  .ite (Action.repeats_pure _) ((settled_newestRow p _ _).repeats.bind fun _ =>
    (settled_stepRow p _).repeats.bind fun _ => (repeats_readStored u t p _).bind fun entry => by
      rw [startBehind_eq]
      exact Action.repeats_pure _)

/-- Writing an item repeats, as its three writes do. -/
theorem repeats_writeItem (row : Nat) (entry : Row) (payload : Bytes) :
    Repeats space.Mirrors (p.writeItem space row entry payload) :=
  (settled_locateRow p row).repeats.bind fun _ => (Space.repeats_write u t _ _).bind fun _ =>
    (Action.settled_difference _ _).repeats.bind fun _ =>
      (Action.settled_cut _ _).repeats.bind fun _ =>
      (Action.settled_sum _ _ _).repeats.bind fun _ => (Space.repeats_write u t _ _).bind fun _ =>
        Space.repeats_write u t _ _

/-- Putting an item into its place repeats, as what is done behind a failure is barren. -/
theorem repeats_putItem (payload : Bytes) (place : Nat × UInt32 × Nat) :
    Repeats (Beside space.Mirrors) (p.putItem space payload place) := by
  have written (entry : Row) : Repeats space.Mirrors
      ((p.writeItem space place.1 entry payload).rescue fun error => do
        (p.eraseRow space place.1).mapError fun _ => .inconsistent
        Action.fail error) :=
    (repeats_writeItem u t p _ _ _).rescue fun e => .bind (fun _ => Action.barren_fail e) _
  exact (written _).beside.bind fun _ => repeats_status.bind fun _ =>
    (Action.settled_sum _ _ _).repeats.bind fun _ =>
      (Action.settled_sum _ _ _).repeats.bind fun _ =>
      (repeats_setStatus _).bind fun _ => Action.repeats_pure _

/-- The first half of an append repeats. -/
theorem repeats_prepare (length : Nat) :
    Repeats (Beside space.Mirrors) (p.prepare space length) := by
  refine repeats_status.bind fun _ => (repeats_vacancy u t p _).beside.bind fun place =>
    repeats_status.bind fun _ => (repeats_makeRoom u t p _ _).bind fun _ =>
      repeats_status.bind fun _ => .ite ?_ (Action.repeats_pure _)
  exact (repeats_evict u t p).bind fun _ => Action.repeats_pure _

/-- An append that goes well in spite of faults goes as without them. -/
theorem repeats_append (payload : Bytes) :
    Repeats (Beside space.Mirrors) (p.append space payload) := by
  have once : Repeats (Beside space.Mirrors) (p.appendOnce space payload) := by
    rw [appendOnce_eq]
    have put := (repeats_prepare u t p payload.length).bind fun place =>
      repeats_putItem u t p payload place
    exact .ite ((Action.repeats_fail _).bind fun _ => put) put
  refine once.rescue fun e => .ite (.bind (fun _ => ?_) _) (Action.barren_fail e)
  exact Action.barren_fail e

/-- A survey of a table repeats, batch by batch. -/
theorem repeats_surveyBatches (row : Nat) (survey : Survey) (batches : List Nat) :
    Repeats space.Mirrors (p.surveyBatches space row survey batches) := by
  induction batches generalizing row survey with
  | nil => exact Action.repeats_pure _
  | cons rows batches ih =>
    exact (Space.repeats_read u t _ _).bind fun _ =>
      (Action.repeats_ofExcept _).bind fun _ => ih _ _

/-- Following the ids in a table repeats. -/
theorem repeats_followRun (row : Nat) (id : UInt32) (stored filled rows : Nat) :
    Repeats space.Mirrors (p.followRun space row id stored filled rows) := by
  induction rows generalizing row id stored filled with
  | zero => exact Action.repeats_pure _
  | succ rows ih =>
    refine (repeats_readRow u t p row).bind fun found => ?_
    cases found with
    | none => exact Action.repeats_pure _
    | some entry =>
      exact .ite ((Action.settled_sum _ _ _).repeats.bind fun _ =>
        (Action.settled_sum _ _ _).repeats.bind fun _ => (settled_stepRow p row).repeats.bind
          fun _ => ih _ _ _ _) (Action.repeats_pure _)

/-- Erasing what is left in some rows repeats. -/
theorem repeats_eraseRows (row rows : Nat) :
    Repeats space.Mirrors (p.eraseRows space row rows) := by
  induction rows generalizing row with
  | zero => exact Action.repeats_pure _
  | succ rows ih =>
    have rest := (settled_stepRow p row).repeats.bind (R := space.Mirrors) fun next => ih next
    exact (repeats_readRow u t p row).bind fun _ =>
      .ite ((repeats_eraseRow u t p row).bind fun _ => rest) rest

/-- A recovery that goes well in spite of faults goes as without them. -/
theorem repeats_recover : Repeats (Beside space.Mirrors) (p.recover space) := by
  have sets (f : Status → Status) :
      Repeats (Beside space.Mirrors) (modify fun (after : Media g × Status) =>
        (after.1, f after.2) : Action Error (Media g × Status) Unit) :=
    Action.repeats_modify fun _ _ h => ⟨h.1, congrArg f h.2⟩
  unfold recover
  rw [survey_eq]
  refine (repeats_surveyBatches u t p _ _ _).beside.bind fun survey => ?_
  rcases survey.oldest with _ | ⟨row, id⟩
  · exact sets fun _ => Status.empty
  · refine (sets fun status => { status with oldestRow := row }).bind fun _ =>
      (repeats_followRun u t p row id 0 0 p.maxItems).beside.bind fun (next, stored, filled) => ?_
    have counts := sets fun status => { status with stored, filled }
    -- What does not belong to the run is erased, if there is anything.
    have settles := Action.Repeats.ite (p := stored < survey.present)
      ((repeats_eraseRows u t p next (p.maxItems - stored)).beside.bind fun _ => counts) counts
    exact .ite ((Action.repeats_fail _).bind fun _ => settles) settles

end Parts

end Partition

/-! ## The store -/

namespace Store

variable {space : Space g} {τ α : Type}

/-- Two stores know the same, and their media show the same; in the first no reading lies, and in
the second nothing goes wrong. -/
structure Mirrors (space : Space g) (a b : Store g) : Prop where
  left : a.space = space
  right : b.space = space
  media : space.Mirrors a.media b.media
  volumes : a.volumes = b.volumes
  faulted : a.faulted = b.faulted

/-- A guarded operation repeats if the operation does. -/
theorem repeats_latched {x : Action Error (Store g × τ) α}
    (hx : Repeats (Beside (Mirrors space)) x) :
    Repeats (Beside (Mirrors space)) (latched x) := by
  refine .get_bind (fun s t h => by rw [h.1.faulted]) fun s => ?_
  have rescued : Repeats (Beside (Mirrors space)) (x.rescue fun error => do
      if error = .inconsistent then
        modify fun t => ({ t.1 with faulted := true }, t.2)
      Action.fail error) :=
    hx.rescue fun e => .ite (.bind (fun _ => Action.barren_fail e) _) (Action.barren_fail e)
  exact .ite ((Action.repeats_fail _).bind fun _ => rescued) rescued

/-- An operation that changes a partition repeats if it does on the memories. -/
theorem repeats_changing {id : UInt8} {f : Space g → Partition → Action Error (Media g × Status) α}
    (hf : ∀ p, Repeats (Beside space.Mirrors) (f space p)) :
    Repeats (Beside (Mirrors space)) (changing id f : Action Error (Store g × τ) α) := by
  rintro ⟨⟨space₁, media, volumes, faulted⟩, held⟩ ⟨⟨space₂, media', volumes', faulted'⟩, held'⟩
    ⟨h, hheld⟩ a s' hok
  obtain ⟨left, right, hmedia, hvolumes, hfaulted⟩ := h
  dsimp only at left right hmedia hvolumes hfaulted hheld
  subst left right hvolumes hfaulted hheld
  unfold changing at hok ⊢
  dsimp only at hok ⊢
  cases hlookup : Volume.lookup id volumes with
  | none =>
    rw [hlookup] at hok
    cases hok
  | some volume =>
    rw [hlookup] at hok
    dsimp only at hok ⊢
    cases hrun : f space₂ volume.partition (media, volume.status) with
    | error stop after =>
      rw [hrun] at hok
      cases hok
    | ok b after =>
      rw [hrun] at hok
      cases hok
      obtain ⟨⟨media₁, _⟩, hrun', h₁, rfl⟩ :=
        hf volume.partition (media, volume.status) (media', volume.status) ⟨hmedia, rfl⟩ _ _ hrun
      rw [hrun']
      exact ⟨_, rfl, ⟨rfl, rfl, h₁, rfl, rfl⟩, rfl⟩

/-- An append to a store that goes well in spite of faults goes as without them. -/
theorem repeats_append (u : g.Uniform) (t : space.Truthful) (id : UInt8) (payload : Bytes) :
    Repeats (Mirrors space) (append id payload) := by
  refine (repeats_latched (repeats_changing fun p => ?_)).alone
  exact (p.repeats_append u t payload).bind fun _ => Action.repeats_pure _

end Store

end CircularLog
