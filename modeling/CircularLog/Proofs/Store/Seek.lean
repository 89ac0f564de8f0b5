import CircularLog.Proofs.Partition.Words
import CircularLog.Store.Operations

/-!
# Searching with a buffer

A caller that looks for an item lends a buffer. Each payload is copied to the front of it, and so
many of its first bytes are put to the test: they are those of the payload, whatever was in the
buffer before (`buffered_judged`). So the search does what one does that tests each payload by
itself, and the buffer is filled in some way and keeps its length (`Buffered`). A search with a
buffer of its own is that one (`find_eq`), and one with the buffer of a caller does the same beside
it (`seek_eq`).
-/

namespace CircularLog

variable {g : Geometry} {σ α β π : Type} {capacity : Nat}

/-! ## Actions beside a buffer -/

namespace Action

/-- A result, with what has become of a buffer. -/
def withBuffer (buffer : Bytes) :
    EStateM.Result (Stop Error) (σ × π) α → EStateM.Result (Stop Error) (σ × Bytes × π) α
  | .ok a (s, state) => .ok a (s, buffer, state)
  | .error stop (s, state) => .error stop (s, buffer, state)

/-- The second action does what the first one does, and fills a buffer of so many bytes in some
way. -/
def Buffered (capacity : Nat) (x : Action Error (σ × π) α) (x' : Action Error (σ × Bytes × π) α) :
    Prop :=
  ∀ s buffer state, buffer.length = capacity →
    ∃ filled, filled.length = capacity ∧ x' (s, buffer, state) = withBuffer filled (x (s, state))

/-- A value is the same beside a buffer. -/
theorem buffered_pure (a : α) : Buffered capacity (pure a : Action Error (σ × π) α) (pure a) :=
  fun _ buffer _ hlen => ⟨buffer, hlen, rfl⟩

/-- A failure is the same beside a buffer. -/
theorem buffered_fail (e : Error) : Buffered capacity (fail e : Action Error (σ × π) α) (fail e) :=
  fun _ buffer _ hlen => ⟨buffer, hlen, rfl⟩

/-- What runs beside the state runs beside the buffer too. -/
theorem buffered_beside (x : Action Error σ α) :
    Buffered capacity (x.beside : Action Error (σ × π) α) x.beside := by
  intro s buffer state hlen
  unfold beside
  dsimp only
  cases x s <;> exact ⟨buffer, hlen, rfl⟩

/-- A sequence goes on with the buffer that its first part has filled. -/
theorem Buffered.bind {x : Action Error (σ × π) β} {x' : Action Error (σ × Bytes × π) β}
    {f : β → Action Error (σ × π) α} {f' : β → Action Error (σ × Bytes × π) α}
    (hx : Buffered capacity x x') (hf : ∀ b, Buffered capacity (f b) (f' b)) :
    Buffered capacity (x >>= f) (x' >>= f') := by
  intro s buffer state hlen
  obtain ⟨filled, hfilled, hrun⟩ := hx s buffer state hlen
  rw [bind_apply, bind_apply, hrun]
  cases x (s, state) with
  | ok b t => exact hf b t.1 filled t.2 hfilled
  | error stop t => exact ⟨filled, hfilled, rfl⟩

/-- A choice does not depend on the buffer. -/
theorem Buffered.ite {x y : Action Error (σ × π) α} {x' y' : Action Error (σ × Bytes × π) α}
    {p : Prop} [Decidable p] (hx : Buffered capacity x x') (hy : Buffered capacity y y') :
    Buffered capacity (if p then x else y) (if p then x' else y') := by
  split
  · exact hx
  · exact hy

/-- With a buffer of its own, an action does what it does beside the buffer. -/
theorem Buffered.owning_eq {x : Action Error (σ × π) α} {x' : Action Error (σ × Bytes × π) α}
    (h : Buffered capacity x x') : owning (List.replicate capacity 0) x' = x := by
  funext ⟨s, state⟩
  obtain ⟨filled, -, hrun⟩ := h s (List.replicate capacity 0) state List.length_replicate
  unfold owning
  dsimp only
  rw [hrun]
  cases x (s, state) <;> rfl

end Action

open CircularLog.Action (Buffered)

/-! ## The search -/

namespace Partition

variable {space : Space g} {p : Partition}

/-- An item that is there is not longer than the buffer it is fetched for. -/
theorem length_of_fetch? {key : Key} {m m' : Media g} {payload : Bytes}
    (h : p.fetch? space key capacity m = .ok (some payload) m') : payload.length ≤ capacity := by
  have fits : (p.fetch? space key capacity).Yields m
      (fun item _ => ∀ payload, item = some payload → payload.length ≤ capacity) fun _ => True := by
    refine Action.Yields.rescue ?_ fun e m₁ _ => ?_
    · rw [Action.yields_map]
      refine (Action.yields_of_ok fun _ _ => length_of_fetch).mono ?_ fun _ h => h
      exact fun _ _ hle _ heq => Option.some.inj heq ▸ hle
    · rw [Action.yields_ite]
      exact ⟨fun _ => nofun, fun _ => trivial⟩
  exact fits.of_ok h payload rfl

/-- The front of a buffer to which a payload has been copied is the payload. -/
theorem part_overlay {ε : Type} {buffer payload : Bytes} (h : payload.length ≤ buffer.length) :
    (Action.part (buffer.overlay 0 payload) 0 payload.length : Action ε σ Bytes) =
      pure payload := by
  have hinside : 0 + payload.length ≤ buffer.length := by omega
  rw [Action.part_eq (Nat.zero_le _) (by rwa [Bytes.length_overlay hinside]), Nat.sub_zero,
    Bytes.slice_overlay hinside]

section Loading

variable {key : Key} {m m₁ : Media g} {buffer : Bytes}

/-- Where looking for an item fails, so does loading it, and the buffer stays as it is. -/
theorem load?_of_error {stop : Stop Error}
    (h : p.fetch? space key buffer.length m = .error stop m₁) (state : π) :
    p.load? space key (m, buffer, state) = .error stop (m₁, buffer, state) := by
  show ((p.fetch? space key buffer.length).beside >>= _) (m, buffer, state) = _
  rw [Action.bind_apply, Action.beside_of_error _ h]

/-- Where the item is not there any more, nothing is loaded. -/
theorem load?_of_none (h : p.fetch? space key buffer.length m = .ok none m₁) (state : π) :
    p.load? space key (m, buffer, state) = .ok none (m₁, buffer, state) := by
  show ((p.fetch? space key buffer.length).beside >>= _) (m, buffer, state) = _
  rw [Action.bind_apply, Action.beside_of_ok _ h]
  rfl

/-- Where it is there, its payload is copied to the front of the buffer. -/
theorem load?_of_some {payload : Bytes}
    (h : p.fetch? space key buffer.length m = .ok (some payload) m₁) (state : π) :
    p.load? space key (m, buffer, state) =
      .ok (some payload.length) (m₁, buffer.overlay 0 payload, state) := by
  show ((p.fetch? space key buffer.length).beside >>= _) (m, buffer, state) = _
  rw [Action.bind_apply, Action.beside_of_ok _ h]
  rfl

end Loading

/-- The test of an item that is loaded into a buffer is the test of its payload. -/
theorem buffered_judged (space : Space g) (p : Partition) (capacity : Nat)
    (test : Bytes → StateM π Bool) (key : Key) :
    Buffered capacity ((p.fetch? space key capacity).beside >>= tested test)
      (p.load? space key >>= judged test) := by
  intro m buffer state hlen
  rw [Action.bind_apply, Action.bind_apply]
  cases hrun : p.fetch? space key capacity m with
  | error stop m₁ =>
    rw [Action.beside_of_error _ hrun, load?_of_error (hlen ▸ hrun)]
    exact ⟨buffer, hlen, rfl⟩
  | ok item m₁ =>
    rw [Action.beside_of_ok _ hrun]
    cases item with
    | none =>
      rw [load?_of_none (hlen ▸ hrun)]
      exact ⟨buffer, hlen, rfl⟩
    | some payload =>
      rw [load?_of_some (hlen ▸ hrun)]
      -- The payload is copied into the buffer and taken out of it for the test.
      have hle := hlen ▸ length_of_fetch? hrun
      have hinside : 0 + payload.length ≤ buffer.length := by omega
      refine ⟨buffer.overlay 0 payload, by rw [Bytes.length_overlay hinside, hlen], ?_⟩
      simp only [Action.bind_apply, Action.pure_apply, judged, Action.get_apply, part_overlay hle,
        Action.modifyGet_apply]
      rfl

/-- From a key on, a search with a buffer goes as the one that tests each payload by itself. -/
theorem buffered_seekFrom (space : Space g) (p : Partition) (status : Status) (capacity : Nat)
    (test : Bytes → StateM π Bool) (key : Key) (items : Nat) :
    Buffered capacity (p.findFrom space status capacity test key items)
      (p.seekFrom space status test key items) := by
  induction items generalizing key with
  | zero => exact Action.buffered_fail _
  | succ items ih =>
    unfold findFrom seekFrom
    rw [← bind_assoc, ← bind_assoc]
    refine (buffered_judged space p capacity test key).bind fun _ => ?_
    exact (Action.buffered_pure key).ite ((Action.buffered_beside _).bind ih)

/-- A search with a buffer goes as the one that tests each payload by itself. -/
theorem buffered_seek (space : Space g) (p : Partition) (status : Status) (capacity : Nat)
    (test : Bytes → StateM π Bool) :
    Buffered capacity (p.find space status capacity test) (p.seek space status test) :=
  (Action.buffered_beside _).bind fun key => buffered_seekFrom space p status capacity test key _

end Partition

namespace Store

/-- What is read beside a buffer is read for the same partition. -/
theorem buffered_reading (id : UInt8) {f : Space g → Volume → Action Error (Media g × π) α}
    {f' : Space g → Volume → Action Error (Media g × Bytes × π) α}
    (hf : ∀ space volume, Buffered capacity (f space volume) (f' space volume)) :
    Buffered capacity (reading id f) (reading id f') := by
  rintro ⟨space, m, volumes, faulted⟩ buffer state hlen
  unfold reading
  dsimp only
  cases Volume.lookup id volumes with
  | none => exact ⟨buffer, hlen, rfl⟩
  | some volume =>
    obtain ⟨filled, hfilled, hrun⟩ := hf space volume m buffer state hlen
    refine ⟨filled, hfilled, ?_⟩
    dsimp only
    rw [hrun]
    cases f space volume (m, state) <;> rfl

/-- The latch knows nothing of the buffer. -/
theorem buffered_latched {x : Action Error (Store g × π) α}
    {x' : Action Error (Store g × Bytes × π) α} (hx : Buffered capacity x x') :
    Buffered capacity (latched x) (latched x') := by
  intro store buffer state hlen
  cases hlatch : store.faulted with
  | true =>
    rw [latched_of_faulted x state hlatch, latched_of_faulted x' (buffer, state) hlatch]
    exact ⟨buffer, hlen, rfl⟩
  | false =>
    obtain ⟨filled, hfilled, hrun⟩ := hx store buffer state hlen
    refine ⟨filled, hfilled, ?_⟩
    simp only [latched, Action.bind_apply, Action.get_apply, hlatch, Bool.false_eq_true, if_false,
      Action.rescue, hrun]
    cases x (store, state) with
    | ok a after => rfl
    | error stop after =>
      cases stop with
      | defect d => rfl
      | error e =>
        by_cases he : e = .inconsistent
        · simp only [Action.withBuffer, he, if_true, Action.bind_apply]
          rfl
        · simp only [Action.withBuffer, he, if_false]
          rfl

/-- A search of a store tests each payload by itself. -/
theorem buffered_seek (id : UInt8) (capacity : Nat) (test : Bytes → StateM π Bool) :
    Buffered capacity
      (latched <| reading id fun (space : Space g) volume =>
        volume.partition.find space volume.status capacity test)
      (seek id test) :=
  buffered_latched <| buffered_reading id fun space volume =>
    volume.partition.buffered_seek space volume.status capacity test

/-- With a buffer of its own, a search tests each payload by itself. -/
theorem find_eq (id : UInt8) (capacity : Nat) (test : Bytes → StateM π Bool) :
    (find id capacity test : Action Error (Store g × π) Key) =
      latched (reading id fun space volume =>
        volume.partition.find space volume.status capacity test) :=
  (buffered_seek id capacity test).owning_eq

/-- Beside the buffer of a caller, a search does what one does whose own buffer is as large, and the
caller gets back a buffer of the same length. -/
theorem seek_eq (id : UInt8) (test : Bytes → StateM π Bool) (store : Store g) (buffer : Bytes)
    (state : π) : ∃ filled, filled.length = buffer.length ∧ seek id test (store, buffer, state) =
      Action.withBuffer filled (find id buffer.length test (store, state)) := by
  rw [find_eq]
  exact buffered_seek id buffer.length test store buffer state rfl

end Store

end CircularLog
