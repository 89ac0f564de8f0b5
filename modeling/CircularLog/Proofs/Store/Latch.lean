import CircularLog.Proofs.Space.Range
import CircularLog.Proofs.Store.Queues
import CircularLog.Proofs.Store.Seek
import CircularLog.Store.Report

/-!
# The latch tells what has been found

An action `Latches` if it does nothing behind a set latch, and leaves the latch set exactly if it
finds an inconsistency. What runs behind `latched` has only to leave the latch alone for that
(`latches_latched`), wherever the inconsistency comes from; it stays so when the answer is put into
a key or a buffer of the caller. So in any run of a mounted store the latch is set if and only if
some operation has found an inconsistency, and from then on all of them are refused
(`latch_of_mount`).
-/

namespace CircularLog

variable {g : Geometry} {σ τ α β : Type}

open CircularLog.Action (Avoids alone)

/-! ## Latching actions -/

/-- Behind a set latch the action does nothing. It leaves the latch set exactly if it finds an
inconsistency. -/
structure Latches (latch : σ → Bool) (x : Action Error σ α) : Prop where
  shut : ∀ s, latch s = true → x s = .error (.error .inconsistent) s
  sets : ∀ s, latch (x.leaves s) = true ↔ x.told s = some (.error .inconsistent)

namespace Latches

variable {latch : σ → Bool}

/-- An action latches as well where nothing is held beside the latch. -/
theorem alone {x : Action Error (σ × Unit) α} (h : Latches (latch ·.1) x) :
    Latches latch (alone x) where
  shut s hs := by
    unfold Action.alone
    rw [h.shut (s, ()) hs]
  sets s := by
    have same := h.sets (s, ())
    unfold Action.leaves Action.told at same ⊢
    unfold Action.alone
    cases hrun : x (s, ()) <;> simpa only [hrun] using same

/-- And where something is, that it leaves alone. -/
theorem beside {x : Action Error σ α} (h : Latches latch x) :
    Latches (latch ·.1) (x.beside : Action Error (σ × τ) α) where
  shut s hs := Action.beside_of_error s.2 (h.shut s.1 hs)
  sets s := by
    have same := h.sets s.1
    unfold Action.leaves Action.told at same ⊢
    unfold Action.beside
    cases hrun : x s.1 <;> simpa only [hrun] using same

/-- What is looked at does not matter. -/
theorem get_bind {f : σ → Action Error σ α} (h : ∀ s, Latches latch (f s)) :
    Latches latch (get >>= f) where
  shut s hs := (h s).shut s hs
  sets s := (h s).sets s

/-- What follows may do anything that always ends with a value and leaves the latch alone. -/
theorem bind_ok {x : Action Error σ β} {f : β → Action Error σ α} (h : Latches latch x)
    (goes : ∀ b s, ∃ a s', f b s = .ok a s' ∧ latch s' = latch s) : Latches latch (x >>= f) where
  shut s hs := Action.bind_of_error (h.shut s hs)
  sets s := by
    have same := h.sets s
    unfold Action.leaves Action.told at same ⊢
    rw [Action.bind_apply]
    cases hrun : x s with
    | ok b s₁ =>
      obtain ⟨a, s', hgoes, hlatch⟩ := goes b s₁
      simpa only [hrun, hgoes, hlatch] using same
    | error stop s₁ => simpa only [hrun] using same

end Latches

namespace Store

/-! ## The operations -/

/-- Reading a partition leaves the latch alone. -/
theorem faulted_reading (id : UInt8) (f : Space g → Volume → Action Error (Media g × τ) α)
    (s : Store g × τ) : ((reading id f).leaves s).1.faulted = s.1.faulted := by
  obtain ⟨⟨space, media, volumes, faulted⟩, held⟩ := s
  unfold Action.leaves reading
  dsimp only
  cases Volume.lookup id volumes with
  | none => rfl
  | some volume =>
    dsimp only
    cases f space volume (media, held) <;> rfl

/-- Changing a partition leaves the latch alone. -/
theorem faulted_changing (id : UInt8) (f : Space g → Partition → Action Error (Media g × Status) α)
    (s : Store g × τ) : ((changing id f).leaves s).1.faulted = s.1.faulted := by
  obtain ⟨⟨space, media, volumes, faulted⟩, held⟩ := s
  unfold Action.leaves changing
  dsimp only
  cases Volume.lookup id volumes with
  | none => rfl
  | some volume =>
    dsimp only
    cases f space volume.partition (media, volume.status) <;> rfl

/-- Behind the latch, whatever leaves the latch alone latches. -/
theorem latches_latched {x : Action Error (Store g × τ) α}
    (alone : ∀ s, (x.leaves s).1.faulted = s.1.faulted) :
    Latches (fun s : Store g × τ => s.1.faulted) (latched x) where
  shut s hs := latched_of_faulted x s.2 hs
  sets s := by
    cases hs : s.1.faulted with
    | true =>
      unfold Action.leaves Action.told
      rw [latched_of_faulted x s.2 hs]
      exact ⟨fun _ => rfl, fun _ => hs⟩
    | false =>
      have same := (alone s).trans hs
      unfold Action.leaves at same
      unfold Action.leaves Action.told latched
      simp only [Action.bind_apply, Action.get_apply, hs, Bool.false_eq_true, if_false,
        Action.rescue]
      cases hrun : x s with
      | ok a s' =>
        rw [hrun] at same
        simp [show s'.1.faulted = false from same]
      | error stop s' =>
        rw [hrun] at same
        have same : s'.1.faulted = false := same
        cases stop with
        | defect d => simp [same]
        | error e =>
          -- Only this error makes the latch fall.
          by_cases he : e = .inconsistent
          · simp [he, Action.bind_apply]
          · simp [he, same]

/-- What a caller does behind the latch. It holds a key, a buffer, the state of a test, or
nothing. -/
inductive Guarded : {τ α : Type} → Action Error (Store g × τ) α → Prop
  | append (id : UInt8) (payload : Bytes) :
    Guarded ((append id payload).beside : Action Error (Store g × Unit) Key)
  | oldestKey (id : UInt8) : Guarded ((oldestKey id).beside : Action Error (Store g × Unit) Key)
  | advance : Guarded advance
  | seek {π : Type} (id : UInt8) (test : Bytes → StateM π Bool) : Guarded (seek id test)
  | itemLength (key : Key) : Guarded ((itemLength key).beside : Action Error (Store g × Unit) Nat)
  | load (key : Key) : Guarded (load key)

/-- Every operation latches. -/
theorem Guarded.latches {x : Action Error (Store g × τ) α} (guarded : Guarded x) :
    Latches (fun s : Store g × τ => s.1.faulted) x := by
  cases guarded with
  | append id payload => exact (latches_latched (faulted_changing id _)).alone.beside
  | oldestKey id => exact (latches_latched (faulted_reading id _)).alone.beside
  | advance =>
    refine .get_bind fun s => ?_
    refine .bind_ok (latches_latched (faulted_reading s.2.partition _)).alone.beside
      fun next s => ?_
    exact ⟨(), (s.1, next), rfl, rfl⟩
  | seek id test => exact latches_latched (faulted_reading id _)
  | itemLength key => exact (latches_latched (faulted_reading key.partition _)).alone.beside
  | load key =>
    refine .get_bind fun s => ?_
    refine .bind_ok (latches_latched (faulted_reading key.partition _)).alone.beside
      fun payload s => ?_
    exact ⟨payload.length, (s.1, s.2.overlay 0 payload), rfl, rfl⟩

/-! ## What is no operation -/

/-- Reading from the space finds no inconsistency, whatever is read. -/
theorem avoids_space_read (space : Space g) (address length : Nat) :
    Avoids .inconsistent (space.read address length) := by
  have pieces (cell length : Nat) (front : Bytes) : Avoids .inconsistent (do
      let back ← Space.readPieces (g := g) cell (g.pageParts cell length)
      return front ++ back) :=
    (Space.avoids_readPieces _ _ (by nofun)).bind fun _ => Action.avoids_pure _
  rw [Space.read_eq, Space.require_eq]
  refine .ite (Action.avoids_pure _) (.bind (.ite (Action.avoids_fail nofun) (Action.avoids_pure _))
    fun _ => ?_)
  exact .ite (.bind (Action.avoids_pure _) fun _ => pieces _ _ _)
    (.bind (Space.avoids_driver _ _ (by nofun)) fun _ => pieces _ _ _)

/-- Reporting rows finds no inconsistency, whatever they hold. -/
theorem avoids_reportRows (space : Space g) (p : Partition) (row : Nat) (text : String)
    (rows : Nat) : Avoids .inconsistent (p.reportRows space row text rows) := by
  induction rows generalizing row text with
  | zero => exact Action.avoids_pure _
  | succ rows ih =>
    exact (p.settled_locateRow row).avoids.bind fun _ =>
      .bind (avoids_space_read _ _ _) fun _ => ih _ _

/-- A report finds no inconsistency. -/
theorem avoids_report (id : UInt8) : Avoids .inconsistent (report (g := g) id) := by
  intro store
  unfold report Action.told Action.alone reading
  dsimp only
  cases Volume.lookup id store.volumes with
  | none => nofun
  | some volume =>
    have rows := avoids_reportRows store.space volume.partition 0
      s!"Partition {volume.partition.id} at {hexText volume.partition.base}: {volume.status.text}\n"
      volume.partition.maxItems store.media
    unfold Action.told at rows
    unfold Action.beside Partition.report
    dsimp only
    cases hrun : volume.partition.reportRows store.space 0 _ volume.partition.maxItems
      store.media with
    | ok text m => nofun
    | error stop m => simpa only [hrun] using rows

/-- A report leaves the latch alone. -/
theorem faulted_report (id : UInt8) (store : Store g) :
    ((report id).leaves store).faulted = store.faulted := by
  have same := faulted_reading id
    (fun space volume => (volume.partition.report space volume.status).beside) (store, ())
  unfold Action.leaves at same ⊢
  unfold report Action.alone
  cases hrun : reading id _ (store, ()) <;> simpa only [hrun] using same

/-- What is known without the memories is told, or the id is unknown. -/
theorem known_ne_inconsistent (store : Store g) (id : UInt8) (known : Volume → α) :
    (do return known (← store.volume id) : Except Error α) ≠ .error .inconsistent := by
  unfold Store.volume
  cases Volume.lookup id store.volumes <;> nofun

/-! ## Runs -/

/-- What happens to a mounted store: an operation, with what the caller holds; a report; or anything
that becomes of the memories, which may fail from now on in some other way. -/
inductive Episode (g : Geometry) : Type 1
  | operation {τ α : Type} (x : Action Error (Store g × τ) α) (guarded : Guarded x) (held : τ)
  | report (id : UInt8)
  | media (change : Media g → Media g)

/-- The store after an episode, however it ends. -/
def past (store : Store g) : Episode g → Store g
  | .operation x _ held => (x.leaves (store, held)).1
  | .report id => (report id).leaves store
  | .media change => { store with media := change store.media }

/-- The store after some episodes, one after the other. -/
def pastAll (store : Store g) (episodes : List (Episode g)) : Store g :=
  episodes.foldl past store

/-- The episode is an operation that is told that the store is inconsistent. -/
def Uncovers (store : Store g) : Episode g → Prop
  | .operation x _ held => x.told (store, held) = some (.error .inconsistent)
  | .report _ => False
  | .media _ => False

/-- After an episode the latch is set if it was set before, or if the episode uncovers something. -/
theorem faulted_past (store : Store g) (episode : Episode g) :
    (store.past episode).faulted = true ↔ store.faulted = true ∨ store.Uncovers episode := by
  cases episode with
  | operation x guarded held =>
    refine (guarded.latches.sets (store, held)).trans ⟨.inr, ?_⟩
    rintro (h | h)
    · unfold Action.told
      rw [guarded.latches.shut (store, held) h]
    · exact h
  | report id => simp [past, Uncovers, faulted_report]
  | media change => simp [past, Uncovers]

/-- A place in a list is its front or one behind that. -/
theorem exists_place_cons {ι : Type _} (holds : List ι → ι → Prop) {first : ι} {rest : List ι} :
    (∃ before i behind, first :: rest = before ++ i :: behind ∧ holds before i) ↔
      holds [] first ∨
        ∃ before i behind, rest = before ++ i :: behind ∧ holds (first :: before) i := by
  constructor
  · rintro ⟨_ | ⟨_, before⟩, i, behind, heq, h⟩
    · obtain ⟨rfl, -⟩ := List.cons.inj heq
      exact .inl h
    · obtain ⟨rfl, rfl⟩ := List.cons.inj heq
      exact .inr ⟨before, i, behind, rfl, h⟩
  · rintro (h | ⟨before, i, behind, rfl, h⟩)
    · exact ⟨[], first, rest, rfl, h⟩
    · exact ⟨first :: before, i, behind, rfl, h⟩

/-- After a run the latch is set if it was set before, or if some episode of the run uncovered
something. -/
theorem faulted_pastAll (store : Store g) (episodes : List (Episode g)) :
    (store.pastAll episodes).faulted = true ↔ store.faulted = true ∨
      ∃ before episode behind, episodes = before ++ episode :: behind ∧
        (store.pastAll before).Uncovers episode := by
  induction episodes generalizing store with
  | nil => simp [pastAll]
  | cons episode episodes ih =>
    let uncovered (before : List (Episode g)) := (store.pastAll before).Uncovers
    calc ((store.past episode).pastAll episodes).faulted = true
      _ ↔ (store.past episode).faulted = true ∨ _ := ih (store.past episode)
      _ ↔ (store.faulted = true ∨ store.Uncovers episode) ∨ _ :=
        or_congr_left (faulted_past store episode)
      _ ↔ store.faulted = true ∨ store.Uncovers episode ∨ _ := or_assoc
      _ ↔ _ := or_congr_right (exists_place_cons uncovered).symm

/-- In any run of a mounted store the latch is set if and only if some operation before has been
told that the store is inconsistent. From then on each of them is told so, whatever it is asked, and
changes nothing: neither the store, with its memories and the calls made on them, nor what the
caller holds. What is no operation is never told so, and leaves the latch alone. -/
theorem latch_of_mount {space : Space g} {slots base : Nat} {layouts : List Layout} {m : Media g}
    {mounted : Store g} (mounts : mount space slots base layouts m = .ok mounted)
    (episodes : List (Episode g)) :
    ((mounted.pastAll episodes).faulted = true ↔
      ∃ before episode behind, episodes = before ++ episode :: behind ∧
        (mounted.pastAll before).Uncovers episode) ∧
    ((mounted.pastAll episodes).faulted = true →
      ∀ {τ α : Type} (x : Action Error (Store g × τ) α), Guarded x → ∀ held : τ,
        x (mounted.pastAll episodes, held) =
          .error (.error .inconsistent) (mounted.pastAll episodes, held)) ∧
    ∀ id, (mounted.pastAll episodes).status id ≠ .error .inconsistent ∧
      (mounted.pastAll episodes).partition id ≠ .error .inconsistent ∧
      (report id).told (mounted.pastAll episodes) ≠ some (.error .inconsistent) ∧
      ((report id).leaves (mounted.pastAll episodes)).faulted =
        (mounted.pastAll episodes).faulted := by
  refine ⟨?_, fun set τ α x guarded held => guarded.latches.shut (_, held) set, fun id => ?_⟩
  · rw [faulted_pastAll, faulted_of_mount mounts, Bool.false_eq_true, false_or]
  · exact ⟨known_ne_inconsistent _ id Volume.status, known_ne_inconsistent _ id Volume.partition,
      avoids_report id _, faulted_report id _⟩

/-- The eeprom reads all bits of the first byte wrong from now on, and claims success. -/
def Episode.misreading : Episode (.tinyWith 20) :=
  .media fun m => { m with faults := [⟨[(.eeprom, .read)], 0, none, ⟨0, none, [0xff], false⟩⟩] }

/-- An item is stored while the eeprom misreads. From then on no key is found, nor is the key of the
caller moved. -/
theorem latch_of_mount_near :
    ∃ mounted, mount Space.near 1 0 [⟨7, 20, 1⟩] (Media.fresh _) = .ok mounted ∧
      ∃ store, mounted.pastAll [.misreading, .operation _ (.append 7 [1, 2, 3]) ()] = store ∧
        store.faulted = true ∧
        (oldestKey 7).beside (store, ()) = .error (.error .inconsistent) (store, ()) ∧
        advance (store, ⟨7, 0, 0⟩) = .error (.error .inconsistent) (store, ⟨7, 0, 0⟩) := by
  have run : (mount Space.near 1 0 [⟨7, 20, 1⟩] (Media.fresh _)).toOption.map (fun mounted =>
      (mounted.pastAll [.misreading, .operation _ (.append 7 [1, 2, 3]) ()]).faulted) =
          some true := by
    decide +kernel
  obtain ⟨mounted, hmounted, set⟩ := Option.map_eq_some_iff.mp run
  have mounts := mount_of_toOption hmounted
  obtain ⟨-, shut, -⟩ := latch_of_mount mounts [.misreading, .operation _ (.append 7 [1, 2, 3]) ()]
  exact ⟨mounted, mounts, _, rfl, set, shut set _ (.oldestKey 7) (), shut set _ .advance ⟨7, 0, 0⟩⟩

end Store

end CircularLog
