import CircularLog.Proofs.Store.Frame
import CircularLog.Proofs.Store.Seek

/-!
# An operation on a partition sees and changes nothing of the others

What a caller does with one partition (`Concerns`) finds the partition by its id, runs on the
memories, and puts back the fill state. So in two stores that know the same of the partition, and
whose memories are alike between its ends (`Facing`), it ends alike: with the same answer and the
same fill state of the partition, and it leaves what the two stores know of the others
(`agrees_of_concerns`).
-/

namespace CircularLog

variable {g : Geometry} {α τ : Type} {space : Space g} {p : Partition}
  {alike : Media g → Media g → Prop} {volumes volumes' : List Volume}

open CircularLog.Action (Agrees Beside Pairs)

/-- Only the last fill state that is put back stays. -/
theorem Volume.update_update (id : UInt8) (status status' : Status) (volumes : List Volume) :
    Volume.update id status' (Volume.update id status volumes) =
      Volume.update id status' volumes := by
  rw [Volume.update, Volume.update, Volume.update, List.map_map]
  refine List.map_congr_left fun volume _ => ?_
  simp only [Function.comp_apply]
  split <;> simp_all

/-- Fill states of different partitions are put back in either order. -/
theorem Volume.update_comm {id other : UInt8} (h : other ≠ id) (status status' : Status)
    (volumes : List Volume) : Volume.update other status' (Volume.update id status volumes) =
      Volume.update id status (Volume.update other status' volumes) := by
  rw [Volume.update, Volume.update, Volume.update, Volume.update, List.map_map, List.map_map]
  refine List.map_congr_left fun volume _ => ?_
  simp only [Function.comp_apply]
  by_cases hid : volume.partition.id = id
  · simp [hid, Ne.symm h]
  · by_cases hother : volume.partition.id = other <;> simp [hid, hother, h]

namespace Store

/-- Ask the store for what it knows without the memories. -/
def asks (question : Store g → Except Error α) : Action Error (Store g) α := do
  Action.ofExcept (question (← get))

/-- Asking for what is known changes nothing. -/
theorem leaves_asks (question : Store g → Except Error α) (store : Store g) :
    (asks question).leaves store = store := by
  cases h : question store <;> simp [asks, Action.leaves, Action.bind_apply, Action.ofExcept, h]

/-- What a caller can do with the partition of an id. A key, a buffer or the state of a test is lent
to the operation, and its answer tells what it gives back. -/
inductive Concerns (id : UInt8) : {α : Type} → Action Error (Store g) α → Prop
  | append (payload : Bytes) : Concerns id (append id payload)
  | oldestKey : Concerns id (oldestKey id)
  | successor (key : Key) (named : key.partition = id) : Concerns id (successor key)
  | advance (key : Key) (named : key.partition = id) : Concerns id (advance.lending key)
  | itemLength (key : Key) (named : key.partition = id) : Concerns id (itemLength key)
  | fetch (key : Key) (capacity : Nat) (named : key.partition = id) :
      Concerns id (fetch key capacity)
  | load (key : Key) (buffer : Bytes) (named : key.partition = id) :
    Concerns id ((load key).lending buffer)
  | find {π : Type} (capacity : Nat) (test : Bytes → StateM π Bool) (held : π) :
    Concerns id ((find id capacity test).lending held)
  | report : Concerns id (report id)
  | status : Concerns id (asks (status · id))
  | partition : Concerns id (asks (partition · id))

/-- Two stores over the space that know this of their partitions, but for one of which they know the
same, and whose memories are alike. -/
structure Facing (space : Space g) (p : Partition) (alike : Media g → Media g → Prop)
    (volumes volumes' : List Volume) (store store' : Store g) : Prop where
  left : store.space = space
  right : store'.space = space
  volumes : ∃ status, status.oldestRow < p.maxItems ∧
    store.volumes = Volume.update p.id status volumes ∧
    store'.volumes = Volume.update p.id status volumes'
  faulted : store.faulted = store'.faulted
  media : alike store.media store'.media

section Agreeing

variable (known : ∃ status, Volume.lookup p.id volumes = some ⟨p, status⟩)
  (known' : ∃ status, Volume.lookup p.id volumes' = some ⟨p, status⟩)
include known known'

/-- What is read of the partition is the same in both stores. -/
theorem agrees_reading {f : Space g → Volume → Action Error (Media g × τ) α}
    (hf : ∀ status, status.oldestRow < p.maxItems → Agrees (Beside alike) (f space ⟨p, status⟩)) :
    Agrees (Beside (Facing space p alike volumes volumes')) (reading p.id f) := by
  rintro ⟨⟨space₁, m, volumes₁, faulted⟩, held⟩ ⟨⟨space₂, m', volumes₂, faulted'⟩, held'⟩ ⟨h, hheld⟩
  obtain ⟨left, right, ⟨status, hrow, hvolumes, hvolumes'⟩, hfaulted, hm⟩ := h
  dsimp only at left right hvolumes hvolumes' hfaulted hm hheld
  subst left right hvolumes hvolumes' hfaulted hheld
  obtain ⟨_, hlookup⟩ := known
  obtain ⟨_, hlookup'⟩ := known'
  -- Both stores find the same volume, whatever they know of the others.
  have hrun := hf status hrow (m, held) (m', held) ⟨hm, rfl⟩
  unfold Pairs at hrun
  unfold Pairs reading
  simp only [lookup_update_self hlookup, lookup_update_self hlookup']
  split at hrun
  · next hs hs' =>
    rw [hs, hs']
    exact ⟨hrun.1, ⟨rfl, rfl, ⟨status, hrow, rfl, rfl⟩, rfl, hrun.2.1⟩, hrun.2.2⟩
  · next hs hs' =>
    rw [hs, hs']
    exact ⟨hrun.1, ⟨rfl, rfl, ⟨status, hrow, rfl, rfl⟩, rfl, hrun.2.1⟩, hrun.2.2⟩
  · exact hrun.elim

/-- What is changed of it is changed alike in both. -/
theorem agrees_changing {f : Space g → Partition → Action Error (Media g × Status) α}
    (hf : Agrees (p.AlikeInTable alike) (f space p)) :
    Agrees (Beside (Facing space p alike volumes volumes'))
      (changing p.id f : Action Error (Store g × τ) α) := by
  rintro ⟨⟨space₁, m, volumes₁, faulted⟩, held⟩ ⟨⟨space₂, m', volumes₂, faulted'⟩, held'⟩ ⟨h, hheld⟩
  obtain ⟨left, right, ⟨status, hrow, hvolumes, hvolumes'⟩, hfaulted, hm⟩ := h
  dsimp only at left right hvolumes hvolumes' hfaulted hm hheld
  subst left right hvolumes hvolumes' hfaulted hheld
  obtain ⟨_, hlookup⟩ := known
  obtain ⟨_, hlookup'⟩ := known'
  have hrun := hf (m, status) (m', status) ⟨hm, rfl, hrow⟩
  unfold Pairs at hrun
  unfold Pairs changing
  simp only [lookup_update_self hlookup, lookup_update_self hlookup']
  split at hrun
  · next hs hs' =>
    obtain ⟨rfl, hm, hstatus, hrow⟩ := hrun
    rw [hs, hs']
    exact ⟨rfl, ⟨rfl, rfl, ⟨_, hrow, Volume.update_update _ _ _ _,
      hstatus ▸ Volume.update_update _ _ _ _⟩, rfl, hm⟩, rfl⟩
  · next hs hs' =>
    obtain ⟨rfl, hm, hstatus, hrow⟩ := hrun
    rw [hs, hs']
    exact ⟨rfl, ⟨rfl, rfl, ⟨_, hrow, Volume.update_update _ _ _ _,
      hstatus ▸ Volume.update_update _ _ _ _⟩, rfl, hm⟩, rfl⟩
  · exact hrun.elim

omit known known' in
/-- The latch is open in both stores or in none. -/
theorem agrees_latched {x : Action Error (Store g × τ) α}
    (hx : Agrees (Beside (Facing space p alike volumes volumes')) x) :
    Agrees (Beside (Facing space p alike volumes volumes')) (latched x) := by
  refine .get_bind (fun s s' h => by rw [h.1.faulted]) fun s => ?_
  have rescued : Agrees (Beside (Facing space p alike volumes volumes')) (x.rescue fun error => do
      if error = .inconsistent then
        modify fun after => ({ after.1 with faulted := true }, after.2)
      Action.fail error) :=
    hx.rescue fun _ => .ite ((Action.agrees_modify fun _ _ h =>
      ⟨⟨h.1.left, h.1.right, h.1.volumes, rfl, h.1.media⟩, h.2⟩).bind fun _ => Action.agrees_fail _)
      (Action.agrees_fail _)
  exact .ite ((Action.agrees_fail _).bind fun _ => rescued) rescued

/-- What the store knows of the partition is the same in both. -/
theorem agrees_asks {question : Store g → Except Error α}
    (same : ∀ s s', Volume.lookup p.id s.volumes = Volume.lookup p.id s'.volumes →
      question s = question s') :
    Agrees (Facing space p alike volumes volumes') (asks question) := by
  refine .get_bind (fun s s' h => congrArg Action.ofExcept (same s s' ?_)) fun _ =>
    Action.agrees_ofExcept _
  obtain ⟨_, hlookup⟩ := known
  obtain ⟨_, hlookup'⟩ := known'
  obtain ⟨status, -, hvolumes, hvolumes'⟩ := h.volumes
  rw [hvolumes, hvolumes', lookup_update_self hlookup, lookup_update_self hlookup']

/-- Asking a partition gives the same answer in both stores. -/
theorem agrees_asking {f : Space g → Volume → Action Error (Media g) α}
    (hf : ∀ status, status.oldestRow < p.maxItems → Agrees alike (f space ⟨p, status⟩)) :
    Agrees (Facing space p alike volumes volumes') (asking p.id f) :=
  .alone <| agrees_latched <| agrees_reading known known'
    fun status hrow => (hf status hrow).beside

/-- Whatever is done with the partition gives the same answer in both stores, and leaves two that
know the same of the partition again. -/
theorem agrees_of_concerns {x : Action Error (Store g) α} (hx : Concerns p.id x)
    (k : space.ActsAlike p.base p.stop alike) :
    Agrees (Facing space p alike volumes volumes') x := by
  have r := k.toReadsAlike
  have asks {f : Space g → Volume → Action Error (Media g) α}
      (hf : ∀ status, status.oldestRow < p.maxItems → Agrees alike (f space ⟨p, status⟩)) :
      Agrees (Facing space p alike volumes volumes') (asking p.id f) :=
    agrees_asking known known' hf
  have successors (key : Key) (named : key.partition = p.id) :
      Agrees (Facing space p alike volumes volumes') (successor key) := by
    rw [successor, named]
    exact agrees_asking known known' fun _ hrow =>
      Partition.agrees_successor r hrow key
  have fetches (key : Key) (capacity : Nat) (named : key.partition = p.id) :
      Agrees (Facing space p alike volumes volumes') (fetch key capacity) := by
    rw [fetch, named]
    exact agrees_asking known known' fun _ _ =>
      Partition.agrees_fetch r key capacity
  cases hx with
  | append payload =>
    exact .alone <| agrees_latched <| agrees_changing known known' <|
      (Partition.agrees_append k payload).bind fun _ => Action.agrees_pure _
  | oldestKey => exact asks fun _ hrow => Partition.agrees_oldestKey r hrow
  | successor key named => exact successors key named
  | advance key named =>
    -- The key is put back with the answer in it, which is the same in both runs.
    intro s s' h
    exact Pairs.lending <| ((successors key named).beside (s, key) (s', key) ⟨h, rfl⟩).bind
      fun next t t' ht => ⟨rfl, ht.1, rfl⟩
  | itemLength key named =>
    rw [itemLength, named]
    exact asks fun _ _ => Partition.agrees_itemLength r key
  | fetch key capacity named => exact fetches key capacity named
  | load key buffer named =>
    intro s s' h
    exact Pairs.lending <| ((fetches key buffer.length named).beside (s, buffer) (s', buffer)
      ⟨h, rfl⟩).bind fun payload t t' ht => ⟨rfl, ht.1, congrArg (·.overlay 0 payload) ht.2⟩
  | find capacity test held =>
    rw [find_eq]
    exact (agrees_latched <| agrees_reading known known' fun _ hrow =>
      Partition.agrees_find r hrow capacity test).lending held
  | report =>
    exact .alone <| agrees_reading known known' fun status _ =>
      (Partition.agrees_report r status).beside
  | status =>
    exact agrees_asks known known' fun _ _ same => by
      rw [status, volume, same, status, volume]
  | partition =>
    exact agrees_asks known known' fun _ _ same => by
      rw [partition, volume, same, partition, volume]

end Agreeing

end Store

end CircularLog
