import CircularLog.Proofs.Partition.Append
import CircularLog.Proofs.Partition.Lookup
import CircularLog.Proofs.Store.Mount
import CircularLog.Store.Walk

/-!
# What the operations answer

Each operation of a store reaches one partition through the latch, so what is known of the partition
is known of the store: `Open.asking_ends` is for the operations that read, and `Open.append_ends`
for the one that changes something. What the other partitions hold has no part in it. A walk over a
partition finds all of its items with their keys (`Open.walk_ends`). In a sound store only an append
gives one partition another log (`Sound.append_ok`).
-/

namespace CircularLog

variable {g : Geometry} {space : Space g} {parts : List Partition} {p : Partition}
  {sound : Bytes → Media g → Prop} {logs : UInt8 → Log} {store : Store g}

/-! ## Volumes -/

/-- The partition with the id of one of them is that one. -/
theorem Laid.find?_eq (laid : Laid space parts) (hp : p ∈ parts) :
    parts.find? (·.id == p.id) = some p := by
  obtain ⟨q, hq⟩ : ∃ q, parts.find? (·.id == p.id) = some q :=
    Option.isSome_iff_exists.mp (List.find?_isSome.mpr ⟨p, hp, beq_self_eq_true _⟩)
  have hid : q.id = p.id := by simpa using List.find?_some hq
  rw [hq, laid.eq_of_id (List.mem_of_find?_eq_some hq) hp hid]

/-- Among the volumes of partitions, that of an id is that of the partition with this id. -/
theorem Volume.lookup_of_mem (laid : Laid space parts) (hp : p ∈ parts)
    (status : Partition → Status) :
    Volume.lookup p.id (parts.map fun q => ⟨q, status q⟩) = some ⟨p, status p⟩ := by
  rw [Volume.lookup, List.find?_map]
  exact congrArg (Option.map _) (laid.find?_eq hp)

/-- An id that no partition has is found nowhere. -/
theorem Volume.lookup_of_unknown {id : UInt8} (unknown : ∀ q ∈ parts, q.id ≠ id)
    (status : Partition → Status) :
    Volume.lookup id (parts.map fun q => ⟨q, status q⟩) = none := by
  rw [Volume.lookup, List.find?_eq_none]
  intro volume hvolume
  obtain ⟨q, hq, rfl⟩ := List.mem_map.mp hvolume
  simpa using unknown q hq

/-- The volumes with a new fill state for an id are those with something else said of it. -/
theorem Volume.update_map {τ : Type} (status : τ → Status) (id : UInt8) (value : τ)
    (values : UInt8 → τ) :
    Volume.update id (status value) (parts.map fun q => ⟨q, status (values q.id)⟩) =
      parts.map fun q => ⟨q, status (Function.update values id value q.id)⟩ := by
  rw [Volume.update, List.map_map]
  refine List.map_congr_left fun q _ => ?_
  by_cases h : q.id = id
  · subst h
    simp
  · simp [h]

/-- The volumes with a new fill state for an id are those of the logs with a new one for it. -/
theorem Volume.update_status (id : UInt8) (log : Log) (logs : UInt8 → Log) :
    Volume.update id log.status (parts.map fun q => ⟨q, (logs q.id).status⟩) =
      parts.map fun q => ⟨q, (Function.update logs id log q.id).status⟩ :=
  Volume.update_map Log.status id log logs

/-- Putting back the fill state that is found changes nothing. -/
theorem Volume.update_of_lookup {volumes : List Volume} {id : UInt8} {volume : Volume}
    (distinct : volumes.Pairwise fun v w => v.partition.id ≠ w.partition.id)
    (known : Volume.lookup id volumes = some volume) :
    Volume.update id volume.status volumes = volumes := by
  have hmem := List.mem_of_find?_eq_some known
  have hid : volume.partition.id = id := by simpa using List.find?_some known
  have symm : Std.Symm fun v w : Volume => v.partition.id ≠ w.partition.id :=
    ⟨fun _ _ h => h.symm⟩
  refine (List.map_congr_left fun other hother => ?_).trans (List.map_id volumes)
  split
  · next hsame =>
    -- Only one volume has the id.
    have hother : other = volume := Classical.byContradiction fun hne =>
      distinct.forall hother hmem hne ((beq_iff_eq.mp hsame).trans hid.symm)
    rw [hother]
    rfl
  · rfl

namespace Store

open CircularLog.Action (alone)

variable {τ α : Type} {held : τ}

/-! ## Behind the latch -/

section Latch

variable {value : α → Store g × τ → Prop} {error : Error → Store g × τ → Prop}
  {left : Store g × τ → Prop} {volume : Volume}

/-- The fill state of a partition is that of its volume. -/
theorem status_of_lookup {id : UInt8} {fill : Status}
    (h : Volume.lookup id store.volumes = some ⟨p, fill⟩) : store.status id = .ok fill := by
  rw [status, volume, h]
  rfl

/-- As long as the latch is open an action runs behind it, and an inconsistency sets it. -/
theorem ends_latched {x : Action Error (Store g × τ) α} (h : store.faulted = false) :
    (latched x).Ends (store, held) value error ↔ x.Ends (store, held) value fun e after =>
      (e = .inconsistent → error e ({ after.1 with faulted := true }, after.2)) ∧
        (e ≠ .inconsistent → error e after) := by
  simp [latched, h]

/-- Behind an open latch an action leaves what it leaves by itself, as far as the latch has no part
in it. -/
theorem yields_latched {x : Action Error (Store g × τ) α} (h : store.faulted = false)
    (hx : x.Yields (store, held) value left)
    (sets : ∀ after, left after → left ({ after.1 with faulted := true }, after.2)) :
    (latched x).Yields (store, held) value left := by
  simp only [latched, Action.yields_bind, Action.yields_get, Action.yields_ite, h,
    Bool.false_eq_true, false_implies, true_and, not_false_eq_true, true_implies]
  refine hx.rescue fun e after hleft => ?_
  simp only [Action.yields_bind, Action.yields_ite, Action.yields_modify, Action.yields_fail]
  exact ⟨fun _ => sets after hleft, fun _ => hleft⟩

/-- A partition that is known is read. -/
theorem ends_reading {id : UInt8} {f : Space g → Volume → Action Error (Media g × τ) α}
    (h : Volume.lookup id store.volumes = some volume) :
    (reading id f).Ends (store, held) value error ↔ (f store.space volume).Ends (store.media, held)
      (fun a after => value a ({ store with media := after.1 }, after.2))
      (fun e after => error e ({ store with media := after.1 }, after.2)) := by
  obtain ⟨space, media, volumes, faulted⟩ := store
  simp only [Action.Ends, reading, h]
  cases hf : f space volume (media, held) with
  | ok a after => rfl
  | error stop after => cases stop <;> rfl

/-- A partition that is known is changed. -/
theorem ends_changing {id : UInt8} {f : Space g → Partition → Action Error (Media g × Status) α}
    (h : Volume.lookup id store.volumes = some volume) :
    (changing id f).Ends (store, held) value error ↔
      (f store.space volume.partition).Ends (store.media, volume.status)
        (fun a after => value a ({ store with
          media := after.1, volumes := Volume.update id after.2 store.volumes }, held))
        (fun e after => error e ({ store with
          media := after.1, volumes := Volume.update id after.2 store.volumes }, held)) := by
  obtain ⟨space, media, volumes, faulted⟩ := store
  simp only [Action.Ends, changing, h]
  cases hf : f space volume.partition (media, volume.status) with
  | ok a after => rfl
  | error stop after => cases stop <;> rfl

/-- What is left of a partition that is known and changed. -/
theorem yields_changing {id : UInt8} {f : Space g → Partition → Action Error (Media g × Status) α}
    (h : Volume.lookup id store.volumes = some volume) :
    (changing id f).Yields (store, held) value left ↔
      (f store.space volume.partition).Yields (store.media, volume.status)
        (fun a after => value a ({ store with
          media := after.1, volumes := Volume.update id after.2 store.volumes }, held))
        (fun after => left ({ store with
          media := after.1, volumes := Volume.update id after.2 store.volumes }, held)) := by
  obtain ⟨space, media, volumes, faulted⟩ := store
  simp only [Action.Yields, changing, h]
  cases hf : f space volume.partition (media, volume.status) <;> rfl

/-- What is not found is no answer. -/
theorem ends_whereFound {x : Action Error (Store g) α} {value : Option α → Store g → Prop}
    {error : Error → Store g → Prop} {store : Store g} :
    (whereFound x).Ends store value error ↔ x.Ends store (fun a => value (some a)) fun e after =>
      (e = .notFound → value none after) ∧ (e ≠ .notFound → error e after) := by
  simp [whereFound]

end Latch

/-! ## Requests -/

/-- The latch is open, and the store has these volumes and memories that are sound with this
image. -/
structure Open (sound : Bytes → Media g → Prop) (space : Space g) (volumes : List Volume)
    (image : Bytes) (store : Store g) : Prop where
  space : store.space = space
  volumes : store.volumes = volumes
  faulted : store.faulted = false
  media : sound image store.media

/-- An operation that reads one partition and leaves its image as it is. -/
def asking (id : UInt8) (f : Space g → Volume → Action Error (Media g) α) :
    Action Error (Store g) α :=
  alone <| latched <| reading id fun space volume => (f space volume).beside

section Asking

variable {volumes : List Volume} {image : Bytes} {log : Log}

/-- What a partition answers is what the store answers, which stays as it is. -/
theorem Open.asking_ends (h : store.Open sound space volumes image) {id : UInt8} {volume : Volume}
    (known : Volume.lookup id volumes = some volume)
    {f : Space g → Volume → Action Error (Media g) α} {value : α → Prop} {error : Error → Prop}
    (hf : (f space volume).Ends store.media (fun a m' => sound image m' ∧ value a)
      (fun e m' => sound image m' ∧ e ≠ .inconsistent ∧ error e)) :
    (asking id f).Ends store (fun a after => after.Open sound space volumes image ∧ value a)
      (fun e after => after.Open sound space volumes image ∧ error e) := by
  have after {m' : Media g} (h' : sound image m') :
      Open sound space volumes image ⟨space, m', store.volumes, store.faulted⟩ :=
    ⟨rfl, h.volumes, h.faulted, h'⟩
  rw [asking, Action.ends_alone, ends_latched h.faulted, ends_reading (h.volumes ▸ known),
    Action.ends_beside, h.space]
  refine hf.mono (fun a m' h' => ⟨after h'.1, h'.2⟩) ?_
  exact fun e m' h' => ⟨fun he => absurd he h'.2.1, fun _ => ⟨after h'.1, h'.2.2⟩⟩

/-- A partition that the store does not have cannot be asked. -/
theorem Open.asking_unknown (h : store.Open sound space volumes image) {id : UInt8}
    (unknown : Volume.lookup id volumes = none) (f : Space g → Volume → Action Error (Media g) α) :
    asking id f store = .error (.error .invalidRange) store := by
  have hlookup : Volume.lookup id store.volumes = none := h.volumes ▸ unknown
  have hfaulted := h.faulted
  obtain ⟨space, media, volumes, faulted⟩ := store
  simp_all [asking, alone, latched, reading, Action.bind_apply, Action.rescue]

variable (c : space.Conduct p.table p.stop sound .never)
  (known : Volume.lookup p.id volumes = some ⟨p, log.status⟩) (holds : p.Holds image log)
include c known holds

/-- The oldest key of a partition is that of its first item. -/
theorem Open.oldestKey_ends (h : store.Open sound space volumes image) :
    (oldestKey p.id).Ends store
      (fun key after => after.Open sound space volumes image ∧
        log.items ≠ [] ∧ key = p.keyAt log 0)
      (fun e after => after.Open sound space volumes image ∧ e = .notFound ∧ log.items = []) := by
  refine h.asking_ends known ?_
  refine (p.oldestKey_ends c holds h.media).mono (fun _ _ h => h) ?_
  rintro e m' (h' | ⟨h', rfl, hnil⟩)
  · exact (Space.not_halts h').elim
  · exact ⟨h', by decide, rfl, hnil⟩

/-- The key behind a key is that of the next item, or of the oldest one. -/
theorem Open.successor_ends (h : store.Open sound space volumes image) {key : Key}
    (hkey : key.partition = p.id) :
    (successor key).Ends store
      (fun next after => after.Open sound space volumes image ∧
        ((∃ count, p.Names log key count ∧ p.Names log next (count + 1) ∧
            next.partition = p.id) ∨
          (∀ count, ¬ p.Names log key count) ∧ log.items ≠ [] ∧ next = p.keyAt log 0))
      (fun e after => after.Open sound space volumes image ∧
        (e = .invalidRange ∧ p.maxItems ≤ key.row ∨ e = .notFound ∧ key.row < p.maxItems ∧
          (log.items = [] ∨ ∃ count, p.Names log key count ∧ count + 1 = log.items.length))) := by
  rw [successor, hkey]
  refine h.asking_ends known ?_
  have hends := p.successor_ends c holds h.media key
  rw [hkey] at hends
  refine hends.mono (fun _ _ h => h) ?_
  rintro e m' (h' | ⟨h', h''⟩)
  · exact (Space.not_halts h').elim
  · exact ⟨h', by rcases h'' with ⟨rfl, -⟩ | ⟨rfl, -⟩ <;> decide, h''⟩

/-- Fetching gives the item that the key names, if the buffer can hold it. -/
theorem Open.fetch_ends (h : store.Open sound space volumes image) {key : Key}
    (hkey : key.partition = p.id) (capacity : Nat) :
    (fetch key capacity).Ends store
      (fun payload after => after.Open sound space volumes image ∧
        ∃ count, p.Names log key count ∧ log.items[count]? = some payload ∧
          payload.length ≤ capacity)
      (fun e after => after.Open sound space volumes image ∧
        (e = .invalidRange ∧ p.maxItems ≤ key.row ∨
          (e = .notFound ∧ key.row < p.maxItems ∧ ∀ count, ¬ p.Names log key count) ∨
          ∃ count item, p.Names log key count ∧ log.items[count]? = some item ∧
            e = .bufferTooSmall item.length ∧ capacity < item.length)) := by
  rw [fetch, hkey]
  refine h.asking_ends known ?_
  refine (p.fetch_ends c holds h.media key capacity).mono (fun _ _ h => h) ?_
  rintro e m' (h' | ⟨h', h''⟩)
  · exact (Space.not_halts h').elim
  · refine ⟨h', ?_, h''⟩
    rcases h'' with ⟨rfl, -⟩ | ⟨rfl, -⟩ | ⟨count, item, -, -, rfl, -⟩ <;> exact nofun

/-! ## Walks -/

/-- A walk from the key of an item finds this item and all that are newer. -/
theorem Open.walkFrom_ends (h : store.Open sound space volumes image) {count limit : Nat}
    {seen : List (Key × Bytes)} (hcount : count < log.items.length)
    (hlimit : log.items.length ≤ count + limit) :
    (walkFrom (p.keyAt log count) seen limit).Ends store
      (fun found after => after.Open sound space volumes image ∧
        found = seen.reverse ++ (p.listing log).drop count)
      (fun _ _ => False) := by
  -- On the limit: the key names an item, and those in front of it have been seen.
  induction limit generalizing store count seen with
  | zero => omega
  | succ limit ih =>
    have hnames := p.names_keyAt hcount
    have hrow : (p.keyAt log count).row < p.maxItems := p.rowBehind_lt _ _
    have hitem : (p.listing log).drop count =
        (p.keyAt log count, log.items[count]) :: (p.listing log).drop (count + 1) :=
      p.drop_listing hcount
    simp only [walkFrom, Action.ends_bind, ends_whereFound]
    refine (h.fetch_ends c known holds rfl payloadLimit).mono ?_ ?_
    · rintro payload store₁ ⟨h₁, other, hother, hpayload, -⟩
      obtain rfl := hnames.unique holds hother
      obtain ⟨-, rfl⟩ := List.getElem?_eq_some_iff.mp hpayload
      refine (h₁.successor_ends c known holds rfl).mono ?_ ?_
      · rintro next store₂ ⟨h₂, ⟨at', hat, hnext, hpart⟩ | ⟨hnone, -⟩⟩
        · obtain rfl := hnames.unique holds hat
          obtain rfl := hnext.eq_keyAt hpart
          refine (ih h₂ hnext.lt (by omega)).mono ?_ fun _ _ h => h
          rintro found store₃ ⟨h₃, rfl⟩
          exact ⟨h₃, by simp [hitem]⟩
        · exact absurd hnames (hnone _)
      · rintro e store₂ ⟨h₂, ⟨-, hout⟩ | ⟨rfl, -, hend⟩⟩
        · omega
        · refine ⟨fun _ => ⟨h₂, ?_⟩, fun hne => absurd rfl hne⟩
          -- There is no next key only behind the newest item.
          have hlast : other + 1 = log.items.length := by
            rcases hend with hnil | ⟨at', hat, hlast⟩
            · rw [hnil, List.length_nil] at hcount
              omega
            · rw [← hnames.unique holds hat, hlast]
          rw [hitem, hlast, List.drop_of_length_le (Nat.le_of_eq (p.length_listing log))]
          simp
    · rintro e store₁ ⟨-, ⟨-, hout⟩ | ⟨-, -, hnone⟩ | ⟨other, item, hother, hitem, -, hsmall⟩⟩
      · omega
      · exact hnone _ hnames
      · have := holds.length_lt item (List.mem_of_getElem? hitem)
        simp only [payloadLimit] at hsmall
        omega

/-- A walk over a partition finds its items with their keys, oldest first. -/
theorem Open.walk_ends (h : store.Open sound space volumes image) {limit : Nat}
    (hlimit : log.items.length ≤ limit) :
    (walk p.id limit).Ends store
      (fun found after => after.Open sound space volumes image ∧ found = p.listing log)
      (fun _ _ => False) := by
  simp only [walk, Action.ends_bind, ends_whereFound]
  refine (h.oldestKey_ends c known holds).mono ?_ ?_
  · rintro _ store₁ ⟨h₁, hitems, rfl⟩
    exact h₁.walkFrom_ends c known holds (List.length_pos_iff.mpr hitems) (by omega)
  · rintro _ store₁ ⟨h₁, rfl, hnil⟩
    exact ⟨fun _ => ⟨h₁, by simp [Partition.listing, hnil]⟩, fun hne => absurd rfl hne⟩

end Asking

/-! ## Appending -/

section Appending

variable {volumes : List Volume} {image : Bytes} {log : Log} {payload : Bytes}

/-- Appending to a partition that is known changes its fill state, and sets the latch if the
partition is inconsistent. -/
theorem Open.append_ends (h : store.Open sound space volumes image) {id : UInt8} {volume : Volume}
    (known : Volume.lookup id volumes = some volume)
    {value : Nat × UInt32 → Media g × Status → Prop} {error : Error → Media g × Status → Prop}
    (hp : (volume.partition.append space payload).Ends (store.media, volume.status) value error) :
    (append id payload).Ends store
      (fun key after => ∃ place m' status, value place (m', status) ∧
        key = ⟨volume.partition.id, place.1, place.2⟩ ∧
        after = ⟨space, m', Volume.update id status volumes, false⟩)
      (fun e after => ∃ m' status, error e (m', status) ∧
        after = ⟨space, m', Volume.update id status volumes, e = .inconsistent⟩) := by
  rw [append, Action.ends_alone, ends_latched h.faulted, ends_changing (h.volumes ▸ known), h.space]
  simp only [Action.ends_bind, Action.ends_pure]
  refine hp.mono ?_ ?_
  · exact fun place after h' => ⟨place, after.1, after.2, h', rfl, by rw [h.volumes, h.faulted]⟩
  · refine fun e after h' => ⟨fun he => ⟨after.1, after.2, h', ?_⟩, fun he =>
      ⟨after.1, after.2, h', ?_⟩⟩
    · simp [he, h.volumes]
    · simp [he, h.volumes, h.faulted]

/-- An append that fails has failed in the partition. -/
theorem Open.append_eq_error (h : store.Open sound space volumes image) {id : UInt8}
    {volume : Volume} (known : Volume.lookup id volumes = some volume) {e : Error} {after : Store g}
    (fails : append id payload store = .error (.error e) after) :
    ∃ m' status, volume.partition.append space payload (store.media, volume.status) =
        .error (.error e) (m', status) ∧
      after = ⟨space, m', Volume.update id status volumes, e = .inconsistent⟩ := by
  obtain rfl := h.volumes
  obtain rfl := h.space
  have hfaulted := h.faulted
  obtain ⟨space, media, volumes, faulted⟩ := store
  obtain rfl : faulted = false := hfaulted
  dsimp only at known ⊢
  -- The append can have failed in the partition only, as the partition is known.
  cases hrun : volume.partition.append space payload (media, volume.status) with
  | ok place after' =>
    simp [append, alone, latched, changing, known, hrun, Action.bind_apply, Action.map_apply,
      Action.rescue] at fails
  | error stop after' =>
    obtain ⟨m', status⟩ := after'
    rcases stop with e' | d
    · -- The latch is set by an inconsistency only.
      have hresult : append id payload ⟨space, media, volumes, false⟩ = .error (.error e')
          ⟨space, m', Volume.update id status volumes, e' = .inconsistent⟩ := by
        by_cases he : e' = .inconsistent <;>
          simp [append, alone, latched, changing, known, hrun, he, Action.bind_apply,
            Action.map_apply, Action.rescue]
      rw [hresult] at fails
      cases fails
      exact ⟨m', status, rfl, rfl⟩
    · simp [append, alone, latched, changing, known, hrun, Action.bind_apply, Action.map_apply,
        Action.rescue] at fails

/-- What is too long is refused, and the store is as it was. -/
theorem Open.append_of_long (h : store.Open sound space volumes image)
    (known : Volume.lookup p.id volumes = some ⟨p, log.status⟩)
    (same : Volume.update p.id log.status volumes = volumes) (long : ¬ p.Storable payload) :
    append p.id payload store = .error (.error .outOfRoom) store := by
  have hlong : p.areaLength < payload.length ∨ 0x1_0000 ≤ payload.length := by
    unfold Partition.Storable at long
    omega
  have hrefused := p.append_of_long space hlong
  obtain rfl := h.volumes
  have hspace := h.space
  have hfaulted := h.faulted
  obtain ⟨space, media, volumes, faulted⟩ := store
  simp_all [append, alone, latched, changing, Action.bind_apply, Action.map_apply, Action.rescue]

/-- Nothing is appended to a partition that the store does not have. -/
theorem Open.append_unknown (h : store.Open sound space volumes image) {id : UInt8}
    (unknown : Volume.lookup id volumes = none) (payload : Bytes) :
    append id payload store = .error (.error .invalidRange) store := by
  have hlookup : Volume.lookup id store.volumes = none := h.volumes ▸ unknown
  have hfaulted := h.faulted
  obtain ⟨space, media, volumes, faulted⟩ := store
  simp_all [append, alone, latched, changing, Action.bind_apply, Action.rescue]

/-- Whether the latch is open or not, nothing is appended to a partition that the store does not
have. -/
theorem append_yields_unknown {id : UInt8} (unknown : Volume.lookup id store.volumes = none)
    (payload : Bytes) :
    (append id payload).Yields store (fun _ _ => False) fun after => after = store := by
  obtain ⟨space, media, volumes, faulted⟩ := store
  cases faulted <;>
    simp_all [append, alone, latched, changing, Action.Yields, Action.bind_apply, Action.rescue]

/-- Appending what fits puts it behind the items of its partition, with the next key. -/
theorem Open.append_ok (c : space.Conduct p.table p.stop sound .never)
    (known : Volume.lookup p.id volumes = some ⟨p, log.status⟩) (holds : p.Holds image log)
    (settled : log.Settled) (h : store.Open sound space volumes image)
    (storable : p.Storable payload) (ids : log.id + log.items.length < 0x1_0000_0000) :
    ∃ store' image' log', append p.id payload store = .ok (p.keyAt log log.items.length) store' ∧
      p.Appended log payload log' ∧ p.Confined image image' ∧ p.Holds image' log' ∧
      store'.Open sound space (Volume.update p.id log'.status volumes) image' := by
  have hyields := Partition.append_yields
    (p.appendOnce_yields c (fun _ _ => False.elim) holds settled h.media storable.2 storable.1 ids
      (fun _ _ => Space.not_halts) fun _ => False.elim) fun _ => False.elim
  obtain ⟨_, store', hrun, place, m', status, h', rfl, rfl⟩ :=
    (h.append_ends known (hyields.ends (fun _ _ => False) fun _ => id)).exists_ok
      fun e after h => h.elim fun _ h => h.elim fun _ h => h.1
  obtain ⟨image', log', hm', hconfined, holds', rfl, happended, rfl⟩ := h'
  exact ⟨_, image', log', hrun, happended, hconfined, holds', rfl, rfl, rfl, hm'⟩

end Appending

/-! ## Sound stores -/

/-- The volume of a partition of a sound store. -/
theorem Sound.known (h : store.Sound sound space parts logs) (laid : Laid space parts)
    (hp : p ∈ parts) : Volume.lookup p.id store.volumes = some ⟨p, (logs p.id).status⟩ :=
  h.volumes ▸ Volume.lookup_of_mem laid hp fun q => (logs q.id).status

/-- Putting back the fill state of a partition changes nothing. -/
theorem Sound.update_self (h : store.Sound sound space parts logs) (p : Partition) :
    Volume.update p.id (logs p.id).status store.volumes = store.volumes := by
  rw [h.volumes, Volume.update_status, Function.update_eq_self]

/-- No other volume is found. -/
theorem Sound.unknown (h : store.Sound sound space parts logs) {id : UInt8}
    (unknown : ∀ q ∈ parts, q.id ≠ id) : Volume.lookup id store.volumes = none :=
  h.volumes ▸ Volume.lookup_of_unknown unknown fun q => (logs q.id).status

/-- The latch of a sound store is open, and its memories are sound with an image that holds the
logs. -/
theorem Sound.exists_open (h : store.Sound sound space parts logs) :
    ∃ image, store.Open sound space store.volumes image ∧ ∀ p ∈ parts, p.Holds image (logs p.id) :=
  h.holds.imp fun _ himage => ⟨⟨h.space, rfl, h.faulted, himage.1⟩, himage.2⟩

/-- A store that stays as it is stays sound. -/
theorem Sound.of_open (h : store.Sound sound space parts logs) {image : Bytes} {after : Store g}
    (holds : ∀ p ∈ parts, p.Holds image (logs p.id))
    (h' : after.Open sound space store.volumes image) : after.Sound sound space parts logs :=
  ⟨h'.space, h'.volumes.trans h.volumes, h'.faulted, ⟨image, h'.media, holds⟩, h.settled⟩

/-- What is too long is refused, and the store is as it was. -/
theorem Sound.append_of_long (h : store.Sound sound space parts logs) (laid : Laid space parts)
    (hp : p ∈ parts) {payload : Bytes} (long : ¬ p.Storable payload) :
    append p.id payload store = .error (.error .outOfRoom) store := by
  obtain ⟨image, hopen, -⟩ := h.exists_open
  exact hopen.append_of_long (h.known laid hp) (h.update_self p) long

/-- Appending what fits puts it behind the items of its partition, with the next key. -/
theorem Sound.append_ok (c : space.Conduct 0 space.total sound .never)
    (h : store.Sound sound space parts logs) (laid : Laid space parts)
    (hp : p ∈ parts) {payload : Bytes} (storable : p.Storable payload)
    (ids : (logs p.id).id + (logs p.id).items.length < 0x1_0000_0000) :
    ∃ store' log, append p.id payload store =
        .ok (p.keyAt (logs p.id) (logs p.id).items.length) store' ∧
      p.Appended (logs p.id) payload log ∧
      store'.Sound sound space parts (Function.update logs p.id log) := by
  obtain ⟨image, hopen, holds⟩ := h.exists_open
  obtain ⟨store', image', log, hrun, happended, hconfined, holds', h'⟩ :=
    hopen.append_ok (c.part (laid.inside p hp)) (h.known laid hp) (holds p hp) (h.settled p hp)
      storable ids
  -- The other partitions lie elsewhere, so they hold what they held.
  have hholds := laid.holds_update hp (c.length hopen.media) holds hconfined holds'
  have hsettled := laid.forall_update hp (motive := fun _ => Log.Settled) happended.settled
    fun q hq _ => h.settled q hq
  refine ⟨store', log, hrun, happended, h'.space, ?_, h'.faulted, ⟨image', h'.media, hholds⟩,
    hsettled⟩
  rw [h'.volumes, h.volumes, Volume.update_status]

end Store

end CircularLog
