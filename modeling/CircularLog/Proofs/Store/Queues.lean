import CircularLog.Proofs.Store.Operations

/-!
# A store is a queue for each partition

Whatever is asked of a store on sound memories, and however often it is mounted again in between,
each partition answers as a queue of byte strings that is independent of the others: `queueAfter`
says what the queue is after some requests, and `Serves` what it means to answer as one. The proof
goes from request to request (`After.serve`): the logs of the store have the items of the queues,
and the id of the next item is at most the number of items that were appended, so that ids do not
run out before 2³² appends.
-/

namespace CircularLog

namespace Partition

variable {p : Partition} {log : Log} {payload : Bytes}

/-! ## The queue -/

instance (p : Partition) (items : List Bytes) (length : Nat) : Decidable (p.HasRoom items length) :=
  inferInstanceAs (Decidable (_ ∧ _))

/-- The items without as few of the oldest as leave room for one of so many bytes. -/
def trimmed (p : Partition) (length : Nat) : List Bytes → List Bytes
  | [] => []
  | item :: items =>
    if p.HasRoom (item :: items) length then item :: items else p.trimmed length items

/-- What taking out as few items as will do leaves. -/
theorem Fewest.drop_eq {items : List Bytes} {length count : Nat}
    (h : p.Fewest items length count) : items.drop count = p.trimmed length items := by
  induction items generalizing count with
  | nil => exact List.drop_nil
  | cons item items ih =>
    rw [trimmed]
    cases count with
    | zero => exact (if_pos h.1).symm
    | succ count =>
      have hrest : p.Fewest items length count :=
        ⟨h.1, fun fewer hless => h.2 (fewer + 1) (Nat.succ_lt_succ hless)⟩
      exact (ih hrest).trans (if_neg (h.2 0 (Nat.succ_pos _))).symm

/-- The queue after a payload was put in, if it can be stored. -/
def enqueue (p : Partition) (items : List Bytes) (payload : Bytes) : List Bytes :=
  if p.Storable payload then p.trimmed payload.length items ++ [payload] else items

/-- An append does to the items of the log what it should do to the queue. -/
theorem Appended.enqueue_eq {log' : Log} (h : p.Appended log payload log')
    (storable : p.Storable payload) : log'.items = p.enqueue log.items payload := by
  obtain ⟨count, hfewest, hitems⟩ := h.items_eq
  rw [hitems, hfewest.drop_eq, enqueue, if_pos storable]

end Partition

namespace Store

/-! ## Requests -/

/-- What a caller asks of a store; to mount it again is one of these things. -/
inductive Request where
  | append (id : UInt8) (payload : Bytes)
  | oldestKey (id : UInt8)
  | successor (key : Key)
  | fetch (key : Key) (capacity : Nat)
  | remount

/-- The request stores an item in the partition. -/
def Request.stores (p : Partition) : Request → Bool
  | append id payload => id = p.id ∧ p.Storable payload
  | _ => false

/-- The queue after a request. -/
def Request.queued (p : Partition) (items : List Bytes) : Request → List Bytes
  | append id payload => if id = p.id then p.enqueue items payload else items
  | _ => items

/-- The queue of a partition after some requests, of which each works on what the one before it has
left. -/
def queueAfter (p : Partition) (requests : List Request) : List Bytes :=
  requests.foldl (Request.queued p) []

/-- How many items have been stored in a partition. -/
def storesAfter (p : Partition) (requests : List Request) : Nat :=
  requests.countP (Request.stores p)

variable {g : Geometry} {α : Type}

/-- The store that an operation leaves, with a value or with an error; none after a defect. -/
def left (x : Action Error (Store g) α) (store : Store g) : Option (Store g) :=
  match x store with
  | .ok _ store => some store
  | .error (.error _) store => some store
  | .error (.defect _) _ => none

section Serving

variable (slots base : Nat) (layouts : List Layout)

/-- The store after a request; none after a defect, or if it cannot be mounted again. -/
def serve (store : Store g) : Request → Option (Store g)
  | .append id payload => left (append id payload) store
  | .oldestKey id => left (oldestKey id) store
  | .successor key => left (successor key) store
  | .fetch key capacity => left (fetch key capacity) store
  | .remount => (mount store.space slots base layouts store.media).toOption

/-- The store after some requests. -/
def serveAll (store : Store g) : List Request → Option (Store g)
  | [] => some store
  | request :: requests => (store.serve slots base layouts request).bind fun store =>
    store.serveAll requests

end Serving

/-- A walk over the partition finds these items with these keys, oldest first. -/
def Lists (store : Store g) (p : Partition) (found : List (Key × Bytes)) : Prop :=
  ∀ limit, found.length ≤ limit → ∃ store', walk p.id limit store = .ok found store'

/-- A walk over the partition finds these items, oldest first. -/
def Finds (store : Store g) (p : Partition) (items : List Bytes) : Prop :=
  ∀ limit, items.length ≤ limit → ∃ found store',
    walk p.id limit store = .ok found store' ∧ found.map Prod.snd = items

/-- The store answers for the partition as a queue with these items: a walk finds them, and an
append is refused, and changes nothing, exactly if the payload is too long. -/
structure Serves (store : Store g) (p : Partition) (items : List Bytes) : Prop where
  finds : store.Finds p items
  refuses : ∀ payload, ¬ p.Storable payload →
    append p.id payload store = .error (.error .outOfRoom) store
  accepts : ∀ payload, p.Storable payload → ∃ key store', append p.id payload store = .ok key store'

/-! ## One request -/

section Requests

variable {space : Space g} {parts : List Partition} {p : Partition}
  {sound : Bytes → Media g → Prop} {logs : UInt8 → Log} {store : Store g} {request : Request}
  {requests history : List Request} {slots base : Nat} {layouts : List Layout}

/-- The store is sound, and its logs have the items of the queues after these requests. -/
def After (sound : Bytes → Media g → Prop) (space : Space g) (parts : List Partition)
    (history : List Request) (store : Store g) : Prop :=
  ∃ logs, store.Sound sound space parts logs ∧ ∀ p ∈ parts,
    (logs p.id).items = queueAfter p history ∧
      (logs p.id).id + (logs p.id).items.length ≤ storesAfter p history

/-- The last request acts on the queue that the others have left. -/
theorem queueAfter_snoc (p : Partition) (history : List Request) (request : Request) :
    queueAfter p (history ++ [request]) = request.queued p (queueAfter p history) := by
  simp [queueAfter]

/-- The last request counts if it stores something. -/
theorem storesAfter_snoc (p : Partition) (history : List Request) (request : Request) :
    storesAfter p (history ++ [request]) =
      storesAfter p history + if request.stores p then 1 else 0 := by
  simp [storesAfter, List.countP_cons]

/-- A request that stores nothing in a partition leaves its queue. -/
theorem Request.queued_of_not_stores (h : request.stores p = false) (items : List Bytes) :
    request.queued p items = items := by
  cases request with
  | append id payload =>
    simp only [stores, decide_eq_false_iff_not] at h
    simp only [queued, Partition.enqueue]
    grind
  | _ => rfl

/-- A request that stores nothing leaves a store with the same logs. -/
theorem After.of_not_stores (h : store.After sound space parts history)
    (none : ∀ p ∈ parts, request.stores p = false) {store' : Store g}
    (sounds : ∀ logs, store.Sound sound space parts logs → store'.Sound sound space parts logs) :
    store'.After sound space parts (history ++ [request]) := by
  obtain ⟨logs, hsound, hlogs⟩ := h
  refine ⟨logs, sounds logs hsound, fun p hp => ?_⟩
  rw [queueAfter_snoc, storesAfter_snoc, Request.queued_of_not_stores (none p hp), none p hp]
  exact hlogs p hp

/-- What an operation leaves that ends without a defect. -/
theorem left_of_ends {x : Action Error (Store g) α} {value : α → Prop} {error : Error → Prop}
    {good : Store g → Prop} (h : x.Ends store (fun a after => good after ∧ value a)
      (fun e after => good after ∧ error e)) :
    ∃ store', left x store = some store' ∧ good store' := by
  unfold Action.Ends at h
  unfold left
  cases hx : x store with
  | ok a after => exact ⟨after, rfl, (hx ▸ h).1⟩
  | error stop after =>
    rw [hx] at h
    cases stop with
    | error e => exact ⟨after, rfl, h.1⟩
    | defect d => exact h.elim

/-- Asking a store for something leaves it with the same logs, if it does so for the partitions that
it has. -/
theorem Sound.left_asking (h : store.Sound sound space parts logs) {id : UInt8}
    {f : Space g → Volume → Action Error (Media g) α}
    (hf : ∀ p ∈ parts, p.id = id → ∀ image, p.Holds image (logs p.id) →
      store.Open sound space store.volumes image →
        ∃ store', left (asking id f) store = some store' ∧
          store'.Open sound space store.volumes image) :
    ∃ store', left (asking id f) store = some store' ∧ store'.Sound sound space parts logs := by
  obtain ⟨image, hopen, holds⟩ := h.exists_open
  by_cases known : ∃ p ∈ parts, p.id = id
  · obtain ⟨p, hp, hid⟩ := known
    obtain ⟨store', hrun, h'⟩ := hf p hp hid image (holds p hp) hopen
    exact ⟨store', hrun, h.of_open holds h'⟩
  · have hunknown := hopen.asking_unknown (h.unknown fun q hq hid => known ⟨q, hq, hid⟩) f
    exact ⟨store, by rw [left, hunknown], h⟩

/-- Appending puts an item into the queue of its partition, if it has one and the item fits. -/
theorem After.append (c : space.Conduct 0 space.total sound .never)
    (laid : Laid space parts) (h : store.After sound space parts history) {id : UInt8}
    {payload : Bytes}
    (few : ∀ p ∈ parts, storesAfter p (history ++ [.append id payload]) ≤ 0x1_0000_0000) :
    ∃ store', left (Store.append id payload) store = some store' ∧
      store'.After sound space parts (history ++ [.append id payload]) := by
  by_cases stored : ∃ p ∈ parts, p.id = id ∧ p.Storable payload
  · obtain ⟨p, hp, rfl, storable⟩ := stored
    have hstores : Request.stores p (.append p.id payload) = true := by
      simp [Request.stores, storable]
    obtain ⟨logs, hsound, hlogs⟩ := h
    obtain ⟨hitems, hids⟩ := hlogs p hp
    have hfew := few p hp
    rw [storesAfter_snoc, if_pos hstores] at hfew
    obtain ⟨store', log, hrun, happended, hsound'⟩ :=
      hsound.append_ok c laid hp storable (by omega)
    refine ⟨store', by rw [left, hrun], _, hsound', fun q hq => ?_⟩
    rw [queueAfter_snoc, storesAfter_snoc]
    by_cases hid : q.id = p.id
    · obtain rfl := laid.eq_of_id hq hp hid
      rw [Function.update_self, happended.ids, if_pos hstores]
      exact ⟨by rw [happended.enqueue_eq storable, hitems, Request.queued, if_pos rfl], by omega⟩
    · have hother : Request.stores q (.append p.id payload) = false := by
        simp [Request.stores, Ne.symm hid]
      rw [Function.update_of_ne hid, Request.queued_of_not_stores hother, hother]
      exact hlogs q hq
  · have hnone : ∀ p ∈ parts, Request.stores p (.append id payload) = false := by
      intro p hp
      refine decide_eq_false fun ⟨hid, storable⟩ => stored ⟨p, hp, hid.symm, storable⟩
    obtain ⟨logs, hsound, hlogs⟩ := h
    refine ⟨store, ?_, After.of_not_stores ⟨logs, hsound, hlogs⟩ hnone fun _ h => h⟩
    -- Nothing is stored: the payload is too long, or there is no such partition.
    by_cases known : ∃ p ∈ parts, p.id = id
    · obtain ⟨p, hp, rfl⟩ := known
      rw [left, hsound.append_of_long laid hp fun storable => stored ⟨p, hp, rfl, storable⟩]
    · obtain ⟨image, hopen, -⟩ := hsound.exists_open
      rw [left, hopen.append_unknown (hsound.unknown fun q hq hid => known ⟨q, hq, hid⟩)]

/-- Mounting a sound store again gives a sound store with the same logs. -/
theorem Sound.remount (c : space.Conduct 0 space.total sound .never)
    (planned : space.plan slots base layouts = .ok parts)
    (h : store.Sound sound space parts logs) :
    ∃ store', (mount store.space slots base layouts store.media).toOption = some store' ∧
      store'.Sound sound space parts logs := by
  obtain ⟨image, hm, holds⟩ := h.holds
  obtain ⟨store', hmount, h'⟩ := mount_ok logs c planned hm fun p hp => .inl (holds p hp)
  have hlogs {p : Partition} (hp : p ∈ parts) : (logs p.id).found = logs p.id :=
    (h.settled p hp).found_eq
  refine ⟨store', by rw [h.space, hmount]; rfl, h'.space, ?_, h'.faulted, ?_, h.settled⟩
  · rw [h'.volumes]
    exact List.map_congr_left fun p hp => by rw [hlogs hp]
  · obtain ⟨image', hm', holds'⟩ := h'.holds
    exact ⟨image', hm', fun p hp => hlogs hp ▸ holds' p hp⟩

/-- Each request does to the queues what it should. -/
theorem After.serve (c : space.Conduct 0 space.total sound .never)
    (planned : space.plan slots base layouts = .ok parts)
    (h : store.After sound space parts history)
    (few : ∀ p ∈ parts, storesAfter p (history ++ [request]) ≤ 0x1_0000_0000) :
    ∃ store', store.serve slots base layouts request = some store' ∧
      store'.After sound space parts (history ++ [request]) := by
  have laid := laid_of_plan planned
  have same (hnone : ∀ p, request.stores p = false) {left : Option (Store g)}
      (hleft : ∀ logs, store.Sound sound space parts logs →
        ∃ store', left = some store' ∧ store'.Sound sound space parts logs) :
      ∃ store', left = some store' ∧ store'.After sound space parts (history ++ [request]) := by
    obtain ⟨logs, hsound, hlogs⟩ := h
    obtain ⟨store', hrun, hsound'⟩ := hleft logs hsound
    have h' : store'.After sound space parts history := ⟨logs, hsound', hlogs⟩
    exact ⟨store', hrun, h'.of_not_stores (fun p _ => hnone p) fun _ h => h⟩
  -- Only an append changes the queues; what else is asked leaves the logs.
  cases request with
  | append id payload => exact h.append c laid few
  | oldestKey id =>
    refine same (fun _ => rfl) fun logs hsound => hsound.left_asking ?_
    rintro p hp rfl image holds hopen
    exact left_of_ends (hopen.oldestKey_ends (c.part (laid.inside p hp))
      (hsound.known laid hp) holds)
  | successor key =>
    refine same (fun _ => rfl) fun logs hsound =>
      hsound.left_asking fun p hp hid image holds hopen => ?_
    exact left_of_ends (hopen.successor_ends (c.part (laid.inside p hp)) (hsound.known laid hp)
      holds hid.symm)
  | fetch key capacity =>
    refine same (fun _ => rfl) fun logs hsound =>
      hsound.left_asking fun p hp hid image holds hopen => ?_
    exact left_of_ends (hopen.fetch_ends (c.part (laid.inside p hp)) (hsound.known laid hp) holds
      hid.symm capacity)
  | remount => exact same (fun _ => rfl) fun logs hsound => hsound.remount c planned

/-! ## Runs -/

/-- Requests do to the queues what they should, one after the other. -/
theorem After.serveAll (c : space.Conduct 0 space.total sound .never)
    (planned : space.plan slots base layouts = .ok parts)
    (h : store.After sound space parts history)
    (few : ∀ p ∈ parts, storesAfter p (history ++ requests) ≤ 0x1_0000_0000) :
    ∃ store', store.serveAll slots base layouts requests = some store' ∧
      store'.After sound space parts (history ++ requests) := by
  induction requests generalizing store history with
  | nil => exact ⟨store, rfl, by rwa [List.append_nil]⟩
  | cons request requests ih =>
    rw [List.append_cons] at few ⊢
    have fewer (p : Partition) (hp : p ∈ parts) :
        storesAfter p (history ++ [request]) ≤ 0x1_0000_0000 := by
      have hall := few p hp
      simp only [storesAfter, List.countP_append] at hall ⊢
      omega
    obtain ⟨store₁, hserve, h₁⟩ := h.serve c planned fewer
    obtain ⟨store₂, hrest, h₂⟩ := ih h₁ few
    exact ⟨store₂, by rw [Store.serveAll, hserve]; exact hrest, h₂⟩

/-- Mounting memories without headers gives a store without items. -/
theorem mount_after (c : space.Conduct 0 space.total sound .never)
    (planned : space.plan slots base layouts = .ok parts) {image : Bytes} {m : Media g}
    (hm : sound image m) (blank : ∀ p ∈ parts, image.slice p.base headerBytes ≠ Partition.magic) :
    ∃ store, mount space slots base layouts m = .ok store ∧ store.After sound space parts [] := by
  obtain ⟨store, hmount, h⟩ :=
    mount_ok (fun _ => Log.empty) c planned hm fun p hp => .inr ⟨blank p hp, rfl⟩
  exact ⟨store, hmount, _, h, fun p _ => ⟨rfl, Nat.le_refl _⟩⟩

/-- A walk over a partition that is known finds the items of its log with their keys. -/
theorem Open.lists {volumes : List Volume} {image : Bytes} {log : Log}
    (c : space.Conduct p.table p.stop sound .never)
    (known : Volume.lookup p.id volumes = some ⟨p, log.status⟩) (holds : p.Holds image log)
    (h : store.Open sound space volumes image) : store.Lists p (p.listing log) := by
  intro limit hlimit
  rw [p.length_listing] at hlimit
  obtain ⟨found, store', hrun, -, rfl⟩ :=
    (h.walk_ends c known holds hlimit).exists_ok fun _ _ => id
  exact ⟨store', hrun⟩

/-- A walk over a partition that is known finds the items of its log. -/
theorem Open.finds {volumes : List Volume} {image : Bytes} {log : Log}
    (c : space.Conduct p.table p.stop sound .never)
    (known : Volume.lookup p.id volumes = some ⟨p, log.status⟩) (holds : p.Holds image log)
    (h : store.Open sound space volumes image) : store.Finds p log.items := by
  intro limit hlimit
  obtain ⟨store', hrun⟩ := h.lists c known holds limit (by rwa [p.length_listing])
  exact ⟨_, store', hrun, p.map_snd_listing log⟩

/-- A walk over a partition of a sound store finds the items of its log. -/
theorem Sound.finds (c : space.Conduct 0 space.total sound .never)
    (laid : Laid space parts) (h : store.Sound sound space parts logs) (hp : p ∈ parts) :
    store.Finds p (logs p.id).items := by
  obtain ⟨image, hopen, holds⟩ := h.exists_open
  exact hopen.finds (c.part (laid.inside p hp)) (h.known laid hp) (holds p hp)

/-- A store that is mounted on an image finds the items of the logs that the image holds. -/
theorem mount_finds (c : space.Conduct 0 space.total sound .never)
    (planned : space.plan slots base layouts = .ok parts) {image : Bytes} {m : Media g}
    (hm : sound image m) (holds : ∀ p ∈ parts, p.Holds image (logs p.id)) :
    ∃ store, mount space slots base layouts m = .ok store ∧
      ∀ p ∈ parts, store.Finds p (logs p.id).items := by
  obtain ⟨store, hmount, h⟩ := mount_ok logs c planned hm fun p hp => .inl (holds p hp)
  refine ⟨store, hmount, fun p hp => ?_⟩
  have hfinds := h.finds c (laid_of_plan planned) hp
  rwa [Log.items_found] at hfinds

/-- A store that is sound after some requests answers as the queues after them. -/
theorem After.serves (c : space.Conduct 0 space.total sound .never)
    (laid : Laid space parts) (h : store.After sound space parts history) (hp : p ∈ parts)
    (few : storesAfter p history < 0x1_0000_0000) : store.Serves p (queueAfter p history) := by
  obtain ⟨logs, hsound, hlogs⟩ := h
  obtain ⟨hitems, hids⟩ := hlogs p hp
  constructor
  case finds => exact hitems ▸ hsound.finds c laid hp
  case refuses => exact fun payload long => hsound.append_of_long laid hp long
  case accepts =>
    intro payload storable
    obtain ⟨store', -, hrun, -⟩ := hsound.append_ok c laid hp storable (by omega)
    exact ⟨_, store', hrun⟩

end Requests

/-- On sound memories without a header, whatever is asked, each partition of a store is a queue of
its own: a walk finds what was put in and not yet pushed out, and an append is refused exactly if
the payload is too long. -/
theorem serves_queueAfter {space : Space g} {start stop : UInt32}
    (made : Space.create g g.eepromBytes g.flashBytes start stop = .ok space) (u : g.Uniform)
    {slots base : Nat} {layouts : List Layout} {parts : List Partition}
    (planned : space.plan slots base layouts = .ok parts) {m : Media g}
    (faultless : m.Under .clear)
    (blank : ∀ p ∈ parts, (space.image m).slice p.base headerBytes ≠ Partition.magic)
    {requests : List Request} (few : ∀ p ∈ parts, storesAfter p requests < 0x1_0000_0000) :
    ∃ mounted store, mount space slots base layouts m = .ok mounted ∧
      mounted.serveAll slots base layouts requests = some store ∧
      ∀ p ∈ parts, store.Serves p (queueAfter p requests) := by
  have t := Space.truthful_of_create made
  have c := Space.conduct_of_clear u t (space.around m)
  obtain ⟨mounted, hmount, h⟩ := mount_after c planned ⟨faultless, rfl, rfl⟩ blank
  obtain ⟨store, hrun, h'⟩ := h.serveAll c planned fun p hp => Nat.le_of_lt (few p hp)
  exact ⟨mounted, store, hmount, hrun, fun p hp =>
    h'.serves c (laid_of_plan planned) hp (few p hp)⟩

end Store

/-! ## Small examples -/

/-- Sixteen bytes of eeprom, and three pages of flash with two words of two bytes each. -/
def Geometry.small : Geometry := { Geometry.tiny with eepromBytes := 16, pages := 3 }

/-- Its sizes go into one another. -/
theorem Geometry.uniform_small : Geometry.small.Uniform := ⟨by decide, by decide, by decide⟩

/-- The eeprom and all of the flash. -/
def Space.small : Space Geometry.small where
  boundary := 16
  start := 0
  stop := 12
  start_mod := by decide
  stop_mod := by decide
  start_le_stop := by decide
  stop_lt := by decide
  page_le_scratch := by decide
  word_le_limit := by decide
  total_lt := by decide

/-- A partition with its one row in the eeprom and its area in the flash. -/
def Partition.small : Partition where
  id := 7
  base := 0
  maxItems := 1
  areaLength := 12
  maxItems_pos := by decide
  maxItems_lt := by decide
  areaLength_pos := by decide
  stop_lt := by decide

/-- The space is accepted. -/
theorem Space.create_small : Space.create .small 16 12 0 12 = .ok Space.small := rfl

/-- The layout is accepted. -/
theorem Space.plan_small : Space.small.plan 1 0 [⟨7, 28, 1⟩] = .ok [Partition.small] := rfl

/-- Fresh memories have no header. -/
theorem Space.blank_small : ∀ p ∈ [Partition.small],
    (Space.small.image (Media.fresh .small)).slice p.base headerBytes ≠ Partition.magic := by decide

/-- Two pages of flash with two words of two bytes each, and so many bytes of eeprom. -/
def Geometry.tinyWith (eepromBytes : Nat) : Geometry := { Geometry.tiny with eepromBytes }

/-- Its sizes go into one another, however long the eeprom is. -/
theorem Geometry.uniform_tinyWith (eepromBytes : Nat) : (tinyWith eepromBytes).Uniform :=
  ⟨uniform_tiny.readSize_dvd, uniform_tiny.wordBytes_dvd, uniform_tiny.wordSize_dvd⟩

/-- Twenty bytes of eeprom, and all of the flash behind it. -/
def Space.near : Space (.tinyWith 20) where
  boundary := 20
  start := 0
  stop := 8
  start_mod := by decide
  stop_mod := by decide
  start_le_stop := by decide
  stop_lt := Space.tiny.stop_lt
  page_le_scratch := by decide
  word_le_limit := by decide
  total_lt := by decide

/-- A partition in the eeprom, with one row. -/
def Partition.near : Partition where
  id := 7
  base := 0
  maxItems := 1
  areaLength := 4
  maxItems_pos := by decide
  maxItems_lt := by decide
  areaLength_pos := by decide
  stop_lt := by decide

/-- The space is accepted. -/
theorem Space.create_near : Space.create (.tinyWith 20) 20 8 0 8 = .ok Space.near := rfl

/-- The layout is accepted. -/
theorem Space.plan_near : Space.near.plan 1 0 [⟨7, 20, 1⟩] = .ok [Partition.near] := rfl

/-- Fresh memories have no header. -/
theorem Space.blank_near : ∀ p ∈ [Partition.near],
    (Space.near.image (Media.fresh _)).slice p.base headerBytes ≠ Partition.magic := by decide

/-- An item, a mounting, and an item that takes the place of the first one. -/
theorem Store.serves_queueAfter_small :
    ∃ mounted store, mount Space.small 1 0 [⟨7, 28, 1⟩] (Media.fresh .small) = .ok mounted ∧
      mounted.serveAll 1 0 [⟨7, 28, 1⟩] [.append 7 [1, 2, 3], .remount, .append 7 [4, 5]] =
        some store ∧ store.Serves Partition.small [[4, 5]] := by
  have few : ∀ p ∈ [Partition.small], storesAfter p [.append 7 [1, 2, 3], .remount,
      .append 7 [4, 5]] < 0x1_0000_0000 := by decide
  obtain ⟨mounted, store, hmount, hrun, hserves⟩ :=
    serves_queueAfter Space.create_small Geometry.uniform_small Space.plan_small
      (Media.under_clear_fresh _) Space.blank_small few
  exact ⟨mounted, store, hmount, hrun, hserves _ (by simp)⟩

end CircularLog
