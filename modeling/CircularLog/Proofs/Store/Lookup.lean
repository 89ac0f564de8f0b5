import CircularLog.Proofs.Partition.Search
import CircularLog.Proofs.Store.Iteration
import CircularLog.Proofs.Store.Queues
import CircularLog.Query

/-!
# Looking things up

The items that are stored in a partition can be numbered from zero on, and the number says where an
item goes and how it is called: `nthKey`. What is left of them when the newer ones have made room
for themselves, each with its key, is the `shelf` of the partition. In a run without faults the log
of a partition is its shelf, operation after operation (`Sound.shelves`), so that the shelf answers
for the store: a key is looked up there (`lookups_of_operateAll`), and a search goes along it
(`searches_of_operateAll`).
-/

namespace CircularLog

/-! ## Shelves -/

namespace Partition

variable {p : Partition} {log log' : Log} {payload : Bytes} {payloads : List Bytes}

/-- The key of the item that is stored as the one of this number. -/
def nthKey (p : Partition) (number : Nat) : Key :=
  ⟨p.id, number % p.maxItems, UInt32.ofNat number⟩

/-- The items that are left of those that have been put in. -/
def queue (p : Partition) (payloads : List Bytes) : List Bytes := payloads.foldl p.enqueue []

/-- The items that are left of those that have been put in, oldest first, with their keys. -/
def shelf (p : Partition) (payloads : List Bytes) : List (Key × Bytes) :=
  (payloads.mapIdx fun number payload => (p.nthKey number, payload)).drop
    (payloads.length - (p.queue payloads).length)

/-- The log has the last of these items, and counts them all. -/
structure Numbers (p : Partition) (log : Log) (payloads : List Bytes) : Prop where
  row : log.row = log.id % p.maxItems
  ids : log.id + log.items.length = payloads.length
  items : log.items = payloads.drop log.id

/-- The log has as many of them as are left in the queue. -/
structure Shelves (p : Partition) (log : Log) (payloads : List Bytes) : Prop extends
    p.Numbers log payloads where
  queue : log.items = p.queue payloads

/-- Where nothing has been stored, the shelf is empty. -/
theorem shelves_empty (p : Partition) : p.Shelves Log.empty [] :=
  ⟨⟨(Nat.zero_mod _).symm, rfl, rfl⟩, rfl⟩

/-- The keys of the log are those of the numbers. -/
theorem Numbers.keyAt_eq (h : p.Numbers log payloads) (count : Nat) :
    p.keyAt log count = p.nthKey (log.id + count) := by
  rw [keyAt, nthKey, rowBehind, h.row, Nat.mod_add_mod]

/-- The items of the log with their keys are the shelf. -/
theorem Shelves.listing_eq (h : p.Shelves log payloads) : p.listing log = p.shelf payloads := by
  have hids := h.ids
  refine List.ext_getElem? fun i => ?_
  rw [shelf, ← h.queue, show payloads.length - log.items.length = log.id by omega, listing,
    List.getElem?_mapIdx, List.getElem?_drop, List.getElem?_mapIdx, h.items, List.getElem?_drop,
    h.keyAt_eq]

/-- Taking out the oldest item leaves the numbers of the others. -/
theorem Numbers.pop (h : p.Numbers log payloads) : p.Numbers (p.pop log) payloads := by
  unfold Partition.pop
  split
  · exact h
  · next item items hitems =>
    have hids := h.ids
    have hdrop := h.items
    rw [hitems] at hids hdrop
    refine ⟨?_, ?_, ?_⟩
    · show p.nextRow log.row = (log.id + 1) % p.maxItems
      rw [nextRow, h.row, Nat.mod_add_mod]
    · rw [List.length_cons] at hids
      show log.id + 1 + items.length = payloads.length
      omega
    · show items = payloads.drop (log.id + 1)
      rw [← List.drop_drop, ← hdrop, List.drop_one, List.tail_cons]

/-- So does taking out several. -/
theorem Numbers.popMany (h : p.Numbers log payloads) (count : Nat) :
    p.Numbers (p.popMany count log) payloads := by
  induction count generalizing log with
  | zero => exact h
  | succ count ih => exact ih h.pop

/-- The next item is put behind the others. -/
theorem Numbers.push (h : p.Numbers log payloads) (payload : Bytes) :
    p.Numbers (log.push payload) (payloads ++ [payload]) := by
  have hids := h.ids
  refine ⟨h.row, ?_, ?_⟩
  · rw [Log.id_push, Log.length_items_push, List.length_append, List.length_singleton]
    omega
  · rw [Log.id_push, Log.push, h.items, List.drop_append_of_le_length (by omega)]

/-- One more item is put on the shelf, at the expense of the oldest ones. -/
theorem Appended.shelves (happended : p.Appended log payload log') (storable : p.Storable payload)
    (h : p.Shelves log payloads) : p.Shelves log' (payloads ++ [payload]) := by
  refine ⟨?_, ?_⟩
  · obtain ⟨count, -, rfl⟩ := happended
    exact (h.popMany count).push payload
  · rw [happended.enqueue_eq storable, h.queue, queue, queue, List.foldl_append]
    rfl

/-- The shelf gets what the log has gained, if anything. -/
theorem Gains.shelves {payload? : Option Bytes} (gains : p.Gains log log' payload?)
    (storable : ∀ payload, payload? = some payload → p.Storable payload)
    (h : p.Shelves log payloads) : p.Shelves log' (payloads ++ payload?.toList) := by
  cases payload? with
  | none =>
    obtain rfl : log' = log := gains
    rwa [Option.toList_none, List.append_nil]
  | some payload => exact Appended.shelves gains (storable payload rfl) h

end Partition

/-! ## Runs -/

namespace Store

variable {g : Geometry} {space : Space g} {parts : List Partition} {p : Partition}
  {sound : Bytes → Media g → Prop} {around : Bytes × Bytes} {logs : UInt8 → Log}
  {store mounted : Store g} {slots base : Nat} {layouts : List Layout} {operation : Operation}
  {operations : List Operation} {stored : Partition → List Bytes} {payload : Bytes} {key : Key}

/-- The payloads that operations store in a partition, in the order in which they do. -/
def payloadsIn (p : Partition) (operations : List Operation) : List Bytes :=
  operations.filterMap (Operation.payload? p)

/-- What the first operation stores comes before what the others do. -/
theorem payloadsIn_cons (p : Partition) (operation : Operation) (operations : List Operation) :
    payloadsIn p (operation :: operations) =
      (operation.payload? p).toList ++ payloadsIn p operations := by
  rw [payloadsIn, List.filterMap_cons]
  cases operation.payload? p <;> rfl

/-- There are as many payloads as operations that store one. -/
theorem length_payloadsIn (p : Partition) (operations : List Operation) :
    (payloadsIn p operations).length = storedBy p operations := by
  rw [payloadsIn, List.length_filterMap_eq_countP, storedBy]
  exact List.countP_congr fun operation _ => by rw [operation.isSome_payload?]

/-- No more ids have been used up than items have been stored. -/
theorem ids_lt_of_shelves {log : Log} {bound : Nat} (h : p.Shelves log (payloadsIn p operations))
    (few : storedBy p operations < bound) : log.id + log.items.length < bound :=
  (h.ids.trans (length_payloadsIn p operations)).trans_lt few

/-- Where an item has been stored, there is the operation that stored it. -/
theorem exists_of_getElem?_payloadsIn {number : Nat}
    (h : (payloadsIn p operations)[number]? = some payload) :
    ∃ first operation rest, operations = first ++ operation :: rest ∧
      operation.payload? p = some payload ∧ (payloadsIn p first).length = number := by
  induction operations generalizing number with
  | nil => cases h
  | cons operation operations ih =>
    rw [payloadsIn_cons] at h
    cases hstores : operation.payload? p with
    | none =>
      rw [hstores] at h
      obtain ⟨first, storing, rest, rfl, hpayload, hnumber⟩ := ih h
      refine ⟨operation :: first, storing, rest, rfl, hpayload, ?_⟩
      rwa [payloadsIn_cons, hstores]
    | some item =>
      rw [hstores] at h
      cases number with
      | zero => exact ⟨[], operation, operations, rfl, by rw [hstores]; exact h, rfl⟩
      | succ number =>
        obtain ⟨first, storing, rest, rfl, hpayload, hnumber⟩ := ih h
        refine ⟨operation :: first, storing, rest, rfl, hpayload, ?_⟩
        rw [payloadsIn_cons, hstores, List.length_append, hnumber, Nat.add_comm]
        rfl

/-- Operations put what they store on the shelves. -/
theorem Sound.shelves (c : space.Conduct 0 space.total sound .never)
    (planned : space.plan slots base layouts = .ok parts) (h : store.Sound sound space parts logs)
    (shelves : ∀ p ∈ parts, p.Shelves (logs p.id) (stored p))
    (few : ∀ p ∈ parts, (logs p.id).id + (logs p.id).items.length + storedBy p operations ≤
      0x1_0000_0000) :
    ∃ after logs', store.operateAll slots base layouts operations = some after ∧
      after.Sound sound space parts logs' ∧
      ∀ p ∈ parts, p.Shelves (logs' p.id) (stored p ++ payloadsIn p operations) := by
  -- On the operations: what has been stored before grows by what the first one stores.
  induction operations generalizing store logs stored with
  | nil => exact ⟨store, logs, rfl, h, fun p hp => (List.append_nil (stored p)).symm ▸ shelves p hp⟩
  | cons operation operations ih =>
    simp only [storedBy_cons] at few
    obtain ⟨store₁, logs₁, hrun, h₁, gains, -⟩ := h.operate_gains c planned operation fun p hp => by
      have hfew := few p hp
      omega
    have shelves₁ (p : Partition) (hp : p ∈ parts) :
        p.Shelves (logs₁ p.id) (stored p ++ (operation.payload? p).toList) :=
      (gains p hp).shelves (fun _ h => (Operation.append_of_payload? h).2) (shelves p hp)
    obtain ⟨store₂, logs₂, hrest, h₂, shelves₂⟩ := ih h₁ shelves₁ fun p hp => by
      have hids := (gains p hp).ages.ids
      rw [operation.isSome_payload?] at hids
      have hfew := few p hp
      omega
    refine ⟨store₂, logs₂, by rw [Store.operateAll, hrun]; exact hrest, h₂, fun p hp => ?_⟩
    rw [payloadsIn_cons, ← List.append_assoc]
    exact shelves₂ p hp

/-- A run without faults on memories without a header puts what is stored on the shelves. -/
theorem shelves_of_mount (c : space.Conduct 0 space.total (space.Exposes .clear around) .never)
    (planned : space.plan slots base layouts = .ok parts) {m : Media g}
    (hm : space.Exposes .clear around (space.image m) m)
    (blank : ∀ p ∈ parts, (space.image m).slice p.base headerBytes ≠ Partition.magic)
    (mounts : mount space slots base layouts m = .ok mounted)
    (few : ∀ p ∈ parts, storedBy p operations ≤ 0x1_0000_0000) :
    ∃ store logs, mounted.operateAll slots base layouts operations = some store ∧
      store.Sound (space.Exposes .clear around) space parts logs ∧
      ∀ p ∈ parts, p.Shelves (logs p.id) (payloadsIn p operations) := by
  obtain ⟨mounted', hmount, h⟩ := mount_ok (fun _ => Log.empty) c planned hm
    fun p hp => .inr ⟨blank p hp, rfl⟩
  obtain rfl : mounted' = mounted := Except.ok.inj (hmount.symm.trans mounts)
  apply h.shelves c planned (fun p _ => p.shelves_empty)
  intro p hp
  exact Nat.zero_add _ ▸ few p hp

/-! ## Lookups -/

/-- What is found under a key after some operations: the item on the shelf of its partition that has
this key. -/
def lookUp (parts : List Partition) (operations : List Operation) (key : Key) :
    Except Error Bytes :=
  match parts.find? (·.id == key.partition) with
  | none => .error .invalidRange
  | some p =>
    if p.maxItems ≤ key.row then
      .error .invalidRange
    else
      match (p.shelf (payloadsIn p operations)).lookup key with
      | none => .error .notFound
      | some item => .ok item

/-- One of the operations was to append the payload, and gave the key for it. -/
def Created (slots base : Nat) (layouts : List Layout) (mounted : Store g)
    (operations : List Operation) (key : Key) (payload : Bytes) : Prop :=
  ∃ first rest earlier,
    operations = first ++ .request (.append key.partition payload) :: rest ∧
      mounted.operateAll slots base layouts first = some earlier ∧
      earlier.gives (.request (.append key.partition payload)) = some key

/-- A key of a partition that there is not is refused. -/
theorem lookUp_of_unknown (unknown : ∀ p ∈ parts, p.id ≠ key.partition)
    (operations : List Operation) : lookUp parts operations key = .error .invalidRange := by
  rw [lookUp, List.find?_eq_none.mpr fun p hp => by simpa using unknown p hp]

section Known

variable {log : Log} {image : Bytes} (laid : Laid space parts) (hp : p ∈ parts)
  (part : key.partition = p.id)
include laid hp part

/-- So is one with a row behind the table. -/
theorem lookUp_of_row_ge (hrow : p.maxItems ≤ key.row) (operations : List Operation) :
    lookUp parts operations key = .error .invalidRange := by
  rw [lookUp, part, laid.find?_eq hp]
  exact if_pos hrow

variable (shelves : p.Shelves log (payloadsIn p operations))
include shelves

/-- A key with a row of the table is looked up among the items of the log. -/
theorem lookUp_of_row_lt (hrow : key.row < p.maxItems) : lookUp parts operations key =
    match (p.listing log).lookup key with
    | none => .error .notFound
    | some item => .ok item := by
  rw [lookUp, part, laid.find?_eq hp, shelves.listing_eq]
  exact if_neg (Nat.not_le.mpr hrow)

/-- Where it names none of them, nothing is found. -/
theorem lookUp_of_not_names (hrow : key.row < p.maxItems)
    (hnone : ∀ count, ¬ p.Names log key count) :
    lookUp parts operations key = .error .notFound := by
  rw [lookUp_of_row_lt laid hp part shelves hrow, Partition.lookup_of_not_names hnone]

/-- Where it names one of them, that one is found. -/
theorem lookUp_of_names (holds : p.Holds image log) {count : Nat} (hnames : p.Names log key count)
    {item : Bytes} (hitem : log.items[count]? = some item) :
    lookUp parts operations key = .ok item := by
  have hrow : key.row < p.maxItems := hnames.row ▸ p.rowBehind_lt _ _
  rw [lookUp_of_row_lt laid hp part shelves hrow, holds.lookup_of_names part hnames hitem]

end Known

/-- A key is refused for its range exactly if there is no such partition, or no such row. -/
theorem lookUp_eq_invalidRange (laid : Laid space parts) (operations : List Operation) (key : Key) :
    lookUp parts operations key = .error .invalidRange ↔
      (∀ p ∈ parts, p.id ≠ key.partition) ∨
        ∃ p ∈ parts, p.id = key.partition ∧ p.maxItems ≤ key.row := by
  constructor
  · intro hrefused
    refine or_iff_not_imp_left.mpr fun known => ?_
    push Not at known
    obtain ⟨p, hp, part⟩ := known
    refine ⟨p, hp, part, Nat.le_of_not_lt fun hrow => ?_⟩
    rw [lookUp, ← part, laid.find?_eq hp] at hrefused
    simp only [if_neg (Nat.not_le.mpr hrow)] at hrefused
    split at hrefused <;> cases hrefused
  · rintro (unknown | ⟨p, hp, part, hrow⟩)
    · exact lookUp_of_unknown unknown operations
    · exact lookUp_of_row_ge laid hp part.symm hrow operations

section Asking

variable (c : space.Conduct 0 space.total sound .never) (laid : Laid space parts)
  (h : store.Sound sound space parts logs)
include c laid h

/-- What a sound store answers when a partition is read is what the partition answers; a partition
that it does not have is refused. -/
theorem Sound.reading_answers {τ α : Type} {id : UInt8} {held : τ}
    {f : Space g → Volume → Action Error (Media g × τ) α} (value : α → τ → Prop)
    (error : Error → τ → Prop)
    (known : ∀ p ∈ parts, p.id = id → ∀ (image : Bytes) (m : Media g),
      space.Conduct p.table p.stop sound .never → p.Holds image (logs p.id) → sound image m →
        (f space ⟨p, (logs p.id).status⟩).Ends (m, held) (fun a after => value a after.2)
          fun e after => e ≠ .inconsistent ∧ error e after.2)
    (unknown : (∀ p ∈ parts, p.id ≠ id) → error .invalidRange held) :
    (latched (reading id f)).Ends (store, held) (fun a after => value a after.2)
      fun e after => error e after.2 := by
  obtain ⟨image, hopen, holds⟩ := h.exists_open
  rw [ends_latched h.faulted]
  by_cases hknown : ∃ p ∈ parts, p.id = id
  · obtain ⟨p, hp, rfl⟩ := hknown
    rw [ends_reading (h.known laid hp), h.space]
    apply (known p hp rfl image store.media (c.part (laid.inside p hp)) (holds p hp)
      hopen.media).mono
    · exact fun _ _ hvalue => hvalue
    · exact fun e after herror => ⟨fun he => absurd he herror.1, fun _ => herror.2⟩
  · have hunknown (p : Partition) (hp : p ∈ parts) : p.id ≠ id := fun hid => hknown ⟨p, hp, hid⟩
    rw [Action.Ends, reading_unknown (h.unknown hunknown)]
    exact ⟨fun he => (by cases he), fun _ => unknown hunknown⟩

/-- So it is where nothing is held beside the store. -/
theorem Sound.asking_answers {α : Type} {id : UInt8}
    {f : Space g → Volume → Action Error (Media g) α} {value : α → Prop} {error : Error → Prop}
    (known : ∀ p ∈ parts, p.id = id → ∀ (image : Bytes) (m : Media g),
      space.Conduct p.table p.stop sound .never → p.Holds image (logs p.id) → sound image m →
        (f space ⟨p, (logs p.id).status⟩).Ends m (fun a _ => value a)
          fun e _ => e ≠ .inconsistent ∧ error e)
    (unknown : (∀ p ∈ parts, p.id ≠ id) → error .invalidRange) :
    (asking id f).Ends store (fun a _ => value a) fun e _ => error e := by
  rw [asking, Action.ends_alone]
  refine h.reading_answers c laid (fun a _ => value a) (fun e _ => error e) ?_ unknown
  intro p hp hid image m cPart holds hm
  rw [Action.ends_beside]
  exact known p hp hid image m cPart holds hm

variable (shelves : ∀ p ∈ parts, p.Shelves (logs p.id) (payloadsIn p operations))
include shelves

/-- The length that is told is that of the item that is found under the key. -/
theorem Sound.itemLength_ends (key : Key) :
    (itemLength key).Ends store
      (fun length _ => ∃ item, lookUp parts operations key = .ok item ∧ length = item.length)
      fun e _ => lookUp parts operations key = .error e := by
  apply h.asking_answers c laid
  · intro p hp hid image m cPart holds hm
    apply (p.itemLength_ends cPart holds hm key).mono
    · rintro _ m' ⟨-, count, item, hnames, hitem, rfl⟩
      exact ⟨item, lookUp_of_names laid hp hid.symm (shelves p hp) holds hnames hitem, rfl⟩
    · rintro _ m' ⟨-, ⟨rfl, hrow⟩ | ⟨rfl, hrow, hnone⟩⟩
      · exact ⟨nofun, lookUp_of_row_ge laid hp hid.symm hrow operations⟩
      · exact ⟨nofun, lookUp_of_not_names laid hp hid.symm (shelves p hp) hrow hnone⟩
  · exact fun unknown => lookUp_of_unknown unknown operations

/-- The payload that is fetched is the item that is found under the key, if it is not too long. -/
theorem Sound.fetch_answers (key : Key) (capacity : Nat) :
    (fetch key capacity).Ends store
      (fun payload _ => lookUp parts operations key = .ok payload ∧ payload.length ≤ capacity)
      fun e _ => lookUp parts operations key = .error e ∨
        ∃ item, lookUp parts operations key = .ok item ∧ capacity < item.length ∧
          e = .bufferTooSmall item.length := by
  apply h.asking_answers c laid
  · intro p hp hid image m cPart holds hm
    apply (p.fetch_ends cPart holds hm key capacity).mono
    · rintro payload m' ⟨-, count, hnames, hitem, hfits⟩
      exact ⟨lookUp_of_names laid hp hid.symm (shelves p hp) holds hnames hitem, hfits⟩
    · rintro e m' (hhalts | ⟨-, ⟨rfl, hrow⟩ | ⟨rfl, hrow, hnone⟩ |
        ⟨count, item, hnames, hitem, rfl, hlong⟩⟩)
      · exact (Space.not_halts hhalts).elim
      · exact ⟨nofun, .inl (lookUp_of_row_ge laid hp hid.symm hrow operations)⟩
      · exact ⟨nofun, .inl (lookUp_of_not_names laid hp hid.symm (shelves p hp) hrow hnone)⟩
      · exact ⟨nofun, .inr
          ⟨item, lookUp_of_names laid hp hid.symm (shelves p hp) holds hnames hitem, hlong, rfl⟩⟩
  · exact fun unknown => .inl (lookUp_of_unknown unknown operations)

/-- What is loaded is put in front of a buffer that is long enough, and any other buffer is left
alone. -/
theorem Sound.load_ends (key : Key) (buffer : Bytes) :
    (load key).Ends (store, buffer)
      (fun length after => ∃ item, lookUp parts operations key = .ok item ∧
        item.length ≤ buffer.length ∧ length = item.length ∧
        after.2 = item ++ buffer.drop item.length)
      fun e after => after.2 = buffer ∧ (lookUp parts operations key = .error e ∨
        ∃ item, lookUp parts operations key = .ok item ∧ buffer.length < item.length ∧
          e = .bufferTooSmall item.length) := by
  simp only [load, Action.ends_bind, Action.ends_get, Action.ends_beside, Action.ends_modify,
    Action.ends_pure]
  apply (h.fetch_answers c laid shelves key buffer.length).mono
  · rintro item after ⟨hfound, hfits⟩
    exact ⟨item, hfound, hfits, rfl, by simp [Bytes.overlay]⟩
  · exact fun e after hrefused => ⟨trivial, hrefused⟩

/-- A search through a partition goes along its shelf. -/
theorem Sound.find_searches (hp : p ∈ parts) {π : Type} (capacity : Nat)
    (test : Bytes → StateM π Bool) (held : π) :
    (find p.id capacity test).Ends (store, held)
      (fun key after => Partition.firstPassing capacity test (p.shelf (payloadsIn p operations))
        held = (.ok key, after.2))
      fun e after => Partition.firstPassing capacity test (p.shelf (payloadsIn p operations)) held =
        (.error e, after.2) := by
  rw [find_eq]
  apply h.reading_answers c laid
    (fun key after => Partition.firstPassing capacity test (p.shelf (payloadsIn p operations))
      held = (.ok key, after))
    fun e after => Partition.firstPassing capacity test (p.shelf (payloadsIn p operations)) held =
      (.error e, after)
  · intro q hq hid image m cPart holds hm
    obtain rfl := laid.eq_of_id hq hp hid
    have hperforms := holds.find_performs cPart hm capacity test held
    rw [(shelves q hq).listing_eq] at hperforms
    have hmem := Partition.mem_of_firstPassing capacity test
      (q.shelf (payloadsIn q operations)) held
    apply hperforms.mono
    · exact fun _ _ hfound => hfound.2
    · rintro e after ⟨-, hfound⟩
      rw [hfound] at hmem
      exact ⟨hmem, hfound⟩
  · exact fun unknown => absurd rfl (unknown p hp)

end Asking

section Reached

variable {start stop : UInt32}
  (made : Space.create g g.eepromBytes g.flashBytes start stop = .ok space) (u : g.Uniform)
  (planned : space.plan slots base layouts = .ok parts) {m : Media g} (faultless : m.Under .clear)
  (blank : ∀ p ∈ parts, (space.image m).slice p.base headerBytes ≠ Partition.magic)
  (mounts : mount space slots base layouts m = .ok mounted)
include made u planned faultless blank mounts

/-- In a store that has been reached, what has been stored is on the shelves, and a walk finds
that. -/
theorem shelves_of_operateAll
    (reaches : mounted.operateAll slots base layouts operations = some store)
    (few : ∀ p ∈ parts, storedBy p operations < 0x1_0000_0000) :
    ∃ logs, store.Sound (space.Exposes .clear (space.around m)) space parts logs ∧
      (∀ p ∈ parts, p.Shelves (logs p.id) (payloadsIn p operations)) ∧
      ∀ p ∈ parts, store.Lists p (p.shelf (payloadsIn p operations)) := by
  have c := Space.conduct_of_clear u (Space.truthful_of_create made) (space.around m)
  have laid := laid_of_plan planned
  obtain ⟨store', logs, hrun, h, shelves⟩ :=
    shelves_of_mount c planned ⟨faultless, rfl, rfl⟩ blank mounts
    fun p hp => Nat.le_of_lt (few p hp)
  obtain rfl : store' = store := Option.some.inj (hrun.symm.trans reaches)
  refine ⟨logs, h, shelves, fun p hp => ?_⟩
  obtain ⟨image, hopen, holds⟩ := h.exists_open
  rw [← (shelves p hp).listing_eq]
  exact hopen.lists (c.part (laid.inside p hp)) (h.known laid hp) (holds p hp)

/-- What is found under a key was appended by an operation that gave this key. -/
theorem created_of_lookUp (few : ∀ p ∈ parts, storedBy p operations < 0x1_0000_0000)
    (found : lookUp parts operations key = .ok payload) :
    Created slots base layouts mounted operations key payload := by
  have c := Space.conduct_of_clear u (Space.truthful_of_create made) (space.around m)
  have laid := laid_of_plan planned
  -- The item is on the shelf, so it has a number, and there is the operation that stored it.
  unfold lookUp at found
  split at found
  · cases found
  · next p hfind =>
    have hp := List.mem_of_find?_eq_some hfind
    split_ifs at found with hrow
    split at found
    · cases found
    · next item hlookup =>
      obtain rfl := Except.ok.inj found
      obtain ⟨front, back, hsplit, -⟩ := List.lookup_eq_some_iff.mp hlookup
      have hmem : (key, item) ∈ p.shelf (payloadsIn p operations) := by simp [hsplit]
      obtain ⟨number, hnumber, hentry⟩ := List.mem_mapIdx.mp (List.mem_of_mem_drop hmem)
      obtain ⟨rfl, rfl⟩ := Prod.mk.inj hentry
      obtain ⟨first, storing, rest, hoperations, hpayload, hfirst⟩ :=
        exists_of_getElem?_payloadsIn (List.getElem?_eq_getElem hnumber)
      obtain ⟨rfl, storable⟩ := Operation.append_of_payload? hpayload
      have few₁ (q : Partition) (hq : q ∈ parts) : storedBy q first ≤ 0x1_0000_0000 := by
        have hfew := few q hq
        rw [hoperations, storedBy_append] at hfew
        omega
      obtain ⟨earlier, logs, hrun, h, shelves⟩ :=
        shelves_of_mount c planned ⟨faultless, rfl, rfl⟩ blank mounts few₁
      have hids := (shelves p hp).ids
      have hfew : number < storedBy p operations :=
        hnumber.trans_eq (length_payloadsIn p operations)
      obtain ⟨after, log, happend, -⟩ := h.append_ok c laid hp storable (by have := few p hp; omega)
      refine ⟨first, rest, earlier, hoperations, hrun, ?_⟩
      show (append p.id _).given earlier = some (p.nthKey number)
      rw [Action.given, happend, (shelves p hp).keyAt_eq, hids, hfirst]

/-- A run without faults on memories without a header has led to a store. Whatever is asked for, its
key is one that the run has made or any other: the length that is told and the bytes that are put in
front of a buffer are those of the item that has this key, among the items that a walk finds; they
are those that were appended when the key was given. A key is refused for its range exactly if there
is no such partition or row, and nothing is found under any other. -/
theorem lookups_of_operateAll
    (reaches : mounted.operateAll slots base layouts operations = some store)
    (few : ∀ p ∈ parts, storedBy p operations < 0x1_0000_0000) (key : Key) (buffer : Bytes) :
    (∀ p ∈ parts, store.Lists p (p.shelf (payloadsIn p operations))) ∧
      (∀ item, lookUp parts operations key = .ok item →
        Created slots base layouts mounted operations key item) ∧
      (lookUp parts operations key = .error .invalidRange ↔
        (∀ p ∈ parts, p.id ≠ key.partition) ∨
          ∃ p ∈ parts, p.id = key.partition ∧ p.maxItems ≤ key.row) ∧
      (itemLength key).Ends store
        (fun length _ => ∃ item, lookUp parts operations key = .ok item ∧ length = item.length)
        (fun e _ => lookUp parts operations key = .error e) ∧
      (load key).Ends (store, buffer)
        (fun length after => ∃ item, lookUp parts operations key = .ok item ∧
          item.length ≤ buffer.length ∧ length = item.length ∧
          after.2 = item ++ buffer.drop item.length)
        (fun e after => after.2 = buffer ∧ (lookUp parts operations key = .error e ∨
          ∃ item, lookUp parts operations key = .ok item ∧ buffer.length < item.length ∧
            e = .bufferTooSmall item.length)) := by
  have c := Space.conduct_of_clear u (Space.truthful_of_create made) (space.around m)
  have laid := laid_of_plan planned
  obtain ⟨logs, h, shelves, lists⟩ :=
    shelves_of_operateAll made u planned faultless blank mounts reaches few
  exact ⟨lists, fun item => created_of_lookUp made u planned faultless blank mounts few,
    lookUp_eq_invalidRange laid operations key, h.itemLength_ends c laid shelves key,
    h.load_ends c laid shelves key buffer⟩

/-- A run without faults on memories without a header has led to a store. Whatever is searched for,
with a test that may keep a state and any buffer, a search goes along the items that a walk finds:
it tests each once and in order, until one passes the test or does not fit into the buffer, and
leaves the test in the state in which it is then. -/
theorem searches_of_operateAll
    (reaches : mounted.operateAll slots base layouts operations = some store)
    (few : ∀ p ∈ parts, storedBy p operations < 0x1_0000_0000) (hp : p ∈ parts) :
    store.Lists p (p.shelf (payloadsIn p operations)) ∧
      ∀ {π : Type} (capacity : Nat) (test : Bytes → StateM π Bool) (held : π),
        (find p.id capacity test).Ends (store, held)
          (fun key after =>
            Partition.firstPassing capacity test (p.shelf (payloadsIn p operations)) held =
              (.ok key, after.2))
          fun e after =>
            Partition.firstPassing capacity test (p.shelf (payloadsIn p operations)) held =
              (.error e, after.2) := by
  have c := Space.conduct_of_clear u (Space.truthful_of_create made) (space.around m)
  obtain ⟨logs, h, shelves, lists⟩ :=
    shelves_of_operateAll made u planned faultless blank mounts reaches few
  exact ⟨lists p hp, fun capacity test held =>
    h.find_searches c (laid_of_plan planned) shelves hp capacity test held⟩

end Reached

/-! ## Small examples -/

/-- Three items for two rows. -/
def Operation.crowding : List Operation :=
  [.request (.append 7 [1, 2, 3]), .request (.append 7 []), .request (.append 7 [4, 5])]

/-- They can be stored one after the other, without faults. -/
theorem exists_crowded_roomy :
    ∃ mounted store, mount Space.roomy 1 0 [⟨7, 32, 2⟩] (Media.fresh _) = .ok mounted ∧
      mounted.operateAll 1 0 [⟨7, 32, 2⟩] Operation.crowding = some store := by
  have run : ((mount Space.roomy 1 0 [⟨7, 32, 2⟩] (Media.fresh _)).toOption.bind fun mounted =>
      mounted.operateAll 1 0 [⟨7, 32, 2⟩] Operation.crowding).isSome := by decide +kernel
  obtain ⟨store, hstore⟩ := Option.isSome_iff_exists.mp run
  obtain ⟨mounted, hmounted, reaches⟩ := Option.bind_eq_some_iff.mp hstore
  exact ⟨mounted, store, mount_of_toOption hmounted, reaches⟩

/-- The third of three items has made room for itself. The item that was in its row is not found any
more, and it is put in front of a buffer that is longer. -/
theorem lookups_of_operateAll_roomy :
    ∃ mounted store, mount Space.roomy 1 0 [⟨7, 32, 2⟩] (Media.fresh _) = .ok mounted ∧
      mounted.operateAll 1 0 [⟨7, 32, 2⟩] Operation.crowding = some store ∧
      (load ⟨7, 0, 0⟩).Ends (store, [9, 9, 9]) (fun _ _ => False)
        (fun e after => e = .notFound ∧ after.2 = [9, 9, 9]) ∧
      (load ⟨7, 0, 2⟩).Ends (store, [9, 9, 9]) (fun length after => length = 2 ∧
        after.2 = [4, 5, 9])
        fun _ _ => False := by
  obtain ⟨mounted, store, mounts, reaches⟩ := exists_crowded_roomy
  have looks := lookups_of_operateAll Space.create_roomy (Geometry.uniform_tinyWith 32)
    Space.plan_roomy (Media.under_clear_fresh _) Space.blank_roomy mounts reaches (by decide)
  obtain ⟨-, -, -, -, stale⟩ := looks ⟨7, 0, 0⟩ [9, 9, 9]
  obtain ⟨-, -, -, -, live⟩ := looks ⟨7, 0, 2⟩ [9, 9, 9]
  refine ⟨mounted, store, mounts, reaches, stale.mono ?_ ?_, live.mono ?_ ?_⟩
  · rintro length after ⟨item, hfound, -⟩
    cases hfound
  · rintro e after ⟨hbuffer, hfound | ⟨item, hfound, -⟩⟩
    · cases hfound
      exact ⟨rfl, hbuffer⟩
    · cases hfound
  · rintro length after ⟨item, hfound, -, rfl, hbuffer⟩
    cases hfound
    exact ⟨rfl, hbuffer⟩
  · rintro e after ⟨-, hfound | ⟨item, hfound, hlong, -⟩⟩
    · cases hfound
    · cases hfound
      exact absurd hlong (by decide)

/-- A search for a payload of two bytes tests the empty one that is older, and finds the key. -/
theorem searches_of_operateAll_roomy :
    ∃ mounted store, mount Space.roomy 1 0 [⟨7, 32, 2⟩] (Media.fresh _) = .ok mounted ∧
      mounted.operateAll 1 0 [⟨7, 32, 2⟩] Operation.crowding = some store ∧
      (find 7 2 (Query.length 2).test).Ends (store, #[])
        (fun key after => key = ⟨7, 0, 2⟩ ∧ after.2 = #[0, 2]) fun _ _ => False := by
  obtain ⟨mounted, store, mounts, reaches⟩ := exists_crowded_roomy
  obtain ⟨-, searches⟩ := searches_of_operateAll Space.create_roomy (Geometry.uniform_tinyWith 32)
    Space.plan_roomy (Media.under_clear_fresh _) Space.blank_roomy mounts reaches (by decide)
    (List.mem_singleton_self Partition.roomy)
  refine ⟨mounted, store, mounts, reaches, (searches 2 (Query.length 2).test #[]).mono ?_ ?_⟩
  · rintro key after hfound
    obtain ⟨hkey, hseen⟩ := Prod.mk.inj hfound
    cases hkey
    exact ⟨rfl, hseen.symm⟩
  · rintro e after hfound
    obtain ⟨hkey, -⟩ := Prod.mk.inj hfound
    cases hkey

end Store

end CircularLog
