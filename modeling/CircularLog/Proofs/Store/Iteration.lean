import CircularLog.Proofs.Partition.Iteration
import CircularLog.Proofs.Store.Answers
import CircularLog.Proofs.Store.Chains

/-!
# Iterating while others use the store

In a run without faults the logs of a store only age (`Sound.operate`, `Sound.operateAll`), so a key
that an operation `gives` stays one that was handed out, whatever else is done and however often the
store is mounted again in between. To advance it leads to the stored item with the smallest larger
id, or it stays where it is if there is none. An iterator that does so now and then visits items
with larger and larger ids, and what it passes over has been evicted for good
(`iterates_of_operateAll`).
-/

namespace CircularLog

namespace Store

variable {g : Geometry} {space : Space g} {parts : List Partition} {p : Partition}
  {sound : Bytes → Media g → Prop} {logs : UInt8 → Log} {store : Store g} {image : Bytes}
  {slots base : Nat} {layouts : List Layout} {operation : Operation} {operations : List Operation}
  {key : Key} {number : Nat} {id : UInt8} {τ α : Type}

/-! ## Keys that are given -/

/-- The key that an operation gives, if it ends with one. -/
def gives (store : Store g) : Operation → Option Key
  | .request (.append id payload) => (append id payload).given store
  | .request (.oldestKey id) => (oldestKey id).given store
  | .request (.successor key) => (successor key).given store
  | .find id capacity test held => (find id capacity test).given (store, held)
  | _ => none

/-- How many items operations store in a partition. -/
def storedBy (p : Partition) (operations : List Operation) : Nat :=
  operations.countP (Operation.stores p)

/-- The first operation counts if it stores an item there. -/
theorem storedBy_cons (p : Partition) (operation : Operation) (operations : List Operation) :
    storedBy p (operation :: operations) =
      (if operation.stores p then 1 else 0) + storedBy p operations := by
  rw [storedBy, storedBy, List.countP_cons, Nat.add_comm]

/-- What is stored first and what is stored then add up. -/
theorem storedBy_append (p : Partition) (operations others : List Operation) :
    storedBy p (operations ++ others) = storedBy p operations + storedBy p others :=
  List.countP_append

/-- The key was given for an item of one of the partitions. -/
def Issued (parts : List Partition) (logs : UInt8 → Log) (key : Key) : Prop :=
  ∃ p ∈ parts, ∃ number, p.Handed (logs p.id) key number

/-- What an action gives has what its ends have. -/
theorem of_given {ε σ : Type} {x : Action ε σ α} {s : σ} {value : α → Prop} {good : σ → Prop}
    {error : ε → σ → Prop} (h : x.Ends s (fun a after => good after ∧ value a) error) {a : α}
    (given : x.given s = some a) : value a :=
  (h.of_ok (Action.eq_ok_of_given given)).2

/-- The volumes of a sound store are backed by an image that holds its logs. -/
theorem Sound.backed (h : store.Sound sound space parts logs) (laid : Laid space parts)
    (holds : ∀ p ∈ parts, p.Holds image (logs p.id)) : Backed space store.volumes image := by
  intro id volume hlookup
  rw [h.volumes] at hlookup
  obtain ⟨p, hp, rfl⟩ := List.mem_map.mp (List.mem_of_find?_eq_some hlookup)
  exact ⟨laid.inside p hp, p.runOf (logs p.id), (holds p hp).tabled, (holds p hp).status_runOf.symm⟩

section Giving

variable (c : space.Conduct 0 space.total sound .never) (laid : Laid space parts)
  (h : store.Sound sound space parts logs)
include c laid h

/-- Reading a partition behind the latch leaves a sound store as it is, if it is answered for each
partition that the store has. -/
theorem Sound.latched_reading_ends {held : τ} {f : Space g → Volume → Action Error (Media g × τ) α}
    {value : α → Prop}
    (hf : ∀ p ∈ parts, p.id = id → ∀ (image : Bytes) (m : Media g),
      space.Conduct p.table p.stop sound .never → p.Holds image (logs p.id) → sound image m →
        (f space ⟨p, (logs p.id).status⟩).Ends (m, held)
          (fun a after => sound image after.1 ∧ value a)
          fun e after => sound image after.1 ∧ e ≠ .inconsistent) :
    (latched (reading id f)).Ends (store, held)
      (fun a after => after.1.Sound sound space parts logs ∧ value a)
      fun e after => after.1.Sound sound space parts logs ∧ e ≠ .inconsistent := by
  obtain ⟨image, hopen, holds⟩ := h.exists_open
  have answered (volume : Volume) (hlookup : Volume.lookup id store.volumes = some volume) :
      (f space volume).Ends (store.media, held) (fun a after => sound image after.1 ∧ value a)
        fun e after => sound image after.1 ∧ e ≠ .inconsistent := by
    have hid : volume.partition.id = id := by simpa using List.find?_some hlookup
    rw [h.volumes] at hlookup
    obtain ⟨p, hp, rfl⟩ := List.mem_map.mp (List.mem_of_find?_eq_some hlookup)
    exact hf p hp hid image store.media (c.part (laid.inside p hp)) (holds p hp) hopen.media
  apply (hopen.latched_reading_ends answered).mono
  · exact fun a after h' => ⟨h.of_open holds h'.1, h'.2⟩
  · exact fun e after h' => ⟨h.of_open holds h'.1, h'.2⟩

/-- The oldest key is that of an item. -/
theorem Sound.oldestKey_gives (id : UInt8) :
    (oldestKey id).Ends store
      (fun key after => after.Sound sound space parts logs ∧ Issued parts logs key)
      fun e after => after.Sound sound space parts logs ∧ e ≠ .inconsistent := by
  rw [oldestKey, Action.ends_alone]
  apply h.latched_reading_ends c laid
  intro p hp _ image m cPart holds hm
  rw [Action.ends_beside]
  apply (p.oldestKey_ends cPart holds hm).mono
  · rintro _ m' ⟨h', some, rfl⟩
    exact ⟨h', p, hp, _, Partition.handed_keyAt (List.length_pos_iff.mpr some)⟩
  · rintro e m' (hhalts | ⟨h', rfl, -⟩)
    · exact (Space.not_halts hhalts).elim
    · exact ⟨h', by decide⟩

/-- The key behind a key is that of an item. -/
theorem Sound.successor_gives (key : Key) :
    (successor key).Ends store
      (fun next after => after.Sound sound space parts logs ∧ Issued parts logs next)
      fun e after => after.Sound sound space parts logs ∧ e ≠ .inconsistent := by
  rw [successor, Action.ends_alone]
  apply h.latched_reading_ends c laid
  intro p hp hid image m cPart holds hm
  rw [Action.ends_beside]
  apply (p.successor_ends cPart holds hm key).mono
  · rintro next m' ⟨h', ⟨count, -, hnext, hpartition⟩ | ⟨-, some, rfl⟩⟩
    · obtain rfl := hnext.eq_keyAt (hpartition.trans hid.symm)
      exact ⟨h', p, hp, _, Partition.handed_keyAt hnext.lt⟩
    · exact ⟨h', p, hp, _, Partition.handed_keyAt (List.length_pos_iff.mpr some)⟩
  · rintro e m' (hhalts | ⟨h', ⟨rfl, -⟩ | ⟨rfl, -⟩⟩)
    · exact (Space.not_halts hhalts).elim
    · exact ⟨h', by decide⟩
    · exact ⟨h', by decide⟩

/-- The key that is found is that of an item. -/
theorem Sound.find_gives {π : Type} (id : UInt8) (capacity : Nat) (test : Bytes → StateM π Bool)
    (held : π) :
    (find id capacity test).Ends (store, held)
      (fun key after => after.1.Sound sound space parts logs ∧ Issued parts logs key)
      fun e after => after.1.Sound sound space parts logs ∧ e ≠ .inconsistent := by
  rw [find_eq]
  apply h.latched_reading_ends c laid
  intro p hp _ image m cPart holds hm
  apply (holds.find_ends cPart hm capacity test held).mono
  · exact fun key after h' => ⟨h'.1, p, hp, h'.2⟩
  · exact fun _ _ h' => h'

end Giving

/-! ## Runs -/

section Running

variable (c : space.Conduct 0 space.total sound .never)
  (planned : space.plan slots base layouts = .ok parts) (h : store.Sound sound space parts logs)
include c planned h

/-- An append leads from log to log, and gives the key of the item. -/
theorem Sound.append_gains (id : UInt8) (payload : Bytes)
    (few : ∀ p ∈ parts, (logs p.id).id + (logs p.id).items.length +
      (if Request.stores p (.append id payload) then 1 else 0) ≤ 0x1_0000_0000) :
    ∃ after logs', left (append id payload) store = some after ∧
      after.Sound sound space parts logs' ∧ (∀ p ∈ parts, p.Gains (logs p.id) (logs' p.id)
        (Operation.payload? p (.request (.append id payload)))) ∧
      ∀ key, (append id payload).given store = some key → Issued parts logs' key := by
  have laid := laid_of_plan planned
  by_cases stored : ∃ p ∈ parts, p.id = id ∧ p.Storable payload
  · obtain ⟨p, hp, rfl, storable⟩ := stored
    have hfew := few p hp
    rw [if_pos (by simp [Request.stores, storable])] at hfew
    -- The log of that partition gains the payload, and the others stay.
    obtain ⟨after, log, hrun, happended, hafter⟩ := h.append_ok c laid hp storable (by omega)
    refine ⟨after, _, by rw [left, hrun], hafter, fun q hq => ?_, fun key hkey => ?_⟩
    · by_cases hid : q.id = p.id
      · obtain rfl := laid.eq_of_id hq hp hid
        rw [Operation.payload?, if_pos ⟨rfl, storable⟩, Function.update_self]
        exact happended
      · rw [Operation.payload?, if_neg fun hsame => hid hsame.1.symm, Function.update_of_ne hid]
        exact rfl
    · rw [Action.given, hrun] at hkey
      obtain rfl := Option.some.inj hkey
      refine ⟨p, hp, (logs p.id).id + (logs p.id).items.length, ?_⟩
      rw [Function.update_self]
      exact happended.handed
  · -- Nothing is stored: the payload is too long, or there is no such partition.
    have hrefused : ∃ e, append id payload store = .error (.error e) store := by
      by_cases known : ∃ p ∈ parts, p.id = id
      · obtain ⟨p, hp, rfl⟩ := known
        exact ⟨_, h.append_of_long laid hp fun storable => stored ⟨p, hp, rfl, storable⟩⟩
      · obtain ⟨image, hopen, -⟩ := h.exists_open
        exact ⟨_, hopen.append_unknown (h.unknown fun q hq hid => known ⟨q, hq, hid⟩) payload⟩
    obtain ⟨e, hrefused⟩ := hrefused
    refine ⟨store, logs, by rw [left, hrefused], h, fun p hp => ?_, fun key hkey => ?_⟩
    · rw [Operation.payload?, if_neg fun hsame => stored ⟨p, hp, hsame.1.symm, hsame.2⟩]
      exact rfl
    · rw [Action.given, hrefused] at hkey
      cases hkey

/-- Whatever a caller does, each log gains what is stored in its partition and is left alone
otherwise, and the key that is given is that of an item. -/
theorem Sound.operate_gains (operation : Operation)
    (few : ∀ p ∈ parts, (logs p.id).id + (logs p.id).items.length +
      (if operation.stores p then 1 else 0) ≤ 0x1_0000_0000) :
    ∃ after logs', store.operate slots base layouts operation = some after ∧
      after.Sound sound space parts logs' ∧
      (∀ p ∈ parts, p.Gains (logs p.id) (logs' p.id) (operation.payload? p)) ∧
      ∀ key, store.gives operation = some key → Issued parts logs' key := by
  have laid := laid_of_plan planned
  -- What is asked leaves the logs.
  have asked {x : Action Error (Store g) Key}
      (hx : x.Ends store (fun key after => after.Sound sound space parts logs ∧
      Issued parts logs key)
        fun e after => after.Sound sound space parts logs ∧ e ≠ .inconsistent) :
      ∃ after logs', left x store = some after ∧ after.Sound sound space parts logs' ∧
        (∀ p ∈ parts, p.Gains (logs p.id) (logs' p.id) none) ∧
        ∀ key, x.given store = some key → Issued parts logs' key := by
    obtain ⟨after, hrun, hafter⟩ := left_of_ends hx
    exact ⟨after, logs, hrun, hafter, fun p _ => rfl, fun key => of_given hx⟩
  have silent {next : Option (Store g)} (hnext : ∃ after, next = some after ∧
      after.Sound sound space parts logs) :
      ∃ after logs', next = some after ∧ after.Sound sound space parts logs' ∧
        (∀ p ∈ parts, p.Gains (logs p.id) (logs' p.id) none) ∧
        ∀ key, none = some key → Issued parts logs' key := by
    obtain ⟨after, hrun, hafter⟩ := hnext
    exact ⟨after, logs, hrun, hafter, fun p _ => rfl, nofun⟩
  have troubleless (appends : ∀ id payload, operation ≠ .request (.append id payload))
      (mounts : operation ≠ .request .remount) :
      ∃ after, store.operate slots base layouts operation = some after ∧
        after.Sound sound space parts logs := by
    obtain ⟨image, hopen, holds⟩ := h.exists_open
    obtain ⟨after, hrun, h'⟩ := (h.backed laid holds).operate c hopen appends mounts
    exact ⟨after, hrun, h.of_open holds h'⟩
  cases operation with
  | request request =>
    cases request with
    | append id payload => exact h.append_gains c planned id payload few
    | oldestKey id => exact asked (h.oldestKey_gives c laid id)
    | successor key => exact asked (h.successor_gives c laid key)
    | fetch key capacity => exact silent (troubleless nofun nofun)
    | remount => exact silent (h.remount c planned)
  | itemLength key => exact silent (troubleless nofun nofun)
  | find id capacity test held =>
    have hfind := h.find_gives c laid id capacity test held
    have hheld : ((find id capacity test).holding held).Ends store
        (fun found after => after.Sound sound space parts logs ∧ Issued parts logs found.1)
        fun e after => after.Sound sound space parts logs ∧ e ≠ .inconsistent := by
      rw [Action.ends_holding]
      exact hfind
    obtain ⟨after, hrun, hafter⟩ := left_of_ends hheld
    exact ⟨after, logs, hrun, hafter, fun p _ => rfl, fun key => of_given hfind⟩
  | report id => exact silent (troubleless nofun nofun)

/-- Whatever a caller does, the logs age, and the key that is given is that of an item. -/
theorem Sound.operate (operation : Operation)
    (few : ∀ p ∈ parts, (logs p.id).id + (logs p.id).items.length +
      (if operation.stores p then 1 else 0) ≤ 0x1_0000_0000) :
    ∃ after logs', store.operate slots base layouts operation = some after ∧
      after.Sound sound space parts logs' ∧
      (∀ p ∈ parts, p.Ages (if operation.stores p then 1 else 0) (logs p.id) (logs' p.id)) ∧
      ∀ key, store.gives operation = some key → Issued parts logs' key := by
  obtain ⟨after, logs', hrun, hafter, gains, issued⟩ := h.operate_gains c planned operation few
  refine ⟨after, logs', hrun, hafter, fun p hp => ?_, issued⟩
  rw [← operation.isSome_payload? p]
  exact (gains p hp).ages

/-- Whatever callers do, one after the other, the logs age. -/
theorem Sound.operateAll (operations : List Operation)
    (few : ∀ p ∈ parts, (logs p.id).id + (logs p.id).items.length + storedBy p operations ≤
      0x1_0000_0000) :
    ∃ after logs', store.operateAll slots base layouts operations = some after ∧
      after.Sound sound space parts logs' ∧
      ∀ p ∈ parts, p.Ages (storedBy p operations) (logs p.id) (logs' p.id) := by
  induction operations generalizing store logs with
  | nil => exact ⟨store, logs, rfl, h, fun p _ => .refl p _⟩
  | cons operation operations ih =>
    simp only [storedBy_cons] at few ⊢
    obtain ⟨store₁, logs₁, hrun, h₁, ages₁, -⟩ := h.operate c planned operation fun p hp => by
      have hfew := few p hp
      omega
    obtain ⟨store₂, logs₂, hrest, h₂, ages₂⟩ := ih h₁ fun p hp => by
      have hids := (ages₁ p hp).ids
      have hfew := few p hp
      omega
    exact ⟨store₂, logs₂, by rw [Store.operateAll, hrun]; exact hrest, h₂,
      fun p hp => (ages₁ p hp).trans (ages₂ p hp)⟩

end Running

/-- After a run without faults on memories without a header the store is sound, and its logs have
used up as many ids as items have been stored. -/
theorem sound_of_operateAll {around : Bytes × Bytes}
    (c : space.Conduct 0 space.total (space.Exposes .clear around) .never)
    (planned : space.plan slots base layouts = .ok parts) {m : Media g}
    (hm : space.Exposes .clear around (space.image m) m)
    (blank : ∀ p ∈ parts, (space.image m).slice p.base headerBytes ≠ Partition.magic)
    {mounted : Store g} (mounts : mount space slots base layouts m = .ok mounted)
    (reaches : mounted.operateAll slots base layouts operations = some store)
    (few : ∀ p ∈ parts, storedBy p operations ≤ 0x1_0000_0000) :
    ∃ logs, store.Sound (space.Exposes .clear around) space parts logs ∧
      ∀ p ∈ parts, (logs p.id).id + (logs p.id).items.length = storedBy p operations := by
  obtain ⟨mounted', hmount, h⟩ := mount_ok (fun _ => Log.empty) c planned hm
    fun p hp => .inr ⟨blank p hp, rfl⟩
  obtain rfl : mounted' = mounted := Except.ok.inj (hmount.symm.trans mounts)
  have unused : Log.empty.found.id + Log.empty.found.items.length = 0 := rfl
  obtain ⟨store', logs, hrun, h', ages⟩ := h.operateAll c planned operations fun p hp => by
    rw [unused, Nat.zero_add]
    exact few p hp
  obtain rfl : store' = store := Option.some.inj (hrun.symm.trans reaches)
  refine ⟨logs, h', fun p hp => ?_⟩
  rw [(ages p hp).ids, unused, Nat.zero_add]

/-! ## Steps of an iterator -/

/-- A key that was handed out moves to the stored item with the smallest larger id, or it stays
where it is if there is none. -/
theorem Sound.advance_ends (c : space.Conduct 0 space.total sound .never) (laid : Laid space parts)
    (h : store.Sound sound space parts logs) (hopen : store.Open sound space store.volumes image)
    (holds : ∀ p ∈ parts, p.Holds image (logs p.id)) (hp : p ∈ parts)
    (handed : p.Handed (logs p.id) key number) :
    advance.Ends (store, key)
      (fun _ after => after.1.Open sound space store.volumes image ∧ p.Succeeds image key after.2 ∧
        ∃ number, p.Handed (logs p.id) after.2 number)
      fun e after => after.1.Open sound space store.volumes image ∧ e = .notFound ∧ after.2 = key ∧
        p.Exhausts image key := by
  have hsuccessor : (successor key).Ends store
      (fun next after => after.Open sound space store.volumes image ∧ p.Succeeds image key next ∧
        ∃ number, p.Handed (logs p.id) next number)
      fun e after => after.Open sound space store.volumes image ∧ e = .notFound ∧
        p.Exhausts image key := by
    rw [successor, handed.partition]
    apply hopen.asking_ends (h.known laid hp)
    apply (handed.successor_ends (c.part (laid.inside p hp)) (holds p hp) hopen.media).mono
    · exact fun next m' h' => h'
    · rintro e m' ⟨h', rfl, hexhausts⟩
      exact ⟨h', by decide, rfl, hexhausts⟩
  simp only [advance, Action.ends_bind, Action.ends_get, Action.ends_beside, Action.ends_modify]
  apply hsuccessor.mono
  · exact fun next after h' => h'
  · rintro e after ⟨h', rfl, hexhausts⟩
    exact ⟨h', rfl, trivial, hexhausts⟩

/-! ## Iterators -/

/-- What an iterator has come to: the key of an item, and the store as it is then. -/
structure Visit (g : Geometry) where
  key : Key
  store : Store g

section Iterating

variable (slots base : Nat) (layouts : List Layout)

/-- After each batch of operations an iterator moves its key on, if it can. What it visits, and the
store at last; none after a defect, or if the store cannot be mounted again. -/
def iterate (store : Store g) (key : Key) :
    List (List Operation) → Option (List (Visit g) × Store g)
  | [] => some ([], store)
  | batch :: batches =>
    (store.operateAll slots base layouts batch).bind fun store =>
      match advance (store, key) with
      | .ok _ (store, key) =>
        (store.iterate key batches).map fun (visits, last) => (⟨key, store⟩ :: visits, last)
      | .error (.error _) (store, key) => store.iterate key batches
      | .error (.defect _) _ => none

end Iterating

/-- Both keys have been handed out, and what was stored between their items has been evicted. -/
def Passes (p : Partition) (log : Log) (key next : Key) : Prop :=
  ∃ number next', p.Handed log key number ∧ p.Handed log next next' ∧
    Partition.Skips log number next'

/-- Keys that were handed out stay what they are when more is appended. -/
theorem Passes.ages {log log' : Log} {more : Nat} {next : Key} (h : Passes p log key next)
    (ages : p.Ages more log log') : Passes p log' key next := by
  obtain ⟨number, next', handed, handed', skips⟩ := h
  exact ⟨number, next', ages.handed handed, ages.handed handed', skips.ages ages⟩

section Iterators

variable {around : Bytes × Bytes} {batches : List (List Operation)}

/-- Each item that an iterator visits has the smallest id that is larger than that of the one
before, and nothing between them is stored ever after. -/
theorem Sound.iterate (c : space.Conduct 0 space.total (space.Exposes .clear around) .never)
    (planned : space.plan slots base layouts = .ok parts)
    (h : store.Sound (space.Exposes .clear around) space parts logs) (hp : p ∈ parts)
    (handed : p.Handed (logs p.id) key number)
    (few : ∀ p ∈ parts, (logs p.id).id + (logs p.id).items.length + storedBy p batches.flatten ≤
      0x1_0000_0000) :
    ∃ visits last logs', store.iterate slots base layouts key batches = some (visits, last) ∧
      last.Sound (space.Exposes .clear around) space parts logs' ∧
      p.Ages (storedBy p batches.flatten) (logs p.id) (logs' p.id) ∧
      (⟨key, store⟩ :: visits).IsChain (fun visit next =>
        p.Succeeds (space.image next.store.media) visit.key next.key) ∧
      (key :: visits.map Visit.key).IsChain (Passes p (logs' p.id)) := by
  have laid := laid_of_plan planned
  induction batches generalizing store logs key number with
  | nil => exact ⟨[], store, logs, rfl, h, .refl p _, .singleton _, .singleton _⟩
  | cons batch batches ih =>
    simp only [List.flatten_cons, storedBy_append] at few ⊢
    obtain ⟨store₁, logs₁, hrun, h₁, ages₁⟩ := h.operateAll c planned batch fun p hp => by
      have hfew := few p hp
      omega
    have few₁ (p : Partition) (hp : p ∈ parts) : (logs₁ p.id).id + (logs₁ p.id).items.length +
        storedBy p batches.flatten ≤ 0x1_0000_0000 := by
      have hids := (ages₁ p hp).ids
      have hfew := few p hp
      omega
    have handed₁ := (ages₁ p hp).handed handed
    obtain ⟨image, hopen, holds⟩ := h₁.exists_open
    have hstep := h₁.advance_ends c laid hopen holds hp handed₁
    unfold Action.Ends at hstep
    simp only [Store.iterate, hrun, Option.bind_some]
    cases hadvance : advance (store₁, key) with
    | ok _ after =>
      obtain ⟨store₂, next⟩ := after
      rw [hadvance] at hstep
      obtain ⟨hopen₂, hsucceeds, number', handed₂⟩ := hstep
      obtain ⟨visits, last, logs', hrest, hlast, ages, hchain, hpasses⟩ :=
        ih (h₁.of_open holds hopen₂) handed₂ few₁
      have himage : space.image store₂.media = image := hopen₂.media.image
      have hpass : Passes p (logs₁ p.id) key next :=
        ⟨number, number', handed₁, handed₂, (holds p hp).skips handed₁ handed₂ hsucceeds⟩
      refine ⟨⟨next, store₂⟩ :: visits, last, logs', ?_, hlast, (ages₁ p hp).trans ages, ?_, ?_⟩
      · simp only [hrest, Option.map_some]
      · exact .cons_cons (himage ▸ hsucceeds) hchain
      · exact .cons_cons (hpass.ages ages) hpasses
    | error stop after =>
      obtain ⟨store₂, next⟩ := after
      rw [hadvance] at hstep
      cases stop with
      | defect d => exact hstep.elim
      | error e =>
        obtain ⟨hopen₂, -, hkey, -⟩ := hstep
        obtain rfl : next = key := hkey
        obtain ⟨visits, last, logs', hrest, hlast, ages, hchain, hpasses⟩ :=
          ih (h₁.of_open holds hopen₂) handed₁ few₁
        refine ⟨visits, last, logs', hrest, hlast, (ages₁ p hp).trans ages,
          hchain.imp_head ?_, hpasses⟩
        -- The key has stayed where it is.
        exact fun hsucceeds => hsucceeds

/-- In a run without faults on memories without a header an operation has given a key, and then
whatever else is done. To advance the key leads to the stored item of its partition with the
smallest larger id, or it stays where it is if there is none. An iterator that does so after each
batch of operations comes to larger and larger ids; nothing that it has passed over is stored any
more, then or later. -/
theorem iterates_of_operateAll {start stop : UInt32}
    (made : Space.create g g.eepromBytes g.flashBytes start stop = .ok space) (u : g.Uniform)
    (planned : space.plan slots base layouts = .ok parts) {m : Media g} (faultless : m.Under .clear)
    (blank : ∀ p ∈ parts, (space.image m).slice p.base headerBytes ≠ Partition.magic)
    {mounted earlier : Store g} (mounts : mount space slots base layouts m = .ok mounted)
    {first : List Operation} (reaches : mounted.operateAll slots base layouts first = some earlier)
    (gives : earlier.gives operation = some key)
    (few : ∀ p ∈ parts, storedBy p (first ++ [operation]) < 0x1_0000_0000) :
    ∃ p ∈ parts, key.partition = p.id ∧
      ∃ later, earlier.operate slots base layouts operation = some later ∧
        (∀ second, (∀ p ∈ parts, storedBy p (first ++ operation :: second) < 0x1_0000_0000) →
          ∃ store, later.operateAll slots base layouts second = some store ∧ store.faulted = false ∧
            advance.Ends (store, key)
              (fun _ after => p.Succeeds (space.image store.media) key after.2)
              fun e after => e = .notFound ∧ after.2 = key ∧
                p.Exhausts (space.image store.media) key) ∧
        ∀ batches, (∀ p ∈ parts,
            storedBy p (first ++ operation :: batches.flatten) < 0x1_0000_0000) →
          ∃ visits last, later.iterate slots base layouts key batches = some (visits, last) ∧
            (⟨key, later⟩ :: visits).IsChain (fun visit next =>
              p.Succeeds (space.image next.store.media) visit.key next.key) ∧
            (key :: visits.map Visit.key).Pairwise (fun visited next => visited.id < next.id) ∧
            (key :: visits.map Visit.key).IsChain (p.Lacks (space.image last.media)) := by
  have t := Space.truthful_of_create made
  have c := Space.conduct_of_clear u t (space.around m)
  have laid := laid_of_plan planned
  simp only [storedBy_append, storedBy_cons] at few ⊢
  -- The first operations, the one that gives the key, and what comes behind it, one after the
  -- other.
  obtain ⟨logs₁, h₁, hids₁⟩ :=
    sound_of_operateAll c planned ⟨faultless, rfl, rfl⟩ blank mounts reaches
    fun p hp => by
      have hfew := few p hp
      omega
  obtain ⟨later, logs₂, hoperate, h₂, ages₂, hissued⟩ :=
      h₁.operate c planned operation fun p hp => by
    have hfew := few p hp
    have hids := hids₁ p hp
    omega
  have hids₂ (p : Partition) (hp : p ∈ parts) : (logs₂ p.id).id + (logs₂ p.id).items.length =
      storedBy p first + if operation.stores p then 1 else 0 := by
    rw [(ages₂ p hp).ids, hids₁ p hp]
  obtain ⟨p, hp, number, handed⟩ := hissued key gives
  refine ⟨p, hp, handed.partition, later, hoperate, fun second fewer => ?_, fun batches fewer => ?_⟩
  · obtain ⟨store, logs₃, hrun₃, h₃, ages₃⟩ := h₂.operateAll c planned second fun p hp => by
      have hfew := fewer p hp
      have hids := hids₂ p hp
      omega
    obtain ⟨image, hopen, holds⟩ := h₃.exists_open
    obtain rfl := hopen.media.image
    refine ⟨store, hrun₃, h₃.faulted, ?_⟩
    apply (h₃.advance_ends c laid hopen holds hp ((ages₃ p hp).handed handed)).mono
    · exact fun _ after hafter => hafter.2.1
    · exact fun e after hafter => hafter.2
  · have few₂ (p : Partition) (hp : p ∈ parts) : (logs₂ p.id).id + (logs₂ p.id).items.length +
        storedBy p batches.flatten ≤ 0x1_0000_0000 := by
      have hfew := fewer p hp
      have hids := hids₂ p hp
      omega
    obtain ⟨visits, last, logs₃, hrun₃, h₃, -, hchain, hpasses⟩ :=
      h₂.iterate c planned hp handed few₂
    obtain ⟨image, hopen, holds⟩ := h₃.exists_open
    obtain rfl := hopen.media.image
    refine ⟨visits, last, hrun₃, hchain, ?_, ?_⟩
    · -- Each key that is come to has a larger id than the one before, so they all grow.
      have hlarger : ((⟨key, later⟩ :: visits).map Visit.key |>.map Key.id).IsChain (· < ·) := by
        rw [List.isChain_map, List.isChain_map]
        exact hchain.imp fun visit next hsucceeds => hsucceeds.larger
      exact List.pairwise_map.mp hlarger.pairwise
    · refine hpasses.imp ?_
      rintro visited next ⟨_, _, handed', handed'', skips⟩
      exact (holds p hp).lacks handed' handed'' skips

end Iterators

/-- Of two items the older one makes room for a third, and the store is mounted again. The key of
the one that is gone leads to the one that is left. -/
theorem iterates_of_operateAll_roomy :
    ∃ mounted earlier later store, mount Space.roomy 1 0 [⟨7, 32, 2⟩] (Media.fresh _) =
      .ok mounted ∧
      mounted.operateAll 1 0 [⟨7, 32, 2⟩] [.request (.append 7 [1, 2, 3]),
        .request (.append 7 [])] = some earlier ∧
      earlier.gives (.request (.oldestKey 7)) = some ⟨7, 0, 0⟩ ∧
      earlier.operate 1 0 [⟨7, 32, 2⟩] (.request (.oldestKey 7)) = some later ∧
      later.operateAll 1 0 [⟨7, 32, 2⟩] [.request (.append 7 [4, 5]), .request .remount] =
        some store ∧
      advance.Ends (store, ⟨7, 0, 0⟩)
        (fun _ after => Partition.roomy.Succeeds (Space.roomy.image store.media) ⟨7, 0, 0⟩ after.2)
        fun e after => e = .notFound ∧ after.2 = ⟨7, 0, 0⟩ ∧
          Partition.roomy.Exhausts (Space.roomy.image store.media) ⟨7, 0, 0⟩ := by
  have run : ((mount Space.roomy 1 0 [⟨7, 32, 2⟩] (Media.fresh _)).toOption.bind fun mounted =>
      (mounted.operateAll 1 0 [⟨7, 32, 2⟩] [.request (.append 7 [1, 2, 3]),
        .request (.append 7 [])]).bind fun earlier => earlier.gives (.request (.oldestKey 7))) =
      some ⟨7, 0, 0⟩ := by decide +kernel
  obtain ⟨mounted, hmounted, run⟩ := Option.bind_eq_some_iff.mp run
  obtain ⟨earlier, reaches, gives⟩ := Option.bind_eq_some_iff.mp run
  have mounts := mount_of_toOption hmounted
  obtain ⟨p, hp, -, later, operates, advances, -⟩ := iterates_of_operateAll
    Space.create_roomy (Geometry.uniform_tinyWith 32) Space.plan_roomy (Media.under_clear_fresh _)
    Space.blank_roomy mounts reaches gives (by decide)
  obtain rfl := List.mem_singleton.mp hp
  obtain ⟨store, goesOn, -, hends⟩ :=
    advances [.request (.append 7 [4, 5]), .request .remount] (by decide)
  exact ⟨mounted, earlier, later, store, mounts, reaches, gives, operates, goesOn, hends⟩

end Store

end CircularLog
