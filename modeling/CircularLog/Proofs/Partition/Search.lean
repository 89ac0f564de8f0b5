import CircularLog.Proofs.Partition.Lookup

/-!
# Searching a partition

To `find` an item is to search the items one after the other, from the oldest one on, as
`firstPassing` searches a list: each is put to the test once, until one passes it or does not fit
into the buffer. The keys lead from item to item, and behind the newest one there is no next key, so
neither the end of the table nor the number of its rows shows (`Holds.findFrom_performs`).
-/

namespace CircularLog

namespace Partition

variable {g : Geometry} {space : Space g} {p : Partition} {m : Media g}
  {sound : Bytes → Media g → Prop} {image : Bytes} {log : Log} {key : Key} {count : Nat} {π : Type}

/-- The key of the first item that passes the test. An item that does not fit into the buffer ends
the search before it is tested. -/
def firstPassing (capacity : Nat) (test : Bytes → StateM π Bool) :
    List (Key × Bytes) → StateM π (Except Error Key)
  | [] => return .error .notFound
  | (key, item) :: items => do
    if capacity < item.length then
      return .error (.bufferTooSmall item.length)
    if ← test item then
      return .ok key
    firstPassing capacity test items

/-- An item that does not fit ends the search. -/
theorem firstPassing_of_long {capacity : Nat} {item : Bytes} (long : capacity < item.length)
    (test : Bytes → StateM π Bool) (key : Key) (items : List (Key × Bytes)) (held : π) :
    firstPassing capacity test ((key, item) :: items) held =
      (.error (.bufferTooSmall item.length), held) := by
  rw [firstPassing, if_pos long]
  rfl

/-- An item that fits is tested, and the search goes on if it does not pass. -/
theorem firstPassing_of_fits {capacity : Nat} {item : Bytes} (fits : item.length ≤ capacity)
    {test : Bytes → StateM π Bool} {held held' : π} {passed : Bool}
    (tests : test item held = (passed, held')) (key : Key) (items : List (Key × Bytes)) :
    firstPassing capacity test ((key, item) :: items) held =
      if passed then (.ok key, held') else firstPassing capacity test items held' := by
  rw [firstPassing, if_neg (Nat.not_lt.mpr fits)]
  simp only [bind, StateT.bind, tests]
  cases passed <;> rfl

/-- What is found is one of the items; where nothing is, the reason is no inconsistency. -/
theorem mem_of_firstPassing (capacity : Nat) (test : Bytes → StateM π Bool)
    (items : List (Key × Bytes)) (held : π) :
    match (firstPassing capacity test items held).1 with
    | .ok key => ∃ item, (key, item) ∈ items
    | .error e => e ≠ .inconsistent := by
  induction items generalizing held with
  | nil => exact nofun
  | cons entry items ih =>
    obtain ⟨key, item⟩ := entry
    rcases Nat.lt_or_ge capacity item.length with hlong | hfits
    · rw [firstPassing_of_long hlong]
      exact nofun
    · rw [firstPassing_of_fits hfits rfl]
      split_ifs
      · exact ⟨item, List.mem_cons_self⟩
      · have hrest := ih (test item held).2
        split at hrest
        · exact hrest.imp fun _ => List.mem_cons_of_mem _
        · exact hrest

/-- A payload is put to the test once, and the memories have no part in it. -/
theorem tested_some_ends (test : Bytes → StateM π Bool) (item : Bytes) (m : Media g) (held : π) :
    (tested test (some item)).Ends (m, held)
      (fun passed after => after.1 = m ∧ test item held = (passed, after.2)) fun _ _ => False :=
  ⟨rfl, rfl⟩

/-- The action ends as a stateful computation does, and leaves the image as it is. -/
def Performs (sound : Bytes → Media g → Prop) (image : Bytes) {α : Type}
    (x : Action Error (Media g × π) α) (computed : StateM π (Except Error α)) (m : Media g)
    (held : π) : Prop :=
  x.Ends (m, held) (fun a after => sound image after.1 ∧ computed held = (.ok a, after.2))
    fun e after => sound image after.1 ∧ computed held = (.error e, after.2)

variable (c : space.Conduct p.table p.stop sound .never) (holds : p.Holds image log)
  (hm : sound image m)
include c holds hm

/-- Where an item is, it is what is fetched to be tested, unless it is too long. -/
theorem Holds.fetch?_ends (hlt : count < log.items.length) (capacity : Nat) :
    (p.fetch? space (p.keyAt log count) capacity).Ends m
      (fun item m' => sound image m' ∧ item = some log.items[count] ∧
        log.items[count].length ≤ capacity)
      fun e m' => sound image m' ∧ e = .bufferTooSmall log.items[count].length ∧
        capacity < log.items[count].length := by
  have hnames := p.names_keyAt hlt
  have hrow : (p.keyAt log count).row < p.maxItems := p.rowBehind_lt _ _
  -- The key names this item and no other.
  have same {other : Nat} {item : Bytes} (hother : p.Names log (p.keyAt log count) other)
      (hitem : log.items[other]? = some item) : log.items[count] = item := by
    obtain rfl := hnames.unique holds hother
    exact (List.getElem?_eq_some_iff.mp hitem).2
  simp only [fetch?, Action.ends_rescue, Action.ends_map, Action.ends_ite, Action.ends_pure,
    Action.ends_fail]
  apply (p.fetch_ends c holds hm (p.keyAt log count) capacity).mono
  · rintro payload m₁ ⟨h₁, other, hother, hitem, hfits⟩
    rw [same hother hitem]
    exact ⟨h₁, rfl, hfits⟩
  · rintro e m₁ (hhalts
      | ⟨h₁, ⟨-, hout⟩ | ⟨-, -, hnone⟩ | ⟨other, item, hother, hitem, rfl, hsmall⟩⟩)
    · exact (Space.not_halts hhalts).elim
    · exact absurd hrow (Nat.not_lt.mpr hout)
    · exact absurd hnames (hnone count)
    · rw [same hother hitem]
      exact ⟨fun he => (by cases he), fun _ => ⟨h₁, rfl, hsmall⟩⟩

/-- Behind the key of an item comes that of the next one, if there is one. -/
theorem Holds.successor_keyAt_ends (hlt : count < log.items.length) :
    (p.successor space log.status (p.keyAt log count)).Ends m
      (fun next m' => sound image m' ∧ next = p.keyAt log (count + 1) ∧
        count + 1 < log.items.length)
      fun e m' => sound image m' ∧ e = .notFound ∧ count + 1 = log.items.length := by
  have hnames := p.names_keyAt hlt
  apply (p.successor_ends c holds hm (p.keyAt log count)).mono
  · rintro next m₁ ⟨h₁, ⟨other, hother, hnext, hpart⟩ | ⟨hnone, -⟩⟩
    · obtain rfl := hnames.unique holds hother
      exact ⟨h₁, hnext.eq_keyAt hpart, hnext.lt⟩
    · exact absurd hnames (hnone count)
  · rintro e m₁ (hhalts | ⟨h₁, ⟨-, hout⟩ | ⟨he, -, hnil | ⟨other, hother, hlast⟩⟩⟩)
    · exact (Space.not_halts hhalts).elim
    · exact absurd (p.rowBehind_lt log.row count) (Nat.not_lt.mpr hout)
    · simp [hnil] at hlt
    · obtain rfl := hnames.unique holds hother
      exact ⟨h₁, he, hlast⟩

/-- From an item on the search goes through all that are newer, if it may test so many. -/
theorem Holds.findFrom_performs {tests : Nat} (hcount : count < log.items.length)
    (htests : log.items.length ≤ count + tests) (capacity : Nat) (test : Bytes → StateM π Bool)
    (held : π) :
    Performs sound image (p.findFrom space log.status capacity test (p.keyAt log count) tests)
      (firstPassing capacity test ((p.listing log).drop count)) m held := by
  -- On the number of tests: the key names an item, and all older ones have been tested.
  induction tests generalizing count m held with
  | zero => omega
  | succ tests ih =>
    rw [Performs, drop_listing hcount]
    simp only [findFrom, Action.ends_bind, Action.ends_beside, Action.ends_ite, Action.ends_pure]
    apply (holds.fetch?_ends c hm hcount capacity).mono
    · rintro _ m₁ ⟨h₁, rfl, hfits⟩
      apply (tested_some_ends test _ m₁ held).mono ?_ fun _ _ h => h.elim
      rintro passed ⟨_, held₁⟩ ⟨rfl, htest⟩
      rw [firstPassing_of_fits hfits htest]
      refine ⟨fun hpassed => ⟨h₁, if_pos hpassed⟩, fun hfailed => ?_⟩
      rw [if_neg hfailed, Action.ends_beside]
      apply (holds.successor_keyAt_ends c h₁ hcount).mono
      · rintro _ m₂ ⟨h₂, rfl, hnext⟩
        exact ih h₂ hnext (by omega) held₁
      · rintro _ m₂ ⟨h₂, rfl, hlast⟩
        -- The newest item has been tested.
        rw [List.drop_of_length_le (by rw [length_listing]; omega)]
        exact ⟨h₂, rfl⟩
    · rintro _ m₁ ⟨h₁, rfl, hsmall⟩
      exact ⟨h₁, firstPassing_of_long hsmall test _ _ held⟩

/-- To find an item is to search the items one after the other. -/
theorem Holds.find_performs (capacity : Nat) (test : Bytes → StateM π Bool) (held : π) :
    Performs sound image (p.find space log.status capacity test)
      (firstPassing capacity test (p.listing log)) m held := by
  have hle := holds.count_le
  rw [Performs]
  simp only [Partition.find, Action.ends_bind, Action.ends_beside]
  apply (p.oldestKey_ends c holds hm).mono
  · rintro _ m₁ ⟨h₁, some, rfl⟩
    exact holds.findFrom_performs c h₁ (List.length_pos_iff.mpr some) (by omega) capacity test held
  · rintro e m₁ (hhalts | ⟨h₁, rfl, hnil⟩)
    · exact (Space.not_halts hhalts).elim
    · exact ⟨h₁, by rw [listing, hnil]; rfl⟩

/-- The length of the item that a key names is told. -/
theorem itemLength_ends (key : Key) :
    (p.itemLength space key).Ends m
      (fun length m' => sound image m' ∧ ∃ count item, p.Names log key count ∧
        log.items[count]? = some item ∧ length = item.length)
      fun e m' => sound image m' ∧ (e = .invalidRange ∧ p.maxItems ≤ key.row ∨
        e = .notFound ∧ key.row < p.maxItems ∧ ∀ count, ¬ p.Names log key count) := by
  simp only [itemLength, Action.ends_bind, Action.ends_pure]
  apply (p.entryOf_ends c holds hm key).mono
  · rintro _ m₁ ⟨h₁, count, item, hnames, hitem, rfl⟩
    exact ⟨h₁, count, item, hnames, hitem, holds.length_entry hitem _ _⟩
  · rintro e m₁ (hhalts | hrefused)
    · exact (Space.not_halts hhalts).elim
    · exact hrefused

end Partition

end CircularLog
