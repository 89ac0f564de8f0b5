import CircularLog.Partition.Append
import CircularLog.Proofs.Partition.Rows
import CircularLog.Proofs.Partition.Torn

/-!
# Appending to a log

What each step of an append makes of the log that the image holds: `evict` takes out the oldest
item, `makeRoom` as few of the oldest as will do, `vacancy` finds the place of the next item, and
`writeItem` puts the item there. Where a step fails, the image holds the log before it or the log
after it; only of an item that is being written there may be the row and the first bytes
(`Halfway`). `prepare_ends` puts together the steps before the writing, and `appendOnce_yields` all
of them; what becomes of the rolling back of a failed write is left to those who know how writes
fail.
-/

namespace CircularLog

namespace Partition

variable {g : Geometry} {space : Space g} {p : Partition} {m : Media g}
  {sound : Bytes → Media g → Prop} {mishap : Space.Mishap g} {before image : Bytes} {log : Log}
  {payload : Bytes}

open Space (Halts)

/-! ## Taking items out -/

/-- Evicting takes out the oldest item. -/
theorem evict_ends (c : space.Conduct p.table p.stop sound mishap)
    (holds : p.Holds image log) (untouched : p.Untouched before image log) (hm : sound image m)
    (hitems : log.items ≠ []) :
    (p.evict space).Ends (m, log.status)
      (fun _ after => ∃ image', sound image' after.1 ∧ p.Retabled image image' ∧
        p.Holds image' (p.pop log) ∧ p.Untouched before image' (p.pop log) ∧
        after.2 = (p.pop log).status)
      (fun e after => Halts mishap (fun image' =>
        p.Among image (fun l => l = log ∨ l = p.pop log) image' ∨
          p.Smeared mishap before image' ∧ after.2 = log.status) e after.1) := by
  have fits := c.inside
  have hlen := c.length hm
  obtain ⟨item, items, hcons⟩ := List.exists_cons_of_ne_nil hitems
  have hitem : log.items[0]? = some item := by rw [hcons]; rfl
  have hread := readStored_ends c holds hm hitem
  rw [rowBehind_zero holds.row_lt] at hread
  have hlength := holds.length_entry hitem (log.id + 0) (p.startOf log 0)
  have hsize : log.size = item.length + items.flatten.length := by
    rw [Log.size, hcons, List.flatten_cons, List.length_append]
  have hstored : log.status.stored = items.length + 1 := by
    rw [Log.status, hcons, List.length_cons]
  have herased : Row.erased.length = rowBytes := rfl
  have hretabled : p.Retabled image (image.overlay (p.rowAddress log.row) Row.erased) :=
    retabled_row (by omega) herased holds.row_lt
  have hpop := holds.pop (by omega) hitems herased Row.decode_erased
  have hrest := untouched.pop holds (by omega)
  have hnext : (p.stepRow log.status.oldestRow : Action Error (Media g × Status) Nat) =
      pure (p.nextRow log.row) := stepRow_eq holds.row_lt
  -- The row is read and erased, and then the fill state goes down by the item.
  simp only [evict, status, setStatus, hnext, Action.ends_bind, Action.ends_get, Action.ends_pure,
    Action.ends_ite, Action.ends_fail, Action.ends_beside, Action.ends_modify,
    Action.ends_difference]
  refine ⟨fun hzero => by omega, fun _ => ?_⟩
  refine hread.mono ?_ fun _ _ h => h.mono fun _ _ himage =>
    .inl (himage ▸ holds.among (.inl rfl))
  rintro _ m₁ ⟨h₁, rfl⟩
  refine (eraseRow_ends c h₁ holds.row_lt).mono ?_
    fun _ _ h => h.mono fun _ _ himage => (holds.erasing_begun (by omega) hitems untouched
      himage).imp_right fun hsmeared => ⟨hsmeared, trivial⟩
  · intro _ m₂ h₂
    rw [hlength]
    refine ⟨by omega, fun h => absurd h (by simp only [Log.status]; omega), fun _ =>
      ⟨_, h₂, hretabled, hpop, hrest, ?_⟩⟩
    simp only [Log.status, Partition.pop, hcons, List.length_cons, Nat.add_sub_cancel, hsize,
      Nat.add_sub_cancel_left]
    rfl

/-- So many more bytes and one more item fit behind these items. -/
def HasRoom (p : Partition) (items : List Bytes) (length : Nat) : Prop :=
  items.flatten.length + length ≤ p.areaLength ∧ items.length < p.maxItems

/-- There is room behind the items without the first `count`, and with fewer taken out there is
none. -/
def Fewest (p : Partition) (items : List Bytes) (length count : Nat) : Prop :=
  p.HasRoom (items.drop count) length ∧
    ∀ fewer, fewer < count → ¬ p.HasRoom (items.drop fewer) length

/-- A row was smeared when an item was taken out, and there was no room yet. -/
def Smearing (mishap : Space.Mishap g) (p : Partition) (before : Bytes) (log : Log) (length : Nat)
    (image : Bytes) (status : Status) : Prop :=
  p.Smeared mishap before image ∧ ∃ count, status = (p.popMany count log).status ∧
    ¬ p.HasRoom (log.items.drop count) length

/-- Items are taken out until the bytes fit into the area. -/
theorem makeRoom_ends (c : space.Conduct p.table p.stop sound mishap)
    (holds : p.Holds image log) (untouched : p.Untouched before image log) (hm : sound image m)
    {length rounds : Nat} (short : length < 0x1_0000) (hlength : length ≤ p.areaLength)
    (hrounds : log.items.length < rounds) :
    (p.makeRoom space length rounds).Ends (m, log.status)
      (fun _ after => ∃ count image', sound image' after.1 ∧ p.Retabled image image' ∧
        p.Holds image' (p.popMany count log) ∧ p.Untouched before image' (p.popMany count log) ∧
        after.2 = (p.popMany count log).status ∧
        (log.items.drop count).flatten.length + length ≤ p.areaLength ∧
        ∀ fewer, fewer < count → p.areaLength < (log.items.drop fewer).flatten.length + length)
      (fun e after => Halts mishap (fun image' =>
        p.Among image (fun l => ∃ count, l = p.popMany count log) image' ∨
          p.Smearing mishap before log length image' after.2) e after.1) := by
  have fits := c.inside
  -- On the rounds: each starts from the log and the image that the one before it has left.
  induction rounds generalizing m image log with
  | zero => omega
  | succ rounds ih =>
    have hlt := holds.size_lt
    simp only [makeRoom, status, Action.ends_bind, Action.ends_get, Action.ends_pure,
      Action.ends_sum, Action.ends_ite]
    show log.size + length < _ ∧ (_ < log.size + length → _) ∧ (¬ _ < log.size + length → _)
    refine ⟨by omega, fun hfull => ?_, fun hroom => ?_⟩
    · have hitems : log.items ≠ [] := by
        intro hnil
        rw [Log.size, hnil, List.flatten_nil, List.length_nil] at hfull
        omega
      have hdrop := p.items_pop log
      refine (evict_ends c holds untouched hm hitems).mono ?_ ?_
      · rintro _ ⟨m₁, after⟩ ⟨image₁, h₁, hretabled, holds₁, untouched₁, rfl⟩
        have hcount : (p.pop log).items.length < rounds := by
          have hpos := List.length_pos_iff.mpr hitems
          rw [hdrop, List.length_drop]
          omega
        refine (ih holds₁ untouched₁ h₁ hcount).mono ?_ ?_
        · rintro _ after ⟨count, image₂, h₂, hretabled₂, holds₂, untouched₂, hstatus, hroom, hfewer⟩
          simp only [hdrop, List.drop_drop, Nat.add_comm 1] at hroom hfewer
          -- The items taken out from here on come behind the one that was taken out first.
          refine ⟨count + 1, image₂, h₂, hretabled.trans hretabled₂, holds₂, untouched₂, hstatus,
            hroom, ?_⟩
          rintro (_ | fewer) hless
          · exact hfull
          · exact hfewer fewer (by omega)
        · refine fun _ _ h => h.mono fun _ _ h => ?_
          rcases h with hamong | ⟨hsmeared, count, hstatus, hnone⟩
          · refine .inl (hretabled.confined.among (hamong.mono ?_))
            rintro l ⟨count, hl⟩
            exact ⟨count + 1, hl⟩
          · rw [hdrop, List.drop_drop, Nat.add_comm 1] at hnone
            exact .inr ⟨hsmeared, count + 1, hstatus, hnone⟩
      · refine fun _ _ h => h.mono fun _ _ h => ?_
        rcases h with hamong | ⟨hsmeared, hstatus⟩
        · refine .inl (hamong.mono ?_)
          rintro _ (rfl | rfl)
          · exact ⟨0, rfl⟩
          · exact ⟨1, rfl⟩
        · exact .inr ⟨hsmeared, 0, hstatus, fun hroom => absurd hroom.1 (Nat.not_le.mpr hfull)⟩
    · exact ⟨0, image, hm, .refl p image, holds, untouched, rfl, Nat.le_of_not_lt hroom,
        fun _ hless => absurd hless (Nat.not_lt_zero _)⟩

/-! ## The place of the next item -/

/-- The next item goes behind the newest one, or to the start if there is none. -/
theorem vacancy_ends (c : space.Conduct p.table p.stop sound mishap)
    (holds : p.Holds image log) (settled : log.Settled) (hm : sound image m) :
    (p.vacancy space log.status).Ends m
      (fun place m' => sound image m' ∧ place = (p.freeRow log,
        UInt32.ofNat (log.id + log.items.length), p.freeStart log))
      (Halts mishap (· = image)) := by
  have fits := c.inside
  rw [vacancy_eq holds.row_lt holds.count_le, Action.ends_ite]
  refine ⟨fun hzero => ⟨hm, ?_⟩, fun hpos => ?_⟩
  · -- Nothing was ever stored, so the first row, id and byte are free.
    rw [settled (List.eq_nil_of_length_eq_zero hzero)]
    simp [Log.status, Log.empty, freeRow, freeStart, Log.size, rowBehind]
  · have hcount : 0 < log.items.length := Nat.pos_of_ne_zero hpos
    -- The row of the newest item says where the next one goes.
    obtain ⟨last, hlast⟩ : ∃ last, log.items.length = last + 1 :=
      ⟨_, (Nat.sub_add_cancel hcount).symm⟩
    have hitem := List.getElem?_eq_getElem (by omega : last < log.items.length)
    have hstored : log.status.stored - 1 = last := by
      show log.items.length - 1 = last
      omega
    have hlength := holds.length_entry hitem (log.id + last) (p.startOf log last)
    have hsize : log.size = (log.items.take last).flatten.length + log.items[last].length := by
      have htake := List.take_succ_eq_append_getElem (by omega : last < log.items.length)
      rw [← hlast, List.take_length] at htake
      rw [Log.size, congrArg List.flatten htake, List.flatten_append, List.flatten_singleton,
        List.length_append]
    simp only [Action.ends_bind, Action.ends_pure, hstored]
    refine (readStored_ends c holds hm hitem).mono ?_ fun _ _ h => h
    rintro _ m₁ ⟨h₁, rfl⟩
    refine ⟨h₁, ?_⟩
    rw [Row.stop, hlength, start_entry (p.startOf_lt log last), startOf,
      Nat.mod_add_mod, Nat.add_assoc, ← hsize]
    have hid : UInt32.ofNat (log.id + last) + 1 = UInt32.ofNat (log.id + log.items.length) := by
      rw [hlast]
      exact (UInt32.ofNat_add (log.id + last) 1).symm
    have hnext : p.nextRow (p.rowBehind log.row last) = p.freeRow log := by
      rw [nextRow_rowBehind, freeRow, hlast]
    show (p.nextRow (p.rowBehind log.row last), UInt32.ofNat (log.id + last) + 1, _) = _
    rw [hid, hnext, freeStart]

/-! ## Writing an item -/

/-- The row and the first bytes of an item have been written; the others are what the area had. -/
def Halfway (p : Partition) (image : Bytes) (log : Log) (payload : Bytes) (log' : Log) : Prop :=
  ∃ written, written ≤ payload.length ∧ log' = log.push (payload.take written ++
    (p.ring image (p.freeStart log) payload.length).drop written)

/-- Writing an item where there is room puts it behind the others. -/
theorem writeItem_ends (c : space.Conduct p.table p.stop sound mishap)
    (holds : p.Holds image log) (hm : sound image m)
    (short : payload.length < 0x1_0000) (room : log.size + payload.length ≤ p.areaLength)
    (free : log.items.length < p.maxItems) (ids : log.id + log.items.length < 0x1_0000_0000) :
    (p.writeItem space (p.freeRow log)
        (entry (log.id + log.items.length) (p.freeStart log) payload.length) payload).Ends m
      (fun _ m' => ∃ image', sound image' m' ∧ p.Confined image image' ∧
        p.Holds image' (log.push payload))
      (Halts mishap (p.Among image fun l => l = log ∨ p.Halfway image log payload l)) := by
  have fits := c.inside
  have hlen := c.length hm
  have hparts := p.parts
  have hs := p.freeStart_lt log
  have hfree := p.rowBehind_lt log.row log.items.length
  have hmem := rowAddress_mem hfree
  have hpush := holds.push (by omega) room free short ids
  have hring := length_ring (by omega : p.stop ≤ image.length) hs
    (by omega : payload.length ≤ p.areaLength)
  have hstart := start_entry hs (log.id + log.items.length) payload.length
  generalize hrow : entry (log.id + log.items.length) (p.freeStart log) payload.length = row
    at hpush hstart
  have hbytes : row.encode.length = rowBytes := Row.length_encode row
  have hretabled := retabled_row (by omega : p.stop ≤ image.length) hbytes hfree
  generalize hrowed : image.overlay (p.rowAddress (p.rowBehind log.row log.items.length))
    row.encode = rowed at hretabled
  change p.Holds (image.overlay (p.rowAddress (p.rowBehind log.row log.items.length)) row.encode) _
    at hpush
  rw [hrowed] at hpush
  have hlen' := hretabled.confined.length
  -- With the first bytes in the area, the item has these and is otherwise what the area had.
  have filled {written : Nat} (hle : written ≤ payload.length) :
      p.Among image (fun l => l = log ∨ p.Halfway image log payload l)
        (p.ringPut rowed (p.freeStart log) (payload.take written)) := by
    have htake : (payload.take written).length = written := by rw [List.length_take]; omega
    have hfill := hpush.fill (by omega) (by rw [htake]; omega : (payload.take written).length ≤ _)
    rw [htake] at hfill
    exact ⟨hretabled.confined.trans (confined_ringPut (by omega) hs (by omega)), _,
      .inr ⟨written, hle, rfl⟩, hfill⟩
  have hfront : min payload.length (p.areaLength - p.freeStart log) =
      (payload.take (min payload.length (p.areaLength - p.freeStart log))).length := by
    rw [List.length_take]
    omega
  have hback : (payload.drop (min payload.length (p.areaLength - p.freeStart log))).length =
      payload.length - min payload.length (p.areaLength - p.freeStart log) := List.length_drop
  -- The row, the payload up to the end of the area, and what is left of it at the start.
  rw [freeRow, writeItem_eq hfree (by omega)]
  simp only [Action.ends_bind, hstart]
  refine (c.write hm (by omega) (by omega)).mono ?_ fun _ _ h => h.mono fun _ _ himage => ?_
  · rw [hrowed]
    intro _ m₁ h₁
    refine (c.write h₁ (by omega) (by omega)).mono ?_ fun _ _ h => h.mono fun _ _ himage => ?_
    · intro _ m₂ h₂
      refine (c.write h₂ (by omega) (by omega)).mono ?_ fun _ _ h => h.mono fun _ _ himage => ?_
      · have hfill := hpush.fill (by omega) (Nat.le_of_eq hring.symm)
        rw [List.drop_of_length_le (Nat.le_of_eq hring), List.append_nil] at hfill
        exact fun _ m₃ h₃ =>
          ⟨_, h₃, hretabled.confined.trans (confined_ringPut (by omega) hs (by omega)), hfill⟩
      · obtain ⟨written, -, hle, rfl⟩ := himage
        rw [← ringPut_back (by omega)]
        exact filled (by omega)
    · obtain ⟨written, -, hle, rfl⟩ := himage
      rw [List.take_take, Nat.min_eq_left (by omega), ← ringPut_front (by omega)]
      exact filled (by omega)
  · rcases holds.row_begun (by omega) free himage with ⟨hholds, hretabled'⟩ | rfl
    · exact ⟨hretabled'.confined, log, .inl rfl, hholds⟩
    · have h := filled (Nat.zero_le _)
      rwa [List.take_zero, ringPut_nil, ← hrowed] at h

/-! ## The whole append -/

/-- What a partition may hold while an item is appended: the log without some of the oldest items,
and behind the others the item in part. -/
def Appending (p : Partition) (image : Bytes) (log : Log) (payload : Bytes) (log' : Log) : Prop :=
  ∃ count, log' = p.popMany count log ∨ p.Halfway image (p.popMany count log) payload log'

/-- What an append makes of the log: without as few of the oldest items as will do, and with the new
item behind the others. -/
def Appended (p : Partition) (log : Log) (payload : Bytes) (log' : Log) : Prop :=
  ∃ count, p.Fewest log.items payload.length count ∧ log' = (p.popMany count log).push payload

/-- The payload fits into the area, and its length into a row. -/
def Storable (p : Partition) (payload : Bytes) : Prop :=
  payload.length ≤ p.areaLength ∧ payload.length < 0x1_0000

instance (p : Partition) (payload : Bytes) : Decidable (p.Storable payload) :=
  inferInstanceAs (Decidable (_ ∧ _))

/-- What is too long for the area or for a row is refused at once. -/
theorem appendOnce_of_long (space : Space g) (p : Partition)
    (long : p.areaLength < payload.length ∨ 0x1_0000 ≤ payload.length) (s : Media g × Status) :
    p.appendOnce space payload s = .error (.error .outOfRoom) s := by
  rw [appendOnce, if_pos long]
  rfl

/-- Where the bytes fit, one more item is taken out if no row is free. -/
theorem fewest_of_room {length count : Nat} (hcount : log.items.length ≤ p.maxItems)
    (room : (log.items.drop count).flatten.length + length ≤ p.areaLength)
    (fewer : ∀ fewer, fewer < count →
      p.areaLength < (log.items.drop fewer).flatten.length + length) :
    if (log.items.drop count).length = p.maxItems then p.Fewest log.items length (count + 1)
    else p.Fewest log.items length count := by
  have hpos := p.maxItems_pos
  split
  · next hfull =>
    rw [List.length_drop] at hfull
    -- All rows are in use, so nothing has been taken out yet.
    obtain rfl : count = 0 := by omega
    refine ⟨⟨?_, by rw [List.length_drop]; omega⟩, fun fewer hless hroom => ?_⟩
    · have hsize := congrArg List.length (congrArg List.flatten (List.take_append_drop 1 log.items))
      rw [List.flatten_append, List.length_append] at hsize
      rw [List.drop_zero] at room
      show (log.items.drop 1).flatten.length + _ ≤ _
      omega
    · obtain rfl : fewer = 0 := by omega
      have hrows := hroom.2
      rw [List.length_drop] at hrows
      omega
  · next hfree =>
    rw [List.length_drop] at hfree
    exact ⟨⟨room, by rw [List.length_drop]; omega⟩, fun k hless hroom =>
      absurd hroom.1 (Nat.not_le.mpr (fewer k hless))⟩

/-- The second half of an append: write the item into its place, erase its row again if that fails,
and count it. -/
def putItem (space : Space g) (p : Partition) (payload : Bytes) (place : Nat × UInt32 × Nat) :
    Action Error (Media g × Status) (Nat × UInt32) := do
  let entry : Row := ⟨place.2.1, UInt32.ofNat place.2.2, UInt16.ofNat payload.length⟩
  ((p.writeItem space place.1 entry payload).rescue fun error => do
    (p.eraseRow space place.1).mapError fun _ => .inconsistent
    Action.fail error).beside
  let room ← status
  let stored ← Action.sum 0x1_0000 room.stored 1
  let filled ← Action.sum 0x1_0000_0000 room.filled payload.length
  setStatus ⟨if room.stored = 0 then place.1 else room.oldestRow, stored, filled⟩
  return (place.1, place.2.1)

/-- The first half of an append: find the place of the item and make room for it. -/
def prepare (space : Space g) (p : Partition) (length : Nat) :
    Action Error (Media g × Status) (Nat × UInt32 × Nat) := do
  let place ← (p.vacancy space (← status)).beside
  p.makeRoom space length ((← status).stored + 1)
  if (← status).stored = p.maxItems then
    p.evict space
  return place

/-- An append refuses what is too long, makes room and puts the item into its place. -/
theorem appendOnce_eq (space : Space g) (p : Partition) (payload : Bytes) :
    p.appendOnce space payload = (do
      if p.areaLength < payload.length ∨ 0x1_0000 ≤ payload.length then
        Action.fail .outOfRoom
      let place ← p.prepare space payload.length
      p.putItem space payload place) := by
  simp only [prepare, bind_assoc, apply_ite (· >>= p.putItem space payload), pure_bind]
  rfl

/-- Write an item into its place, and erase its row again if that fails. -/
def tryItem (space : Space g) (p : Partition) (payload : Bytes) (place : Nat × UInt32 × Nat) :
    Action Error (Media g) Unit :=
  (p.writeItem space place.1 ⟨place.2.1, UInt32.ofNat place.2.2, UInt16.ofNat payload.length⟩
    payload).rescue fun error => do
      (p.eraseRow space place.1).mapError fun _ => .inconsistent
      Action.fail error

/-- Count an item that has been written into its place. -/
def countItem (payload : Bytes) (place : Nat × UInt32 × Nat) :
    Action Error (Media g × Status) (Nat × UInt32) := do
  let room ← status
  let stored ← Action.sum 0x1_0000 room.stored 1
  let filled ← Action.sum 0x1_0000_0000 room.filled payload.length
  setStatus ⟨if room.stored = 0 then place.1 else room.oldestRow, stored, filled⟩
  return (place.1, place.2.1)

/-- To put an item into its place is to write it, and then to count it. -/
theorem putItem_eq (space : Space g) (p : Partition) (payload : Bytes)
    (place : Nat × UInt32 × Nat) : p.putItem space payload place = (do
      (p.tryItem space payload place).beside
      countItem payload place) := rfl

/-- The sums of the fill state are not too large, and come to the fill state with the item. -/
theorem countItem_ok (holds : p.Holds image log)
    (room : p.HasRoom log.items payload.length) (id : UInt32) (start : Nat) :
    countItem payload (p.freeRow log, id, start) (m, log.status) =
      .ok (p.freeRow log, id) (m, (log.push payload).status) := by
  have hrows := p.maxItems_lt
  have harea := p.areaLength_lt
  have hsize : log.size + payload.length ≤ p.areaLength := room.1
  have hcount := room.2
  have hstored : log.status.stored + 1 < 0x1_0000 := by
    show log.items.length + 1 < _
    omega
  have hfilled : log.status.filled + payload.length < 0x1_0000_0000 := by
    show log.size + _ < _
    omega
  have hstatus : Status.mk (if log.status.stored = 0 then p.freeRow log else log.status.oldestRow)
      (log.status.stored + 1) (log.status.filled + payload.length) = (log.push payload).status := by
    have hrow : (if log.status.stored = 0 then p.freeRow log else log.status.oldestRow) =
        log.row := by
      split
      · next hzero =>
        have hnil : log.items.length = 0 := hzero
        rw [freeRow, hnil, rowBehind_zero holds.row_lt]
      · rfl
    rw [hrow]
    simp [Log.status, Log.push, Log.size]
  simp only [countItem, status, setStatus, Action.sum, Action.ensure_of_pos hstored,
    Action.ensure_of_pos hfilled, Action.bind_apply, Action.get_apply, Action.pure_apply,
    Action.modify_apply, hstatus]

/-- Putting an item where there is room puts it behind the others; if writing it fails and `left` is
true of what that leaves, so it is when the row has been erased. -/
theorem putItem_yields (c : space.Conduct p.table p.stop sound mishap)
    (holds : p.Holds image log) (hm : sound image m)
    (short : payload.length < 0x1_0000) (room : p.HasRoom log.items payload.length)
    (ids : log.id + log.items.length < 0x1_0000_0000) {left : Media g → Prop}
    (stopped : ∀ e m', Halts mishap (p.Among image fun l => l = log ∨
      p.Halfway image log payload l) e m' → left m')
    (rolled : Action.Keeps left (p.eraseRow space (p.freeRow log))) :
    (p.putItem space payload (p.freeRow log, UInt32.ofNat (log.id + log.items.length),
        p.freeStart log)).Yields (m, log.status)
      (fun place after => ∃ image', sound image' after.1 ∧ p.Confined image image' ∧
        p.Holds image' (log.push payload) ∧ after.2 = (log.push payload).status ∧
        place = (p.freeRow log, UInt32.ofNat (log.id + log.items.length)))
      (fun after => left after.1) := by
  rw [putItem_eq, Action.yields_bind, Action.yields_beside, tryItem]
  refine (writeItem_ends c holds hm short room.1 room.2 ids).yields_rescue ?_ |>.mono ?_
    fun _ h => h
  · -- A row that was written without its payload is erased again.
    intro e m₁ h₁
    simp only [Action.yields_bind, Action.yields_mapError, Action.yields_fail]
    exact (rolled m₁ (stopped e m₁ h₁)).mono (fun _ _ h => h) fun _ h => h
  · rintro _ m₁ ⟨image', h', hconfined, holds'⟩
    rw [Action.Yields, countItem_ok holds room]
    exact ⟨image', h', hconfined, holds', rfl, rfl⟩

/-- What an append leaves that has put the item into its place. -/
def Placed (sound : Bytes → Media g → Prop) (p : Partition) (image : Bytes) (log : Log)
    (payload : Bytes) (place : Nat × UInt32) (after : Media g × Status) : Prop :=
  ∃ image' log', sound image' after.1 ∧ p.Confined image image' ∧ p.Holds image' log' ∧
    after.2 = log'.status ∧ p.Appended log payload log' ∧
    place = (p.freeRow log, UInt32.ofNat (log.id + log.items.length))

/-- With room made, the item is put into the place that was found before. -/
theorem putItem_popMany_yields (c : space.Conduct p.table p.stop sound mishap)
    {image' : Bytes} (hm : sound image' m) (hretabled : p.Retabled image image') {count : Nat}
    (holds : p.Holds image' (p.popMany count log))
    (hfewest : p.Fewest log.items payload.length count) (short : payload.length < 0x1_0000)
    (hlength : payload.length ≤ p.areaLength) (ids : log.id + log.items.length < 0x1_0000_0000)
    {left : Media g → Prop}
    (stopped : ∀ e m', Halts mishap (p.Among image (p.Appending image log payload)) e m' →
      left m')
    (rolled : Action.Keeps left (p.eraseRow space (p.freeRow log))) :
    (p.putItem space payload (p.freeRow log, UInt32.ofNat (log.id + log.items.length),
        p.freeStart log)).Yields (m, (p.popMany count log).status)
      (p.Placed sound image log payload) (fun after => left after.1) := by
  have fits := c.inside
  have hlen := c.length hm
  have hlen' := hretabled.confined.length
  -- The next item's row, id and start are the same however many items have been taken out.
  obtain ⟨hrow, hid, hstart⟩ := p.free_popMany count log
  rw [← hrow, ← hid, ← hstart]
  refine (putItem_yields c holds hm short (p.items_popMany count log ▸ hfewest.1)
    (hid ▸ ids) ?_ (hrow ▸ rolled)).mono ?_ fun _ h => h
  · refine fun e m' h => stopped e m' (h.mono fun _ _ himage =>
      hretabled.confined.among (himage.mono ?_))
    rintro log' (rfl | ⟨written, hle, hlog'⟩)
    · exact ⟨count, .inl rfl⟩
    · refine ⟨count, .inr ⟨written, hle, ?_⟩⟩
      rwa [hretabled.ring_eq (by omega) (p.freeStart_lt _) hlength] at hlog'
  · rintro place after ⟨image'', h', hconfined, holds', hstatus, hplace⟩
    rw [hrow, hid] at hplace
    exact ⟨image'', _, h', hretabled.confined.trans hconfined, holds', hstatus,
      ⟨count, hfewest, rfl⟩, hplace⟩

/-- What the first half of an append leaves: as few of the oldest items as will do have been taken
out, and the place is the one behind the newest. -/
def Prepared (sound : Bytes → Media g → Prop) (p : Partition) (image : Bytes) (log : Log)
    (length : Nat) (place : Nat × UInt32 × Nat) (after : Media g × Status) : Prop :=
  place = (p.freeRow log, UInt32.ofNat (log.id + log.items.length), p.freeStart log) ∧
    ∃ count image', sound image' after.1 ∧ p.Retabled image image' ∧
      p.Holds image' (p.popMany count log) ∧ after.2 = (p.popMany count log).status ∧
      p.Fewest log.items length count

/-- Making room takes out items, and the place of the new one is found before. -/
theorem prepare_ends (c : space.Conduct p.table p.stop sound mishap)
    (holds : p.Holds image log) (settled : log.Settled) (hm : sound image m) {length : Nat}
    (short : length < 0x1_0000) (hlength : length ≤ p.areaLength) :
    (p.prepare space length).Ends (m, log.status)
      (p.Prepared sound image log length)
      (fun e after => Halts mishap (fun image' =>
        p.Among image (fun l => ∃ count, l = p.popMany count log) image' ∨
          p.Smearing mishap image log length image' after.2) e after.1) := by
  have hdrop (count : Nat) : (p.popMany count log).items = log.items.drop count :=
    p.items_popMany count log
  simp only [prepare, status, Action.ends_bind, Action.ends_get, Action.ends_pure,
    Action.ends_beside, Action.ends_ite]
  -- The place is found while the newest item is still there.
  refine (vacancy_ends c holds settled hm).mono ?_ fun e m' h => h.mono
    fun _ _ himage => .inl (himage ▸ holds.among ⟨0, rfl⟩)
  rintro _ m₁ ⟨h₁, rfl⟩
  -- Then as many items go as the bytes need.
  refine (makeRoom_ends c holds ⟨.refl p image, fun _ _ => rfl⟩ h₁ short hlength
    (Nat.lt_succ_self _)).mono ?_ fun _ _ h => h
  rintro _ ⟨m₂, after⟩ ⟨count, image₂, h₂, hretabled, holds₂, untouched₂, rfl, hroom, hfewer⟩
  have hfewest := fewest_of_room holds.count_le hroom hfewer
  have hstored : (p.popMany count log).status.stored = (log.items.drop count).length := by
    rw [← hdrop]
    rfl
  refine ⟨fun hfull => ?_, fun hfree => ?_⟩
  · -- The bytes fit now, but all rows are in use.
    rw [hstored] at hfull
    rw [if_pos hfull] at hfewest
    have hitems : (p.popMany count log).items ≠ [] := by
      rw [hdrop]
      exact List.length_pos_iff.mp (hfull ▸ p.maxItems_pos)
    have hpop := p.pop_popMany count log
    refine (evict_ends c holds₂ untouched₂ h₂ hitems).mono ?_ fun e after h => ?_
    · rintro _ ⟨m₃, after⟩ ⟨image₃, h₃, hretabled₃, holds₃, -, rfl⟩
      rw [hpop] at holds₃ ⊢
      exact ⟨rfl, count + 1, image₃, h₃, hretabled.trans hretabled₃, holds₃, rfl, hfewest⟩
    · refine h.mono fun _ _ himage => himage.imp
        (fun himage => hretabled.confined.among (himage.mono ?_)) fun hsmeared =>
          ⟨hsmeared.1, count, hsmeared.2, fun hroom => Nat.ne_of_lt hroom.2 hfull⟩
      rintro l (rfl | rfl)
      · exact ⟨count, rfl⟩
      · exact ⟨count + 1, hpop⟩
  · rw [hstored] at hfree
    rw [if_neg hfree] at hfewest
    exact ⟨rfl, count, image₂, h₂, hretabled, holds₂, rfl, hfewest⟩

/-- Appending what fits takes out as few of the oldest items as will do and puts the new one behind
the others. If it stops, `left` is true of what it leaves, if it is true wherever the memories stop
while the partition holds what it may hold meanwhile, and is kept when a row is erased. -/
theorem appendOnce_yields (c : space.Conduct p.table p.stop sound mishap)
    (intact : ∀ image' m, mishap.stuck image' m → ¬ p.Smeared mishap image image')
    (holds : p.Holds image log) (settled : log.Settled)
    (hm : sound image m) (short : payload.length < 0x1_0000)
    (hlength : payload.length ≤ p.areaLength) (ids : log.id + log.items.length < 0x1_0000_0000)
    {left : Media g → Prop}
    (stopped : ∀ e m', Halts mishap (p.Among image (p.Appending image log payload)) e m' →
      left m')
    (rolled : Action.Keeps left (p.eraseRow space (p.freeRow log))) :
    (p.appendOnce space payload).Yields (m, log.status) (p.Placed sound image log payload)
      (fun after => left after.1) := by
  have fits := c.inside
  rw [appendOnce_eq]
  simp only [Action.yields_ite, Action.yields_bind, Action.yields_fail]
  refine ⟨fun hlong => by omega, fun _ => ?_⟩
  refine ((prepare_ends c holds settled hm short hlength).yields fun e after h =>
    stopped e after.1 (h.mono fun _ hstuck himage => (himage.resolve_right fun hsmearing =>
      intact _ _ hstuck hsmearing.1).mono fun _ => Exists.imp fun _ => .inl)).mono ?_ fun _ h => h
  rintro _ ⟨m₁, after⟩ ⟨rfl, count, image₁, h₁, hretabled, holds₁, rfl, hfewest⟩
  exact putItem_popMany_yields c h₁ hretabled holds₁ hfewest short hlength ids stopped rolled

/-- An append that stops finds the fill state again before it gives up; `left` stays true of what it
leaves if it is kept by that. -/
theorem append_yields {s : Media g × Status} {value : Nat × UInt32 → Media g × Status → Prop}
    {left : Media g → Prop}
    (once : (p.appendOnce space payload).Yields s value fun after => left after.1)
    (recovered : Action.Keeps (fun after : Media g × Status => left after.1) (p.recover space)) :
    (p.append space payload).Yields s value fun after => left after.1 := by
  refine once.rescue fun e after h => ?_
  simp only [Action.yields_bind, Action.yields_ite, Action.yields_mapError, Action.yields_fail]
  exact ⟨fun _ => (recovered after h).mono (fun _ _ h => h) fun _ h => h, fun _ => h⟩

/-- What is too long is refused, and nothing is done. -/
theorem append_of_long (space : Space g) (p : Partition)
    (long : p.areaLength < payload.length ∨ 0x1_0000 ≤ payload.length) (s : Media g × Status) :
    p.append space payload s = .error (.error .outOfRoom) s := by
  rw [append, Action.rescue_of_error (appendOnce_of_long space p long s)]
  rfl

/-! ## The log afterwards -/

/-- The items after an append: the newest ones, and the new one behind them. -/
theorem Appended.items_eq {log' : Log} (h : p.Appended log payload log') :
    ∃ count, p.Fewest log.items payload.length count ∧
      log'.items = log.items.drop count ++ [payload] := by
  obtain ⟨count, hfewest, rfl⟩ := h
  exact ⟨count, hfewest, by rw [Log.push, items_popMany]⟩

/-- After an append there is an item. -/
theorem Appended.settled {log' : Log} (h : p.Appended log payload log') : log'.Settled := by
  obtain ⟨count, -, hitems⟩ := h.items_eq
  exact fun hnil => absurd (hitems.symm.trans hnil) (by simp)

/-- An append uses up one id. -/
theorem Appended.ids {log' : Log} (h : p.Appended log payload log') :
    log'.id + log'.items.length = log.id + log.items.length + 1 := by
  obtain ⟨count, -, rfl⟩ := h
  have hid := (p.free_popMany count log).2.1
  rw [← hid, Log.push, List.length_append, List.length_singleton]
  exact (Nat.add_assoc _ _ _).symm

end Partition

end CircularLog
