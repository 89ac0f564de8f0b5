import CircularLog.Proofs.Partition.Append
import CircularLog.Proofs.Partition.Recovery

/-!
# Appends that fail

An append that fails rolls back what it has begun: the row of the new item is erased again, and then
the fill state is found again in the table. Where both go well, the partition holds what it held,
without some of the oldest items, and the error is the one that the failed call has told
(`appendOnce_settles`, `append_settles`). Where one of them fails too, the error is
`inconsistent`.
-/

namespace CircularLog

namespace Partition

variable {g : Geometry} {space : Space g} {p : Partition} {m : Media g}
  {sound : Bytes → Media g → Prop} {mishap later : Space.Mishap g} {image image' : Bytes}
  {log : Log} {payload : Bytes}

open Space (Halts Begun)

/-! ## Erasing the row of a new item -/

/-- Erasing the row of the newest item takes it out. -/
theorem Holds.unpush (h : p.Holds image (log.push payload)) (fits : p.stop ≤ image.length)
    {bytes : Bytes} (hbytes : bytes.length = rowBytes) (none : Row.decode bytes = none) :
    p.Holds (image.overlay (p.rowAddress (p.freeRow log)) bytes) log := by
  have hparts := p.parts
  have hfree := p.rowBehind_lt log.row log.items.length
  have hmem := rowAddress_mem hfree
  have hcount := h.count_le
  have hids := h.id_le
  have hsize := h.size_le
  have hlength := h.length_lt
  rw [Log.length_items_push] at hcount hids
  rw [Log.size_push] at hsize
  constructor
  case header => rw [freeRow, header_overlay hbytes hfree fits, h.header]
  case row_lt => exact h.row_lt
  case start_lt => exact h.start_lt
  case count_le => omega
  case size_le => omega
  case length_lt => exact (List.forall_mem_append.mp hlength).1
  case id_le =>
    rw [Log.id_push] at hids
    omega
  case rows =>
    intro count hlt
    -- The erased row is the first one behind the items that are left.
    by_cases hself : count = log.items.length
    · rw [hself, freeRow, rowAt_overlay_self hbytes (by omega), none, entryAt,
        List.getElem?_eq_none (Nat.le_refl _)]
      rfl
    · have hne : p.freeRow log ≠ p.rowBehind log.row count :=
        rowBehind_ne h.row_lt hcount hlt (Ne.symm hself)
      have hrow := h.rows count hlt
      rw [entryAt_push, if_neg hself] at hrow
      rw [← hrow]
      rw [freeRow] at hne ⊢
      exact rowAt_overlay (by omega) (by have := p.rowAddress_disjoint hne; omega)
  case payloads =>
    have hstart : log.start < p.areaLength := h.start_lt
    rw [freeRow, ring_overlay hbytes hfree fits hstart (by omega)]
    exact (h.ring_push fits).1

/-- An item that has been begun is rolled back when its row is erased. -/
theorem Holds.rolled
    (himage : p.Among image (fun l => l = log ∨ p.Halfway image log payload l) image')
    (fits : p.stop ≤ image.length) (free : log.items.length < p.maxItems) :
    p.Among image (· = log) (image'.overlay (p.rowAddress (p.freeRow log)) Row.erased) := by
  obtain ⟨hconfined, log', hlog', holds⟩ := himage
  have hlen := hconfined.length
  have herased : Row.erased.length = rowBytes := rfl
  have hretabled := retabled_row (by omega : p.stop ≤ image'.length) herased
    (p.rowBehind_lt log.row log.items.length)
  refine ⟨hconfined.trans hretabled.confined, log, rfl, ?_⟩
  rcases hlog' with rfl | ⟨written, -, rfl⟩
  · exact holds.smudge (by omega) free herased Row.decode_erased
  · exact holds.unpush (by omega) herased Row.decode_erased

/-! ## Rolling back -/

/-- Some of the oldest items have been taken out of the log, and nothing else has changed. -/
def Rolled (p : Partition) (image : Bytes) (log : Log) (image' : Bytes) : Prop :=
  p.Among image (fun l => ∃ count, l = p.popMany count log) image'

/-- The erasing of the row of the next item has been begun, after the item had been begun. -/
def Unrolling (later : Space.Mishap g) (p : Partition) (image : Bytes) (log : Log) (payload : Bytes)
    (image'' : Bytes) : Prop :=
  ∃ count image', (p.popMany count log).items.length < p.maxItems ∧
    p.Among image (fun l => l = p.popMany count log ∨
      p.Halfway image (p.popMany count log) payload l) image' ∧
    Begun later image' (p.rowAddress (p.freeRow log)) Row.erased image''

/-- An append that fails has failed before room was made, or it has erased the row of the item
again; then the items are left without some of the oldest. If that fails too, the memories are
inconsistent. -/
theorem appendOnce_rolls (c : space.Conduct p.table p.stop sound mishap)
    {back : Bytes → Media g → Prop} {unprepared : Error → Media g × Status → Prop}
    (erases : ∀ image' m', mishap.stuck image' m' → (p.eraseRow space (p.freeRow log)).Ends m'
      (fun _ => back (image'.overlay (p.rowAddress (p.freeRow log)) Row.erased))
      (Halts later (Begun later image' (p.rowAddress (p.freeRow log)) Row.erased)))
    (whole : ∀ m', ¬ mishap.torn m')
    (prepared : (p.prepare space payload.length).Ends (m, log.status)
      (p.Prepared sound image log payload.length) unprepared)
    (hlen : p.stop ≤ image.length)
    (storable : p.Storable payload) (ids : log.id + log.items.length < 0x1_0000_0000) :
    (p.appendOnce space payload).Ends (m, log.status) (p.Placed sound image log payload)
      (fun e after => unprepared e after ∨
        (mishap.tells e ∧ ∃ image', p.Rolled image log image' ∧ back image' after.1) ∨
        e = .inconsistent ∧
          ∃ e', Halts later (p.Unrolling later image log payload) e' after.1) := by
  obtain ⟨hlength, short⟩ := storable
  rw [appendOnce_eq]
  simp only [Action.ends_ite, Action.ends_bind, Action.ends_fail]
  refine ⟨fun hlong => by omega, fun _ => prepared.mono ?_ fun _ _ h => .inl h⟩
  rintro _ ⟨m₁, after⟩ ⟨rfl, count, image₁, h₁, hretabled, holds, rfl, hfewest⟩
  have hroom := hfewest.1
  rw [← items_popMany] at hroom
  obtain ⟨hrow, hid, hstart⟩ := p.free_popMany count log
  -- What has been begun lies over the image in which room was made.
  have begun (e : Error) (m' : Media g) (h : Halts mishap (p.Among image₁ fun l =>
      l = p.popMany count log ∨ p.Halfway image₁ (p.popMany count log) payload l) e m') :
      Halts mishap (p.Among image fun l => l = p.popMany count log ∨
        p.Halfway image (p.popMany count log) payload l) e m' := by
    refine h.mono fun _ _ himage => hretabled.confined.among (himage.mono ?_)
    rintro log' (rfl | ⟨written, hle, hlog'⟩)
    · exact .inl rfl
    · rw [hretabled.ring_eq hlen (p.freeStart_lt _) hlength] at hlog'
      exact .inr ⟨written, hle, hlog'⟩
  rw [← hrow, ← hid, ← hstart, putItem_eq, Action.ends_bind, Action.ends_beside, tryItem,
    Action.ends_rescue]
  refine (writeItem_ends c holds h₁ short hroom.1 hroom.2 (hid ▸ ids)).mono ?_ fun e m₂ h => ?_
  · rintro _ m₂ ⟨image', h', hconfined, holds'⟩
    rw [Action.Ends, countItem_ok holds hroom]
    exact ⟨image', _, h', hretabled.confined.trans hconfined, holds', rfl, ⟨count, hfewest, rfl⟩,
      by rw [hrow, hid]⟩
  · -- Behind a failure the row is erased again.
    simp only [Action.ends_bind, Action.ends_mapError, Action.ends_fail, hrow]
    obtain ⟨he, htorn | ⟨image', himage, hstuck⟩⟩ := begun e m₂ h
    · exact absurd htorn (whole m₂)
    · have hrolled : p.Rolled image log
        (image'.overlay (p.rowAddress (p.freeRow log)) Row.erased) :=
        hrow ▸ (Holds.rolled himage hlen hroom.2).mono fun _ hlog => ⟨count, hlog⟩
      refine (erases image' m₂ hstuck).mono ?_ ?_
      · exact fun _ _ h => .inr (.inl ⟨he, _, hrolled, h⟩)
      · exact fun e' _ h => .inr (.inr ⟨trivial, e', h.mono fun _ _ hbegun =>
          ⟨count, image', hroom.2, himage, hbegun⟩⟩)

/-- An append that fails leaves the items without some of the oldest, or a row is smeared where it
has failed before it had made room. If the rolling back fails too, the memories are inconsistent. -/
theorem appendOnce_settles (c : space.Conduct p.table p.stop sound mishap)
    (erases : ∀ image' m', mishap.stuck image' m' → (p.eraseRow space (p.freeRow log)).Ends m'
      (fun _ => mishap.stuck (image'.overlay (p.rowAddress (p.freeRow log)) Row.erased))
      (Halts later (Begun later image' (p.rowAddress (p.freeRow log)) Row.erased)))
    (whole : ∀ m', ¬ mishap.torn m') (odd : Bytes → Media g × Status → Prop)
    (prepared : (p.prepare space payload.length).Ends (m, log.status)
      (p.Prepared sound image log payload.length)
      (fun e after => Halts mishap (fun image' => p.Rolled image log image' ∨ odd image' after) e
        after.1))
    (hlen : p.stop ≤ image.length)
    (storable : p.Storable payload) (ids : log.id + log.items.length < 0x1_0000_0000) :
    (p.appendOnce space payload).Ends (m, log.status) (p.Placed sound image log payload)
      (fun e after =>
        Halts mishap (fun image' => p.Rolled image log image' ∨ odd image' after) e after.1 ∨
        e = .inconsistent ∧
          ∃ e', Halts later (p.Unrolling later image log payload) e' after.1) := by
  refine (appendOnce_rolls c erases whole prepared hlen storable ids).mono (fun _ _ h => h) ?_
  rintro e after (h | ⟨he, image', hrolled, hstuck⟩ | h)
  · exact .inl h
  · exact .inl ⟨he, .inr ⟨image', .inl hrolled, hstuck⟩⟩
  · exact .inr h

/-! ## Finding the fill state again -/

/-- An append that ends with an interruption has failed with it, and has found the fill state
again. -/
theorem append_eq_error {e : Error} {s after : Media g × Status}
    (h : p.append space payload s = .error (.error e) after)
    (interrupts : e.isInterruption = true) :
    ∃ failed, p.appendOnce space payload s = .error (.error e) failed ∧
      p.recover space failed = .ok () after := by
  unfold append Action.rescue at h
  cases honce : p.appendOnce space payload s with
  | ok place failed => simp [honce] at h
  | error stop failed =>
    cases stop with
    | defect d => simp [honce] at h
    | error e' =>
      by_cases he : e'.isInterruption = true
      · simp only [honce, if_pos he, Action.bind_apply, Action.mapError, Action.fail_apply] at h
        cases hrecover : p.recover space failed with
        | ok _ found =>
          simp only [hrecover] at h
          obtain ⟨rfl, rfl⟩ : e' = e ∧ found = after := by simpa using h
          exact ⟨failed, rfl, hrecover⟩
        | error stop found =>
          -- Where the fill state is not found, the error is another one.
          simp only [hrecover] at h
          cases stop <;> simp at h
          obtain ⟨rfl, -⟩ := h
          cases interrupts
      · simp only [honce, if_neg he] at h
        obtain ⟨rfl, -⟩ : e' = e ∧ failed = after := by simpa using h
        exact absurd interrupts he

/-- The partition holds the log without some of the oldest items, and the fill state is theirs. -/
def Restored (sound : Bytes → Media g → Prop) (p : Partition) (image : Bytes) (log : Log)
    (after : Media g × Status) : Prop :=
  ∃ count image', sound image' after.1 ∧ p.Confined image image' ∧
    p.Holds image' (p.popMany count log) ∧ after.2 = (p.popMany count log).found.status

/-- What has been rolled back is found again. -/
theorem recover_of_rolled (c : space.Legible p.table p.stop sound mishap) (hm : sound image' m)
    (rolled : p.Rolled image log image') (status : Status) :
    (p.recover space).Ends (m, status) (fun _ => p.Restored sound image log)
      (fun e after => Halts mishap (p.Rolled image log) e after.1) := by
  obtain ⟨hconfined, _, ⟨count, rfl⟩, holds⟩ := rolled
  refine (recover_ends c holds hm status).mono ?_ ?_
  · rintro _ after ⟨h', hstatus⟩
    exact ⟨count, image', h', hconfined, holds, hstatus⟩
  · rintro e after h
    exact h.mono fun _ _ himage => himage ▸ ⟨hconfined, _, ⟨count, rfl⟩, holds⟩

/-- Where no failure tears the memories or smears a row, an append that fails restores the log
without some of the oldest items, or ends inconsistent if a call fails behind the first one too. -/
theorem append_settles (c : space.Conduct p.table p.stop sound mishap)
    (c' : space.Conduct p.table p.stop mishap.stuck later)
    (interrupts : ∀ e, mishap.tells e → e.isInterruption = true)
    (prepared : (p.prepare space payload.length).Ends (m, log.status)
      (p.Prepared sound image log payload.length)
      (fun e after => mishap.tells e ∧ ∃ image', p.Rolled image log image' ∧
        mishap.stuck image' after.1))
    (whole : ∀ m', ¬ mishap.torn m') (hlen : p.stop ≤ image.length)
    (storable : p.Storable payload) (ids : log.id + log.items.length < 0x1_0000_0000) :
    (p.append space payload).Ends (m, log.status) (p.Placed sound image log payload)
      (fun e after => mishap.tells e ∧ p.Restored mishap.stuck image log after ∨
        e = .inconsistent ∧ ∃ e', Halts later (fun image' =>
          p.Unrolling later image log payload image' ∨ p.Rolled image log image') e' after.1) := by
  have once := appendOnce_settles c
    (fun _ _ hstuck => eraseRow_ends c' hstuck (p.rowBehind_lt _ _)) whole (fun _ _ => False)
    (prepared.mono (fun _ _ h => h) fun _ _ ⟨he, image', himage, hstuck⟩ =>
      ⟨he, .inr ⟨image', .inl himage, hstuck⟩⟩) hlen storable ids
  rw [append, Action.ends_rescue]
  refine once.mono (fun _ _ h => h) ?_
  rintro e ⟨m₁, status⟩ (⟨he, htorn | ⟨image', himage, hstuck⟩⟩ | ⟨rfl, e', h⟩)
  · exact absurd htorn (whole m₁)
  · -- The fill state is found in what has been rolled back.
    simp only [if_pos (interrupts e he), Action.ends_bind, Action.ends_mapError, Action.ends_fail]
    refine (recover_of_rolled c'.toLegible hstuck (himage.resolve_right not_false) status).mono
      ?_ ?_
    · exact fun _ _ h => .inl ⟨he, h⟩
    · exact fun e' _ h => .inr ⟨trivial, e', h.mono fun _ _ => .inr⟩
  · exact .inr ⟨rfl, e', h.mono fun _ _ => .inl⟩

end Partition

end CircularLog
