import CircularLog.Proofs.Partition.Rollback
import CircularLog.Proofs.Space.Slow

/-!
# Appending in a slow eeprom

Where waiting for a write has been in vain, its bytes are there all the same, so an append that is
given up has taken out some of the oldest items and nothing else (`append_slow`). Its error is
`busy`, unless the erasing of the new row has been waited for in vain too: then it is
`inconsistent`, and the journal says why (`StalledTwice`). To find the fill state again nothing is
written, so that does not fail. Where the eeprom is never done at all, the error of a first item is
that one (`append_stalling`).
-/

namespace CircularLog

namespace Partition

open Space (Halts)
open Phase (slow)

variable {g : Geometry} {space : Space g} {p : Partition} {m : Media g} {around : Bytes × Bytes}
  {image : Bytes} {log : Log} {payload : Bytes}

/-- The eeprom has been polled in vain behind the erasing of a row, and before that behind the write
that came right in front of it. -/
def StalledTwice (p : Partition) (journal : List Call) : Prop :=
  ∃ row address length between earlier, row < p.maxItems ∧
    Stalled ⟨.eeprom, .write, p.rowAddress row, rowBytes⟩ between journal ∧
    Stalled ⟨.eeprom, .write, address, length⟩ earlier between

/-- The memories show this image, and the waiting has been in vain twice. -/
def StallsTwice (space : Space g) (around : Bytes × Bytes) (p : Partition) (image : Bytes)
    (m : Media g) : Prop :=
  space.Exposes slow around image m ∧ p.StalledTwice m.journal

/-- A row that is erased once the waiting has been in vain is erased, even if it is in vain
again. -/
theorem eraseRow_slow (t : space.Truthful) (eeprom : p.stop ≤ space.boundary)
    (hm : space.Stalls around image m) {row : Nat} (hrow : row < p.maxItems) :
    (p.eraseRow space row).Ends m
      (fun _ => space.Exposes slow around (image.overlay (p.rowAddress row) Row.erased))
      (Halts (.stalling (p.StallsTwice space around))
        (Space.Begun (.stalling (p.StallsTwice space around)) image (p.rowAddress row)
          Row.erased)) := by
  obtain ⟨hm, address, length, earlier, hstalled⟩ := hm
  have hmem := rowAddress_mem hrow
  have hparts := p.parts
  have herased : Row.erased.length = rowBytes := rfl
  rw [eraseRow_eq hrow]
  apply (Space.write_slow t hm (by omega)).mono
  · exact fun _ _ h' => h'
  · rintro e m' ⟨he, h', hagain⟩
    have hbegun : Space.Begun (.stalling (p.StallsTwice space around)) image (p.rowAddress row)
        Row.erased (image.overlay (p.rowAddress row) Row.erased) :=
      ⟨_, rfl, Nat.le_refl _, by rw [List.take_length]⟩
    exact ⟨he, .inr ⟨_, hbegun, h', row, address, length, _, earlier, hrow, hagain, hstalled⟩⟩

section Appending

variable (u : g.Uniform) (t : space.Truthful) (eeprom : p.stop ≤ space.boundary)
  (hm : space.Exposes slow around image m) (holds : p.Holds image log) (settled : log.Settled)
  (storable : p.Storable payload)
include u t eeprom hm holds settled storable

/-- While room is made, only the waiting fails, and then some of the oldest items have been taken
out. -/
theorem prepare_slow :
    (p.prepare space payload.length).Ends (m, log.status)
      (p.Prepared (space.Exposes slow around) image log payload.length)
      fun e after => e = .busy ∧ ∃ image', p.Rolled image log image' ∧
        space.Exposes slow around image' after.1 := by
  have c := (Space.conduct_of_slow u t around).within (Nat.zero_le p.table) eeprom
  have hlen : p.stop ≤ image.length := c.length hm ▸ c.inside
  apply (prepare_ends c holds settled hm storable.2 storable.1).mono
  · exact fun _ _ h => h
  · rintro e after ⟨he, hnever | ⟨image', hrolled | hsmearing, hstuck, -⟩⟩
    · exact hnever.elim
    · exact ⟨he, image', hrolled, hstuck⟩
    · exact absurd hsmearing.1 (not_smeared (fun _ _ hcut => hcut) hlen)

/-- An append puts the item behind the others; or the eeprom was busy for too long, and only some of
the oldest items are gone; or it was that again when the row of the item was erased, and then the
error is another one. -/
theorem append_slow (ids : log.id + log.items.length < 0x1_0000_0000) :
    (p.append space payload).Ends (m, log.status)
      (p.Placed (space.Exposes slow around) image log payload)
      fun e after =>
        e = .busy ∧ p.Restored (space.Exposes slow around) image log after ∨
        e = .inconsistent ∧ p.StalledTwice after.1.journal ∧ ∃ image', p.Rolled image log image' ∧
          space.Exposes slow around image' after.1 := by
  have c := (Space.conduct_of_slow u t around).within (Nat.zero_le p.table) eeprom
  have hlen : p.stop ≤ image.length := c.length hm ▸ c.inside
  have once := appendOnce_rolls c (fun _ _ hstalls =>
    eraseRow_slow t eeprom hstalls (p.rowBehind_lt _ _))
    (fun _ h => h) (prepare_slow u t eeprom hm holds settled storable) hlen storable ids
  have legible := (Space.legible_of_slow u t around).within (Nat.zero_le p.table)
    (by unfold Space.total; omega : p.stop ≤ space.total)
  rw [append, Action.ends_rescue]
  apply once.mono
  · exact fun _ _ h => h
  · rintro e ⟨m₁, status⟩ h
    rcases or_assoc.mpr h with hbusy | ⟨rfl, e', -, hnever | ⟨image', hunrolling, h₁, htwice⟩⟩
    · obtain ⟨rfl, image', hrolled, h₁⟩ : e = .busy ∧ ∃ image', p.Rolled image log image' ∧
          space.Exposes slow around image' m₁ := hbusy.elim (fun h => h) fun h => h
      -- The fill state is found in what is left, and nothing is written for that.
      have interrupts : Error.isInterruption .busy = true := rfl
      simp only [if_pos interrupts, Action.ends_bind, Action.ends_mapError, Action.ends_fail]
      apply (recover_of_rolled legible h₁ hrolled status).mono
      · exact fun _ _ hrestored => .inl ⟨trivial, hrestored⟩
      · exact fun _ _ hhalts => (Space.not_halts hhalts).elim
    · exact hnever.elim
    · obtain ⟨count, image₁, free, himage, hbegun⟩ := hunrolling
      refine .inr ⟨rfl, htwice, image', ?_, h₁⟩
      rw [hbegun.eq_overlay, ← (p.free_popMany count log).1]
      exact (Holds.rolled himage hlen free).mono fun _ hlog => ⟨count, hlog⟩

end Appending

/-! ## An eeprom that is never done -/

/-- If the eeprom is never done, nothing can be stored where nothing is: the row of the item is
begun, and cannot be taken back. -/
theorem append_stalling (t : space.Truthful) (eeprom : p.stop ≤ space.boundary)
    (hm : m.faults = [.stalling]) (storable : p.Storable payload) {row : Nat}
    (hrow : row < p.maxItems) :
    (p.append space payload).Ends (m, ⟨row, 0, 0⟩) (fun _ _ => False)
      fun e _ => e = .inconsistent := by
  obtain ⟨hlength, hshort⟩ := storable
  have hmem := rowAddress_mem hrow
  have hparts := p.parts
  have hlt := p.areaLength_lt
  have writes {m : Media g} (hm : m.faults = [.stalling]) {bytes : Bytes}
      (hbytes : bytes.length = rowBytes) :
      (space.write (p.rowAddress row) bytes).Ends m (fun _ _ => False)
        fun e m' => e = .busy ∧ m'.faults = [.stalling] :=
    Space.write_stalling t hm (List.ne_nil_of_length_pos (hbytes ▸ by decide)) (by omega)
  -- The row is written and rolled back, and both wait in vain.
  have once : (p.appendOnce space payload).Ends (m, ⟨row, 0, 0⟩) (fun _ _ => False)
      fun e _ => e = .inconsistent := by
    have hempty : ¬ (0 = p.maxItems) := Nat.ne_of_lt p.maxItems_pos
    have hroom : ¬ (p.areaLength < 0 + payload.length) := by omega
    simp only [appendOnce, vacancy, makeRoom, writeItem, eraseRow_eq hrow, locateRow_eq hrow,
      pure_bind, status, if_true, Action.ends_ite,
      Action.ends_bind, Action.ends_fail, Action.ends_get, Action.ends_beside, Action.ends_pure,
      Action.ends_sum, Action.ends_rescue, Action.ends_mapError]
    refine ⟨fun hlong => by omega, fun _ => ⟨by omega, fun h => absurd h hroom, fun _ =>
      ⟨fun h => absurd h hempty, fun _ => ?_⟩⟩⟩
    apply (writes hm (Row.length_encode _)).mono
    · exact fun _ _ h => h.elim
    · rintro e m₁ ⟨rfl, hm₁⟩
      apply (writes hm₁ rfl).mono
      · exact fun _ _ h => h.elim
      · exact fun _ _ _ => trivial
  rw [append, Action.ends_rescue]
  apply once.mono
  · exact fun _ _ h => h
  · rintro e after rfl
    exact rfl

end Partition

end CircularLog
