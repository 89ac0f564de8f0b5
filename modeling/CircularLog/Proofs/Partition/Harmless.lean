import CircularLog.Proofs.Partition.Advance
import CircularLog.Proofs.Partition.Rollback
import CircularLog.Proofs.Space.Harmless

/-!
# Failures without effects

Where failing calls have no effect, the memories are as sound behind a failure as before it. In the
eeprom, a row is then erased or is not, so an append to a partition there that fails without an
inconsistency has restored the log without some of the oldest items (`append_harmless`). Even where
it ends inconsistent, because the rolling back has failed too, the partition holds a log, which may
have the item in part.
-/

namespace CircularLog

variable {g : Geometry} {space : Space g} {p : Partition} {m : Media g} {phase : Phase}
  {around : Bytes × Bytes} {image image' : Bytes} {log : Log} {payload : Bytes}

namespace Partition

open Space (Halts Begun)

/-- A row in the eeprom whose erasing has been begun is as before, or is erased. -/
theorem begun_harmless (eeprom : p.stop ≤ space.boundary) {row : Nat} (hrow : row < p.maxItems)
    (begun : Begun (.harmless space phase around) image (p.rowAddress row) Row.erased image') :
    image' = image ∨ image' = image.overlay (p.rowAddress row) Row.erased := by
  have hmem := rowAddress_mem hrow
  have hparts := p.parts
  have herased : Row.erased.length = rowBytes := rfl
  obtain ⟨n, hcuts, -, rfl⟩ := begun
  rcases Space.cut_whole (.inl (by omega)) hcuts with rfl | rfl
  · exact .inl (by rw [List.take_zero, Bytes.overlay_nil])
  · exact .inr (by rw [List.take_length])

/-- What is left where an append ends inconsistent: a log that it may have had meanwhile. -/
def Strayed (space : Space g) (phase : Phase) (around : Bytes × Bytes) (p : Partition)
    (image : Bytes) (log : Log) (payload : Bytes) (m : Media g) : Prop :=
  ∃ image' log', space.Exposes phase around image' m ∧ p.Holds image' log' ∧
    p.Appending image log payload log'

variable (o : Outage .clean phase phase fun _ => phase) (u : g.Uniform) (t : space.Truthful)
  (eeprom : p.stop ≤ space.boundary)
  (hm : space.Exposes phase around image m) (holds : p.Holds image log) (settled : log.Settled)
  (storable : p.Storable payload)
include o u t eeprom hm holds settled storable

/-- While room is made, no row is smeared. -/
theorem prepare_harmless :
    (p.prepare space payload.length).Ends (m, log.status)
      (p.Prepared (space.Exposes phase around) image log payload.length)
      (fun e after => e.isInterruption = true ∧
        ∃ image', p.Rolled image log image' ∧ space.Exposes phase around image' after.1) := by
  have c := (Space.conduct_of_harmless o u t around).within (Nat.zero_le p.table) eeprom
  refine (prepare_ends c holds settled hm storable.2 storable.1).mono (fun _ _ h => h) ?_
  rintro e after ⟨he, hnever | ⟨image', hrolled | hsmearing, hstuck⟩⟩
  · exact hnever.elim
  · exact ⟨he, image', hrolled, hstuck⟩
  · exact absurd (hsmearing.1.cut_lt (c.length hm ▸ c.inside) eeprom).1 (Nat.lt_irrefl 0)

/-- An append puts the item behind the others; or it is interrupted, and restores the log without
some of the oldest items; or it ends inconsistent, and leaves a log all the same. -/
theorem append_harmless (ids : log.id + log.items.length < 0x1_0000_0000) :
    (p.append space payload).Ends (m, log.status)
      (p.Placed (space.Exposes phase around) image log payload)
      (fun e after =>
        e.isInterruption = true ∧ p.Restored (space.Exposes phase around) image log after ∨
        e = .inconsistent ∧ p.Strayed space phase around image log payload after.1) := by
  have c := (Space.conduct_of_harmless o u t around).within (Nat.zero_le p.table) eeprom
  have hlen : p.stop ≤ image.length := c.length hm ▸ c.inside
  refine (append_settles c c (fun _ he => he)
    (prepare_harmless o u t eeprom hm holds settled storable) (fun _ h => h) hlen storable
    ids).mono (fun _ _ h => h) ?_
  rintro e after (h | ⟨rfl, e', -, hnever | ⟨image', himage, hstuck⟩⟩)
  · exact .inl h
  · exact hnever.elim
  · refine .inr ⟨rfl, ?_⟩
    have rolled (h : p.Rolled image log image') :
        p.Strayed space phase around image log payload after.1 := by
      obtain ⟨-, _, ⟨count, rfl⟩, hholds⟩ := h
      exact ⟨image', _, hstuck, hholds, count, .inl rfl⟩
    rcases himage with ⟨count, image₁, free, himage, hbegun⟩ | hrolled
    · rw [← (p.free_popMany count log).1] at hbegun
      have hrow : p.freeRow (p.popMany count log) < p.maxItems := p.rowBehind_lt _ _
      rcases begun_harmless eeprom hrow hbegun with rfl | rfl
      · -- The row has not been erased, and the item is there in part.
        obtain ⟨-, log', hlog', hholds⟩ := himage
        exact ⟨_, log', hstuck, hholds, count, hlog'⟩
      · exact rolled ((Holds.rolled himage hlen free).mono fun _ hlog => ⟨count, hlog⟩)
    · exact rolled hrolled

end Partition

end CircularLog
