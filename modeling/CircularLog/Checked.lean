import CircularLog.Action
import CircularLog.Bytes

/-!
# Machine words and buffers

Numbers in the memories' drivers and in the tables are machine words, and what is read and written
lies in buffers. An action here computes with them as the machine does: it ends with a defect where
a result does not fit its word, where a difference is negative, and where a part of a buffer lies
outside of it. Beside each stands what it gives where nothing of that is the case. None of them
looks at the state or changes it: each is `Settled`, so it keeps whatever is kept by a value and by
a defect.
-/

namespace CircularLog

namespace Action

variable {ε σ α β : Type}

/-! ## Settled actions -/

/-- The action gives a value, or ends with a defect, whatever the state is. -/
inductive Settled : Action ε σ α → Prop
  | pure (a : α) : Settled (pure a)
  | abort (d : Defect) : Settled (abort d)

/-- A sequence of settled actions is settled. -/
theorem Settled.bind {x : Action ε σ β} {f : β → Action ε σ α} (hx : x.Settled)
    (hf : ∀ b, (f b).Settled) : (x >>= f).Settled := by
  cases hx with
  | pure b =>
    rw [pure_bind]
    exact hf b
  | abort d => exact .abort d

/-- A choice between settled actions is settled. -/
theorem Settled.ite {x y : Action ε σ α} {p : Prop} [Decidable p] (hx : x.Settled)
    (hy : y.Settled) : (if p then x else y).Settled := by
  split
  · exact hx
  · exact hy

/-- A check is settled. -/
theorem settled_ensure (p : Prop) [Decidable p] (d : Defect) :
    (ensure p d : Action ε σ Unit).Settled := .ite (.pure ()) (.abort d)

/-! ## Words -/

/-- The sum of two machine words below `limit`, which must be one itself. -/
def sum (limit a b : Nat) : Action ε σ Nat := do
  ensure (a + b < limit) .sumTooLarge
  return a + b

/-- The difference of two machine words, which must not be negative. -/
def difference (a b : Nat) : Action ε σ Nat := do
  ensure (b ≤ a) .differenceNegative
  return a - b

/-- The product of two machine words below `limit`, which must be one itself. -/
def product (limit a b : Nat) : Action ε σ Nat := do
  ensure (a * b < limit) .productTooLarge
  return a * b

/-- A sum that fits is the sum. -/
theorem sum_eq {limit a b : Nat} (h : a + b < limit) :
    (sum limit a b : Action ε σ Nat) = pure (a + b) := by
  rw [sum, ensure_of_pos h, pure_bind]

/-- A difference that is not negative is the difference. -/
theorem difference_eq {a b : Nat} (h : b ≤ a) :
    (difference a b : Action ε σ Nat) = pure (a - b) := by
  rw [difference, ensure_of_pos h, pure_bind]

/-- A product that fits is the product. -/
theorem product_eq {limit a b : Nat} (h : a * b < limit) :
    (product limit a b : Action ε σ Nat) = pure (a * b) := by
  rw [product, ensure_of_pos h, pure_bind]

/-- A sum is settled. -/
theorem settled_sum (limit a b : Nat) : (sum limit a b : Action ε σ Nat).Settled :=
  (settled_ensure _ _).bind fun _ => .pure _

/-- A difference is settled. -/
theorem settled_difference (a b : Nat) : (difference a b : Action ε σ Nat).Settled :=
  (settled_ensure _ _).bind fun _ => .pure _

/-- A product is settled. -/
theorem settled_product (limit a b : Nat) : (product limit a b : Action ε σ Nat).Settled :=
  (settled_ensure _ _).bind fun _ => .pure _

/-! ## Buffers -/

/-- So many bytes at the front of a buffer must be bytes of it. -/
def front (capacity length : Nat) : Action ε σ Unit :=
  ensure (length ≤ capacity) (.sliceTooLong length capacity)

/-- How many of `length` bytes stand behind the first `near` of them, which they must have. -/
def cut (length near : Nat) : Action ε σ Nat := do
  ensure (near ≤ length) .cutTooFar
  return length - near

/-- The bytes of a buffer from `start` to `stop`. -/
def part (buffer : Bytes) (start stop : Nat) : Action ε σ Bytes := do
  ensure (start ≤ stop) (.sliceReversed start stop)
  front buffer.length stop
  return buffer.slice start (stop - start)

/-- A buffer after `bytes` have been copied to its part from `start` to `stop`, which must have as
many bytes. -/
def copy (buffer : Bytes) (start stop : Nat) (bytes : Bytes) : Action ε σ Bytes := do
  let target ← part buffer start stop
  ensure (bytes.length = target.length) (.copyUneven bytes.length target.length)
  return buffer.overlay start bytes

/-- The front of a buffer that has as many bytes can be taken. -/
theorem front_eq {capacity length : Nat} (h : length ≤ capacity) :
    (front capacity length : Action ε σ Unit) = pure () := ensure_of_pos h

/-- Behind bytes that are there stand the others. -/
theorem cut_eq {length near : Nat} (h : near ≤ length) :
    (cut length near : Action ε σ Nat) = pure (length - near) := by
  rw [cut, ensure_of_pos h, pure_bind]

/-- A part inside a buffer is that slice of it. -/
theorem part_eq {buffer : Bytes} {start stop : Nat} (order : start ≤ stop)
    (inside : stop ≤ buffer.length) :
    (part buffer start stop : Action ε σ Bytes) = pure (buffer.slice start (stop - start)) := by
  rw [part, ensure_of_pos order, front_eq inside, pure_bind, pure_bind]

/-- Bytes that are copied into a buffer lie over it. -/
theorem copy_eq {buffer bytes : Bytes} {start : Nat}
    (inside : start + bytes.length ≤ buffer.length) :
    (copy buffer start (start + bytes.length) bytes : Action ε σ Bytes) =
      pure (buffer.overlay start bytes) := by
  have same : bytes.length = (buffer.slice start (start + bytes.length - start)).length := by
    rw [Bytes.length_slice (by omega)]
    omega
  rw [copy, part_eq (by omega) inside, pure_bind, ensure_of_pos same, pure_bind]

/-- To take the front of a buffer is settled. -/
theorem settled_front (capacity length : Nat) : (front capacity length : Action ε σ Unit).Settled :=
  settled_ensure _ _

/-- To cut a buffer in two is settled. -/
theorem settled_cut (length near : Nat) : (cut length near : Action ε σ Nat).Settled :=
  (settled_ensure _ _).bind fun _ => .pure _

/-- To take a part of a buffer is settled. -/
theorem settled_part (buffer : Bytes) (start stop : Nat) :
    (part buffer start stop : Action ε σ Bytes).Settled :=
  (settled_ensure _ _).bind fun _ => (settled_front _ _).bind fun _ => .pure _

/-- To copy into a buffer is settled. -/
theorem settled_copy (buffer : Bytes) (start stop : Nat) (bytes : Bytes) :
    (copy buffer start stop bytes : Action ε σ Bytes).Settled :=
  (settled_part _ _ _).bind fun _ => (settled_ensure _ _).bind fun _ => .pure _

end Action

end CircularLog
