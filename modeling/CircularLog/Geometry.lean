import CircularLog.Checked

/-!
# Geometry

The sizes of the two memories and of the units in which the flash is read, programmed and erased.
The address space moves whole words, where a word is the larger of the units of reading and of
programming, so that one rounding serves both. Words and pages are units that lie one behind the
other, and an address is rounded to the units of either kind in the same way.
-/

namespace CircularLog

/-! ## Units -/

/-- The start of the unit of so many bytes that holds an address. -/
def unitFloor (unit address : Nat) : Nat := address / unit * unit

/-- The first start of a unit of so many bytes that is not below an address. -/
def unitCeil (unit address : Nat) : Nat :=
  if address % unit = 0 then address else address + (unit - address % unit)

section Units

variable {unit address : Nat}

/-- A unit starts at or before each of its bytes. -/
theorem unitFloor_le (unit address : Nat) : unitFloor unit address ≤ address :=
  Nat.div_mul_le_self _ _

/-- A unit ends behind each of its bytes. -/
theorem lt_unitFloor_add (pos : 0 < unit) (address : Nat) :
    address < unitFloor unit address + unit := by
  have h := Nat.div_add_mod address unit
  have hm := Nat.mod_lt address pos
  rw [Nat.mul_comm] at h
  unfold unitFloor
  omega

/-- A unit starts at a multiple of its size. -/
theorem unitFloor_mod (unit address : Nat) : unitFloor unit address % unit = 0 :=
  Nat.mul_mod_left _ _

/-- Rounding up goes up. -/
theorem le_unitCeil (unit address : Nat) : address ≤ unitCeil unit address := by
  unfold unitCeil
  split <;> omega

/-- Rounding up goes to the start of a unit. -/
theorem unitCeil_mod (pos : 0 < unit) (address : Nat) : unitCeil unit address % unit = 0 := by
  unfold unitCeil
  split
  · assumption
  · have h := Nat.div_add_mod address unit
    have hm := Nat.mod_lt address pos
    have e : address + (unit - address % unit) = unit * (address / unit + 1) := by
      rw [Nat.mul_add, Nat.mul_one]
      omega
    rw [e, Nat.mul_mod_right]

/-- Rounding up goes no further than to the next start of a unit. -/
theorem unitCeil_le (pos : 0 < unit) {stop : Nat} (h : address ≤ stop) (hstop : stop % unit = 0) :
    unitCeil unit address ≤ stop := by
  unfold unitCeil
  split
  · exact h
  · rename_i hmod
    have hm := Nat.mod_lt address pos
    have ha := Nat.div_add_mod address unit
    have hs := Nat.div_add_mod stop unit
    have hlt : address / unit < stop / unit := by
      rw [Nat.lt_iff_le_and_ne]
      refine ⟨Nat.div_le_div_right h, fun he => ?_⟩
      rw [he] at ha
      omega
    have hle := Nat.mul_le_mul_left unit (Nat.succ_le_of_lt hlt)
    rw [Nat.succ_eq_add_one, Nat.mul_add, Nat.mul_one] at hle
    omega

end Units

/-! ## Units in machine words -/

section Words

variable {ε σ : Type} {unit address : Nat}

/-- The start of the unit that holds an address, in machine words. -/
def roundDown (unit address : Nat) : Action ε σ Nat :=
  Action.product 0x1_0000_0000 (address / unit) unit

/-- The first start of a unit that is not below an address, in machine words. -/
def roundUp (unit address : Nat) : Action ε σ Nat :=
  if address % unit = 0 then pure address
  else do Action.sum 0x1_0000_0000 address (← Action.difference unit (address % unit))

/-- Rounding a machine word down gives one. -/
theorem roundDown_eq (h : address < 0x1_0000_0000) :
    (roundDown unit address : Action ε σ Nat) = pure (unitFloor unit address) :=
  Action.product_eq (Nat.lt_of_le_of_lt (unitFloor_le unit address) h)

/-- Rounding up gives a machine word if there is one. -/
theorem roundUp_eq (pos : 0 < unit) (h : unitCeil unit address < 0x1_0000_0000) :
    (roundUp unit address : Action ε σ Nat) = pure (unitCeil unit address) := by
  unfold roundUp
  unfold unitCeil at h ⊢
  split
  · rfl
  · next hmod =>
    rw [if_neg hmod] at h
    rw [Action.difference_eq (Nat.le_of_lt (Nat.mod_lt _ pos)), pure_bind, Action.sum_eq h]

/-- Rounding down is settled. -/
theorem settled_roundDown (unit address : Nat) :
    (roundDown unit address : Action ε σ Nat).Settled := Action.settled_product _ _ _

/-- Rounding up is settled. -/
theorem settled_roundUp (unit address : Nat) : (roundUp unit address : Action ε σ Nat).Settled :=
  .ite (.pure _) ((Action.settled_difference _ _).bind fun _ => Action.settled_sum _ _ _)

end Words

/-! ## Memories -/

/-- The sizes that a pair of memories is built with. -/
structure Geometry where
  /-- Bytes of eeprom. -/
  eepromBytes : Nat
  /-- Pages of flash. -/
  pages : Nat
  /-- Programming units in a page. -/
  wordsPerPage : Nat
  /-- Bytes in a programming unit. -/
  wordBytes : Nat
  /-- Bytes in a reading unit, as the driver of the flash declares it. -/
  readSize : Nat
  /-- Bytes in the buffer through which pages are renewed. -/
  scratchBytes : Nat
  wordsPerPage_pos : 0 < wordsPerPage := by decide
  wordBytes_pos : 0 < wordBytes := by decide

namespace Geometry

variable (g : Geometry)

/-- Bytes in a page, the unit of erasing. -/
def pageBytes : Nat := g.wordsPerPage * g.wordBytes

/-- Bytes of flash. -/
def flashBytes : Nat := g.pages * g.wordsPerPage * g.wordBytes

/-- The unit in which the address space reads and programs the flash. -/
def wordSize : Nat := max g.readSize g.wordBytes

/-- A page is never empty. -/
theorem pageBytes_pos : 0 < g.pageBytes := Nat.mul_pos g.wordsPerPage_pos g.wordBytes_pos

/-- A word is never empty. -/
theorem wordSize_pos : 0 < g.wordSize :=
  Nat.lt_of_lt_of_le g.wordBytes_pos (Nat.le_max_right _ _)

/-- The units fit into each other: reading and programming units into words, words into pages. -/
structure Uniform : Prop where
  readSize_dvd : g.readSize ∣ g.wordSize
  wordBytes_dvd : g.wordBytes ∣ g.wordSize
  wordSize_dvd : g.wordSize ∣ g.pageBytes

/-- The start of the word that holds an address. -/
abbrev wordFloor (address : Nat) : Nat := unitFloor g.wordSize address

/-- The first start of a word that is not below an address. -/
abbrev wordCeil (address : Nat) : Nat := unitCeil g.wordSize address

/-- The start of the page that holds an address. -/
abbrev pageFloor (address : Nat) : Nat := unitFloor g.pageBytes address

/-- How many bytes of a request for `length` bytes at a cell lie in the page of that cell, in
machine words. -/
def pagePart {ε σ : Type} (address length : Nat) : Action ε σ Nat := do
  let pages ← Action.sum 0x1_0000_0000 (address / g.pageBytes) 1
  let stop ← Action.product 0x1_0000_0000 pages g.pageBytes
  return min length (← Action.difference stop address)

/-- To find the part in a page is settled. -/
theorem settled_pagePart {ε σ : Type} (address length : Nat) :
    (g.pagePart address length : Action ε σ Nat).Settled :=
  (Action.settled_sum _ _ _).bind fun _ => (Action.settled_product _ _ _).bind fun _ =>
    (Action.settled_difference _ _).bind fun _ => .pure _

/-- Where the page of a cell ends at a machine word, the part in that page goes to its end at
most. -/
theorem pagePart_eq {ε σ : Type} {address : Nat} (length : Nat)
    (h : g.pageFloor address + g.pageBytes < 0x1_0000_0000) :
    (g.pagePart address length : Action ε σ Nat) =
      pure (min length (g.pageFloor address + g.pageBytes - address)) := by
  have hpos := g.pageBytes_pos
  have hstop : (address / g.pageBytes + 1) * g.pageBytes = g.pageFloor address + g.pageBytes :=
    Nat.succ_mul _ _
  have hdiv : address / g.pageBytes ≤ g.pageFloor address := Nat.le_mul_of_pos_right _ hpos
  have hlt : address < g.pageFloor address + g.pageBytes := lt_unitFloor_add hpos address
  unfold pagePart
  rw [Action.sum_eq (by omega), pure_bind, Action.product_eq (by omega), pure_bind, hstop,
    Action.difference_eq (Nat.le_of_lt hlt), pure_bind]

end Geometry

end CircularLog
