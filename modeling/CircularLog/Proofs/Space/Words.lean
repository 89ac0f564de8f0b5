import CircularLog.Proofs.Geometry
import CircularLog.Proofs.Media.Calls
import CircularLog.Space.Write

/-!
# Requests in machine words

Inside the range of a space no sum is too large, no difference is negative and no part of a buffer
lies outside of it: what a request does there is what it would do with numbers of any size. So the
parts of a request are the pieces that the ends of the pages cut it into (`read_eq`, `write_eq`),
and a piece inside a page is served without any check (`readPiece_eq`, `writePiece_eq`,
`renewPage_eq`).
-/

namespace CircularLog

/-- Sequences are the same whose second parts are the same behind each value of the first. -/
theorem Action.bind_congr_of_ok {ε σ α β : Type} {x : Action ε σ β} {f f' : β → Action ε σ α}
    (h : ∀ b s s', x s = .ok b s' → f b = f' b) : x >>= f = x >>= f' := by
  funext s
  cases hx : x s with
  | ok b s' => rw [bind_of_ok hx, bind_of_ok hx, h b s s' hx]
  | error stop s' => rw [bind_of_error hx, bind_of_error hx]

namespace Space

variable {g : Geometry} {space : Space g} {address length : Nat}

/-! ## What is refused -/

/-- A request inside the range is not refused. -/
theorem require_of_le {address length : Nat} (h : address + length ≤ space.total) :
    (space.require address length : Action Error (Media g) Unit) = pure () := by
  rw [require_eq, if_neg (Nat.not_lt.mpr h)]

/-- A request that does not lie inside the range is refused. -/
theorem require_of_lt {address length : Nat} (h : space.total < address + length) :
    (space.require address length : Action Error (Media g) Unit) = Action.fail .invalidRange := by
  rw [require_eq, if_pos h]

/-! ## Requests in pieces -/

/-- Read pieces of the given lengths, one behind the other, each inside a page of the flash. -/
def readPieces (address : Nat) : List Nat → Action Error (Media g) Bytes
  | [] => pure []
  | length :: lengths => do
    let piece ← readPiece address length
    return piece ++ (← readPieces (address + length) lengths)

/-- Write pieces that follow each other, each inside a page of the flash. -/
def writePieces (address : Nat) : List Bytes → Action Error (Media g) Unit
  | [] => pure ()
  | piece :: pieces => do
    writePiece address piece
    writePieces (address + piece.length) pieces

/-- A cell behind the boundary is one of the range. -/
theorem start_le_flashCell (space : Space g) (address : Nat) :
    space.start ≤ space.flashCell address :=
  Nat.le_add_right _ _

/-- A request behind the boundary ends inside the range. -/
theorem flashCell_add_le {address length : Nat} (near : space.boundary ≤ address)
    (range : address + length ≤ space.total) : space.flashCell address + length ≤ space.stop := by
  have horder := space.start_le_stop
  unfold flashCell total at *
  omega

/-- A request that ends inside the range is read in the pieces that the ends of the pages cut it
into. -/
theorem readPages_eq (upper : address + length ≤ space.stop) {pages : Nat}
    (enough : length ≤ pages) : (readPages address length pages : Action Error (Media g) Bytes) =
      readPieces address (g.pageParts address length) := by
  have hstop := space.stop_lt
  induction pages generalizing address length with
  | zero =>
    obtain rfl : length = 0 := by omega
    rfl
  | succ pages ih =>
    unfold readPages
    by_cases hnone : length = 0
    · simp [hnone, Geometry.pageParts, readPieces]
    · have hlt : address < g.pageFloor address + g.pageBytes :=
        lt_unitFloor_add g.pageBytes_pos address
      have hpage : g.pageFloor address + g.pageBytes ≤ space.stop :=
        g.pageFloor_add_le space.stop_mod (by omega)
      rw [if_neg hnone, g.pagePart_eq length (by omega), pure_bind,
        g.pageParts_eq address hnone rfl]
      generalize hnear : min length (g.pageFloor address + g.pageBytes - address) = near
      rw [Action.cut_eq (by omega), pure_bind, readPieces, Action.sum_eq (by omega)]
      simp only [pure_bind]
      rw [ih (by omega) (by omega)]

/-- Bytes that end inside the range are written in the pieces that the ends of the pages cut them
into. -/
theorem writePages_eq {bytes : Bytes} (upper : address + bytes.length ≤ space.stop) {pages : Nat}
    (enough : bytes.length ≤ pages) :
    (writePages address bytes pages : Action Error (Media g) Unit) =
      writePieces address (Bytes.cut (g.pageParts address bytes.length) bytes) := by
  have hstop := space.stop_lt
  induction pages generalizing address bytes with
  | zero =>
    obtain rfl : bytes = [] := List.eq_nil_of_length_eq_zero (by omega)
    rfl
  | succ pages ih =>
    unfold writePages
    by_cases hnone : bytes = []
    · simp [hnone, Geometry.pageParts, Bytes.cut, writePieces]
    · have hlength : bytes.length ≠ 0 := fun h => hnone (List.eq_nil_of_length_eq_zero h)
      have hlt : address < g.pageFloor address + g.pageBytes :=
        lt_unitFloor_add g.pageBytes_pos address
      have hpage : g.pageFloor address + g.pageBytes ≤ space.stop :=
        g.pageFloor_add_le space.stop_mod (by omega)
      rw [if_neg hnone, g.pagePart_eq bytes.length (by omega), pure_bind,
        g.pageParts_eq address hlength rfl]
      generalize hnear : min bytes.length (g.pageFloor address + g.pageBytes - address) = near
      have htake : (bytes.take near).length = near := by
        rw [List.length_take]
        omega
      have hdrop : (bytes.drop near).length = bytes.length - near := List.length_drop
      rw [Action.cut_eq (by omega), pure_bind, Bytes.cut, writePieces, htake,
        Action.sum_eq (by omega), pure_bind, ih (by omega) (by omega), hdrop]

/-- The cell behind an address inside the range is a machine word. -/
theorem locate_eq (near : space.boundary ≤ address) (range : address ≤ space.total) :
    (space.locate address : Action Error (Media g) Nat) = pure (space.flashCell address) := by
  have hstop := space.stop_lt
  have hcell : space.flashCell address + 0 ≤ space.stop := flashCell_add_le near range
  unfold locate
  unfold flashCell at hcell ⊢
  rw [Action.difference_eq near, pure_bind, Action.sum_eq (by omega)]

/-- Reading, with numbers of any size. -/
theorem read_eq (space : Space g) (address length : Nat) :
    space.read address length = (do
      if length = 0 then
        return []
      space.require address length
      let near := space.eepromPart address length
      let front ← if near = 0 then pure [] else driver .eeprom (Media.eepromRead address near)
      let cell := space.flashCell (address + near)
      let back ← readPieces cell (g.pageParts cell (length - near))
      return front ++ back) := by
  unfold read
  by_cases hnone : length = 0
  · simp only [hnone, if_true]
  simp only [hnone, if_false, require_eq]
  by_cases far : space.total < address + length
  · simp only [far, if_true]
    rfl
  simp only [far, if_false, pure_bind]
  have hnear : space.eepromPart address length = min (space.boundary - address) length := rfl
  generalize space.eepromPart address length = near at hnear ⊢
  have htotal := space.total_lt
  rw [Action.cut_eq (by omega), pure_bind]
  -- Behind the part in the eeprom, both go on with the same pieces.
  have back (front : Bytes) : (if length - near = 0 then pure front else do
        let cell ← space.locate (← Action.sum 0x1_0000_0000 address near)
        return front ++ (← readPages cell (length - near) (length - near)) :
        Action Error (Media g) Bytes) = (do
      let cell := space.flashCell (address + near)
      let back ← readPieces cell (g.pageParts cell (length - near))
      return front ++ back) := by
    by_cases hrest : length - near = 0
    · simp [hrest, Geometry.pageParts, readPieces]
    · have hrange : address + near + (length - near) ≤ space.total := by omega
      rw [if_neg hrest, Action.sum_eq (by unfold total at far; omega), pure_bind,
        locate_eq (by omega) (by omega), pure_bind,
        readPages_eq (flashCell_add_le (by omega) hrange) (Nat.le_refl _)]
  dsimp only at back
  by_cases hzero : near = 0
  · simp only [hzero, if_true] at back ⊢
    exact back []
  · simp only [hzero, if_false]
    exact congrArg _ (funext back)

/-- A piece that is read has the length that was asked for. -/
theorem length_of_readPiece {m m' : Media g} {piece : Bytes}
    (h : readPiece address length m = .ok piece m') : piece.length = length := by
  have reads : (readPiece address length).Yields m (fun piece _ => piece.length = length)
      fun _ => True := by
    rw [readPiece, Action.yields_bind]
    refine Action.yields_of_forall _ _ (fun ⟨start, words⟩ m₁ => ?_) fun _ => trivial
    rw [Action.yields_bind]
    refine (Action.settled_difference _ _).yields (fun head => ?_) trivial
    rw [Action.yields_bind]
    refine Action.yields_sum _ _ _ (fun _ => ?_) trivial
    refine Action.yields_part _ _ _ (fun order inside => ?_) trivial
    rw [Bytes.length_slice (by omega), Nat.add_sub_cancel_left]
  exact reads.of_ok h

/-- Pieces that are read have the lengths that were asked for. -/
theorem length_of_readPieces {m m' : Media g} {lengths : List Nat} {bytes : Bytes}
    (h : readPieces address lengths m = .ok bytes m') : bytes.length = Bytes.total lengths := by
  have reads (m : Media g) : (readPieces address lengths).Yields m
      (fun bytes _ => bytes.length = Bytes.total lengths) fun _ => True := by
    clear h
    induction lengths generalizing m address with
    | nil => exact rfl
    | cons length lengths ih =>
      simp only [readPieces, Action.yields_bind]
      refine (Action.yields_of_ok fun _ _ => length_of_readPiece).mono ?_ fun _ h => h
      intro piece m₁ hpiece
      refine (ih m₁).mono (fun rest m₂ hrest => ?_) fun _ h => h
      rw [Action.yields_pure, List.length_append, hpiece, hrest, Bytes.total_cons]
  exact (reads m).of_ok h

/-- What is read has the length that was asked for. -/
theorem length_of_read {m m' : Media g} {bytes : Bytes}
    (h : space.read address length m = .ok bytes m') : bytes.length = length := by
  have hnear : space.eepromPart address length ≤ length := Nat.min_le_right _ _
  have back (front : Bytes) (hfront : front.length = space.eepromPart address length)
      (cell : Nat) (m : Media g) : (do
        let back ← readPieces cell (g.pageParts cell (length - space.eepromPart address length))
        return front ++ back : Action Error (Media g) Bytes).Yields m
          (fun bytes _ => bytes.length = length) fun _ => True := by
    rw [Action.yields_bind]
    refine (Action.yields_of_ok fun _ _ => length_of_readPieces).mono ?_ fun _ h => h
    intro rest m₁ hrest
    rw [Action.yields_pure, List.length_append, hrest, hfront, g.total_pageParts]
    omega
  have reads : (space.read address length).Yields m (fun bytes _ => bytes.length = length)
      fun _ => True := by
    rw [read_eq, Action.yields_ite]
    refine ⟨fun none => none.symm, fun _ => ?_⟩
    rw [require_eq, Action.yields_bind, Action.yields_ite]
    refine ⟨fun _ => trivial, fun _ => ?_⟩
    simp only [Action.yields_ite, Action.yields_pure, pure_bind]
    refine ⟨fun none => back [] none.symm _ m, fun _ => ?_⟩
    rw [Action.yields_bind, driver, Action.yields_mapError]
    refine (Action.yields_of_ok fun _ _ => Media.length_of_eepromRead).mono ?_ fun _ h => h
    exact fun front m₁ hfront => back front hfront _ m₁
  exact reads.of_ok h

/-- Writing, with numbers of any size. -/
theorem write_eq (space : Space g) (address : Nat) (bytes : Bytes) :
    space.write address bytes = (do
      if bytes = [] then
        return
      space.require address bytes.length
      let near := space.eepromPart address bytes.length
      if near ≠ 0 then
        writeEeprom address (bytes.take near)
      let cell := space.flashCell (address + near)
      writePieces cell (Bytes.cut (g.pageParts cell (bytes.length - near)) (bytes.drop near))) := by
  unfold write
  by_cases hnone : bytes = []
  · simp only [hnone, if_true]
  simp only [hnone, if_false, require_eq]
  by_cases far : space.total < address + bytes.length
  · simp only [far, if_true]
    rfl
  simp only [far, if_false, pure_bind]
  have hnear : space.eepromPart address bytes.length =
      min (space.boundary - address) bytes.length := rfl
  generalize space.eepromPart address bytes.length = near at hnear ⊢
  have htotal := space.total_lt
  have hdrop : (bytes.drop near).length = bytes.length - near := List.length_drop
  -- Behind the part in the eeprom, both go on with the same pieces.
  have back : (if bytes.length - near ≠ 0 then do
        let cell ← space.locate (← Action.sum 0x1_0000_0000 address near)
        writePages cell (bytes.drop near) (bytes.length - near)
      else pure () : Action Error (Media g) Unit) =
      writePieces (space.flashCell (address + near))
        (Bytes.cut (g.pageParts (space.flashCell (address + near)) (bytes.length - near))
          (bytes.drop near)) := by
    by_cases hrest : bytes.length - near = 0
    · simp [hrest, Geometry.pageParts, Bytes.cut, writePieces]
    · have hrange : address + near + (bytes.drop near).length ≤ space.total := by omega
      rw [if_pos hrest, Action.sum_eq (by unfold total at far; omega), pure_bind,
        locate_eq (by omega) (by omega), pure_bind,
        writePages_eq (flashCell_add_le (by omega) hrange) (Nat.le_of_eq hdrop), hdrop]
  rw [Action.cut_eq (by omega), pure_bind, ← back]

/-! ## Pieces inside a page -/

section Page

variable (u : g.Uniform) {bytes : Bytes}

/-- The words that hold a request inside a page of the range lie inside the flash and fit into the
scratch buffer. -/
theorem words_inside (u : g.Uniform) {address length : Nat}
    (pos : 0 < length) (page : address + length ≤ g.pageFloor address + g.pageBytes)
    (lower : space.start ≤ address) (upper : address + length ≤ space.stop) :
    g.wordFloor address ≤ address ∧ address + length ≤ g.wordCeil (address + length) ∧
      g.pageFloor address ≤ g.wordFloor address ∧
      g.wordCeil (address + length) ≤ g.pageFloor address + g.pageBytes ∧
      space.start ≤ g.pageFloor address ∧ g.pageFloor address + g.pageBytes ≤ space.stop := by
  refine ⟨unitFloor_le _ _, le_unitCeil _ _, g.pageFloor_le_wordFloor u _,
    g.wordCeil_le_page u page, g.le_pageFloor space.start_mod lower,
    g.pageFloor_add_le space.stop_mod (by omega)⟩

/-- Reading words, with numbers of any size. -/
theorem readWords_eq (u : g.Uniform) (pos : 0 < length)
    (page : address + length ≤ g.pageFloor address + g.pageBytes)
    (lower : space.start ≤ address) (upper : address + length ≤ space.stop) :
    (readWords address length : Action Error (Media g) (Nat × Bytes)) = (do
      let start := g.wordFloor address
      return (start, ← driver .flash
        (Media.flashRead start (g.wordCeil (address + length) - start))))
    := by
  obtain ⟨hfloor, hceil, hfirst, hlast, hstart, hstop⟩ := words_inside u pos page lower upper
  have hlt := space.stop_lt
  have hscratch := space.page_le_scratch
  unfold Geometry.wordFloor Geometry.wordCeil Geometry.pageFloor at *
  unfold readWords
  rw [roundDown_eq (by omega), pure_bind, Action.sum_eq (by omega), pure_bind,
    roundUp_eq g.wordSize_pos (by omega), pure_bind, Action.difference_eq (by omega), pure_bind,
    Action.front_eq (by omega), pure_bind]

/-- What words are read for a piece, and how many. -/
theorem words_of_readWords {m m' : Media g} {r : Nat × Bytes} (u : g.Uniform) (pos : 0 < length)
    (page : address + length ≤ g.pageFloor address + g.pageBytes)
    (lower : space.start ≤ address) (upper : address + length ≤ space.stop)
    (h : readWords address length m = .ok r m') :
    r.1 = g.wordFloor address ∧
      r.2.length = g.wordCeil (address + length) - g.wordFloor address := by
  rw [readWords_eq u pos page lower upper, Action.bind_apply] at h
  cases hread : driver .flash (Media.flashRead (g.wordFloor address)
      (g.wordCeil (address + length) - g.wordFloor address)) m with
  | error stop s =>
    rw [hread] at h
    cases h
  | ok words s =>
    rw [hread] at h
    cases h
    exact ⟨rfl, Media.length_of_flashRead (Action.ok_of_mapError hread)⟩

/-- Reading a piece, with numbers of any size. -/
theorem readPiece_eq (u : g.Uniform) (pos : 0 < length)
    (page : address + length ≤ g.pageFloor address + g.pageBytes)
    (lower : space.start ≤ address) (upper : address + length ≤ space.stop) :
    (readPiece address length : Action Error (Media g) Bytes) = (do
      let (start, words) ← readWords address length
      return words.slice (address - start) length) := by
  obtain ⟨hfloor, hceil, hfirst, hlast, hstart, hstop⟩ := words_inside u pos page lower upper
  have hlt := space.stop_lt
  refine Action.bind_congr_of_ok fun ⟨start, words⟩ m m' hread => ?_
  obtain ⟨rfl, hlen⟩ := words_of_readWords u pos page lower upper hread
  dsimp only at hlen ⊢
  rw [Action.difference_eq hfloor, pure_bind, Action.sum_eq (by omega), pure_bind,
    Action.part_eq (by omega) (by omega), Nat.add_sub_cancel_left]

/-- Renewing a page, with numbers of any size. -/
theorem renewPage_eq (pos : 0 < bytes.length)
    (page : address + bytes.length ≤ g.pageFloor address + g.pageBytes)
    (upper : address + bytes.length ≤ space.stop) :
    (renewPage address bytes : Action Error (Media g) Unit) = (do
      let start := g.pageFloor address
      let page ← driver .flash (Media.flashRead start g.pageBytes)
      driver .flash (resubmit (Media.flashErase start (start + g.pageBytes)))
      programWords start (page.overlay (address - start) bytes)) := by
  have hlt := space.stop_lt
  have hscratch := space.page_le_scratch
  have hfloor : g.pageFloor address ≤ address := unitFloor_le _ _
  have hstop : g.pageFloor address + g.pageBytes ≤ space.stop :=
    g.pageFloor_add_le space.stop_mod (by omega)
  unfold Geometry.pageFloor at *
  unfold renewPage
  rw [roundDown_eq (by omega), pure_bind, Action.difference_eq hfloor, pure_bind,
    Action.front_eq hscratch, pure_bind]
  refine Action.bind_congr_of_ok fun old m m' hread => ?_
  have hlen := Media.length_of_flashRead (Action.ok_of_mapError hread)
  rw [Action.sum_eq (by omega), pure_bind, Action.copy_eq (by omega), pure_bind,
    Action.sum_eq (by omega), pure_bind]

/-- Writing a piece, with numbers of any size. -/
theorem writePiece_eq (u : g.Uniform) (pos : 0 < bytes.length)
    (page : address + bytes.length ≤ g.pageFloor address + g.pageBytes)
    (lower : space.start ≤ address) (upper : address + bytes.length ≤ space.stop) :
    (writePiece address bytes : Action Error (Media g) Unit) = (do
      let (start, words) ← readWords address bytes.length
      let current := words.slice (address - start) bytes.length
      if current = bytes then
        return
      if current.clearsTo bytes then
        programWords start (words.overlay (address - start) bytes)
      else
        renewPage address bytes) := by
  obtain ⟨hfloor, hceil, hfirst, hlast, hstart, hstop⟩ := words_inside u pos page lower upper
  have hlt := space.stop_lt
  refine Action.bind_congr_of_ok fun ⟨start, words⟩ m m' hread => ?_
  obtain ⟨rfl, hlen⟩ := words_of_readWords u pos page lower upper hread
  dsimp only at hlen ⊢
  rw [Action.difference_eq hfloor, pure_bind, Action.sum_eq (by omega), pure_bind,
    Action.part_eq (by omega) (by omega), pure_bind, Nat.add_sub_cancel_left,
    Action.copy_eq (by omega), pure_bind]

end Page

/-- The chunks that are read back from the flash are not empty. -/
theorem wordFloor_chunkBytes_pos (space : Space g) : 0 < g.wordFloor chunkBytes := by
  have hword := space.word_le_limit
  have hpos := g.wordSize_pos
  exact Nat.mul_pos (Nat.div_pos (by unfold chunkBytes; omega) hpos) hpos

/-- Programming words, with numbers of any size. -/
theorem programWords_eq (space : Space g) (address : Nat) (words : Bytes) :
    (programWords address words : Action Error (Media g) Unit) = (do
      driver .flash (resubmit (Media.flashProgram address words))
      confirm (fun address length => driver .flash (Media.flashRead address length)) address
        (g.wordFloor chunkBytes) 0 (words.chunks (g.wordFloor chunkBytes))) := by
  unfold programWords
  rw [roundDown_eq (by decide), pure_bind, Action.ensure_of_pos space.wordFloor_chunkBytes_pos,
    pure_bind]

/-- Filling a chunk and those behind it, with numbers of any size. -/
theorem fillChunks_cons (space : Space g) {address length : Nat} (value : UInt8)
    (lengths : List Nat) (short : length ≤ chunkBytes) (range : address + length ≤ space.total) :
    (space.fillChunks address value (length :: lengths) : Action Error (Media g) Unit) = (do
      space.write address (List.replicate length value)
      space.fillChunks (address + length) value lengths) := by
  have htotal : space.total < 0x1_0000_0000 := space.total_lt
  have hchunk : Bytes.slice (List.replicate chunkBytes value) 0 (length - 0) =
      List.replicate length value := by
    rw [Bytes.slice, List.drop_zero, List.take_replicate, Nat.sub_zero, Nat.min_eq_left short]
  rw [fillChunks, Action.part_eq (Nat.zero_le _) (by rwa [List.length_replicate]), pure_bind,
    hchunk, Action.sum_eq (by omega), pure_bind]

end Space

end CircularLog
