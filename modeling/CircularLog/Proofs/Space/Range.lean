import CircularLog.Proofs.Space.Flat

/-!
# Requests behind the end

Which requests a space refuses for their range, whatever the memories do. Only the check in front
of a request reports an invalid range: no reading and no write behind it does (`avoids_readPieces`,
`avoids_writeEeprom`, `avoids_writePieces`), so the error means that nothing was begun. A filling is
checked even where nothing is to be filled, so a request of length zero is always served by `read`
and `write`, but not by `fill` (`refuses_iff_beyond`).
-/

namespace CircularLog

namespace Action

variable {ε ε' σ α β : Type} {e : ε}

/-- The action never ends with this error. -/
def Avoids (e : ε) (x : Action ε σ α) : Prop := ∀ s, x.told s ≠ some (.error e)

/-- A value is not an error. -/
theorem avoids_pure (a : α) : Avoids e (pure a : Action ε σ α) := nofun

/-- What is settled ends with no error. -/
theorem Settled.avoids {x : Action ε σ α} (hx : x.Settled) : Avoids e x := by
  cases hx with
  | pure a => exact avoids_pure a
  | abort d => exact nofun

/-- A failure with another error is not this one. -/
theorem avoids_fail {e' : ε} (h : e' ≠ e) : Avoids e (fail e' : Action ε σ α) := by
  rintro s ⟨⟩
  exact h rfl

/-- What each part avoids, the sequence avoids. -/
theorem Avoids.bind {x : Action ε σ β} {f : β → Action ε σ α} (hx : Avoids e x)
    (hf : ∀ b, Avoids e (f b)) : Avoids e (x >>= f) := by
  intro s
  have first := hx s
  simp only [told, bind_apply] at first ⊢
  cases h : x s with
  | ok b s' => exact hf b s'
  | error stop s' => simpa only [h] using first

/-- A choice never ends with an error that its actions never end with. -/
theorem Avoids.ite {x y : Action ε σ α} {p : Prop} [Decidable p] (hx : Avoids e x)
    (hy : Avoids e y) : Avoids e (if p then x else y) := by
  split
  · exact hx
  · exact hy

/-- An error that no error is restated as is avoided. -/
theorem avoids_mapError {f : ε' → ε} (h : ∀ e', f e' ≠ e) (x : Action ε' σ α) :
    Avoids e (x.mapError f) := by
  intro s
  unfold told mapError
  cases x s with
  | ok a s' => nofun
  | error stop s' =>
    cases stop with
    | error e' =>
      rintro ⟨⟩
      exact h e' rfl
    | defect d => nofun

end Action

variable {g : Geometry} {α : Type}

open CircularLog.Action (Avoids)

namespace Space

/-! ## Behind the check -/

section Reading

variable {e : Error}

/-- A driver call reports the failure of a device, and nothing else. -/
theorem avoids_driver (medium : Medium) (x : Action FailureKind (Media g) α)
    (foreign : ∀ medium kind, Error.device medium kind ≠ e) :
    Avoids e (driver medium x) :=
  Action.avoids_mapError (f := Error.device medium) (foreign medium) x

/-- Reading whole words ends with no error but those of the flash. -/
theorem avoids_readWords (address length : Nat)
    (foreign : ∀ medium kind, Error.device medium kind ≠ e) :
    Avoids e (readWords (g := g) address length) :=
  (settled_roundDown _ _).avoids.bind fun _ => (Action.settled_sum _ _ _).avoids.bind fun _ =>
    (settled_roundUp _ _).avoids.bind fun _ => (Action.settled_difference _ _).avoids.bind fun _ =>
      (Action.settled_front _ _).avoids.bind fun _ => (avoids_driver _ _ foreign).bind fun _ =>
        Action.avoids_pure _

/-- Reading a piece of a page ends with no error but those of the flash. -/
theorem avoids_readPiece (address length : Nat)
    (foreign : ∀ medium kind, Error.device medium kind ≠ e) :
    Avoids e (readPiece (g := g) address length) :=
  (avoids_readWords _ _ foreign).bind fun _ => (Action.settled_difference _ _).avoids.bind fun _ =>
    (Action.settled_sum _ _ _).avoids.bind fun _ => (Action.settled_part _ _ _).avoids

/-- Reading piece after piece ends with no error but those of the flash. -/
theorem avoids_readPieces (address : Nat) (lengths : List Nat)
    (foreign : ∀ medium kind, Error.device medium kind ≠ e) :
    Avoids e (readPieces (g := g) address lengths) := by
  induction lengths generalizing address with
  | nil => exact Action.avoids_pure _
  | cons length lengths ih =>
    exact (avoids_readPiece _ _ foreign).bind fun _ => (ih _).bind fun _ => Action.avoids_pure _

end Reading

/-- Reading back never finds a range invalid if the reading does not. -/
theorem avoids_confirm {read : Nat → Nat → Action Error (Media g) Bytes}
    (hread : ∀ address length, Avoids .invalidRange (read address length))
    (address size index : Nat) (chunks : List Bytes) :
    Avoids .invalidRange (confirm read address size index chunks) := by
  induction chunks generalizing index with
  | nil => exact Action.avoids_pure _
  | cons chunk chunks ih =>
    exact (Action.settled_product _ _ _).avoids.bind fun _ =>
      (Action.settled_sum _ _ _).avoids.bind fun _ =>
        (Action.settled_front _ _).avoids.bind fun _ =>
        (hread _ _).bind fun _ => .ite (ih _) (Action.avoids_fail nofun)

/-- Waiting for the eeprom never finds a range invalid. -/
theorem avoids_awaitIdle (polls : Nat) : Avoids .invalidRange (awaitIdle (g := g) polls) := by
  induction polls with
  | zero => exact Action.avoids_fail nofun
  | succ polls ih =>
    exact (avoids_driver _ _ (by nofun)).bind fun _ => .ite ih (Action.avoids_pure _)

/-- Writing to the eeprom never finds a range invalid. -/
theorem avoids_writeEeprom (address : Nat) (bytes : Bytes) :
    Avoids .invalidRange (writeEeprom (g := g) address bytes) :=
  (avoids_driver _ _ (by nofun)).bind fun _ => (avoids_awaitIdle _).bind fun _ =>
    avoids_confirm (fun _ _ => avoids_driver _ _ (by nofun)) _ _ _ _

/-- Programming words never finds a range invalid. -/
theorem avoids_programWords (address : Nat) (words : Bytes) :
    Avoids .invalidRange (programWords (g := g) address words) :=
  (avoids_driver _ _ (by nofun)).bind fun _ => (settled_roundDown _ _).avoids.bind fun _ =>
    (Action.settled_ensure _ _).avoids.bind fun _ =>
      avoids_confirm (fun _ _ => avoids_driver _ _ (by nofun)) _ _ _ _

/-- Erasing a page and programming it again never finds a range invalid. -/
theorem avoids_renewPage (address : Nat) (bytes : Bytes) :
    Avoids .invalidRange (renewPage (g := g) address bytes) :=
  (settled_roundDown _ _).avoids.bind fun _ => (Action.settled_difference _ _).avoids.bind fun _ =>
    (Action.settled_front _ _).avoids.bind fun _ => (avoids_driver _ _ (by nofun)).bind fun _ =>
      (Action.settled_sum _ _ _).avoids.bind fun _ => (Action.settled_copy _ _ _ _).avoids.bind
        fun _ => (Action.settled_sum _ _ _).avoids.bind fun _ =>
          (avoids_driver _ _ (by nofun)).bind fun _ => avoids_programWords _ _

/-- Writing a piece of a page never finds a range invalid. -/
theorem avoids_writePiece (address : Nat) (bytes : Bytes) :
    Avoids .invalidRange (writePiece (g := g) address bytes) :=
  (avoids_readWords _ _ (by nofun)).bind fun _ =>
    (Action.settled_difference _ _).avoids.bind fun _ =>
    (Action.settled_sum _ _ _).avoids.bind fun _ => (Action.settled_part _ _ _).avoids.bind fun _ =>
      .ite (Action.avoids_pure _)
        (.ite ((Action.settled_copy _ _ _ _).avoids.bind fun _ => avoids_programWords _ _)
          (avoids_renewPage _ _))

/-- Writing piece after piece never finds a range invalid. -/
theorem avoids_writePieces (address : Nat) (pieces : List Bytes) :
    Avoids .invalidRange (writePieces (g := g) address pieces) := by
  induction pieces generalizing address with
  | nil => exact Action.avoids_pure _
  | cons piece pieces ih => exact (avoids_writePiece _ _).bind fun _ => ih _

/-! ## The check -/

variable (space : Space g)

/-- A reading inside the range, or of nothing, is not refused. -/
theorem avoids_read {address length : Nat} (range : length ≠ 0 → address + length ≤ space.total) :
    Avoids .invalidRange (space.read address length) := by
  rw [read_eq]
  split
  case isTrue => exact Action.avoids_pure _
  case isFalse some =>
    rw [require_of_le (range some), pure_bind]
    exact .ite
      ((Action.avoids_pure _).bind fun _ =>
        (avoids_readPieces _ _ (by nofun)).bind fun _ => Action.avoids_pure _)
      ((avoids_driver _ _ (by nofun)).bind fun _ =>
        (avoids_readPieces _ _ (by nofun)).bind fun _ => Action.avoids_pure _)

/-- A write inside the range, or of nothing, is not refused. -/
theorem avoids_write {address : Nat} {bytes : Bytes}
    (range : bytes ≠ [] → address + bytes.length ≤ space.total) :
    Avoids .invalidRange (space.write address bytes) := by
  rw [write_eq]
  split
  case isTrue => exact Action.avoids_pure _
  case isFalse some =>
    rw [require_of_le (range some), pure_bind]
    exact .ite ((avoids_writeEeprom _ _).bind fun _ => avoids_writePieces _ _)
      (avoids_writePieces _ _)

/-- Chunks inside the range are not refused. -/
theorem avoids_fillChunks {address : Nat} {lengths : List Nat} (value : UInt8)
    (short : ∀ length ∈ lengths, length ≤ chunkBytes)
    (range : address + Bytes.total lengths ≤ space.total) :
    Avoids .invalidRange (space.fillChunks address value lengths) := by
  induction lengths generalizing address with
  | nil => exact Action.avoids_pure _
  | cons length lengths ih =>
    rw [Bytes.total_cons] at range
    rw [fillChunks_cons space value lengths (short _ List.mem_cons_self) (by omega)]
    refine (space.avoids_write fun _ => by rw [List.length_replicate]; omega).bind fun _ => ?_
    exact ih (fun _ h => short _ (List.mem_cons_of_mem _ h)) (by omega)

/-- A filling inside the range is not refused. -/
theorem avoids_fill {address length : Nat} (value : UInt8)
    (range : address + length ≤ space.total) :
    Avoids .invalidRange (space.fill address length value) := by
  rw [fill, require_of_le range, pure_bind]
  refine space.avoids_fillChunks _ (fun _ => Bytes.le_of_mem_pieces (by decide)) ?_
  rwa [Bytes.total_pieces]

/-! ## Requests -/

namespace Request

/-- Where a request starts. -/
def address : Request → Nat
  | read address _ => address
  | write address _ => address
  | fill address _ _ => address

/-- How many addresses a request is for. -/
def length : Request → Nat
  | read _ length => length
  | write _ bytes => bytes.length
  | fill _ length _ => length

/-- The range of the request is looked at: a reading of nothing and a write of nothing are served
before, a filling is checked first. -/
def Checked : Request → Prop
  | read _ length => length ≠ 0
  | write _ bytes => bytes ≠ []
  | fill _ _ _ => True

/-- The request is checked and ends behind so many addresses or behind every machine word. -/
def Beyond (request : Request) (total : Nat) : Prop :=
  request.Checked ∧
    (total < request.address + request.length ∨
      0xFFFF_FFFF < request.address + request.length)

end Request

/-- A request of a space ends behind every machine word only if it ends behind the space. -/
theorem beyond_iff (request : Request) :
    request.Beyond space.total ↔
      request.Checked ∧ space.total < request.address + request.length := by
  have := space.total_lt
  unfold Request.Beyond total at *
  exact and_congr_right fun _ => by omega

/-- A request beyond the space is refused at once. -/
theorem serve_of_beyond {request : Request} (h : request.Beyond space.total) (m : Media g) :
    space.serve request m = .error (.error .invalidRange) m := by
  obtain ⟨checked, range⟩ := (space.beyond_iff request).mp h
  have refused := require_of_lt range
  cases request with
  | read address length =>
    simp only [Request.Checked, Request.address, Request.length] at checked refused
    rw [serve, Space.read, if_neg checked, refused]
    rfl
  | write address bytes =>
    simp only [Request.Checked, Request.address, Request.length] at checked refused
    rw [serve, Space.write, if_neg checked, refused]
    rfl
  | fill address length value =>
    simp only [Request.address, Request.length] at refused
    rw [serve, fill, refused]
    rfl

/-- A request that is not beyond the space is not refused. -/
theorem avoids_serve {request : Request} (h : ¬ request.Beyond space.total) :
    Avoids .invalidRange (space.serve request) := by
  rw [beyond_iff, not_and, Nat.not_lt] at h
  cases request with
  | read address length => exact space.avoids_read h
  | write address bytes => exact (space.avoids_write h).bind fun _ => Action.avoids_pure _
  | fill address length value =>
    exact (space.avoids_fill value (h trivial)).bind fun _ => Action.avoids_pure _

/-- A request for nothing that is not beyond the space is served at once. -/
theorem serve_of_length_eq_zero {request : Request} (h : ¬ request.Beyond space.total)
    (hlen : request.length = 0) (m : Media g) : space.serve request m = .ok [] m := by
  rw [beyond_iff, not_and, Nat.not_lt] at h
  cases request with
  | read address length =>
    obtain rfl : length = 0 := hlen
    rfl
  | write address bytes =>
    obtain rfl : bytes = [] := List.length_eq_zero_iff.mp hlen
    rfl
  | fill address length value =>
    obtain rfl : length = 0 := hlen
    have range : address + 0 ≤ space.total := h trivial
    rw [serve, fill, require_of_le range]
    rfl

/-- A request is refused for its range exactly if it is beyond the space, and then no driver call is
made and nothing changes; a request for nothing that is not refused is served without a call. So
reading nothing and writing nothing succeed at every address, and filling nothing at the addresses
up to the end only. -/
theorem refuses_iff_beyond (m : Media g) (request : Request) :
    ((space.serve request).told m = some (.error .invalidRange) ↔ request.Beyond space.total) ∧
      (request.Beyond space.total → (space.serve request).leaves m = m) ∧
      (request.length = 0 → ¬ request.Beyond space.total → space.serve request m = .ok [] m) := by
  refine ⟨⟨fun told => ?_, fun beyond => ?_⟩, fun beyond => ?_, fun hlen inside => ?_⟩
  · exact Classical.byContradiction fun inside => space.avoids_serve inside m told
  · rw [Action.told, space.serve_of_beyond beyond]
  · rw [Action.leaves, space.serve_of_beyond beyond]
  · exact space.serve_of_length_eq_zero inside hlen m

/-- Behind the end of a space of eight bytes, nothing can be read and written but not filled. -/
theorem not_fills_nothing_behind_end :
    ¬ ∀ address, Space.tiny.serve (.fill address 0 0) (Media.fresh .tiny) =
      .ok [] (Media.fresh .tiny) := by
  intro serves
  have refused : Space.tiny.serve (.fill 9 0 0) (Media.fresh .tiny) =
      .error (.error .invalidRange) (Media.fresh .tiny) := rfl
  rw [serves 9] at refused
  nomatch refused

end Space

end CircularLog
