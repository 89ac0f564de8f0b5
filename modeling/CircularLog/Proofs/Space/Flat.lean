import CircularLog.Proofs.Space.Conduct

/-!
# The space as a flat array

Without faults a space is one array of bytes, whatever the geometry: `Request.onArray` says what
reading, writing and filling are on an array, and `serveAll_eq` that the space serves every list of
requests inside its range as the image, taken as an array, would.
-/

namespace CircularLog

namespace Space

/-- What the users of a space ask of it. -/
inductive Request where
  | read (address length : Nat)
  | write (address : Nat) (bytes : Bytes)
  | fill (address length : Nat) (value : UInt8)

namespace Request

/-- The request lies inside so many addresses. -/
def Inside (total : Nat) : Request → Prop
  | read address length => address + length ≤ total
  | write address bytes => address + bytes.length ≤ total
  | fill address length _ => address + length ≤ total

/-- The answer to a request of an array, and the array afterwards. -/
def onArray (array : Bytes) : Request → Bytes × Bytes
  | read address length => (array.slice address length, array)
  | write address bytes => ([], array.overlay address bytes)
  | fill address length value => ([], array.overlay address (List.replicate length value))

/-- The answers to requests of an array, one after the other, and the array afterwards. -/
def allOnArray (array : Bytes) : List Request → List Bytes × Bytes
  | [] => ([], array)
  | request :: requests =>
    let (answer, array) := request.onArray array
    let (answers, array) := allOnArray array requests
    (answer :: answers, array)

end Request

variable {g : Geometry} {space : Space g} {m : Media g}

/-- Serve a request; only reading has an answer to give. -/
def serve (space : Space g) : Request → Action Error (Media g) Bytes
  | .read address length => space.read address length
  | .write address bytes => do
    space.write address bytes
    return []
  | .fill address length value => do
    space.fill address length value
    return []

/-- Serve requests, one after the other. -/
def serveAll (space : Space g) : List Request → Action Error (Media g) (List Bytes)
  | [] => return []
  | request :: requests => do
    let answer ← space.serve request
    return answer :: (← space.serveAll requests)

/-- Where nothing gets stuck, one request is served as by the image. -/
theorem serve_ends {sound : Bytes → Media g → Prop} {image : Bytes}
    (c : space.Conduct 0 space.total sound .never) (hm : sound image m)
    {request : Request} (inside : request.Inside space.total) :
    (space.serve request).Ends m
      (fun answer m' => answer = (request.onArray image).1 ∧ sound (request.onArray image).2 m')
      (fun _ _ => False) := by
  cases request with
  | read address length =>
    exact (c.read hm (Nat.zero_le _) inside).mono (fun _ _ h => ⟨h.2, h.1⟩) fun _ _ => not_halts
  | write address bytes =>
    simp only [serve, Action.ends_bind, Action.ends_pure]
    exact (c.write hm (Nat.zero_le _) inside).mono (fun _ _ h => ⟨rfl, h⟩) fun _ _ => not_halts
  | fill address length value =>
    simp only [serve, Action.ends_bind, Action.ends_pure]
    exact (c.fill hm (Nat.zero_le _) inside).mono (fun _ _ h => ⟨rfl, h⟩) fun _ _ => not_halts

/-- Where nothing gets stuck, requests are served as by the image. -/
theorem serveAll_ends {sound : Bytes → Media g → Prop} {image : Bytes}
    (c : space.Conduct 0 space.total sound .never) (hm : sound image m)
    {requests : List Request} (inside : ∀ request ∈ requests, request.Inside space.total) :
    (space.serveAll requests).Ends m
      (fun answers m' => answers = (Request.allOnArray image requests).1 ∧
        sound (Request.allOnArray image requests).2 m')
      (fun _ _ => False) := by
  induction requests generalizing m image with
  | nil => exact ⟨rfl, hm⟩
  | cons request requests ih =>
    simp only [serveAll, Action.ends_bind, Action.ends_pure]
    refine (serve_ends c hm (inside request (by simp))).mono ?_ fun _ _ h => h
    rintro answer m₁ ⟨rfl, h₁⟩
    refine (ih h₁ fun request h => inside request (by simp [h])).mono ?_ fun _ _ h => h
    rintro answers m₂ ⟨rfl, h₂⟩
    exact ⟨rfl, h₂⟩

/-- Without faults a space serves any requests inside its range, one after the other, as its image
would if it were an array, and the cells of the flash around the range never change. -/
theorem serveAll_eq {start stop : UInt32}
    (made : Space.create g g.eepromBytes g.flashBytes start stop = .ok space) (u : g.Uniform)
    (faultless : m.Under .clear) {requests : List Request}
    (inside : ∀ request ∈ requests, request.Inside space.total) :
    ∃ m', space.serveAll requests m = .ok (Request.allOnArray (space.image m) requests).1 m' ∧
      space.image m' = (Request.allOnArray (space.image m) requests).2 ∧
      space.around m' = space.around m := by
  have t := truthful_of_create made
  have ends := serveAll_ends (conduct_of_clear u t (space.around m)) ⟨faultless, rfl, rfl⟩ inside
  obtain ⟨answers, m', hrun, rfl, h⟩ := ends.exists_ok fun _ _ => id
  exact ⟨m', hrun, h.image, h.around⟩

/-- A write over both memories and a reading of it. -/
theorem serveAll_eq_tiny :
    ∃ m', Space.tiny.serveAll [.write 3 [1, 2, 3], .read 2 3] (Media.fresh .tiny) =
        .ok [[], [0xFF, 1, 2]] m' ∧
      Space.tiny.image m' = [0xFF, 0xFF, 0xFF, 1, 2, 3, 0xFF, 0xFF] := by
  have made : Space.create .tiny 4 8 4 8 = .ok Space.tiny := rfl
  have faultless : (Media.fresh .tiny).Under .clear := ⟨⟨rfl, rfl, by decide⟩, rfl⟩
  have inside : ∀ request ∈ [Request.write 3 [1, 2, 3], .read 2 3],
      request.Inside Space.tiny.total := by
    simp [Request.Inside, total, tiny]
  obtain ⟨m', hrun, himage, -⟩ := serveAll_eq made Geometry.uniform_tiny faultless inside
  exact ⟨m', hrun, himage⟩

end Space

end CircularLog
