import CircularLog.Proofs.Partition.Locality

/-!
# Where a partition reads and writes

Whatever the table of a partition holds, sense or nonsense, the operations of the partition read
inside the range of the space and write inside the partition. So they keep every property of the
memories that such reads and writes keep (`Space.Tends`), however they end (`keeps_append`,
`keeps_recover_inTable`), and the row of the oldest item stays a row of the table. A run is two runs
from the same state, so this is what is known of two runs from memories that are alike, said of
memories that are the same.
-/

namespace CircularLog

variable {g : Geometry}

open CircularLog.Action (Keeps Twice)

namespace Space

/-- Reads inside the range keep the property, however they end. -/
structure Reads (space : Space g) (kept : Media g → Prop) : Prop where
  read : ∀ {m address length}, kept m → address + length ≤ space.total →
    (space.read address length).Yields m (fun bytes m' => kept m' ∧ bytes.length = length) kept

/-- Reads inside the range and writes between two addresses keep the property, however they end. -/
structure Tends (space : Space g) (lower upper : Nat) (kept : Media g → Prop) : Prop
    extends space.Reads kept where
  inside : upper ≤ space.total
  write : ∀ {address bytes}, lower ≤ address → address + bytes.length ≤ upper →
    Keeps kept (space.write address bytes)

/-- Where failures are mild, reads keep the image. -/
theorem Conduct.reads {space : Space g} {sound : Bytes → Media g → Prop} {mishap : Mishap g}
    (c : space.Conduct 0 space.total sound mishap) (mild : mishap.Mild sound) (image : Bytes) :
    space.Reads (sound image) where
  read := by
    intro m address length hm range
    have hlen := c.length hm
    refine ((c.read hm (Nat.zero_le _) range).yields ?_).mono ?_ fun _ h => h
    · intro e m' h
      obtain ⟨_, rfl, h'⟩ := mild.exists_sound h
      exact h'
    · rintro bytes m' ⟨h', rfl⟩
      exact ⟨h', Bytes.length_slice (by omega)⟩

/-- Where failures are mild, reads keep what is known of the image. -/
theorem Conduct.reads_good {space : Space g} {sound : Bytes → Media g → Prop} {mishap : Mishap g}
    (c : space.Conduct 0 space.total sound mishap) (mild : mishap.Mild sound)
    (good : Bytes → Prop) : space.Reads fun m => ∃ image, sound image m ∧ good image where
  read := by
    rintro m address length ⟨image, hm, hgood⟩ range
    refine ((c.reads mild image).read hm range).mono ?_ fun m' h' => ⟨image, h', hgood⟩
    exact fun bytes m' h' => ⟨⟨image, h'.1, hgood⟩, h'.2⟩

/-- Where failures are mild, it is kept to be sound with an image that is good, if this depends on
nothing that is written. -/
theorem Conduct.tends_good {space : Space g} {sound : Bytes → Media g → Prop} {mishap : Mishap g}
    (c : space.Conduct 0 space.total sound mishap) (mild : mishap.Mild sound) {lower upper : Nat}
    (inside : upper ≤ space.total) {good : Bytes → Prop}
    (closed : ∀ {image address bytes}, image.length = space.total → good image →
      lower ≤ address → address + bytes.length ≤ upper → good (image.overlay address bytes)) :
    space.Tends lower upper fun m => ∃ image, sound image m ∧ good image where
  toReads := c.reads_good mild good
  inside := inside
  write := by
    rintro address bytes hlower hupper m ⟨image, hm, hgood⟩
    have hlen := c.length hm
    refine (c.write hm (Nat.zero_le _) (by omega)).yields ?_ |>.mono
      (fun _ _ h => ⟨_, h, closed hlen hgood hlower hupper⟩) fun _ h => h
    intro e m' h
    obtain ⟨_, ⟨n, -, -, rfl⟩, h'⟩ := mild.exists_sound h
    exact ⟨_, h', closed hlen hgood hlower (by rw [List.length_take]; omega)⟩

/-- Where failures are mild, to be sound with some image is kept. -/
theorem Conduct.tends {space : Space g} {sound : Bytes → Media g → Prop} {mishap : Mishap g}
    (c : space.Conduct 0 space.total sound mishap) (mild : mishap.Mild sound) {lower upper : Nat}
    (inside : upper ≤ space.total) :
    space.Tends lower upper fun m => ∃ image, sound image m := by
  have h : space.Tends lower upper fun m => ∃ image, sound image m ∧ True :=
    c.tends_good mild inside fun _ _ _ _ => trivial
  simpa using h

/-- A property that reads keep holds of two memories that are the same and have it. -/
theorem Reads.twice {space : Space g} {kept : Media g → Prop} (r : space.Reads kept)
    {lower upper : Nat} (inside : upper ≤ space.total) :
    space.ReadsAlike lower upper (Twice kept) where
  read := by
    rintro m _ address length ⟨rfl, hm⟩ - range
    refine (r.read hm (Nat.le_trans range inside)).pairs.mono ?_ fun _ _ h => h
    rintro bytes n _ ⟨rfl, hn, hlen⟩
    exact ⟨⟨rfl, hn⟩, hlen⟩

/-- So does a property that writes keep, too. -/
theorem Tends.twice {space : Space g} {kept : Media g → Prop} {lower upper : Nat}
    (k : space.Tends lower upper kept) : space.ActsAlike lower upper (Twice kept) where
  toReadsAlike := k.toReads.twice k.inside
  inside := k.inside
  write := by
    rintro address bytes hlower hupper m _ ⟨rfl, hm⟩
    exact (k.write hlower hupper m hm).pairs

end Space

/-- An action that ends alike from a memory with the property, taken twice, keeps the property. -/
theorem keeps_of_twice {ε α : Type} {kept : Media g → Prop} {x : Action ε (Media g) α}
    (h : Action.Agrees (Twice kept) x) : Keeps kept x :=
  h.keeps (fun _ hm => ⟨rfl, hm⟩) fun _ hm => hm.2

namespace Partition

variable {space : Space g} {p : Partition} {kept : Media g → Prop}

/-- The memories have the property, and the row of the oldest item is a row of the table. -/
def InTable (p : Partition) (kept : Media g → Prop) (after : Media g × Status) : Prop :=
  kept after.1 ∧ after.2.oldestRow < p.maxItems

/-- What is known of one run is known of both. -/
theorem InTable.twice {s : Media g × Status} (h : p.InTable kept s) :
    p.AlikeInTable (Twice kept) s s := ⟨⟨rfl, h.1⟩, rfl, h.2⟩

/-- What is known of both runs is known of one. -/
theorem AlikeInTable.inTable {s s' : Media g × Status} (h : p.AlikeInTable (Twice kept) s s') :
    p.InTable kept s := ⟨h.1.2, h.2.2⟩

/-- So does one that also ends alike with the fill state that it holds. -/
theorem keeps_inTable_of_twice {α : Type} {x : Action Error (Media g × Status) α}
    (h : Action.Agrees (p.AlikeInTable (Twice kept)) x) : Keeps (p.InTable kept) x :=
  h.keeps (fun _ hs => hs.twice) fun _ hs => hs.inTable

section Reading

variable (r : space.Reads kept) (fits : p.stop ≤ space.total)
include r fits

/-- Asking for the oldest key keeps the property. -/
theorem keeps_oldestKey {held : Status} (hheld : held.oldestRow < p.maxItems) :
    Keeps kept (p.oldestKey space held) := keeps_of_twice (agrees_oldestKey (r.twice fits) hheld)

/-- Asking for the next key keeps it, whatever the key. -/
theorem keeps_successor {held : Status} (hheld : held.oldestRow < p.maxItems) (key : Key) :
    Keeps kept (p.successor space held key) :=
  keeps_of_twice (agrees_successor (r.twice fits) hheld key)

/-- Asking for a length keeps it. -/
theorem keeps_itemLength (key : Key) : Keeps kept (p.itemLength space key) :=
  keeps_of_twice (agrees_itemLength (r.twice fits) key)

/-- Fetching an item keeps it, whatever the row says of its payload. -/
theorem keeps_fetch (key : Key) (capacity : Nat) : Keeps kept (p.fetch space key capacity) :=
  keeps_of_twice (agrees_fetch (r.twice fits) key capacity)

/-- Searching keeps it, whatever the test says. -/
theorem keeps_find {π : Type} {held : Status} (hheld : held.oldestRow < p.maxItems)
    (capacity : Nat) (test : Bytes → StateM π Bool) :
    Keeps (fun after : Media g × π => kept after.1) (p.find space held capacity test) :=
  (agrees_find (r.twice fits) hheld capacity test).keeps (fun _ hm => ⟨⟨rfl, hm⟩, rfl⟩)
    fun _ hm => hm.1.2

/-- Reporting the rows keeps it. -/
theorem keeps_report (held : Status) : Keeps kept (p.report space held) :=
  keeps_of_twice (agrees_report (r.twice fits) held)

end Reading

variable (k : space.Tends p.base p.stop kept)
include k

/-- Setting the partition up reads and writes where it should. -/
theorem keeps_ensureFormatted : Keeps kept (p.ensureFormatted space) :=
  keeps_of_twice (agrees_ensureFormatted k.twice)

/-- Recovery reads and writes where it should, and finds a row of the table. -/
theorem keeps_recover_inTable : Keeps (p.InTable kept) (p.recover space) :=
  keeps_inTable_of_twice (agrees_recover k.twice)

/-- Making room keeps what it should, and the place that was found is one of the partition. -/
theorem prepare_yields {s : Media g × Status} (hs : p.InTable kept s) (length : Nat) :
    (p.prepare space length).Yields s
      (fun place after => p.InTable kept after ∧ place.1 < p.maxItems ∧
        place.2.2 < p.areaLength) (p.InTable kept) :=
  (prepare_pairs k.twice hs.twice length).yields.mono (fun _ _ h => ⟨h.1.inTable, h.2⟩)
    fun _ h => h.inTable

/-- An append without the recovery behind it reads and writes where it should. -/
theorem keeps_appendOnce (payload : Bytes) :
    Keeps (p.InTable kept) (p.appendOnce space payload) :=
  keeps_inTable_of_twice (agrees_appendOnce k.twice payload)

/-- Appending reads and writes where it should, whatever the table holds. -/
theorem keeps_append (payload : Bytes) : Keeps (p.InTable kept) (p.append space payload) :=
  keeps_inTable_of_twice (agrees_append k.twice payload)

end Partition

end CircularLog
