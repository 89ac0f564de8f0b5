import CircularLog.Proofs.Partition.Harmless
import CircularLog.Proofs.Repeat

/-!
# What a page that stays erased takes with it

While an item is appended, a page of the flash may be erased and not programmed again, although
failing calls have no effect. A partition holds what it held if neither the row nor the payload of
an item lies in that page, but for its header, which nobody looks at until the partition is set up
again (`Holds.blot`). Rolling back and finding the fill state again go on as if the page were there,
or as they would without faults, so nothing else is lost (`append_marred`).
-/

namespace CircularLog

variable {g : Geometry} {space : Space g} {p : Partition} {m : Media g} {plan₀ : List Fault}
  {page : Option Nat} {around : Bytes × Bytes} {image image' : Bytes} {log : Log} {payload : Bytes}

/-- A number with no bit set has no byte with one. -/
theorem Bytes.eq_zero_of_toNat {bytes : Bytes} (h : bytes.toNat = 0) :
    ∀ byte ∈ bytes, byte = 0 := by
  induction bytes with
  | nil => exact nofun
  | cons byte bytes ih =>
    rw [Bytes.toNat] at h
    refine List.forall_mem_cons.mpr ⟨UInt8.toNat_inj.mp ?_, ih (by omega)⟩
    show byte.toNat = 0
    omega

/-- Of what is no row, nothing becomes one when some bytes of it are erased. -/
theorem Row.decode_of_ones {old new : Bytes} (h : decode old = none)
    (each : ∀ i : Nat, new[i]? = old[i]? ∨ new[i]? = some 0xFF) : decode new = none := by
  have hold : (old.slice 10 2).toNat ≠ 0 := by simpa [decode] using h
  refine if_neg fun hzero => hold ?_
  -- A marker of zeros has no erased byte, so it was there before.
  have hsame : new.slice 10 2 = old.slice 10 2 := by
    refine Bytes.slice_congr fun i hi => (each (10 + i)).resolve_right fun hones => ?_
    have hmem : (0xFF : UInt8) ∈ new.slice 10 2 := by
      refine List.mem_of_getElem? (i := i) ?_
      rw [Bytes.getElem?_slice, if_pos hi, hones]
    exact absurd (Bytes.eq_zero_of_toNat hzero _ hmem) (by decide)
  rw [← hsame, hzero]

namespace Partition

open Space (Halts Begun)

/-! ## What a partition occupies -/

/-- The address is one of the row of an item, or of its payload. -/
def Occupies (p : Partition) (image : Bytes) (address : Nat) : Prop :=
  ∃ row entry, row < p.maxItems ∧ p.rowAt image row = some entry ∧
    ((p.rowAddress row ≤ address ∧ address < p.rowAddress row + rowBytes) ∨
      ∃ i, i < entry.length.toNat ∧ address = p.cell entry.start.toNat i)

/-- The page, if any, has none of the bytes that the items of the partition occupy. -/
def Spared (space : Space g) (p : Partition) (image : Bytes) (page : Option Nat) : Prop :=
  ∀ first ∈ page, ∀ address, p.Occupies image address → ¬ space.InPage first address

/-- A byte of some strings that follow each other is one of some string. -/
theorem exists_getElem?_of_lt_flatten {items : List Bytes} {i : Nat}
    (h : i < items.flatten.length) :
    ∃ count item, items[count]? = some item ∧ (items.take count).flatten.length ≤ i ∧
      i < (items.take count).flatten.length + item.length := by
  induction items generalizing i with
  | nil => simp at h
  | cons item items ih =>
    by_cases hi : i < item.length
    · exact ⟨0, item, rfl, Nat.zero_le _, by simpa using hi⟩
    · rw [List.flatten_cons, List.length_append] at h
      obtain ⟨count, other, hitem, hle, hlt⟩ :=
        ih (by omega : i - item.length < items.flatten.length)
      refine ⟨count + 1, other, hitem, ?_, ?_⟩ <;>
        rw [List.take_succ_cons, List.flatten_cons, List.length_append] <;> omega

/-- The payloads are occupied. -/
theorem Holds.occupies_cell (h : p.Holds image log) {i : Nat} (hi : i < log.size) :
    p.Occupies image (p.cell log.start i) := by
  have hsize := h.size_le
  have hstart := h.start_lt
  obtain ⟨count, item, hitem, hle, hlt⟩ := exists_getElem?_of_lt_flatten hi
  obtain ⟨hcount, -⟩ := List.getElem?_eq_some_iff.mp hitem
  have hcount_le := h.count_le
  have hrow := h.rows count (by omega)
  rw [entryAt_of_getElem? hitem] at hrow
  refine ⟨_, _, p.rowBehind_lt _ _, hrow, .inr ⟨i - (log.items.take count).flatten.length, ?_, ?_⟩⟩
  · rw [h.length_entry hitem]
    omega
  · rw [start_entry (p.startOf_lt log count), startOf, cell_cell hstart (by omega),
      Nat.add_sub_cancel' hle]

/-- The items that are left when some of the oldest are taken out have the rows that they had. -/
theorem entryAt_popMany {count behind : Nat}
    (h : behind < (p.popMany count log).items.length) :
    p.rowBehind (p.popMany count log).row behind = p.rowBehind log.row (behind + count) ∧
      p.entryAt (p.popMany count log) behind = p.entryAt log (behind + count) := by
  induction count generalizing log with
  | zero => exact ⟨rfl, rfl⟩
  | succ count ih =>
    obtain ⟨hrow, hentry⟩ := ih h
    cases hitems : log.items with
    | nil => simp [items_popMany, hitems] at h
    | cons item items =>
      have hnext : (p.pop log).row = p.nextRow log.row := by rw [Partition.pop, hitems]
      rw [popMany, hrow, hentry, hnext, rowBehind_nextRow, entryAt_pop hitems]
      exact ⟨rfl, rfl⟩

/-- What the items occupy that are left when some of the oldest are taken out, was occupied. -/
theorem Holds.occupies_of_popMany {count : Nat} (h : p.Holds image log)
    (h' : p.Holds image' (p.popMany count log)) {address : Nat}
    (occupied : p.Occupies image' address) : p.Occupies image address := by
  obtain ⟨row, entry, hrow, hentry, hplace⟩ := occupied
  obtain ⟨behind, hbehind, rfl⟩ := exists_rowBehind h'.row_lt hrow
  have hsome := hentry
  rw [h'.rows behind hbehind] at hsome
  have hlt : behind < (p.popMany count log).items.length := by
    refine Nat.lt_of_not_le fun hle => ?_
    rw [entryAt, List.getElem?_eq_none hle] at hsome
    cases hsome
  obtain ⟨hrowed, hentried⟩ := entryAt_popMany hlt
  rw [items_popMany, List.length_drop] at hlt
  have hcount := h.count_le
  rw [hentried, ← h.rows _ (by omega), ← hrowed] at hsome
  exact ⟨_, entry, hrow, hsome, hplace⟩

/-! ## Without the header -/

/-- The image with the header of the partition in its place. -/
def titled (p : Partition) (image : Bytes) : Bytes := image.overlay p.base magic

/-- Behind the header nothing is different. -/
theorem getElem?_titled (fits : p.stop ≤ image.length) {i : Nat} (hi : p.table ≤ i) :
    (p.titled image)[i]? = image[i]? := by
  have hparts := p.parts
  have hmagic : magic.length = headerBytes := Bytes.length_ofNat _ _
  rw [titled, Bytes.getElem?_overlay_eq (by omega), if_neg (by omega)]

/-- The image stays as long as it is. -/
theorem length_titled (fits : p.stop ≤ image.length) : (p.titled image).length = image.length := by
  have hparts := p.parts
  have hmagic : magic.length = headerBytes := Bytes.length_ofNat _ _
  exact Bytes.length_overlay (by omega)

/-- Where the bytes of the partition are the same, they are the same with the header. -/
theorem Holds.titled_congr (h : p.Holds (p.titled image) log) (fits : p.stop ≤ image.length)
    (hlen : image'.length = image.length)
    (same : ∀ i, p.base ≤ i → i < p.stop → image'[i]? = image[i]?) :
    p.Holds (p.titled image') log := by
  have hparts := p.parts
  have hmagic : magic.length = headerBytes := Bytes.length_ofNat _ _
  refine h.congr (by rwa [length_titled fits]) (by rwa [length_titled (by omega), hlen])
    fun i hi hi' => ?_
  rw [titled, titled, Bytes.getElem?_overlay_eq (by omega), Bytes.getElem?_overlay_eq (by omega),
    same i hi hi']

/-- Behind the header it makes no difference whether the header is there. -/
theorem conduct_titled {sound : Bytes → Media g → Prop}
    (c : space.Conduct 0 space.total sound .never) (fits : p.stop ≤ space.total) :
    space.Conduct p.table p.stop (fun image m => ∃ image₀, sound image₀ m ∧ image = p.titled image₀)
      .never where
  inside := fits
  length := by
    rintro _ m ⟨image, hm, rfl⟩
    rw [length_titled (c.length hm ▸ fits), c.length hm]
  read := by
    rintro _ m ⟨image, hm, rfl⟩ address length lower upper
    have hfits : p.stop ≤ image.length := c.length hm ▸ fits
    refine (c.read hm (Nat.zero_le _) (by omega)).mono ?_ fun _ _ h => (Space.not_halts h).elim
    rintro _ m' ⟨h', rfl⟩
    refine ⟨⟨image, h', rfl⟩, Bytes.slice_congr fun i _ => ?_⟩
    exact (getElem?_titled hfits (by omega)).symm
  write := by
    rintro _ m ⟨image, hm, rfl⟩ address bytes lower upper
    have hparts := p.parts
    have hmagic : magic.length = headerBytes := Bytes.length_ofNat _ _
    have hfits : p.stop ≤ image.length := c.length hm ▸ fits
    refine (c.write hm (Nat.zero_le _) (by omega)).mono (fun _ m' h' => ⟨_, h', ?_⟩)
      fun _ _ h => (Space.not_halts h).elim
    -- What is written does not reach the header.
    refine List.ext_getElem? fun i => ?_
    have hlen := length_titled hfits
    have hlen' : (image.overlay address bytes).length = image.length :=
      Bytes.length_overlay (by omega)
    rw [Bytes.getElem?_overlay_eq (by omega), titled, titled, Bytes.getElem?_overlay_eq (by omega),
      Bytes.getElem?_overlay_eq (by omega), Bytes.getElem?_overlay_eq (by omega)]
    grind

/-! ## A page less -/

section Blot

variable (pages : ∀ first ∈ page, space.HasPage first) (hlen : image.length = space.total)
  (fits : p.stop ≤ space.total)
include pages hlen fits

omit hlen fits in
/-- The row of an item is in no page that spares it. -/
theorem rowCells_blot (spared : p.Spared space image page) {row : Nat} (hrow : row < p.maxItems)
    (some : p.rowAt image row ≠ none) {image' : Bytes} (hlen' : image'.length = space.total) :
    p.rowCells (space.blot page image') row = p.rowCells image' row := by
  obtain ⟨entry, hentry⟩ := Option.ne_none_iff_exists'.mp some
  refine Bytes.slice_congr fun i hi => Space.getElem?_blot pages hlen' fun first hfirst => ?_
  exact spared first hfirst _ ⟨row, entry, hrow, hentry, .inl ⟨by omega, by omega⟩⟩

/-- A page that spares the items takes none of them with it. -/
theorem Holds.blot (h : p.Holds image log) (spared : p.Spared space image page) :
    p.Holds (p.titled (space.blot page image)) log := by
  have hparts := p.parts
  have hblot := Space.length_blot pages hlen
  have hfits : p.stop ≤ (space.blot page image).length := by omega
  have hcells {row : Nat} (hrow : row < p.maxItems) :
      p.rowCells (p.titled (space.blot page image)) row =
        p.rowCells (space.blot page image) row := by
    have hmem := rowAddress_mem hrow
    exact Bytes.slice_congr fun i hi => getElem?_titled hfits (by omega)
  constructor
  case header =>
    have hmagic : magic.length = headerBytes := Bytes.length_ofNat _ _
    rw [titled, ← hmagic]
    exact Bytes.slice_overlay (by omega)
  case row_lt => exact h.row_lt
  case start_lt => exact h.start_lt
  case count_le => exact h.count_le
  case size_le => exact h.size_le
  case length_lt => exact h.length_lt
  case id_le => exact h.id_le
  case rows =>
    intro count hcount
    have hrow := p.rowBehind_lt log.row count
    rw [← h.rows count hcount, rowAt, hcells hrow]
    -- A row with an entry lies outside of the page; one without stays so when bits of it are set.
    by_cases hnone : p.rowAt image (p.rowBehind log.row count) = none
    · rw [hnone]
      refine Row.decode_of_ones hnone fun i => ?_
      rw [rowCells, rowCells, Bytes.getElem?_slice, Bytes.getElem?_slice]
      split
      · exact Space.getElem?_blot_or pages hlen _
      · exact .inl rfl
    · rw [rowCells_blot pages spared hrow hnone hlen, rowAt]
  case payloads =>
    have hlen' := length_titled hfits
    rw [← h.payloads]
    refine ring_congr (by omega) (by omega) h.start_lt fun i hi => ?_
    have hcell := cell_mem h.start_lt (Nat.lt_of_lt_of_le hi h.size_le)
    rw [getElem?_titled hfits (by omega)]
    exact Space.getElem?_blot pages hlen fun first hfirst =>
      spared first hfirst _ (h.occupies_cell hi)

/-- A row of an item that is half erased is so with the page erased, too, if the page spares it. -/
theorem HalfErased.blot (h : p.HalfErased space image image') (spared : p.Spared space image page)
    (hlen' : image'.length = space.total) :
    p.HalfErased space image (space.blot page image') := by
  obtain ⟨row, n, hrow, whole, hcells, hsome, hother⟩ := h
  -- The row was the row of an item, as erasing does not make one.
  have hbefore : p.rowAt image row ≠ none := by
    intro hnone
    refine hsome ?_
    rw [rowAt, hcells]
    refine Row.decode_of_ones hnone fun i => ?_
    have hcut : (Row.erased.take n).length ≤ 12 := by
      rw [List.length_take]
      exact Nat.min_le_right _ _
    have hrow' := length_rowCells hrow (hlen ▸ fits)
    rw [Bytes.getElem?_overlay_eq (by rw [hrow']; show 0 + _ ≤ 12; omega)]
    split
    · next hi =>
      right
      rw [List.getElem?_take, if_pos (by rw [List.length_take] at hi; omega), Nat.sub_zero]
      exact List.getElem?_replicate_of_lt (by omega)
    · exact .inl rfl
  have hsame := rowCells_blot pages spared hrow hbefore hlen'
  exact ⟨row, n, hrow, whole, by rw [hsame, hcells], by rwa [rowAt, hsame], by rwa [hsame]⟩

end Blot

/-! ## Appending -/

section Append

variable (u : g.Uniform) (t : space.Truthful) (fits : p.stop ≤ space.total)
include u t fits

/-- Erasing the row of a new item goes on as if the page were there. -/
theorem eraseRow_marred (hm : space.Marred p.table p.stop (.Marred plan₀) around page image m)
    {row : Nat} (hrow : row < p.maxItems) :
    (p.eraseRow space row).Ends m
      (fun _ => space.Marred p.table p.stop (.Marred plan₀) around page
        (image.overlay (p.rowAddress row) Row.erased))
      fun _ _ => True := by
  have hmem := rowAddress_mem hrow
  have hparts := p.parts
  have hrowBytes : rowBytes = 12 := rfl
  rw [eraseRow_eq hrow]
  exact hm.write_ones u t (by omega)

/-- An append that is interrupted takes some of the oldest items out, and may leave a page erased;
or a row is half erased. -/
theorem appendOnce_marred (hm : space.Exposes (.Marred plan₀ none) around image m)
    (holds : p.Holds image log) (settled : log.Settled) (storable : p.Storable payload)
    (ids : log.id + log.items.length < 0x1_0000_0000) :
    (p.appendOnce space payload).Ends (m, log.status) (fun _ _ => True)
      (fun e after => e = .inconsistent ∨ ∃ page image',
        space.Marred p.table p.stop (.Marred plan₀) around page image' after.1 ∧
        p.Confined image image' ∧
          ((∃ count, p.Holds image' (p.popMany count log)) ∨ p.HalfErased space image image')) := by
  have c : space.Conduct p.table p.stop _ _ :=
    Space.conduct_marring u t (Phase.outage_marred plan₀ none) around fits
  have hlen : p.stop ≤ image.length := c.length hm ▸ fits
  -- Whether the page is erased or not, the row is rolled back.
  have erases (image' : Bytes) (m' : Media g)
      (h : ∃ page, space.Marred p.table p.stop (.Marred plan₀) around page image' m') :
      (p.eraseRow space (p.freeRow log)).Ends m'
        (fun _ m' => ∃ page, space.Marred p.table p.stop (.Marred plan₀) around page
          (image'.overlay (p.rowAddress (p.freeRow log)) Row.erased) m')
        (Halts .any (Begun (.any : Space.Mishap g) image' (p.rowAddress (p.freeRow log))
          Row.erased)) := by
    obtain ⟨page, hmarred⟩ := h
    exact (eraseRow_marred u t fits hmarred (p.rowBehind_lt _ _)).mono
      (fun _ _ h => ⟨page, h⟩) fun _ _ _ => ⟨trivial, .inl trivial⟩
  have settles : (p.appendOnce space payload).Ends (m, log.status) _ _ :=
    appendOnce_settles c erases (fun _ h => h)
      (fun image' after => p.Smearing _ image log payload.length image' after.2)
      (prepare_ends c holds settled hm storable.2 storable.1) hlen storable ids
  refine settles.mono (fun _ _ _ => trivial) ?_
  rintro e after (⟨-, hnever | ⟨image', hleft, page, hmarred⟩⟩ | ⟨rfl, -⟩)
  · exact hnever.elim
  · refine .inr ⟨page, image', hmarred, ?_⟩
    rcases hleft with ⟨hconfined, _, ⟨count, rfl⟩, holds'⟩ | ⟨hsmeared, -⟩
    · exact ⟨hconfined, .inl ⟨count, holds'⟩⟩
    · have hhalf := hsmeared.halfErased hlen
      obtain ⟨-, -, -, -, -, -, -, hconfined, -⟩ := hsmeared
      exact ⟨hconfined, .inr hhalf⟩
  · exact .inl rfl

/-- A recovery that goes well, in spite of faults, changes nothing around the partition and keeps
what the partition holds. -/
theorem recover_marred (hm : space.Marred p.table p.stop (.Marred plan₀) around page image m)
    {status : Status} (hrow : status.oldestRow < p.maxItems) {after : Media g × Status}
    (recovers : p.recover space (m, status) = .ok () after) :
    (∀ first ∈ page, LeftErased plan₀ after.1.journal first) ∧
      ∃ image', space.Exposes .clear around image' (after.1.facing []) ∧
        p.Confined (space.blot page image) image' ∧
        ∀ log, p.Holds (p.titled (space.blot page image)) log →
          p.Holds (p.titled image') log ∧ after.2 = log.found.status := by
  have hclear : space.Exposes .clear around (space.blot page image) (m.facing []) :=
    hm.exposes.facing rfl
  have hlen : (space.blot page image).length = space.total := by
    rw [Space.length_blot hm.pages hm.length, hm.length]
  -- The memories are sound afterwards, and what the journal tells of the page is still there.
  have hkept := Partition.keeps_recover_inTable (Space.tends_marred u t plan₀ page fits)
    (m, status) ⟨⟨page, fun _ h => h, hm.exposes.under⟩, hrow⟩
  rw [Action.Yields, recovers] at hkept
  obtain ⟨⟨page', hpage, hunder⟩, -⟩ := hkept
  refine ⟨fun first hfirst => hunder.phase.erased first (hpage first hfirst), ?_⟩
  -- Without faults the recovery goes the same way.
  have hmirrors : space.Mirrors m (m.facing []) := by
    refine ⟨fun fault hfault => ?_, hclear.under, ?_, ?_⟩
    · exact (hm.exposes.under.phase.harmless fault hfault).honest
    · rw [hm.exposes.image, hclear.image]
    · rw [hm.exposes.around, hclear.around]
  obtain ⟨⟨m', _⟩, hrun, hmirrors', rfl⟩ := repeats_recover u t p (m, status) (m.facing [], status)
    ⟨hmirrors, rfl⟩ () after recovers
  have c := Space.conduct_of_clear u t around
  have k : space.Tends p.base p.stop fun m => ∃ image', space.Exposes .clear around image' m ∧
      p.Confined (space.blot page image) image' :=
    c.tends_good Space.Mishap.mild_never fits fun hlen hconfined hlower hupper =>
      hconfined.trans (confined_overlay (hlen ▸ fits) hlower hupper)
  have hconfined := Partition.keeps_recover_inTable k (m.facing [], status)
    ⟨⟨_, hclear, .refl p _⟩, hrow⟩
  rw [Action.Yields, hrun] at hconfined
  obtain ⟨⟨image', h', hconfined⟩, -⟩ := hconfined
  refine ⟨image', ⟨⟨⟨hunder.able.1, hunder.able.2, hunder.able.3⟩, rfl⟩, ?_, ?_⟩, hconfined, ?_⟩
  · exact hmirrors'.image.trans h'.image
  · exact hmirrors'.around.trans h'.around
  · intro log holds
    obtain ⟨⟨image₀, hm', hsame⟩, hstatus⟩ :=
      (p.recover_ends (conduct_titled c fits).toLegible holds ⟨_, hclear, rfl⟩ status).of_ok hrun
    obtain rfl := hm'.image.symm.trans h'.image
    exact ⟨hsame ▸ holds, hstatus⟩

/-- An append that is interrupted changes nothing around its partition, but that a page may stay
erased. If the partition is spared by it, it has its items without some of the oldest, unless a row
was half erased. -/
theorem append_marred (hm : space.Exposes (.Marred plan₀ none) around image m)
    (holds : p.Holds image log) (settled : log.Settled) (storable : p.Storable payload)
    (ids : log.id + log.items.length < 0x1_0000_0000) {e : Error}
    (interrupts : e.isInterruption = true)
    {after : Media g × Status}
    (fails : p.append space payload (m, log.status) = .error (.error e) after) :
    ∃ page failed image' image'', p.appendOnce space payload (m, log.status) =
        .error (.error e) failed ∧
      (∀ first ∈ page, space.HasPage first ∧ LeftErased plan₀ after.1.journal first) ∧
      p.Confined image image' ∧ p.Confined (space.blot page image') image'' ∧
      space.Exposes .clear around image'' (after.1.facing []) ∧
      (p.Spared space image page → p.HalfErased space image (space.image failed.1) ∨
        ∃ count, p.Holds (p.titled image'') (p.popMany count log).found ∧
          after.2 = (p.popMany count log).found.status) := by
  obtain ⟨failed, honce, hrecover⟩ := append_eq_error fails interrupts
  have hlen : image.length = space.total := by rw [← hm.image, space.length_image t]
  obtain rfl | ⟨page, image', hmarred, hconfined, hleft⟩ :=
    (appendOnce_marred u t fits hm holds settled storable ids).of_error honce
  · cases interrupts
  have hkept := Partition.keeps_appendOnce (Space.tends_marred u t plan₀ none fits) payload
    (m, log.status) ⟨⟨none, nofun, hm.under⟩, holds.row_lt⟩
  rw [Action.Yields, honce] at hkept
  obtain ⟨herased, image'', hclear, hconfined', hheld⟩ :=
    recover_marred u t fits hmarred hkept.2 hrecover
  refine ⟨page, failed, image', image'', honce,
    fun first hfirst => ⟨hmarred.pages first hfirst, herased first hfirst⟩, hconfined, hconfined',
    hclear, fun spared => ?_⟩
  rcases hleft with ⟨count, holds'⟩ | hhalf
  · right
    have spared' : p.Spared space image' page := fun first hfirst address hocc =>
      spared first hfirst address (holds.occupies_of_popMany holds' hocc)
    obtain ⟨holds'', hstatus⟩ :=
      hheld _ (holds'.blot hmarred.pages hmarred.length fits spared')
    exact ⟨count, holds''.found, hstatus⟩
  · left
    rw [hmarred.exposes.image]
    exact hhalf.blot hmarred.pages hlen fits spared hmarred.length

end Append

end Partition

end CircularLog
