import CircularLog.Proofs.Store.Locality
import CircularLog.Proofs.Store.Unfailing

/-!
# Partitions are independent

After any run without faults an append changes no byte of the space but those of the rows whose
items it evicts, of the row that it writes and of the new payload, and of what the store knows it
changes the fill state of its partition (`Exchanged`, `Charted.exchanges`). More is true of two
partitions: whatever is done with either of them, the order has no part in what is answered, and in
what is left (`Interchange`, `independent_of_operateAll`).

For that each action is run twice, from the store as it is and from the one that the other action
leaves. Both stores know the same of the partition and have the same bytes of it, so the runs end
alike (`Shaped.pairs`), and what they leave is put together from what each of them changes. The
latch could tell the orders from each other, as it shuts out whatever comes second, but without
faults nothing sets it (`Steady.unfaulted`).
-/

namespace CircularLog

variable {g : Geometry} {space : Space g} {parts : List Partition} {p q : Partition}
  {sound sound' : Bytes → Media g → Prop} {m : Media g} {around : Bytes × Bytes}
  {slots base : Nat} {layouts : List Layout} {α β : Type}

open CircularLog.Action (Agrees Pairs)

/-! ## Two memories -/

namespace Space

/-- The memories are sound with images that have the same bytes between two addresses. -/
def Abreast (sound sound' : Bytes → Media g → Prop) (lower upper : Nat) (m m' : Media g) : Prop :=
  ∃ image image', sound image m ∧ sound' image' m' ∧
    ∀ i, lower ≤ i → i < upper → image'[i]? = image[i]?

/-- Where nothing fails, reads and writes of the same bytes end alike. -/
theorem Conduct.actsAlike {lower upper : Nat} (c : space.Conduct lower upper sound .never)
    (c' : space.Conduct lower upper sound' .never) :
    space.ActsAlike lower upper (Abreast sound sound' lower upper) where
  inside := c.inside
  read := by
    rintro m m' address length ⟨image, image', hm, hm', same⟩ hlower range
    have hlen := c.length hm
    have inside := c.inside
    obtain ⟨_, n, hrun, hn, rfl⟩ := (c.read hm hlower range).exists_ok fun _ _ => not_halts
    obtain ⟨_, n', hrun', hn', rfl⟩ := (c'.read hm' hlower range).exists_ok fun _ _ => not_halts
    simp only [Pairs, hrun, hrun']
    exact ⟨(Bytes.slice_congr fun i hi => same _ (by omega) (by omega)).symm,
      ⟨image, image', hn, hn', same⟩, Bytes.length_slice (by omega)⟩
  write := by
    rintro address bytes hlower range m m' ⟨image, image', hm, hm', same⟩
    have hlen := c.length hm
    have hlen' := c'.length hm'
    have inside := c.inside
    obtain ⟨_, n, hrun, hn⟩ := (c.write hm hlower range).exists_ok fun _ _ => not_halts
    obtain ⟨_, n', hrun', hn'⟩ := (c'.write hm' hlower range).exists_ok fun _ _ => not_halts
    unfold Pairs
    rw [hrun, hrun']
    refine ⟨rfl, _, _, hn, hn', fun i hi hi' => ?_⟩
    rw [Bytes.getElem?_overlay_eq (by omega), Bytes.getElem?_overlay_eq (by omega), same i hi hi']

/-- The memories are without faults, and have this around the range of the space. -/
def Faultless (space : Space g) (around : Bytes × Bytes) (m : Media g) : Prop :=
  space.Exposes .clear around (space.image m) m

/-- Memories without faults show the image that they have. -/
theorem Exposes.faultless {image : Bytes} (h : space.Exposes .clear around image m) :
    space.Faultless around m := ⟨h.under, rfl, h.around⟩

end Space

namespace Store

variable {store store' : Store g} {x : Action Error (Store g) α} {y : Action Error (Store g) β}

/-- The memories are sound with an image that is as before outside of the partition. -/
def Sparing (p : Partition) (sound : Bytes → Media g → Prop) (before image : Bytes) (m : Media g) :
    Prop :=
  sound image m ∧ ∀ i, i < p.base ∨ p.stop ≤ i → image[i]? = before[i]?

section Runs

variable (u : g.Uniform) (t : space.Truthful) (laid : Laid space parts)
  (h : store.Shaped space parts (space.Faultless around)) (hp : p ∈ parts) (hx : Concerns p.id x)
include u t laid h hp hx

/-- In stores that know the same of a partition, and whose memories have the same bytes of it,
whatever is done with the partition ends alike, and changes nothing else. -/
theorem Shaped.pairs (h' : store'.Shaped space parts (space.Faultless around))
    (known : Volume.lookup p.id store'.volumes = Volume.lookup p.id store.volumes)
    (faulted : store.faulted = store'.faulted)
    (bytes : ∀ i, p.base ≤ i → i < p.stop →
      (space.image store'.media)[i]? = (space.image store.media)[i]?) :
    x.answer store = x.answer store' ∧
      Facing space p (Space.Abreast
        (Sparing p (space.Exposes .clear around) (space.image store.media))
        (Sparing p (space.Exposes .clear around) (space.image store'.media)) p.base p.stop)
        store.volumes store'.volumes (x.leaves store) (x.leaves store') := by
  have c : space.Conduct p.base p.stop (space.Exposes .clear around) .never :=
    (Space.conduct_of_clear u t around).within (Nat.zero_le _) (laid.inside p hp)
  obtain ⟨volume, hlookup⟩ := h.exists_lookup hp
  have hlookup' := known.trans hlookup
  obtain ⟨rfl, hrow⟩ := h.of_lookup laid hp hlookup
  -- Each store faces the other, as putting back the fill state that is found changes nothing.
  have facing : Facing space volume.partition (Space.Abreast
      (Sparing volume.partition (space.Exposes .clear around) (space.image store.media))
      (Sparing volume.partition (space.Exposes .clear around) (space.image store'.media))
      volume.partition.base volume.partition.stop) store.volumes store'.volumes store store' :=
    ⟨h.space, h'.space, ⟨volume.status, hrow,
      (Volume.update_of_lookup (h.distinct laid) hlookup).symm,
      (Volume.update_of_lookup (h'.distinct laid) hlookup').symm⟩, faulted,
      _, _, ⟨h.media, fun _ _ => rfl⟩, ⟨h'.media, fun _ _ => rfl⟩, bytes⟩
  have hrun := agrees_of_concerns ⟨_, hlookup⟩ ⟨_, hlookup'⟩ hx
    ((c.since (space.image store.media)).actsAlike (c.since (space.image store'.media)))
    store store' facing
  exact ⟨hrun.answer_eq, hrun.leaves⟩

/-- Whatever is done with a partition, the store stays shaped, and nothing of the others changes. -/
theorem Shaped.leaves :
    (x.leaves store).Shaped space parts (space.Faultless around) ∧
      Updates p store (x.leaves store) ∧ ∀ i, i < p.base ∨ p.stop ≤ i →
        (space.image (x.leaves store).media)[i]? = (space.image store.media)[i]? := by
  -- One run is two runs from the same store.
  obtain ⟨-, hspace, -, ⟨status, hrow, hvolumes, -⟩, -, _, _, ⟨hm, outside⟩, -, -⟩ :=
    h.pairs u t laid hp hx h rfl rfl fun _ _ _ => rfl
  obtain rfl := hm.image
  have shaped := h.update laid hp hm.faultless hrow (x.leaves store).faulted
  rw [h.space, ← hspace, ← hvolumes] at shaped
  exact ⟨hspace ▸ shaped, fun id hid => hvolumes ▸ lookup_update hid status _, outside⟩

end Runs

/-- In either order the two actions end alike, and leave the same fill states and the same bytes. -/
structure Interchange (space : Space g) (x : Action Error (Store g) α)
    (y : Action Error (Store g) β) (store : Store g) : Prop where
  first : x.answer (y.leaves store) = x.answer store
  second : y.answer (x.leaves store) = y.answer store
  volumes : (y.leaves (x.leaves store)).volumes = (x.leaves (y.leaves store)).volumes
  faulted : (y.leaves (x.leaves store)).faulted = (x.leaves (y.leaves store)).faulted
  image : space.image (y.leaves (x.leaves store)).media =
    space.image (x.leaves (y.leaves store)).media
  around : space.around (y.leaves (x.leaves store)).media =
    space.around (x.leaves (y.leaves store)).media

/-- What is done with two partitions can be interchanged as long as neither of both sets the
latch. -/
theorem Shaped.interchange (u : g.Uniform) (t : space.Truthful) (laid : Laid space parts)
    (h : store.Shaped space parts (space.Faultless around)) (hp : p ∈ parts) (hq : q ∈ parts)
    (hne : p ≠ q) (hx : Concerns p.id x) (hy : Concerns q.id y)
    (unfaulted : store.faulted = false) (hopen : (x.leaves store).faulted = false)
    (hopen' : (y.leaves store).faulted = false) : Interchange space x y store := by
  have apart := laid.apart_of_ne hp hq hne
  have hbytes := apart.bytes
  obtain ⟨hs, hknown, hsame⟩ := h.leaves u t laid hp hx
  obtain ⟨hs', hknown', hsame'⟩ := h.leaves u t laid hq hy
  -- Each action meets the same partition whether the other one has run or not.
  obtain ⟨hanswer, -, -, ⟨_, -, hv, hv'⟩, hf, _, _, ⟨hm, -⟩, ⟨hm', hout⟩, hin⟩ :=
    h.pairs u t laid hp hx hs' (hknown' _ apart.ids) (unfaulted.trans hopen'.symm)
      fun i hi hi' => hsame' i (by omega)
  obtain ⟨hanswer', -, -, ⟨_, -, hw, hw'⟩, hf', _, _, ⟨hn, -⟩, ⟨hn', hout'⟩, hin'⟩ :=
    h.pairs u t laid hq hy hs (hknown _ apart.ids.symm) (unfaulted.trans hopen.symm)
      fun i hi hi' => hsame i (by omega)
  obtain rfl := hm.image
  obtain rfl := hm'.image
  obtain rfl := hn.image
  obtain rfl := hn'.image
  refine ⟨hanswer.symm, hanswer'.symm, ?_, ?_, ?_, hn'.around.trans hm'.around.symm⟩
  · rw [hw', hv', hv, hw, Volume.update_comm apart.ids.symm]
  · -- As the second one an action leaves the latch as it does as the first one.
    rw [← hf, ← hf', hopen, hopen']
  · -- A byte belongs to one of the partitions or to none of them.
    refine List.ext_getElem? fun i => ?_
    by_cases hp : p.base ≤ i ∧ i < p.stop
    · rw [hout' i (by omega), hin i hp.1 hp.2]
    · by_cases hq : q.base ≤ i ∧ i < q.stop
      · rw [hin' i hq.1 hq.2, hout i (by omega)]
      · rw [hout' i (by omega), hout i (by omega), hsame i (by omega), hsame' i (by omega)]

/-- Where the latch is open, a store with chains is steady. -/
theorem Charted.steady {runs : UInt8 → Run} (h : store.Charted sound space parts runs)
    (unfaulted : store.faulted = false) : store.Steady sound space parts runs :=
  ⟨h.space, h.volumes, unfaulted, h.charts.imp fun _ hm => ⟨hm.1, fun p hp => (hm.2 p hp).tabled⟩⟩

section Steps

variable {runs : UInt8 → Run} (c : space.Conduct 0 space.total sound .never)
  (planned : space.plan slots base layouts = .ok parts)
include c planned

/-- What is done with a partition of a steady store leaves the latch open. -/
theorem Steady.unfaulted (h : store.Steady sound space parts runs) {id : UInt8}
    (hx : Concerns id x) : (x.leaves store).faulted = false := by
  have laid := laid_of_plan planned
  obtain ⟨image, hopen, backed, -⟩ := h.exists_open laid
  -- What leaves a store without trouble leaves the latch open.
  have opened {α : Type} {x : Action Error (Store g) α}
      (hx : Untroubled sound space store.volumes image x store) :
      x.Yields store (fun _ after => after.faulted = false) fun after => after.faulted = false :=
    (hx.yields fun _ _ h => h.1).mono (fun _ _ h => h.faulted) fun _ h => h.faulted
  cases hx with
  | append payload =>
    exact (((h.append_ends c planned id payload).yields fun _ _ h => h.2.faulted).mono
      (fun _ _ h => h.elim fun _ h => h.faulted) fun _ h => h).leaves
  | oldestKey => exact (opened (untroubled_oldestKey c backed hopen id)).leaves
  | successor key => exact (opened (untroubled_successor c backed hopen key)).leaves
  | advance key =>
    have moved : advance.Yields (store, key) (fun _ after => after.1.faulted = false)
        fun after => after.1.faulted = false := by
      simp only [advance, Action.yields_bind, Action.yields_get, Action.yields_beside,
        Action.yields_modify]
      exact opened (untroubled_successor c backed hopen key)
    rw [Action.leaves_lending]
    exact moved.leaves
  | itemLength key => exact (opened (untroubled_itemLength c backed hopen key)).leaves
  | fetch key capacity => exact (opened (untroubled_fetch c backed hopen key capacity)).leaves
  | load key buffer =>
    have loaded : (load key).Yields (store, buffer) (fun _ after => after.1.faulted = false)
        fun after => after.1.faulted = false := by
      simp only [load, Action.yields_bind, Action.yields_get, Action.yields_beside,
        Action.yields_modify, Action.yields_pure]
      exact opened (untroubled_fetch c backed hopen key buffer.length)
    rw [Action.leaves_lending]
    exact loaded.leaves
  | find capacity test held =>
    have found : (find id capacity test).Yields (store, held)
        (fun _ after => after.1.faulted = false)
        fun after => after.1.faulted = false :=
      ((find_untroubled c backed hopen id capacity test held).yields fun _ _ h => h.1).mono
        (fun _ _ h => h.faulted) fun _ h => h.faulted
    rw [Action.leaves_lending]
    exact found.leaves
  | report => exact (opened (untroubled_report c backed hopen id)).leaves
  | status => rw [leaves_asks, h.faulted]
  | partition => rw [leaves_asks, h.faulted]

end Steps

/-! ## One append -/

/-- In a store whose partition had these rows in order, the partition has lost the oldest of them,
so many, and has got another one under this key, and nothing else has changed. -/
structure Exchanged (space : Space g) (parts : List Partition) (p : Partition) (status : Status)
    (entries : List Row) (payload : Bytes) (key : Key) (store after : Store g) (count : Nat)
    (newest : Row) : Prop where
  count_le : count ≤ entries.length
  key_eq : key = ⟨p.id, p.rowBehind status.oldestRow status.stored, newest.id⟩
  length_eq : newest.length.toNat = payload.length
  ordered : ∃ status', after.volumes = Volume.update p.id status' store.volumes ∧
    after.status p.id = .ok status' ∧
    p.Ordered (space.image after.media) status' (entries.drop count ++ [newest])
  statuses : ∀ id, id ≠ p.id → after.status id = store.status id
  faulted : after.faulted = store.faulted
  replaces : p.Replaces (space.image store.media) status.oldestRow count key.row newest
    (space.image after.media)
  header : (space.image after.media).slice p.base headerBytes =
    (space.image store.media).slice p.base headerBytes
  others : ∀ q ∈ parts, q ≠ p → ∀ i, q.base ≤ i → i < q.stop →
    (space.image after.media)[i]? = (space.image store.media)[i]?
  elsewhere : ∀ i, (∀ q ∈ parts, i < q.base ∨ q.stop ≤ i) →
    (space.image after.media)[i]? = (space.image store.media)[i]?
  survivors : ∀ entry ∈ entries.drop count,
    p.ring (space.image after.media) entry.start.toNat entry.length.toNat =
      p.ring (space.image store.media) entry.start.toNat entry.length.toNat
  around : space.around after.media = space.around store.media

/-- An append to a store with chains exchanges some of the oldest items for the new one, or the
payload is too long, and it does nothing. -/
theorem Charted.exchanges {runs : UInt8 → Run} (u : g.Uniform) (t : space.Truthful)
    (laid : Laid space parts) (h : store.Charted (space.Exposes .clear around) space parts runs)
    (unfaulted : store.faulted = false) (hp : p ∈ parts) (payload : Bytes) :
    (append p.id payload).Ends store
      (fun key after => ∃ count newest,
        Exchanged space parts p (runs p.id).status (runs p.id).entries
        payload key store after count newest)
      (fun e after => e = .outOfRoom ∧ ¬ p.Storable payload ∧ after = store) := by
  have c := Space.conduct_of_clear u t around
  obtain ⟨image, hm, hcharts⟩ := h.charts
  obtain rfl := hm.image
  have hchart := hcharts p hp
  have fits := Nat.le_trans (laid.inside p hp) (Nat.le_of_eq (c.length hm).symm)
  have hopen : store.Open (space.Exposes .clear around) space store.volumes
      (space.image store.media) := ⟨h.space, rfl, unfaulted, hm⟩
  apply (hopen.append_ends (h.known laid hp)
    (hchart.append_ends (c.part (laid.inside p hp)) hm payload)).mono
  · rintro key after ⟨_, m', _, ⟨rfl, storable, count, hfewest, hm', hcharts', rfl⟩, rfl, rfl⟩
    have replaces : p.Replaces (space.image store.media) (runs p.id).row count
        ((runs p.id).freeRow p) ((runs p.id).nextEntry p payload.length) (space.image m') :=
      hm'.image ▸ Partition.replaces_lengthened fits hchart.tabled.row_lt storable
    have newestFits := Partition.fits_nextEntry (runs p.id) storable
    have outside (i : Nat) (hi : i < p.table ∨ p.stop ≤ i) :
        (space.image m')[i]? = (space.image store.media)[i]? :=
      replaces.outside (p.rowBehind_lt _ _) newestFits hi
    have hordered := hcharts'.ordered
    have hparts := p.parts
    refine ⟨count, (runs p.id).nextEntry p payload.length, ?_⟩
    constructor
    case count_le => exact hfewest.le
    case key_eq => rfl
    case length_eq => exact Partition.length_nextEntry _ storable
    case ordered =>
      exact ⟨_, rfl, status_of_lookup (lookup_update_self (h.known laid hp) _),
        hm'.image ▸ hordered⟩
    case statuses =>
      intro id hid
      rw [status, volume, lookup_update hid]
      rfl
    case faulted => exact unfaulted.symm
    case replaces => exact replaces
    case header => exact Bytes.slice_congr fun i hi => outside _ (.inl (Nat.add_lt_add_left hi _))
    case others =>
      intro q hq hne i hi hi'
      have hbytes := (laid.apart_of_ne hp hq (Ne.symm hne)).bytes
      exact outside i (by omega)
    case elsewhere =>
      intro i hi
      have hside := hi p hp
      exact outside i (by omega)
    case survivors =>
      intro entry hentry
      -- The order that is left has the new row behind the others, with a payload apart from theirs.
      have hapart := (List.pairwise_append.mp hordered.apart).2.2 entry hentry _
        (List.mem_singleton_self _)
      exact replaces.ring_eq (p.rowBehind_lt _ _) fits
        (hchart.tabled.fits entry (List.mem_of_mem_drop hentry)) hapart
    case around => exact hm'.around.trans hm.around.symm
  · rintro e after ⟨m', status', ⟨rfl, long, hsame⟩, rfl⟩
    obtain ⟨rfl, rfl⟩ := Prod.mk.inj hsame
    -- The fill state has been put back as it was.
    have hsame := Volume.update_of_lookup (h.shaped.distinct laid) (h.known laid hp)
    refine ⟨rfl, long, ?_⟩
    show (⟨space, store.media, Volume.update p.id (runs p.id).status store.volumes, false⟩ :
      Store g) = store
    rw [hsame, ← h.space, ← unfaulted]

/-! ## Runs -/

/-- After any run without faults from memories in which no partition has a header, each partition
has a chain, and the latch is open. -/
theorem charted_of_operateAll (c : space.Conduct 0 space.total sound .never) {image : Bytes}
    (planned : space.plan slots base layouts = .ok parts) (hm : sound image m)
    (blank : ∀ p ∈ parts, image.slice p.base headerBytes ≠ Partition.magic)
    {mounted : Store g} (mounts : mount space slots base layouts m = .ok mounted)
    {operations : List Operation}
    (operates : mounted.operateAll slots base layouts operations = some store) :
    ∃ runs, store.Charted sound space parts runs ∧ store.faulted = false := by
  -- There is nothing in any partition at first. Chains and fill states go with the run, and so does
  -- the latch, of which only a steady store says something.
  obtain ⟨none, hnone⟩ : ∃ none : UInt8 → Run, ∀ id, none id = ⟨0, []⟩ := ⟨_, fun _ => rfl⟩
  obtain ⟨_, _, hmount, -, h₀, -⟩ :=
    mount_restarts c planned hm fun p hp => .inr ⟨blank p hp, hnone p.id⟩
  obtain rfl := Except.ok.inj (hmount.symm.trans mounts)
  obtain ⟨runs, h⟩ := h₀.operateAll c planned operates
  rcases mount_starts c planned hm with ⟨_, _, hmount', hsteady, -⟩ | ⟨_, hfails, -⟩
  · obtain rfl := Except.ok.inj (hmount'.symm.trans mounts)
    obtain ⟨_, _, hrun, hafter⟩ := hsteady.operateAll c planned operations
    obtain rfl := Option.some.inj (hrun.symm.trans operates)
    exact ⟨runs, h, hafter.faulted⟩
  · rw [hfails] at mounts
    cases mounts

/-- After any run without faults, an append exchanges some of the oldest items of its partition for
the new one and changes nothing else, or it does nothing. And whatever is done with this partition
and with another one, the order has no part in what is answered and in what is left. -/
theorem independent_of_operateAll {start stop : UInt32}
    (made : Space.create g g.eepromBytes g.flashBytes start stop = .ok space) (u : g.Uniform)
    (planned : space.plan slots base layouts = .ok parts) (faultless : m.Under .clear)
    (blank : ∀ p ∈ parts, (space.image m).slice p.base headerBytes ≠ Partition.magic)
    {mounted : Store g} (mounts : mount space slots base layouts m = .ok mounted)
    {operations : List Operation}
    (operates : mounted.operateAll slots base layouts operations = some store) (hp : p ∈ parts) :
    (∃ status entries, store.status p.id = .ok status ∧
      p.Ordered (space.image store.media) status entries ∧
      ∀ payload, (append p.id payload).Ends store
        (fun key after => ∃ count newest,
          Exchanged space parts p status entries payload key store after count newest)
        fun e after => e = .outOfRoom ∧ ¬ p.Storable payload ∧ after = store) ∧
    ∀ q ∈ parts, p ≠ q →
      ∀ {α β : Type} (x : Action Error (Store g) α) (y : Action Error (Store g) β),
      Concerns p.id x → Concerns q.id y → Interchange space x y store := by
  have t := Space.truthful_of_create made
  have laid := laid_of_plan planned
  have c := Space.conduct_of_clear u t (space.around m)
  obtain ⟨runs, h, unfaulted⟩ :=
    charted_of_operateAll c planned ⟨faultless, rfl, rfl⟩ blank mounts operates
  obtain ⟨hstatus, hordered⟩ := h.ordered laid hp
  refine ⟨⟨_, _, hstatus, hordered, h.exchanges u t laid unfaulted hp⟩, ?_⟩
  intro q hq hne α β x y hx hy
  have shaped : store.Shaped space parts (space.Faultless (space.around m)) :=
    h.shaped.mono fun _ h => h.elim fun _ h => h.1.faultless
  have steady := h.steady unfaulted
  exact shaped.interchange u t laid hp hq hne hx hy unfaulted (steady.unfaulted c planned hx)
    (steady.unfaulted c planned hy)

end Store

/-! ## A small example -/

/-- Fourteen bytes of eeprom, and seven pages of flash with two words of two bytes each. -/
def Geometry.shared : Geometry := { Geometry.tiny with eepromBytes := 14, pages := 7 }

/-- Its sizes go into one another. -/
theorem Geometry.uniform_shared : shared.Uniform :=
  ⟨uniform_tiny.readSize_dvd, uniform_tiny.wordBytes_dvd, uniform_tiny.wordSize_dvd⟩

/-- The eeprom and all of the flash. -/
def Space.shared : Space Geometry.shared where
  boundary := 14
  start := 0
  stop := 28
  start_mod := by decide
  stop_mod := by decide
  start_le_stop := by decide
  stop_lt := by decide
  page_le_scratch := by decide
  word_le_limit := by decide
  total_lt := by decide

/-- A partition behind another one. -/
def Partition.behind : Partition :=
  { Partition.near with id := 8, base := 20, stop_lt := by decide }

namespace Store

/-- Two partitions have bytes on one page of the flash. In each an item takes the place of
another. -/
theorem independent_of_operateAll_shared :
    ∃ mounted store, mount Space.shared 2 0 [⟨7, 20, 1⟩, ⟨8, 20, 1⟩] (Media.fresh _) = .ok mounted ∧
      mounted.operateAll 2 0 [⟨7, 20, 1⟩, ⟨8, 20, 1⟩] [.request (.append 7 [1, 2, 3]),
        .request (.append 8 [4]), .request (.append 7 [5]), .report 8] = some store ∧
      (∃ status entries key after count newest, append 7 [6, 7, 8] store = .ok key after ∧
        Exchanged Space.shared [Partition.near, Partition.behind] Partition.near status entries
          [6, 7, 8] key store after count newest) ∧
      Interchange Space.shared (append 7 [6, 7, 8]) (append 8 [9, 9]) store := by
  have made : Space.create .shared 14 28 0 28 = .ok Space.shared := rfl
  have planned : Space.shared.plan 2 0 [⟨7, 20, 1⟩, ⟨8, 20, 1⟩] =
      .ok [Partition.near, Partition.behind] := rfl
  have faultless : (Media.fresh .shared).Under .clear := ⟨⟨rfl, rfl, by decide⟩, rfl⟩
  have blank : ∀ p ∈ [Partition.near, Partition.behind],
      (Space.shared.image (Media.fresh _)).slice p.base headerBytes ≠ Partition.magic := by
    decide +kernel
  -- The run and the append are carried out once, to see that they end.
  have run : ((mount Space.shared 2 0 [⟨7, 20, 1⟩, ⟨8, 20, 1⟩] (Media.fresh _)).toOption.bind
      fun mounted => (mounted.operateAll 2 0 [⟨7, 20, 1⟩, ⟨8, 20, 1⟩]
        [.request (.append 7 [1, 2, 3]),
        .request (.append 8 [4]), .request (.append 7 [5]), .report 8]).map fun store =>
          (append 7 [6, 7, 8]).given store) = some (some ⟨7, 0, 2⟩) := by decide +kernel
  obtain ⟨mounted, hmounted, run⟩ := Option.bind_eq_some_iff.mp run
  obtain ⟨store, operates, given⟩ := Option.map_eq_some_iff.mp run
  have mounts := mount_of_toOption hmounted
  have ok := Action.eq_ok_of_given given
  obtain ⟨⟨status, entries, -, -, happend⟩, hinterchange⟩ := independent_of_operateAll made
    Geometry.uniform_shared planned faultless blank mounts operates
    (List.mem_cons_self : Partition.near ∈ _)
  obtain ⟨count, newest, hexchanged⟩ := (happend [6, 7, 8]).of_ok ok
  refine ⟨mounted, store, mounts, operates, ⟨_, _, _, _, count, newest, ok, hexchanged⟩, ?_⟩
  have hne : Partition.near ≠ Partition.behind := fun h =>
    absurd (congrArg Partition.id h) (by decide)
  exact hinterchange _ (by simp) hne _ _ (.append _) (.append _)

end Store

end CircularLog
