import CircularLog.Proofs.Store.Chains
import CircularLog.Proofs.Store.Host

/-!
# Keys through runs

A key that an append to a partition in the eeprom has ended with is followed here through whatever
happens to the host, while failing calls have no effect. As long as no append leaves the partition
without an item, the ids go on from append to append, so the key fetches the item that it was given
for or nothing, and nothing for good once that item is gone (`faithful_of_calmRun`). Behind an
append that has taken out all items before it failed, the ids start with zero again, and then an old
key may fetch a new item (`not_faithful_of_drained`).
-/

namespace CircularLog

variable {g : Geometry} {space : Space g} {parts : List Partition} {p : Partition}
  {slots base : Nat} {layouts : List Layout} {phase : Phase} {around : Bytes × Bytes} {log : Log}
  {image : Bytes} {number used : Nat} {key : Key} {payload : Bytes}

/-! ## Partitions with items -/

namespace Partition

/-- The partition has a header, and an item in one of its rows. -/
def Stocked (p : Partition) (image : Bytes) : Prop :=
  image.slice p.base headerBytes = magic ∧ ∃ row < p.maxItems, p.rowAt image row ≠ none

instance (p : Partition) (image : Bytes) : Decidable (p.Stocked image) :=
  inferInstanceAs (Decidable (_ ∧ _))

/-- What boots of a partition with an item has an item. -/
theorem Boots.items_ne_nil (boots : p.Boots image log) (stocked : p.Stocked image) :
    log.items ≠ [] := by
  obtain ⟨hheader, row, hlt, hrow⟩ := stocked
  rcases boots with holds | ⟨hno, -⟩
  · obtain ⟨count, hcount, rfl⟩ := exists_rowBehind holds.row_lt hlt
    rw [holds.rows count hcount, entryAt] at hrow
    intro hnil
    simp [hnil] at hrow
  · exact absurd hheader hno

/-- An item of a log is in its row. -/
theorem Holds.stores (holds : p.Holds image log) (fits : p.stop ≤ image.length) {count : Nat}
    {item : Bytes} (hitem : log.items[count]? = some item) :
    p.Stores image ((p.keyAt log count).row, (p.keyAt log count).id) item := by
  have hlt := (List.getElem?_eq_some_iff.mp hitem).1
  have hle := holds.count_le
  have hsize : item.length ≤ log.size :=
    (List.sublist_flatten_of_mem (List.mem_of_getElem? hitem)).length_le
  have harea := holds.size_le
  have hstart := p.startOf_lt log count
  have hbegin := start_entry hstart (log.id + count) item.length
  refine ⟨p.rowBehind_lt _ _, _, ?_, rfl, hbegin.symm ▸ hstart, holds.length_entry hitem _ _,
    by omega, ?_⟩
  · exact (holds.rows count (by omega)).trans (entryAt_of_getElem? hitem)
  · rw [hbegin]
    exact holds.ring_item fits hitem

/-- What is in no row any more has gone, and whatever is said of its key is true. -/
theorem Recalls.of_not_stores (h : p.Recalls log number key payload) (holds : p.Holds image log)
    (fits : p.stop ≤ image.length) (gone : ¬ p.Stores image (key.row, key.id) payload)
    (other : Bytes) : p.Recalls log number key other := by
  refine ⟨h.nonempty, h.lt, fun hle => absurd ?_ gone⟩
  have hlisted := h.listed hle
  rw [Partition.listing, List.getElem?_mapIdx, Option.map_eq_some_iff] at hlisted
  obtain ⟨item, hitem, hentry⟩ := hlisted
  obtain ⟨rfl, rfl⟩ := Prod.mk.inj hentry
  exact holds.stores fits hitem

end Partition

/-! ## Fetching -/

namespace Store

variable {store after : Store g}

/-- What is fetched is the item that the key names. -/
theorem Knows.fetch_names (o : Outage .clean phase phase fun _ => phase) (u : g.Uniform)
    (t : space.Truthful) (eeprom : p.stop ≤ space.boundary)
    (h : store.Knows space parts phase around p log) (hkey : key.partition = p.id) {capacity : Nat}
    {bytes : Bytes} (ok : fetch key capacity store = .ok bytes after) :
    ∃ image count, p.Holds image log ∧ p.Names log key count ∧ log.items[count]? = some bytes := by
  have unfaulted := unfaulted_of_ok ok
  have c := (Space.conduct_of_harmless o u t around).within (Nat.zero_le p.table) eeprom
  obtain ⟨image, hopen, holds⟩ := h.exists_open unfaulted
  have hends : (fetch key capacity).Ends store
      (fun bytes after => after.Open (space.Exposes phase around) space store.volumes image ∧
        ∃ count, p.Names log key count ∧ log.items[count]? = some bytes)
      (fun _ after =>
        after.Open (space.Exposes phase around) space store.volumes image ∧ True) := by
    rw [fetch, hkey]
    refine hopen.asking_ends h.known ?_
    refine (p.fetch_ends c holds hopen.media key capacity).mono ?_ ?_
    · rintro _ _ ⟨h', count, hnames, hitem, -⟩
      exact ⟨h', count, hnames, hitem⟩
    · rintro e m' (⟨he, hnever | ⟨_, rfl, h'⟩⟩ | ⟨h', he⟩)
      · exact hnever.elim
      · refine ⟨h', ?_, trivial⟩
        rintro rfl
        cases he
      · refine ⟨h', ?_, trivial⟩
        rcases he with ⟨rfl, -⟩ | ⟨rfl, -⟩ | ⟨count, item, -, -, rfl, -⟩ <;> rintro ⟨⟩
  obtain ⟨-, count, hnames, hitem⟩ := hends.of_ok ok
  exact ⟨image, count, holds, hnames, hitem⟩

/-- An append that ends with a key has put the item behind the others. -/
theorem Knows.of_append_ok (o : Outage .clean phase phase fun _ => phase) (u : g.Uniform)
    (t : space.Truthful) (laid : Laid space parts) (hp : p ∈ parts)
    (eeprom : p.stop ≤ space.boundary) (h : store.Knows space parts phase around p log)
    (ids : log.id + log.items.length < 0x1_0000_0000)
    (ok : append p.id payload store = .ok key after) :
    key = ⟨p.id, p.freeRow log, UInt32.ofNat (log.id + log.items.length)⟩ ∧
      ∃ log', after.Knows space parts phase around p log' ∧ p.Appended log payload log' := by
  have unfaulted := unfaulted_of_ok ok
  have storable : p.Storable payload := by
    refine Decidable.byContradiction fun long => ?_
    rw [h.append_of_long laid unfaulted long] at ok
    cases ok
  obtain ⟨hkey, -, hafter⟩ :=
    (h.append_ends o u t laid hp eeprom unfaulted storable ids).of_ok ok
  exact ⟨hkey, hafter⟩

end Store

/-! ## Runs -/

namespace Host

variable {host after : Host g} {incidents : List Incident}

section Running

variable (space : Space g) (slots base : Nat) (layouts : List Layout)

/-- No append to the partition leaves it without an item. -/
def NeverDrains (p : Partition) (host : Host g) : List Incident → Prop
  | [] => True
  | incident :: incidents => ∀ next ∈ host.undergo space slots base layouts incident,
    (incident.stores p = true → p.Stocked (space.image next.media)) ∧ next.NeverDrains p incidents

instance decidableNeverDrains (p : Partition) : (host : Host g) → (incidents : List Incident) →
    Decidable (host.NeverDrains space slots base layouts p incidents)
  | _, [] => .isTrue trivial
  | _, incident :: incidents =>
    have (next : Host g) : Decidable (next.NeverDrains space slots base layouts p incidents) :=
      decidableNeverDrains p next incidents
    inferInstanceAs (Decidable (∀ next ∈ _, (incident.stores p = true → _) ∧ _))

/-- Incidents lead from one host to another. Failing calls have no effect meanwhile, and no append
leaves the partition without an item. -/
structure CalmRun (p : Partition) (host : Host g) (incidents : List Incident) (after : Host g) :
    Prop where
  harmless : ∀ incident ∈ incidents, incident.Harmless fun _ => True
  undergoes : host.undergoAll space slots base layouts incidents = some after
  never : host.NeverDrains space slots base layouts p incidents

end Running

/-- As long as the partition has an item, so has the log that is tracked. -/
theorem Tracks.items_ne_nil (h : host.Tracks space parts phase around p log)
    (stocked : p.Stocked (space.image host.media)) : log.items ≠ [] := by
  obtain ⟨image, hm, boots⟩ := h.bootable
  exact boots.items_ne_nil (hm.image ▸ stocked)

/-- As long as no append leaves the partition without an item, what a key was given for stays
known. -/
theorem Tracks.recalls (o : Outage .clean phase phase fun _ => phase) (u : g.Uniform)
    (t : space.Truthful) (planned : space.plan slots base layouts = .ok parts) (hp : p ∈ parts)
    (eeprom : p.stop ≤ space.boundary) (hphase : ∀ plan, .faults plan ∈ incidents → phase plan [])
    (h : host.Tracks space parts phase around p log) (recalls : p.Recalls log number key payload)
    (ids : log.id + log.items.length ≤ used)
    (few : used + host.taken space slots base layouts p incidents < 0x1_0000_0000)
    (never : host.NeverDrains space slots base layouts p incidents)
    (undergoes : host.undergoAll space slots base layouts incidents = some after) :
    ∃ log', after.Tracks space parts phase around p log' ∧ p.Recalls log' number key payload ∧
      log'.id + log'.items.length ≤ used + host.taken space slots base layouts p incidents := by
  induction incidents generalizing host log used with
  | nil => exact ⟨log, Option.some.inj undergoes ▸ h, recalls, ids⟩
  | cons incident incidents ih =>
    obtain ⟨next, hstep, hrest⟩ := Option.bind_eq_some_iff.mp undergoes
    rw [taken, hstep, Option.elim_some, ← Nat.add_assoc] at few ⊢
    obtain ⟨log', hnext, hadvances, hsame⟩ := h.undergo o u t planned hp eeprom
      (fun plan hplan => hphase plan (hplan ▸ List.mem_cons_self)) (fun _ => by omega) hstep
    obtain ⟨hstocked, hnever⟩ := never next hstep
    have hitems : log'.items ≠ [] := by
      cases hstores : incident.stores p with
      | false => exact hsame hstores ▸ recalls.nonempty
      | true => exact hnext.items_ne_nil (hstocked hstores)
    have hids := hadvances.ids_le
    exact ih (fun plan hplan => hphase plan (List.mem_cons_of_mem _ hplan)) hnext
      (recalls.advances hadvances hitems) (by omega) few hnever hrest

/-- What a key was given for is what it fetches. -/
theorem Tracks.eq_of_fetch (o : Outage .clean phase phase fun _ => phase) (u : g.Uniform)
    (t : space.Truthful) (eeprom : p.stop ≤ space.boundary) {store after : Store g}
    (h : (mounted store).Tracks space parts phase around p log)
    (recalls : p.Recalls log number key payload) (hpart : key.partition = p.id)
    (hid : key.id = UInt32.ofNat number) {capacity : Nat} {bytes : Bytes}
    (ok : Store.fetch key capacity store = .ok bytes after) : bytes = payload := by
  obtain ⟨image, count, holds, hnames, hitem⟩ :=
    (h.2 (Store.unfaulted_of_ok ok)).fetch_names o u t eeprom hpart ok
  exact recalls.eq_of_names holds hid hnames hitem

/-- In a run in which failing calls have no effect, an append to a partition in the eeprom has ended
with a key. As long as no append leaves the partition without an item, and fewer ids are used up
than there are, later keys have larger ids; fetching the key gives what was appended, or nothing;
and when that is in its row no more, fetching the key gives nothing for good. -/
theorem faithful_of_calmRun {start stop : UInt32}
    (made : Space.create g g.eepromBytes g.flashBytes start stop = .ok space) (u : g.Uniform)
    (planned : space.plan slots base layouts = .ok parts) {m : Media g} (able : m.Able)
    (harmless : ∀ fault ∈ m.faults, fault.Harmless fun _ => True) (hp : p ∈ parts)
    (blank : (space.image m).slice p.base headerBytes ≠ Partition.magic)
    (eeprom : p.stop ≤ space.boundary) {before between : List Incident}
    (all : ∀ incident ∈ before, incident.Harmless fun _ => True) {store stored : Store g}
    (reaches : (bare m).undergoAll space slots base layouts before = some (mounted store))
    (stores : Store.append p.id payload store = .ok key stored) {later : Host g}
    (calm : CalmRun space slots base layouts p (mounted stored) between later)
    (few : (bare m).taken space slots base layouts p before + 1 +
      (mounted stored).taken space slots base layouts p between < 0x1_0000_0000) :
    (∀ store, later = mounted store →
      (∀ payload' key' after, Store.append p.id payload' store = .ok key' after →
        key.id < key'.id) ∧
      (∀ capacity bytes after, Store.fetch key capacity store = .ok bytes after →
        bytes = payload)) ∧
    (¬ p.Stores (space.image later.media) (key.row, key.id) payload →
      ∀ rest last, CalmRun space slots base layouts p later rest (mounted last) →
        (bare m).taken space slots base layouts p before + 1 +
          (mounted stored).taken space slots base layouts p between +
          later.taken space slots base layouts p rest < 0x1_0000_0000 →
        ∀ capacity bytes after, Store.fetch key capacity last ≠ .ok bytes after) := by
  have t := Space.truthful_of_create made
  have laid := laid_of_plan planned
  have o := Phase.outage_harmless fun _ => True
  have htracks :
      (bare m).Tracks space parts (.harmless fun _ => True) (space.around m) p Log.empty :=
    ⟨space.image m, ⟨⟨able, harmless⟩, rfl, rfl⟩, .inr ⟨blank, rfl⟩⟩
  obtain ⟨log, hlog, ids⟩ :=
    htracks.undergoAll o u t planned hp eeprom (fun plan hplan => all _ hplan)
    (Nat.le_refl 0) (by omega) reaches
  -- The number of the item is that of the ids that have been used up.
  obtain ⟨hkey, log₁, hknows₁, happended⟩ := (hlog.2 (Store.unfaulted_of_ok stores)).of_append_ok
    o u t laid hp eeprom (by omega) stores
  have hpart : key.partition = p.id := hkey ▸ rfl
  have hid : key.id = UInt32.ofNat (log.id + log.items.length) := hkey ▸ rfl
  have hrecalls := hkey ▸ happended.recalls
  have hids := happended.ids
  obtain ⟨log₂, hlog₂, hrecalls₂, ids₂⟩ := (tracks_of_knows hknows₁).recalls o u t planned hp eeprom
    (fun plan hplan => calm.harmless _ hplan) hrecalls (by omega) few calm.never calm.undergoes
  refine ⟨?_, fun gone rest last calm' few' capacity bytes after ok => ?_⟩
  · rintro store rfl
    refine ⟨fun payload' key' after ok => ?_, fun capacity bytes after ok =>
      hlog₂.eq_of_fetch o u t eeprom hrecalls₂ hpart hid ok⟩
    obtain ⟨hkey', -⟩ := (hlog₂.2 (Store.unfaulted_of_ok ok)).of_append_ok o u t laid hp eeprom
      (by omega) ok
    have hlt := hrecalls₂.lt
    rw [hid, hkey', UInt32.lt_iff_toNat_lt, UInt32.toNat_ofNat', UInt32.toNat_ofNat',
      Nat.mod_eq_of_lt (by omega), Nat.mod_eq_of_lt (by omega)]
    exact hlt
  · -- Of an item that is gone anything can be said, so what is fetched would be different things.
    obtain ⟨image, hm, boots⟩ := hlog₂.bootable
    obtain rfl := hm.image
    have holds := boots.resolve_right fun h => hrecalls₂.nonempty (h.2 ▸ rfl)
    have fits : p.stop ≤ (space.image later.media).length := by
      rw [space.length_image t]
      exact laid.inside p hp
    have fetched (other : Bytes) : bytes = other := by
      have hother := hrecalls₂.of_not_stores holds fits gone other
      obtain ⟨log₃, hlog₃, hrecalls₃, -⟩ := hlog₂.recalls o u t planned hp eeprom
        (fun plan hplan => calm'.harmless _ hplan) hother ids₂ (by omega)
        calm'.never calm'.undergoes
      exact hlog₃.eq_of_fetch o u t eeprom hrecalls₃ hpart hid ok
    exact absurd ((fetched []).symm.trans (fetched [0])) (by simp)

end Host

/-! ## Small examples -/

/-- An item is stored, and then one cannot be: room has been made for it, but its row is not
written. At last the partition is mounted again. -/
def Incident.cutShort : List Incident :=
  [.operation (.request (.append 7 [3])), .faults [.refusing .eeprom .write 1 (some 1) .other],
    .operation (.request (.append 7 [4, 5])), .operation (.request .remount)]

namespace Host

/-- Of two items, the older one makes room for one that cannot be stored. The next item gets the row
of the one that is gone, and another id. -/
theorem faithful_of_calmRun_roomy :
    ∃ store stored later last,
      (bare (Media.fresh (.tinyWith 32))).undergoAll Space.roomy 1 0 [⟨7, 32, 2⟩]
        [.operation (.request .remount)] = some (mounted store) ∧
      Store.append 7 [1, 2] store = .ok ⟨7, 0, 0⟩ stored ∧
      (mounted stored).undergoAll Space.roomy 1 0 [⟨7, 32, 2⟩] Incident.cutShort =
        some (mounted later) ∧
      (mounted later).undergoAll Space.roomy 1 0 [⟨7, 32, 2⟩]
        [.operation (.request (.append 7 [6]))] = some (mounted last) ∧
      (∀ payload key after, Store.append 7 payload later = .ok key after → 0 < key.id) ∧
      ∀ capacity bytes after, Store.fetch ⟨7, 0, 0⟩ capacity last ≠ .ok bytes after := by
  -- The runs are carried out once, for all that the theorem asks of them.
  have run : ∃ store ∈ ((bare (Media.fresh (.tinyWith 32))).undergoAll Space.roomy 1 0 [⟨7, 32, 2⟩]
        [.operation (.request .remount)]).bind store?,
      (Store.append 7 [1, 2]).given store = some ⟨7, 0, 0⟩ ∧
      (mounted ((Store.append 7 [1, 2]).leaves store)).NeverDrains Space.roomy 1 0 [⟨7, 32, 2⟩]
        Partition.roomy Incident.cutShort ∧
      ∃ later ∈ ((mounted ((Store.append 7 [1, 2]).leaves store)).undergoAll Space.roomy 1 0
          [⟨7, 32, 2⟩] Incident.cutShort).bind store?,
        Partition.roomy.rowAt (Space.roomy.image later.media) 0 = none ∧
        (mounted later).NeverDrains Space.roomy 1 0 [⟨7, 32, 2⟩] Partition.roomy
          [.operation (.request (.append 7 [6]))] ∧
        ∃ last ∈ ((mounted later).undergoAll Space.roomy 1 0 [⟨7, 32, 2⟩]
            [.operation (.request (.append 7 [6]))]).bind store?,
          (bare (Media.fresh (.tinyWith 32))).taken Space.roomy 1 0 [⟨7, 32, 2⟩] Partition.roomy
              [.operation (.request .remount)] + 1 +
            (mounted ((Store.append 7 [1, 2]).leaves store)).taken Space.roomy 1 0 [⟨7, 32, 2⟩]
              Partition.roomy Incident.cutShort +
            (mounted later).taken Space.roomy 1 0 [⟨7, 32, 2⟩] Partition.roomy
              [.operation (.request (.append 7 [6]))] < 0x1_0000_0000 := by decide +kernel
  obtain ⟨store, hstore, hkey, never, later, hlater, hrow, never', last, hlast, few⟩ := run
  obtain ⟨host, reaches, hhost⟩ := Option.bind_eq_some_iff.mp hstore
  obtain rfl := eq_mounted_of_store? hhost
  obtain ⟨host, goesOn, hhost⟩ := Option.bind_eq_some_iff.mp hlater
  obtain rfl := eq_mounted_of_store? hhost
  obtain ⟨host, goesOn', hhost⟩ := Option.bind_eq_some_iff.mp hlast
  obtain rfl := eq_mounted_of_store? hhost
  have stores := Action.eq_ok_of_given hkey
  have gone : ¬ Partition.roomy.Stores (Space.roomy.image later.media) (0, 0) [1, 2] := by
    rintro ⟨-, entry, hentry, -⟩
    rw [hrow] at hentry
    cases hentry
  have hp := List.mem_singleton_self Partition.roomy
  obtain ⟨hlater, hgone⟩ := faithful_of_calmRun Space.create_roomy (Geometry.uniform_tinyWith 32)
    Space.plan_roomy ⟨rfl, rfl, by decide⟩ (List.forall_mem_nil _) hp (Space.blank_roomy _ hp)
    (by decide) (by decide) reaches stores
    ⟨by decide, goesOn, never⟩ (by omega)
  exact ⟨store, _, later, last, reaches, stores, goesOn, goesOn', (hlater later rfl).1,
    hgone gone _ last ⟨by decide, goesOn', never'⟩ few⟩

/-- Where an append that fails has taken out the last item, the ids start with zero again, and the
key of the first item of all fetches another one. -/
theorem not_faithful_of_drained :
    (∀ incident ∈ Incident.cutShort, incident.Harmless fun _ => True) ∧
    Partition.near.stop ≤ Space.near.boundary ∧ ∃ store stored later last,
      (bare (Media.fresh (.tinyWith 20))).undergoAll Space.near 1 0 [⟨7, 20, 1⟩]
        [.operation (.request .remount)] = some (mounted store) ∧
      Store.append 7 [1, 2, 3] store = .ok ⟨7, 0, 0⟩ stored ∧
      (mounted stored).undergoAll Space.near 1 0 [⟨7, 20, 1⟩] Incident.cutShort =
        some (mounted later) ∧
      Store.append 7 [6] later = .ok ⟨7, 0, 0⟩ last ∧
      ∃ after, Store.fetch ⟨7, 0, 0⟩ 8 last = .ok [6] after := by
  have run : ∃ store ∈ ((bare (Media.fresh (.tinyWith 20))).undergoAll Space.near 1 0 [⟨7, 20, 1⟩]
        [.operation (.request .remount)]).bind store?,
      (Store.append 7 [1, 2, 3]).given store = some ⟨7, 0, 0⟩ ∧
      ∃ later ∈ ((mounted ((Store.append 7 [1, 2, 3]).leaves store)).undergoAll Space.near 1 0
          [⟨7, 20, 1⟩] Incident.cutShort).bind store?,
        (Store.append 7 [6]).given later = some ⟨7, 0, 0⟩ ∧
        (Store.fetch ⟨7, 0, 0⟩ 8).given ((Store.append 7 [6]).leaves later) = some [6] := by
    decide +kernel
  obtain ⟨store, hstore, hkey, later, hlater, hkey', hfetch⟩ := run
  obtain ⟨host, reaches, hhost⟩ := Option.bind_eq_some_iff.mp hstore
  obtain rfl := eq_mounted_of_store? hhost
  obtain ⟨host, goesOn, hhost⟩ := Option.bind_eq_some_iff.mp hlater
  obtain rfl := eq_mounted_of_store? hhost
  exact ⟨by decide, by decide, store, _, later, _, reaches, Action.eq_ok_of_given hkey, goesOn,
    Action.eq_ok_of_given hkey', _, Action.eq_ok_of_given hfetch⟩

end Host

end CircularLog
