import CircularLog.Proofs.Partition.Chain
import CircularLog.Proofs.Store.Operate
import CircularLog.Proofs.Store.Placement

/-!
# What every run without faults preserves

However many items have been stored, each partition of a store has a chain, and the store has its
fill state (`Store.Charted`). An append puts one more entry into the chain of its partition,
mounting keeps of each chain what `Run.found` says, and nothing else changes a chain
(`Charted.operate`). So after any run tables and fill states are in order, and an append that ends
with a key has put the item into the last row of the order (`ordered_of_operateAll`). Mounting alone
finds the chains in whatever memories have them, and loses of one whose ids have gone on with zero
the items in front of that (`restarted_of_mount`).
-/

namespace CircularLog

variable {g : Geometry} {space : Space g} {parts : List Partition} {p : Partition}
  {sound : Bytes → Media g → Prop} {m : Media g} {image : Bytes} {runs : UInt8 → Run}
  {slots base : Nat} {layouts : List Layout}

/-- An item that is found again is where it was. -/
theorem Partition.Restarted.stores {image' payload : Bytes} {run : Run}
    (h : p.Restarted image run image') (charts : p.Charts image run) (fits : p.stop ≤ image.length)
    (fits' : p.stop ≤ image'.length) {count : Nat} (kept : run.wrapped ≤ count)
    (hcount : count < run.entries.length) {id : UInt32}
    (stores : p.Stores image (p.rowBehind run.row count, id) payload) :
    p.Stores image' (p.rowBehind run.row count, id) payload := by
  obtain ⟨hrow, entry, hentry, hid, hstart, hlength, harea, hring⟩ := stores
  refine ⟨hrow, entry, (h.rowAt_eq charts kept hcount).trans hentry, hid, hstart,
    hlength, harea, ?_⟩
  refine (ring_congr fits fits' hstart fun i hi => ?_).trans hring
  have hcell := cell_mem hstart (Nat.lt_of_lt_of_le hi harea)
  exact h.area charts _ hcell.1 hcell.2

namespace Store

open CircularLog.Action (alone)

variable {store after : Store g} {payload : Bytes}

/-- Each partition has a chain, and the store has its fill state. -/
structure Charted (sound : Bytes → Media g → Prop) (space : Space g) (parts : List Partition)
    (runs : UInt8 → Run) (store : Store g) : Prop where
  space : store.space = space
  volumes : store.volumes = parts.map fun p => ⟨p, (runs p.id).status⟩
  charts : ∃ image, sound image store.media ∧ ∀ p ∈ parts, p.Charts image (runs p.id)

/-- The memories have the chains. -/
def Charting (sound : Bytes → Media g → Prop) (parts : List Partition) (runs : UInt8 → Run)
    (m : Media g) : Prop :=
  ∃ image, sound image m ∧ ∀ p ∈ parts, p.Charts image (runs p.id)

/-- A charted store is over its space with its partitions. -/
theorem Charted.shaped (h : store.Charted sound space parts runs) :
    store.Shaped space parts (Charting sound parts runs) where
  space := h.space
  partitions := by rw [h.volumes, List.map_map]; exact List.map_id _
  rows volume hvolume := by
    rw [h.volumes] at hvolume
    obtain ⟨p, hp, rfl⟩ := List.mem_map.mp hvolume
    obtain ⟨_, _, hcharts⟩ := h.charts
    exact (hcharts p hp).tabled.row_lt
  media := h.charts

/-- Asking leaves the chains and the fill states. -/
theorem Charted.of_asked (h : store.Charted sound space parts runs)
    (asked : after.Shaped space parts (Charting sound parts runs) ∧ after.volumes = store.volumes) :
    after.Charted sound space parts runs :=
  ⟨asked.1.space, asked.2.trans h.volumes, asked.1.media⟩

/-- It finds its fill state for the id of a partition. -/
theorem Charted.known (h : store.Charted sound space parts runs) (laid : Laid space parts)
    (hp : p ∈ parts) : Volume.lookup p.id store.volumes = some ⟨p, (runs p.id).status⟩ :=
  h.volumes ▸ Volume.lookup_of_mem laid hp fun q => (runs q.id).status

section Steps

variable (c : space.Conduct 0 space.total sound .never) (laid : Laid space parts)
include c laid

/-- An append that ends with a key puts the next entry of the partition behind the others, at the
expense of as few of the oldest as will do; one that does not changes nothing. -/
theorem Charted.append_yields (h : store.Charted sound space parts runs) (hp : p ∈ parts)
    (payload : Bytes) :
    (append p.id payload).Yields store
      (fun key after => key = ⟨p.id, (runs p.id).freeRow p, (runs p.id).nextId⟩ ∧
        p.Storable payload ∧ ∃ count, (runs p.id).Fewest p payload.length count ∧
          after.Charted sound space parts (Function.update runs p.id
            (((runs p.id).drop p count).push ((runs p.id).nextEntry p payload.length))))
      (fun after => after.Charted sound space parts runs) := by
  obtain ⟨image, hm, hcharts⟩ := h.charts
  have fits := laid.inside p hp
  rw [append, Action.yields_alone]
  by_cases hfaulted : store.faulted = true
  · rw [Action.Yields, latched_of_faulted _ _ hfaulted]
    exact h
  refine yields_latched (by simpa using hfaulted) ?_
    fun _ h => ⟨h.space, h.volumes, h.charts⟩
  rw [yields_changing (h.known laid hp), h.space]
  simp only [Action.yields_bind, Action.yields_pure]
  refine (((hcharts p hp).append_ends (c.part fits) hm payload).yields ?_).mono ?_ fun _ h => h
  · -- Putting back the fill state changes nothing.
    rintro e _ ⟨-, -, rfl⟩
    refine ⟨rfl, ?_, h.charts⟩
    rw [h.volumes, Volume.update_map Run.status, Function.update_eq_self]
  · rintro _ ⟨m', _⟩ ⟨rfl, storable, count, hfewest, hm', hcharts', rfl⟩
    have beneath := Partition.beneath_lengthened ((c.length hm).symm ▸ fits)
      (hcharts p hp).tabled.row_lt storable count
    refine ⟨rfl, storable, count, hfewest, rfl, ?_, _, hm', ?_⟩
    · rw [h.volumes, Volume.update_map Run.status]
    · -- The other partitions lie elsewhere.
      refine laid.forall_update hp hcharts' fun q hq hne => ?_
      exact beneath.confined.charts (laid.apart_of_ne hp hq (Ne.symm hne)).bytes (hcharts q hq)

end Steps

/-! ## Mounting -/

/-- Mounting partitions one after the other finds of each chain what it should, and changes nothing
around the partitions. -/
theorem mountEach_restarts (c : space.Conduct 0 space.total sound .never) (laid : Laid space parts)
    (hm : sound image m) (restarts : ∀ p ∈ parts, p.Restarts image (runs p.id)) :
    (mountEach space parts).Ends m
      (fun volumes m' => volumes = parts.map (fun p => ⟨p, ((runs p.id).found p).status⟩) ∧
        ∃ image', sound image' m' ∧ (∀ p ∈ parts, p.Restarted image (runs p.id) image') ∧
          ∀ i, (∀ p ∈ parts, i < p.base ∨ p.stop ≤ i) → image'[i]? = image[i]?)
      (fun _ _ => False) := by
  -- From partition to partition: those mounted already are apart from the ones to come.
  induction parts generalizing m image with
  | nil => exact ⟨rfl, image, hm, nofun, fun _ _ => rfl⟩
  | cons p rest ih =>
    obtain ⟨hp, hrest⟩ := List.pairwise_cons.mp laid.apart
    obtain ⟨fits, inside⟩ := List.forall_mem_cons.mp laid.inside
    obtain ⟨restartsp, restartsRest⟩ := List.forall_mem_cons.mp restarts
    have hstart := restartsp.ends c fits hm
    simp only [mountEach, Action.ends_bind, Action.ends_pure] at hstart ⊢
    refine hstart.mono (fun _ m₁ h₁ => h₁.mono ?_ fun _ _ h => h) fun _ _ h => h
    rintro _ m₂ ⟨rfl, image₂, h₂, hconfined, hrestarted⟩
    refine (ih ⟨inside, hrest⟩ h₂ fun q hq =>
      hconfined.restarts (hp q hq).bytes (restartsRest q hq)).mono ?_ fun _ _ h => h
    rintro _ m₃ ⟨rfl, image₃, h₃, hrestarted₃, around⟩
    refine ⟨rfl, image₃, h₃, List.forall_mem_cons.mpr ⟨?_, fun q hq => ?_⟩, fun i hi => ?_⟩
    · refine hrestarted.congr fun i hi hi' => around i fun q hq => ?_
      have := (hp q hq).bytes
      omega
    · have hapart := (hp q hq).bytes
      have hsame (i : Nat) (hi : q.base ≤ i) (hi' : i < q.stop) : image₂[i]? = image[i]? :=
        hconfined.outside i (by omega)
      have hparts := q.parts
      have hcharts (h : q.Charts image (runs q.id)) : q.Charts image₂ (runs q.id) :=
        hconfined.charts hapart h
      refine ⟨(hrestarted₃ q hq).charts, fun h i hi hi' => ?_, fun h hwrapped i hi hi' => ?_⟩
      · rw [(hrestarted₃ q hq).area (hcharts h) i hi hi', hsame i (by omega) hi']
      · rw [(hrestarted₃ q hq).same (hcharts h) hwrapped i hi hi', hsame i hi hi']
    · obtain ⟨hip, hirest⟩ := List.forall_mem_cons.mp hi
      rw [around i hirest, hconfined.outside i hip]

/-- What is said of partitions can be said of their ids. -/
theorem exists_of_id {τ : Type} [Inhabited τ] (laid : Laid space parts) (f : Partition → τ) :
    ∃ values : UInt8 → τ, ∀ p ∈ parts, values p.id = f p := by
  refine ⟨fun id => ((parts.find? (·.id == id)).map f).getD default, fun p hp => ?_⟩
  obtain ⟨q, hq⟩ : ∃ q, parts.find? (·.id == p.id) = some q :=
    Option.isSome_iff_exists.mp (List.find?_isSome.mpr ⟨p, hp, beq_self_eq_true _⟩)
  obtain rfl := laid.eq_of_id (List.mem_of_find?_eq_some hq) hp (by simpa using List.find?_some hq)
  simp only [hq, Option.map_some, Option.getD_some]

/-- A sound store has the chains of its logs. -/
theorem Sound.charted {logs : UInt8 → Log} (laid : Laid space parts)
    (h : store.Sound sound space parts logs) :
    ∃ runs, store.Charted sound space parts runs ∧
      ∀ p ∈ parts, runs p.id = p.runOf (logs p.id) := by
  obtain ⟨image, hm, holds⟩ := h.holds
  obtain ⟨runs, hruns⟩ := exists_of_id laid fun p => p.runOf (logs p.id)
  refine ⟨runs, ⟨h.space, ?_, image, hm, fun p hp => hruns p hp ▸ (holds p hp).charts⟩, hruns⟩
  rw [h.volumes]
  exact List.map_congr_left fun p hp => by rw [hruns p hp, (holds p hp).status_runOf]

/-- Mounting makes a store of what is found of the chains. -/
theorem mount_restarts (c : space.Conduct 0 space.total sound .never)
    (planned : space.plan slots base layouts = .ok parts) (hm : sound image m)
    (restarts : ∀ p ∈ parts, p.Restarts image (runs p.id)) :
    ∃ store runs', mount space slots base layouts m = .ok store ∧
      (∀ p ∈ parts, runs' p.id = (runs p.id).found p) ∧ store.Charted sound space parts runs' ∧
      ∃ image', sound image' store.media ∧ ∀ p ∈ parts, p.Restarted image (runs p.id) image' := by
  have laid := laid_of_plan planned
  obtain ⟨volumes, m', hrun, rfl, image', hm', hrestarted, -⟩ :=
    (mountEach_restarts c laid hm restarts).exists_ok fun _ _ => id
  obtain ⟨runs', hruns⟩ := exists_of_id laid fun p => (runs p.id).found p
  have hvolumes : parts.map (fun p => (⟨p, ((runs p.id).found p).status⟩ : Volume)) =
      parts.map fun p => ⟨p, (runs' p.id).status⟩ :=
    List.map_congr_left fun p hp => by rw [hruns p hp]
  refine ⟨⟨space, m', _, false⟩, runs', ?_, hruns, ⟨rfl, hvolumes, image', hm', fun p hp => ?_⟩,
    image', hm', hrestarted⟩
  · rw [mount_of_plan planned, hrun]
  · rw [hruns p hp]
    exact (hrestarted p hp).charts

/-! ## Runs -/

/-- Every operation leaves chains and their fill states. -/
theorem Charted.operate (c : space.Conduct 0 space.total sound .never)
    (planned : space.plan slots base layouts = .ok parts)
    (h : store.Charted sound space parts runs) {operation : Operation}
    (operates : store.operate slots base layouts operation = some after) :
    ∃ runs', after.Charted sound space parts runs' := by
  have laid := laid_of_plan planned
  -- Mounting and appending are treated by themselves; all other operations only read.
  by_cases mounts : operation = .request .remount
  · subst mounts
    obtain ⟨image, hm, hcharts⟩ := h.charts
    obtain ⟨store', runs', hmount, -, h', -⟩ :=
      mount_restarts c planned hm fun p hp => .inl (hcharts p hp)
    rw [Store.operate, serve, h.space, hmount] at operates
    exact ⟨runs', Option.some.inj operates ▸ h'⟩
  by_cases appends : ∃ id payload, operation = .request (.append id payload)
  · obtain ⟨id, payload, rfl⟩ := appends
    by_cases known : ∃ p ∈ parts, p.id = id
    · obtain ⟨p, hp, rfl⟩ := known
      have hyields : (append p.id payload).Yields store
          (fun _ after => ∃ runs', after.Charted sound space parts runs')
          fun after => ∃ runs', after.Charted sound space parts runs' := by
        refine (h.append_yields c laid hp payload).mono ?_ fun _ h => ⟨runs, h⟩
        rintro _ _ ⟨-, -, _, -, h'⟩
        exact ⟨_, h'⟩
      exact left_of_yields hyields operates
    · have unknown : Volume.lookup id store.volumes = none :=
        h.volumes ▸ Volume.lookup_of_unknown (fun q hq hid => known ⟨q, hq, hid⟩)
          fun q => (runs q.id).status
      have hyields : (append id payload).Yields store (fun _ after => after = store)
          fun after => after = store :=
        (append_yields_unknown unknown payload).mono (fun _ _ h => h.elim) fun _ h => h
      obtain rfl := left_of_yields hyields operates
      exact ⟨runs, h⟩
  · have hother := operate_keeps laid (fun _ _ => c.reads_good Space.Mishap.mild_never _)
      (fun id payload happend => appends ⟨id, payload, happend⟩) mounts h.shaped operates
    exact ⟨runs, h.of_asked hother⟩

/-- Every run leaves chains and their fill states. -/
theorem Charted.operateAll (c : space.Conduct 0 space.total sound .never)
    (planned : space.plan slots base layouts = .ok parts)
    (h : store.Charted sound space parts runs) {operations : List Operation}
    (operates : store.operateAll slots base layouts operations = some after) :
    ∃ runs', after.Charted sound space parts runs' := by
  induction operations generalizing store runs with
  | nil => exact ⟨runs, Option.some.inj operates ▸ h⟩
  | cons operation operations ih =>
    obtain ⟨next, hnext, hrest⟩ := Option.bind_eq_some_iff.mp operates
    obtain ⟨runs₁, h₁⟩ := h.operate c planned hnext
    exact ih h₁ hrest

/-- What the table of a partition of such a store says is in order. -/
theorem Charted.ordered (h : store.Charted (space.Exposes .clear (space.around m)) space parts runs)
    (laid : Laid space parts) (hp : p ∈ parts) :
    store.status p.id = .ok (runs p.id).status ∧
      p.Ordered (space.image store.media) (runs p.id).status (runs p.id).entries := by
  obtain ⟨image, hm, hcharts⟩ := h.charts
  obtain rfl := hm.image
  exact ⟨status_of_lookup (h.known laid hp), (hcharts p hp).ordered⟩

/-- An append that ends with a key puts its item into the last row of the chain, at the expense of
as few of the oldest items as will do. -/
theorem Charted.exists_of_append {around : Bytes × Bytes} (u : g.Uniform) (t : space.Truthful)
    (laid : Laid space parts) (h : store.Charted (space.Exposes .clear around) space parts runs)
    (hp : p ∈ parts) {key : Key} (ok : append p.id payload store = .ok key after) :
    ∃ runs' count, after.Charted (space.Exposes .clear around) space parts runs' ∧
      (runs p.id).Fewest p payload.length count ∧
      runs' p.id = ((runs p.id).drop p count).push ((runs p.id).nextEntry p payload.length) ∧
      key = ⟨p.id, p.rowBehind (runs' p.id).row ((runs' p.id).entries.length - 1),
        (runs p.id).nextId⟩ ∧
      p.Stores (space.image after.media) (key.row, key.id) payload := by
  have c := Space.conduct_of_clear u t around
  have hyields := h.append_yields c laid hp payload
  rw [Action.Yields, ok] at hyields
  obtain ⟨rfl, -, count, hfewest, h'⟩ := hyields
  refine ⟨_, count, h', hfewest, Function.update_self .., ?_, ?_⟩
  · -- The last row of the chain is the one that was free.
    rw [Function.update_self, ← Run.freeRow_drop p hfewest.le]
    simp only [Run.push, List.length_append, List.length_singleton, Nat.add_sub_cancel]
    rfl
  · have hshaped : store.Shaped space parts fun m' =>
        ∃ image, space.Exposes .clear around image m' :=
      h.shaped.mono fun _ hm => hm.imp fun _ hm => hm.1
    obtain ⟨q, hq, hid, -, -, -, hstores⟩ := hshaped.stores_of_append u t laid ok
    obtain rfl := laid.eq_of_id hp hq hid
    exact hstores

/-- After any run without faults, tables and fill states are in order. An append that ends with a
key keeps them so: some of the oldest items of its partition are gone, and the last row of the order
is that of the key, and has the payload. -/
theorem ordered_of_operateAll {start stop : UInt32}
    (made : Space.create g g.eepromBytes g.flashBytes start stop = .ok space) (u : g.Uniform)
    (planned : space.plan slots base layouts = .ok parts) (faultless : m.Under .clear)
    (blank : ∀ p ∈ parts, (space.image m).slice p.base headerBytes ≠ Partition.magic)
    {mounted : Store g} (mounts : mount space slots base layouts m = .ok mounted)
    {operations : List Operation}
    (operates : mounted.operateAll slots base layouts operations = some store) (hp : p ∈ parts) :
    ∃ status entries, store.status p.id = .ok status ∧
      p.Ordered (space.image store.media) status entries ∧
      ∀ payload key after, append p.id payload store = .ok key after →
        ∃ status' count newest, after.status p.id = .ok status' ∧
          p.Ordered (space.image after.media) status' (entries.drop count ++ [newest]) ∧
          key = ⟨p.id, p.rowBehind status'.oldestRow (status'.stored - 1), newest.id⟩ ∧
          p.Stores (space.image after.media) (key.row, key.id) payload := by
  have t := Space.truthful_of_create made
  have laid := laid_of_plan planned
  have c := Space.conduct_of_clear u t (space.around m)
  obtain ⟨none, hnone⟩ : ∃ none : UInt8 → Run, ∀ id, none id = ⟨0, []⟩ := ⟨_, fun _ => rfl⟩
  have restarts : ∀ q ∈ parts, q.Restarts (space.image m) (none q.id) :=
    fun q hq => .inr ⟨blank q hq, hnone q.id⟩
  obtain ⟨mounted', _, hmount, -, h₀, -⟩ := mount_restarts c planned ⟨faultless, rfl, rfl⟩ restarts
  obtain rfl : mounted' = mounted := Except.ok.inj (hmount.symm.trans mounts)
  obtain ⟨runs, h⟩ := h₀.operateAll c planned operates
  obtain ⟨hstatus, hordered⟩ := h.ordered laid hp
  refine ⟨_, _, hstatus, hordered, fun payload key after ok => ?_⟩
  obtain ⟨runs', count, h', -, hruns', hkey, hstores⟩ := h.exists_of_append u t laid hp ok
  obtain ⟨hstatus', hordered'⟩ := h'.ordered laid hp
  refine ⟨_, count, (runs p.id).nextEntry p payload.length, hstatus', ?_, hkey, hstores⟩
  have hentries : (runs' p.id).entries =
      (runs p.id).entries.drop count ++ [(runs p.id).nextEntry p payload.length] :=
    congrArg Run.entries hruns'
  exact hentries ▸ hordered'

/-! ## Mounting whatever has chains -/

/-- Mounting without faults finds the chain of every partition that has one, and sets up those that
have no header. A chain whose ids have not gone on with zero is found as a whole, and stays as it
is; of another one the items from the id zero on are found, and the rows of those in front are
erased. -/
theorem restarted_of_mount {start stop : UInt32}
    (made : Space.create g g.eepromBytes g.flashBytes start stop = .ok space) (u : g.Uniform)
    (planned : space.plan slots base layouts = .ok parts) (faultless : m.Under .clear)
    (restarts : ∀ p ∈ parts, p.Restarts (space.image m) (runs p.id)) :
    ∃ store, mount space slots base layouts m = .ok store ∧ ∀ p ∈ parts,
      store.status p.id = .ok ((runs p.id).found p).status ∧
      p.Restarted (space.image m) (runs p.id) (space.image store.media) := by
  have t := Space.truthful_of_create made
  have laid := laid_of_plan planned
  have c := Space.conduct_of_clear u t (space.around m)
  obtain ⟨store, runs', hmount, hruns, h, image, hm, hrestarted⟩ :=
    mount_restarts c planned ⟨faultless, rfl, rfl⟩ restarts
  obtain rfl := hm.image
  refine ⟨store, hmount, fun p hp => ⟨?_, hrestarted p hp⟩⟩
  rw [← hruns p hp]
  exact (h.ordered laid hp).1

end Store

/-! ## Small examples -/

/-- Thirty-two bytes of eeprom, and all of the flash behind it. -/
def Space.roomy : Space (.tinyWith 32) where
  boundary := 32
  start := 0
  stop := 8
  start_mod := by decide
  stop_mod := by decide
  start_le_stop := Space.near.start_le_stop
  stop_lt := Space.near.stop_lt
  page_le_scratch := by decide
  word_le_limit := by decide
  total_lt := by decide

/-- A partition in the eeprom, with two rows and four bytes for payloads. -/
def Partition.roomy : Partition :=
  { Partition.near with
    maxItems := 2, maxItems_pos := Nat.two_pos, maxItems_lt := by decide, stop_lt := by decide }

/-- The space is accepted. -/
theorem Space.create_roomy : Space.create (.tinyWith 32) 32 8 0 8 = .ok Space.roomy := rfl

/-- The layout is accepted. -/
theorem Space.plan_roomy : Space.roomy.plan 1 0 [⟨7, 32, 2⟩] = .ok [Partition.roomy] := rfl

/-- Fresh memories have no header. -/
theorem Space.blank_roomy : ∀ p ∈ [Partition.roomy],
    (Space.roomy.image (Media.fresh _)).slice p.base headerBytes ≠ Partition.magic := by decide

namespace Store

/-- Two items and a search, a mounting, and an item that takes the place of the first one. -/
theorem ordered_of_operateAll_roomy :
    ∃ mounted store key after, mount Space.roomy 1 0 [⟨7, 32, 2⟩] (Media.fresh _) = .ok mounted ∧
      mounted.operateAll 1 0 [⟨7, 32, 2⟩] [.request (.append 7 [1, 2, 3]), .request (.append 7 []),
        .find 7 4 (fun bytes => fun calls => (bytes = [], calls + 1)) 0, .request .remount,
        .report 7] = some store ∧
      append 7 [4, 5] store = .ok key after ∧ key = ⟨7, 0, 2⟩ ∧ ∃ status entries,
        after.status 7 = .ok status ∧
        Partition.roomy.Ordered (Space.roomy.image after.media) status entries ∧
        Partition.roomy.Stores (Space.roomy.image after.media) (0, 2) [4, 5] := by
  have run : ((mount Space.roomy 1 0 [⟨7, 32, 2⟩] (Media.fresh _)).toOption.bind fun mounted =>
      (mounted.operateAll 1 0 [⟨7, 32, 2⟩] [.request (.append 7 [1, 2, 3]), .request (.append 7 []),
        .find 7 4 (fun bytes => fun calls => (bytes = [], calls + 1)) 0, .request .remount,
        .report 7]).map fun store => (append 7 [4, 5]).given store) =
      some (some ⟨7, 0, 2⟩) := by decide +kernel
  obtain ⟨mounted, hmounted, run⟩ := Option.bind_eq_some_iff.mp run
  obtain ⟨store, operates, given⟩ := Option.map_eq_some_iff.mp run
  have mounts := mount_of_toOption hmounted
  have ok := Action.eq_ok_of_given given
  obtain ⟨_, entries, -, -, happend⟩ := ordered_of_operateAll Space.create_roomy
    (Geometry.uniform_tinyWith 32) Space.plan_roomy (Media.under_clear_fresh _) Space.blank_roomy
    mounts operates (List.mem_singleton_self _)
  obtain ⟨status, count, newest, hstatus, hordered, -, hstores⟩ := happend _ _ _ ok
  exact ⟨mounted, store, _, _, mounts, operates, ok, rfl, status, _, hstatus, hordered, hstores⟩

end Store

/-- The last item that gets the largest id, and the one behind it, which gets zero. -/
def Run.turning : Run := ⟨0, [⟨0xFFFFFFFF, 0, 1⟩, ⟨0, 1, 1⟩]⟩

/-- Memories with these two items. -/
def Media.turning : Media (.tinyWith 32) :=
  let fresh := Media.fresh (.tinyWith 32)
  let rows := Run.turning.entries.flatMap Row.encode
  { fresh with
    eeprom := { fresh.eeprom with
      memory := fresh.eeprom.memory.combine (fun _ _ byte => byte) 0 (Partition.magic ++ rows) } }

/-- The two items are a chain, across the turn of the ids. -/
theorem Media.charts_turning :
    Partition.roomy.Charts (Space.roomy.image Media.turning) Run.turning where
  header := by decide +kernel
  tabled := ⟨by decide, by decide, by decide, by decide, by decide +kernel⟩
  linked := by decide

namespace Store

/-- Of two items with the largest id and zero, mounting finds the second one. -/
theorem restarted_of_mount_turning :
    ∃ store, mount Space.roomy 1 0 [⟨7, 32, 2⟩] Media.turning = .ok store ∧
      store.status 7 = .ok ⟨1, 1, 1⟩ ∧
      Partition.roomy.Restarted (Space.roomy.image Media.turning) Run.turning
        (Space.roomy.image store.media) := by
  have faultless : Media.turning.Under .clear := ⟨⟨rfl, rfl, by decide⟩, rfl⟩
  obtain ⟨runs, hruns⟩ : ∃ runs : UInt8 → Run, runs 7 = Run.turning := ⟨fun _ => _, rfl⟩
  have restarts : ∀ p ∈ [Partition.roomy],
      p.Restarts (Space.roomy.image Media.turning) (runs p.id) := by
    refine List.forall_mem_singleton.mpr (.inl ?_)
    rw [show Partition.roomy.id = 7 from rfl, hruns]
    exact Media.charts_turning
  obtain ⟨store, hmount, h⟩ := restarted_of_mount Space.create_roomy (Geometry.uniform_tinyWith 32)
    Space.plan_roomy faultless restarts
  obtain ⟨hstatus, hrestarted⟩ := h _ (List.mem_singleton_self _)
  rw [show Partition.roomy.id = 7 from rfl, hruns] at hstatus hrestarted
  exact ⟨store, hmount, hstatus, hrestarted⟩

/-- Mounting does not find the whole chain where the ids have gone on with zero: of two items that
follow each other it counts one, and erases the row of the other. -/
theorem not_restarted_whole :
    Partition.roomy.Charts (Space.roomy.image Media.turning) Run.turning ∧
    ∃ store, mount Space.roomy 1 0 [⟨7, 32, 2⟩] Media.turning = .ok store ∧
      store.status 7 = .ok ⟨1, 1, 1⟩ ∧ Run.turning.status = ⟨0, 2, 2⟩ ∧
      Partition.roomy.rowAt (Space.roomy.image store.media) 0 = none := by
  refine ⟨Media.charts_turning, ?_⟩
  have run : (mount Space.roomy 1 0 [⟨7, 32, 2⟩] Media.turning).toOption.map (fun store =>
      (store.status 7, Partition.roomy.rowAt (Space.roomy.image store.media) 0)) =
      some (.ok ⟨1, 1, 1⟩, none) := by decide +kernel
  obtain ⟨store, hstore, run⟩ := Option.map_eq_some_iff.mp run
  obtain ⟨hstatus, herased⟩ := Prod.mk.inj run
  exact ⟨store, mount_of_toOption hstore, hstatus, rfl, herased⟩

end Store

end CircularLog
