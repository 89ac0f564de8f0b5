import CircularLog.Proofs.Repeat
import CircularLog.Proofs.Store.Independence
import CircularLog.Proofs.Store.Lookup

/-!
# Acknowledged appends are exact

Whatever the drivers do wrong while an item is appended, if no reading lies and the append ends with
a key, then the run was as good as one without faults: the key, the fill states and the contents of
the memories are the same (`exact_of_acknowledged`). So the key fetches exactly the payload, and a
store that is mounted again finds the queue with the payload at its end; but once the ids have been
used up and gone on with zero, it finds no older items than that with the id zero
(`Store.not_exact_of_turning`).
-/

namespace CircularLog

variable {g : Geometry} {space : Space g} {parts : List Partition} {p : Partition} {m : Media g}
  {payload : Bytes}

namespace Store

variable {store : Store g} {slots base : Nat} {layouts : List Layout} {operations : List Operation}

/-- After any number of operations without faults, the store is over its space with its partitions,
and there is still nothing wrong with the memories. -/
theorem shaped_of_operateAll (u : g.Uniform) (t : space.Truthful)
    (planned : space.plan slots base layouts = .ok parts) (faultless : m.Under .clear)
    {mounted : Store g} (mounts : mount space slots base layouts m = .ok mounted)
    (reaches : mounted.operateAll slots base layouts operations = some store) :
    store.Shaped space parts fun m' => ∃ image, space.Exposes .clear (space.around m) image m' := by
  have laid := laid_of_plan planned
  have c := Space.conduct_of_clear u t (space.around m)
  have k (p : Partition) (hp : p ∈ parts) : space.Tends p.base p.stop fun m' =>
      ∃ image, space.Exposes .clear (space.around m) image m' :=
    c.tends Space.Mishap.mild_never (laid.inside p hp)
  exact (shaped_of_mount planned k ⟨_, faultless, rfl, rfl⟩ mounts).operateAll laid
    k planned reaches

/-- If an append ends with a key in spite of faults, and no reading has lied, it has gone as without
faults: it gives the same key and leaves the same fill states and the same contents. Its payload is
fetched by the key, before and after a mounting. The mounting finds of each chain what `Run.found`
says, which is the whole of it unless its ids have gone on with zero; so as long as they have not
been used up, it finds all items that there should be. -/
theorem exact_of_acknowledged {start stop : UInt32}
    (made : Space.create g g.eepromBytes g.flashBytes start stop = .ok space) (u : g.Uniform)
    (planned : space.plan slots base layouts = .ok parts) (faultless : m.Under .clear)
    (blank : ∀ p ∈ parts, (space.image m).slice p.base headerBytes ≠ Partition.magic)
    {mounted : Store g} (mounts : mount space slots base layouts m = .ok mounted)
    (reaches : mounted.operateAll slots base layouts operations = some store)
    {faulty : Media g} (honest : faulty.Honest)
    (shows : faulty.Shows store.media.eeprom.memory.toBytes store.media.flash.memory.toBytes)
    {id : UInt8} {key : Key} {after : Store g}
    (ok : append id payload { store with media := faulty } = .ok key after) :
    (∃ clean, append id payload store = .ok key clean ∧ after.volumes = clean.volumes ∧
      space.image after.media = space.image clean.media ∧
      space.around after.media = space.around clean.media) ∧
    ∀ again : Media g, again.Under .clear → space.image again = space.image after.media →
      (∀ capacity, payload.length ≤ capacity →
        ∃ left, fetch key capacity { after with media := again } = .ok payload left) ∧
      ∃ remounted, mount space slots base layouts again = .ok remounted ∧
        (∀ capacity, payload.length ≤ capacity →
          ∃ left, fetch key capacity remounted = .ok payload left) ∧
        (∀ p ∈ parts, ∃ run, p.Charts (space.image again) run ∧
          after.status p.id = .ok run.status ∧
          remounted.status p.id = .ok (run.found p).status ∧
          p.Restarted (space.image again) run (space.image remounted.media)) ∧
        ((∀ p ∈ parts,
            storedBy p (operations ++ [.request (.append id payload)]) ≤ 0x1_0000_0000) →
          ∀ p ∈ parts, remounted.Finds p
            (p.queue (payloadsIn p (operations ++ [.request (.append id payload)])))) := by
  have t := Space.truthful_of_create made
  have laid := laid_of_plan planned
  have c := Space.conduct_of_clear u t (space.around m)
  have shaped := shaped_of_operateAll u t planned faultless mounts reaches
  obtain ⟨image, hm⟩ := shaped.media
  -- The two runs start from the same contents.
  have same : Mirrors space { store with media := faulty } store := by
    refine ⟨shaped.space, shaped.space, ⟨honest, hm.under, ?_, ?_⟩, rfl, rfl⟩
    · rw [space.image_eq, shows.eeprom, shows.flash, ← space.image_eq]
    · rw [Space.around, shows.flash, ← Space.around]
  obtain ⟨clean, hclean, hsame⟩ := repeats_append u t id payload _ _ same key after ok
  refine ⟨⟨clean, hclean, hsame.volumes, hsame.media.image, hsame.media.around⟩, ?_⟩
  intro again under himage
  rw [hsame.media.image] at himage
  obtain ⟨p, hp, rfl, hkey, unfaulted, hshaped, hstores⟩ :=
    shaped.stores_of_append u t laid hclean
  -- The mounting starts from the chains that the run without faults has left.
  obtain ⟨runs, hcharted, -⟩ :=
    charted_of_operateAll c planned ⟨faultless, rfl, rfl⟩ blank mounts reaches
  obtain ⟨runs', count, hcharted', -, hruns', rfl, -⟩ :=
    hcharted.exists_of_append u t laid hp hclean
  obtain ⟨_, hm', hcharts⟩ := hcharted'.charts
  obtain rfl := hm'.image
  rw [← himage] at hcharts hstores
  have c' := Space.conduct_of_clear u t (space.around again)
  have hagain : space.Exposes .clear (space.around again) (space.image again) again :=
    ⟨under, rfl, rfl⟩
  obtain ⟨remounted, found, hmount, hfound, hremounted, _, hm'', hrestarted⟩ :=
    mount_restarts c' planned hagain fun q hq => .inl (hcharts q hq)
  obtain rfl := hm''.image
  have fits := laid.inside p hp
  have some : (runs' p.id).entries ≠ [] := by
    rw [hruns']
    exact List.append_ne_nil_of_right_ne_nil _ (List.cons_ne_nil _ _)
  have hlast := Nat.sub_lt (List.length_pos_iff.mpr some) Nat.one_pos
  have hkept := (hrestarted p hp).stores (hcharts p hp) ((c'.length hagain).symm ▸ fits)
    ((c'.length hm'').symm ▸ fits) (Nat.le_sub_one_of_lt (Run.wrapped_lt some)) hlast hstores
  refine ⟨fun capacity hcapacity => ?_, remounted, hmount, fun capacity hcapacity => ?_,
    fun q hq => ?_,
    fun few => ?_⟩
  · have hafter : { after with media := again } = { clean with media := again } := by
      obtain ⟨hleft, hright, -, hvolumes, hfaulted⟩ := hsame
      obtain ⟨space₁, media₁, volumes₁, faulted₁⟩ := after
      obtain ⟨space₂, media₂, volumes₂, faulted₂⟩ := clean
      simp_all
    rw [hafter]
    exact hshaped.fetch_of_stores u t laid hp unfaulted rfl (himage ▸ hstores) under
      himage hcapacity
  · exact hremounted.shaped.fetch_of_stores u t laid hp (faulted_of_mount hmount) rfl hkept
      hm''.under rfl hcapacity
  · refine ⟨runs' q.id, hcharts q hq, ?_, ?_, hrestarted q hq⟩
    · rw [status, volume, hsame.volumes]
      exact (hcharted'.ordered laid hq).1
    · rw [← hfound q hq]
      exact (hremounted.ordered laid hq).1
  · -- The run without faults has put the payload into the queue.
    have hreaches : mounted.operateAll slots base layouts
        (operations ++ [.request (.append p.id payload)]) = Option.some clean := by
      rw [operateAll_append, reaches, Option.bind_some, operateAll, operate, serve, left, hclean]
      rfl
    obtain ⟨clean', logs, hrun, hsound, shelves⟩ := shelves_of_mount c planned ⟨faultless, rfl, rfl⟩
      blank mounts few
    obtain rfl : clean' = clean := Option.some.inj (hrun.symm.trans hreaches)
    obtain ⟨image', hm', holds⟩ := hsound.holds
    rw [← himage.trans hm'.image] at holds
    obtain ⟨remounted', hmount', hfinds⟩ := mount_finds c' planned hagain holds
    obtain rfl : remounted' = remounted := Except.ok.inj (hmount'.symm.trans hmount)
    exact fun q hq => (shelves q hq).queue ▸ hfinds q hq

end Store

/-! ## A small example -/

/-- The memories when the flash is about to program one byte only and to report a failure, and the
eeprom to answer one poll with busy. -/
def Media.stuttering (m : Media g) : Media g :=
  { m with
    faults := [⟨[(.flash, .write)], 0, some 1, ⟨1, some .other, [], false⟩⟩,
      ⟨[(.eeprom, .poll)], 0, some 1, ⟨0, none, [], true⟩⟩] }

/-- No reading lies meanwhile. -/
theorem Media.honest_stuttering (m : Media g) : m.stuttering.Honest := by
  simp [Honest, stuttering, Fault.Honest]

/-- An item takes the place of another one, and half of its payload is programmed at first. -/
theorem Store.exact_of_acknowledged_small :
    ∃ mounted store, mount Space.small 1 0 [⟨7, 28, 1⟩] (Media.fresh .small) = .ok mounted ∧
      mounted.operateAll 1 0 [⟨7, 28, 1⟩] [.request (.append 7 [1, 2, 3])] = some store ∧
      ∃ key after clean,
        append 7 [4, 5] { store with media := store.media.stuttering } = .ok key after ∧
        append 7 [4, 5] store = .ok key clean ∧ after.volumes = clean.volumes ∧
        Space.small.image after.media = Space.small.image clean.media := by
  -- The append ends with a key, although the flash fails at first.
  have run : ((mount Space.small 1 0 [⟨7, 28, 1⟩] (Media.fresh .small)).toOption.bind fun mounted =>
      (mounted.operateAll 1 0 [⟨7, 28, 1⟩] [.request (.append 7 [1, 2, 3])]).map fun store =>
        match append 7 [4, 5] { store with media := store.media.stuttering } with
        | .ok _ after => after.media.flash.writes - store.media.flash.writes
        | .error _ _ => 0) = some 2 := by decide +kernel
  obtain ⟨mounted, hmounted, run⟩ := Option.bind_eq_some_iff.mp run
  obtain ⟨store, reaches, run⟩ := Option.map_eq_some_iff.mp run
  have mounts := mount_of_toOption hmounted
  cases ok : append 7 [4, 5] { store with media := store.media.stuttering } with
  | error stop after => simp [ok] at run
  | ok key after =>
    obtain ⟨⟨clean, hclean, hvolumes, himage, -⟩, -⟩ := exact_of_acknowledged Space.create_small
      Geometry.uniform_small Space.plan_small (Media.under_clear_fresh _) Space.blank_small mounts
      reaches store.media.honest_stuttering ⟨rfl, rfl⟩ ok
    exact ⟨mounted, store, mounts, reaches, key, after, clean, ok, hclean, hvolumes, himage⟩

/-! ## Running out of ids -/

/-- Of any number of equal bytes that have been put into two rows, the last two are left. -/
theorem Partition.queue_roomy (count : Nat) :
    roomy.queue (List.replicate (count + 2) [1]) = [[1], [1]] := by
  induction count with
  | zero => decide
  | succ count ih =>
    rw [List.replicate_succ', queue, List.foldl_append]
    show roomy.enqueue (roomy.queue _) [1] = _
    rw [ih]
    decide

/-- Of two entries of which the newer one has the largest id, an append takes out the older one and
puts the id zero behind the other. There are two entries then, of which the second one is found
again. -/
theorem Run.status_of_largest {run : Run} {older newest : Row}
    (entries : run.entries = [older, newest]) (largest : newest.id = 0xFFFFFFFF)
    (length : newest.length = 1) {count : Nat} (fewest : run.Fewest Partition.roomy 1 count) :
    ∃ row row',
      ((run.drop Partition.roomy count).push (run.nextEntry Partition.roomy 1)).status =
        ⟨row, 2, 2⟩ ∧
      (((run.drop Partition.roomy count).push (run.nextEntry Partition.roomy 1)).found
        Partition.roomy).status = ⟨row', 1, 1⟩ := by
  have hlength : newest.length.toNat = 1 := congrArg UInt16.toNat length
  -- There is no row for a third entry, and with one taken out there is.
  obtain rfl : count = 1 := by
    have room := fewest.room.2
    have none := fewest.none 1
    rw [entries] at room none
    rcases count with _ | _ | count
    · exact absurd room (by simp [Partition.roomy])
    · rfl
    · refine absurd ⟨?_, ?_⟩ (none (by omega))
      · simp [hlength, Partition.roomy, Partition.near]
      · simp [Partition.roomy]
  have hdrop : (run.drop Partition.roomy 1).entries = [newest] := congrArg (List.drop 1) entries
  have hnext : (run.nextEntry Partition.roomy 1).length.toNat = 1 := rfl
  generalize run.nextEntry Partition.roomy 1 = next at hnext
  have hentries : ((run.drop Partition.roomy 1).push next).entries = [newest, next] :=
    congrArg (· ++ [next]) hdrop
  -- The entry that is left has the largest id, so the next one turns.
  have hwrapped : ((run.drop Partition.roomy 1).push next).wrapped = 1 := by
    rw [Run.wrapped, hentries]
    simp [largest]
  refine ⟨((run.drop Partition.roomy 1).push next).row,
    (((run.drop Partition.roomy 1).push next).found Partition.roomy).row, ?_, ?_⟩
  · rw [Run.status, hentries]
    simp [hlength, hnext]
  · rw [Run.status, Run.entries_found, hwrapped, hentries]
    simp [hnext]

/-- An append behind as many others as there are ids ends with a key, and the partition has two
items. A mounting finds one of them: the ids have gone on with zero in front of it. -/
theorem Store.not_exact_of_turning :
    ∃ mounted store key after remounted,
      mount Space.roomy 1 0 [⟨7, 32, 2⟩] (Media.fresh _) = .ok mounted ∧
      mounted.operateAll 1 0 [⟨7, 32, 2⟩]
        (List.replicate 0x1_0000_0000 (.request (.append 7 [1]))) = some store ∧
      append 7 [2] store = .ok key after ∧
      mount Space.roomy 1 0 [⟨7, 32, 2⟩] after.media = .ok remounted ∧
      ∃ row row', after.status 7 = .ok ⟨row, 2, 2⟩ ∧ remounted.status 7 = .ok ⟨row', 1, 1⟩ := by
  -- The number stays a variable, so that nothing counts up to it.
  obtain ⟨count, hcount⟩ : ∃ count, count + 2 = 0x1_0000_0000 := ⟨0xFFFF_FFFE, rfl⟩
  rw [← hcount]
  have u := Geometry.uniform_tinyWith 32
  have t := Space.truthful_of_create Space.create_roomy
  have laid := laid_of_plan Space.plan_roomy
  have hp : Partition.roomy ∈ [Partition.roomy] := List.mem_singleton_self _
  have c := Space.conduct_of_clear u t (Space.roomy.around (Media.fresh _))
  have hm : Space.roomy.Exposes .clear (Space.roomy.around (Media.fresh _))
      (Space.roomy.image (Media.fresh _)) (Media.fresh _) := ⟨Media.under_clear_fresh _, rfl, rfl⟩
  have stored : payloadsIn Partition.roomy
      (List.replicate (count + 2) (.request (.append 7 [1]))) = List.replicate (count + 2) [1] :=
    List.filterMap_replicate_of_some (by decide)
  have few : ∀ p ∈ [Partition.roomy],
      storedBy p (List.replicate (count + 2) (.request (.append 7 [1]))) ≤ 0x1_0000_0000 := by
    refine List.forall_mem_singleton.mpr ?_
    rw [← length_payloadsIn, stored, List.length_replicate]
    exact Nat.le_of_eq hcount
  obtain ⟨mounted, mounts, -⟩ := mount_after c Space.plan_roomy hm Space.blank_roomy
  obtain ⟨store, logs, reaches, sound, shelves⟩ :=
    shelves_of_mount c Space.plan_roomy hm Space.blank_roomy mounts few
  -- The two items that are left have the last two ids.
  have shelf := shelves _ hp
  rw [stored] at shelf
  have items := shelf.queue.trans (Partition.queue_roomy count)
  have ids : (logs Partition.roomy.id).id + 2 = count + 2 := by
    have hids := shelf.ids
    rwa [items, List.length_replicate] at hids
  obtain ⟨runs, charted, hruns⟩ := sound.charted laid
  obtain ⟨older, newest, entries, largest, length⟩ : ∃ older newest : Row,
      (runs Partition.roomy.id).entries = [older, newest] ∧ newest.id = 0xFFFFFFFF ∧
        newest.length = 1 := by
    rw [hruns _ hp, Partition.runOf, items]
    refine ⟨_, _, rfl, ?_, rfl⟩
    have hid : (logs Partition.roomy.id).id + 1 = 0xFFFFFFFF := by omega
    exact congrArg UInt32.ofNat hid
  -- The append puts the id zero behind them.
  obtain ⟨key, after, ok, -⟩ := (charted.exchanges u t laid sound.faulted hp [2]).exists_ok
    fun _ _ h => h.2.1 (by decide)
  obtain ⟨runs', gone, charted', fewest, hruns', -⟩ := charted.exists_of_append u t laid hp ok
  obtain ⟨row, row', before, behind⟩ := Run.status_of_largest entries largest length fewest
  obtain ⟨image, hm', hcharts⟩ := charted'.charts
  obtain ⟨remounted, found, remounts, hfound, hremounted, -⟩ :=
    mount_restarts c Space.plan_roomy hm' fun p hp => .inl (hcharts p hp)
  refine ⟨mounted, store, key, after, remounted, mounts, reaches, ok, remounts, row, row', ?_, ?_⟩
  · rw [← before]
    exact hruns' ▸ (charted'.ordered laid hp).1
  · rw [← behind]
    exact hruns' ▸ hfound _ hp ▸ (hremounted.ordered laid hp).1

end CircularLog
