import CircularLog.Proofs.Partition.Reboot
import CircularLog.Proofs.Store.Start

/-!
# Mounting again

Whatever the memories held when a store was made of them, each partition rests in its run from then
on (`Partition.Started.rests`). So to mount the memories of the store again is to read them and to
come to the same fill states; nothing is written and nothing is erased (`rebooted_of_mount`).
-/

namespace CircularLog

variable {g : Geometry} {space : Space g} {parts : List Partition} {sound : Bytes → Media g → Prop}
  {m : Media g} {image : Bytes} {runs : UInt8 → Run} {slots base : Nat} {layouts : List Layout}

namespace Store

/-- Where all partitions rest, mounting them is reading. -/
theorem mountEach_reads (c : space.Legible 0 space.total sound .never)
    (inside : ∀ p ∈ parts, p.stop ≤ space.total) (rests : ∀ p ∈ parts, p.Rests image (runs p.id))
    (hm : sound image m) :
    (mountEach space parts).Ends m
      (fun volumes m' => sound image m' ∧ volumes = parts.map fun p => ⟨p, (runs p.id).status⟩)
      (fun _ _ => False) := by
  induction parts generalizing m with
  | nil => exact ⟨hm, rfl⟩
  | cons p rest ih =>
    obtain ⟨fits, inside⟩ := List.forall_mem_cons.mp inside
    obtain ⟨hrests, rests⟩ := List.forall_mem_cons.mp rests
    have hstart := hrests.start_reads (c.within (Nat.zero_le _) fits) hm
    simp only [mountEach, Action.ends_bind, Action.ends_pure] at hstart ⊢
    apply hstart.mono ?_ fun _ _ h => Space.not_halts h
    intro _ m₁ h₁
    apply h₁.mono ?_ fun _ _ h => Space.not_halts h
    rintro _ m₂ ⟨h₂, rfl⟩
    apply (ih inside rests h₂).mono ?_ fun _ _ h => h
    rintro _ m₃ ⟨h₃, rfl⟩
    exact ⟨h₃, rfl⟩

/-- Once memories have been mounted without faults, whatever they held, mounting them again gives
the same volumes, and makes no driver call but readings. -/
theorem rebooted_of_mount {start stop : UInt32}
    (made : Space.create g g.eepromBytes g.flashBytes start stop = .ok space) (u : g.Uniform)
    (faultless : m.Under .clear) {store : Store g}
    (mounts : mount space slots base layouts m = .ok store) :
    ∃ again, mount space slots base layouts store.media = .ok again ∧
      again.volumes = store.volumes ∧ (∀ id, again.status id = store.status id) ∧
      (∃ calls, again.media.journal = calls ++ store.media.journal ∧
        ∀ call ∈ calls, call.access = .read) ∧
      again.media.eeprom.memory = store.media.eeprom.memory ∧
      again.media.flash.memory = store.media.flash.memory := by
  have t := Space.truthful_of_create made
  have c := Space.conduct_of_clear u t (space.around m)
  obtain ⟨parts, planned⟩ := exists_plan_of_mount mounts
  have hm : space.Exposes .clear (space.around m) (space.image m) m := ⟨faultless, rfl, rfl⟩
  rcases mount_starts c planned hm with
    ⟨_, runs, hmount, hsteady, -, image, hm', hlaunched⟩ | ⟨m', hmount, -⟩
  · obtain rfl := Except.ok.inj (mounts.symm.trans hmount)
    obtain rfl := hm'.image
    -- From here on the calls are readings, as mounting what rests needs no others.
    have reading : space.image store.media = space.imageOf store.media.eeprom.memory.toBytes
        store.media.flash.memory.toBytes ∧ Media.Stands (.reading store.media.journal)
          store.media.eeprom.memory.toBytes store.media.flash.memory.toBytes store.media :=
      ⟨rfl, ⟨hm'.under.able, hm'.under.phase, [], rfl, nofun⟩, rfl, rfl⟩
    have c' := Space.legible_of_reading u t (Space.fits_contents t store.media) store.media.journal
    obtain ⟨volumes, m', hrun, ⟨-, hunder, hshows⟩, rfl⟩ :=
      (mountEach_reads c' (laid_of_plan planned).inside
      (fun p hp => (hlaunched.started p hp).rests) reading).exists_ok fun _ _ => id
    have hvolumes := hsteady.volumes
    refine ⟨⟨space, m', _, false⟩, ?_, hvolumes.symm, fun id => ?_, hunder.phase.2, ?_, ?_⟩
    · rw [mount_of_plan planned, hrun]
    · simp only [status, volume, hvolumes]
    · exact Memory.eq_of_toBytes hshows.eeprom
    · exact Memory.eq_of_toBytes hshows.flash
  · rw [hmount] at mounts
    cases mounts

/-- Where the first mounting has erased a stray row, the second one reads what is left. -/
theorem rebooted_of_mount_scattered :
    ∃ store again, mount Space.roomy 1 0 [⟨7, 32, 2⟩] Media.scattered = .ok store ∧
      store.media.eeprom.memory ≠ Media.scattered.eeprom.memory ∧
      mount Space.roomy 1 0 [⟨7, 32, 2⟩] store.media = .ok again ∧ again.status 7 = .ok ⟨1, 1, 2⟩ ∧
      again.media.eeprom.memory = store.media.eeprom.memory := by
  have run : (mount Space.roomy 1 0 [⟨7, 32, 2⟩] Media.scattered).toOption.map (fun store =>
      (store.status 7, Partition.roomy.rowCells store.media.eeprom.memory.toBytes 0)) =
      some (.ok ⟨1, 1, 2⟩, Row.erased) := by decide +kernel
  obtain ⟨store, hstore, run⟩ := Option.map_eq_some_iff.mp run
  obtain ⟨hfound, hrow⟩ := Prod.mk.inj run
  have hmount := mount_of_toOption hstore
  obtain ⟨again, hagain, -, hstatus, -, heeprom, -⟩ :=
    rebooted_of_mount Space.create_roomy (Geometry.uniform_tinyWith 32)
      Media.under_clear_scattered hmount
  refine ⟨store, again, hmount, fun hsame => ?_, hagain, (hstatus 7).trans hfound, heeprom⟩
  rw [hsame] at hrow
  exact absurd hrow (by decide +kernel)

end Store

end CircularLog
