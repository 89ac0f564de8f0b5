import CircularLog.Proofs.Partition.Slow
import CircularLog.Proofs.Store.Host
import CircularLog.Proofs.Store.Iteration

/-!
# A slow eeprom

An append to a partition in the eeprom may find the eeprom busy for too long behind any of its
writes. The latch stays open then, and the store is as sound as before, without some of the oldest
items (`Sound.append_slow`), so the append can be made again (`resumes_of_slow`). Only if the eeprom
is busy for too long behind a write, and again behind the erasing of the new row, the latch is set;
then the append can be made again when the store has been mounted again. With an eeprom that is
never done it comes to that (`not_resumes_of_stalling`).
-/

namespace CircularLog

namespace Store

open Phase (slow)

variable {g : Geometry} {space : Space g} {parts : List Partition} {p : Partition}
  {logs : UInt8 → Log} {store : Store g} {image : Bytes} {slots base : Nat} {layouts : List Layout}
  {around : Bytes × Bytes} {payload : Bytes}

/-- Other faults make no difference to how sound a store is. -/
theorem Sound.facing {phase phase' : Phase} {plan : List Fault}
    (h : store.Sound (space.Exposes phase around) space parts logs) (hplan : phase' plan []) :
    (store.facing plan).Sound (space.Exposes phase' around) space parts logs := by
  obtain ⟨image, hm, holds⟩ := h.holds
  exact ⟨h.space, h.volumes, h.faulted, ⟨image, hm.facing hplan, holds⟩, h.settled⟩

/-- A partition that has been restored leaves a sound store. -/
theorem Sound.restored {sound : Bytes → Media g → Prop} (h : store.Sound sound space parts logs)
    (laid : Laid space parts) (hp : p ∈ parts) (hlen : image.length = space.total)
    (holds : ∀ q ∈ parts, q.Holds image (logs q.id)) {m' : Media g} {status : Status}
    (restored : p.Restored sound image (logs p.id) (m', status)) :
    ∃ count, Sound sound space parts
      (Function.update logs p.id (p.popMany count (logs p.id)).found)
      ⟨space, m', Volume.update p.id status store.volumes, false⟩ := by
  obtain ⟨count, image', hm', hconfined, hleft, rfl⟩ := restored
  refine ⟨count, rfl, ?_, rfl, ⟨image', hm', ?_⟩, ?_⟩
  · rw [h.volumes, Volume.update_status]
  · exact laid.holds_update hp hlen holds hconfined hleft.found
  · exact laid.forall_update hp (motive := fun _ => Log.Settled) (Log.settled_found _)
      fun q hq _ => h.settled q hq

/-- An append in a slow eeprom stores the item; or the eeprom was busy for too long, and the store
is sound, without some of the oldest items of the partition; or that has happened twice, and the
memories are sound. -/
theorem Sound.append_slow (h : store.Sound (space.Exposes slow around) space parts logs)
    (u : g.Uniform) (t : space.Truthful) (laid : Laid space parts) (hp : p ∈ parts)
    (eeprom : p.stop ≤ space.boundary) (storable : p.Storable payload)
    (ids : (logs p.id).id + (logs p.id).items.length < 0x1_0000_0000) :
    (append p.id payload).Ends store (fun _ after => after.faulted = false)
      fun e after => ∃ count,
        (e = .busy ∧ after.Sound (space.Exposes slow around) space parts
          (Function.update logs p.id (p.popMany count (logs p.id)).found)) ∨
        (e = .inconsistent ∧ p.StalledTwice after.media.journal ∧
          ∃ image, space.Exposes slow around image after.media ∧ ∀ q ∈ parts,
            q.Holds image (Function.update logs p.id (p.popMany count (logs p.id)) q.id)) := by
  obtain ⟨image, hopen, holds⟩ := h.exists_open
  have hlen : image.length = space.total := by rw [← hopen.media.image, space.length_image t]
  have happend := Partition.append_slow u t eeprom hopen.media (holds p hp) (h.settled p hp)
    storable ids
  apply (hopen.append_ends (h.known laid hp) happend).mono
  · rintro _ _ ⟨_, m', status, -, -, rfl⟩
    rfl
  · rintro e _ ⟨m', status, ⟨rfl, hrestored⟩ | ⟨rfl, htwice, image', hrolled, hm'⟩, rfl⟩
    · obtain ⟨count, hsound⟩ := h.restored laid hp hlen holds hrestored
      exact ⟨count, .inl ⟨rfl, hsound⟩⟩
    · obtain ⟨hconfined, _, ⟨count, rfl⟩, hleft⟩ := hrolled
      exact ⟨count, .inr ⟨rfl, htwice, image', hm',
        laid.holds_update hp hlen holds hconfined hleft⟩⟩

/-- Without faults, something can be appended where only some of the items are left. -/
theorem Sound.append_left (h : store.Sound (space.Exposes .clear around) space parts logs)
    (u : g.Uniform) (t : space.Truthful) (laid : Laid space parts) (hp : p ∈ parts)
    (storable : p.Storable payload) {count : Nat} {log : Log}
    (left : logs p.id = (p.popMany count log).found)
    (ids : log.id + log.items.length < 0x1_0000_0000) :
    ∃ key last, append p.id payload store = .ok key last := by
  have hids := calc (logs p.id).id + (logs p.id).items.length
    _ = (p.popMany count log).found.id + (p.popMany count log).found.items.length := by rw [left]
    _ ≤ (p.popMany count log).id + (p.popMany count log).items.length := Log.ids_found_le _
    _ = log.id + log.items.length := (p.free_popMany count log).2.1
    _ < 0x1_0000_0000 := ids
  obtain ⟨last, _, hrun, -⟩ :=
    h.append_ok (Space.conduct_of_clear u t around) laid hp storable hids
  exact ⟨_, last, hrun⟩

/-- A run without faults starts on memories without headers, and then an append is made to a
partition that lies in the eeprom, while the eeprom is slow. If the eeprom is busy for too long, the
latch stays open, and the append can be made again when the eeprom answers in time. If that is so
twice in a row, behind a write and behind the erasing of the new row, the append can be made again
when the store has been mounted again. -/
theorem resumes_of_slow {start stop : UInt32}
    (made : Space.create g g.eepromBytes g.flashBytes start stop = .ok space) (u : g.Uniform)
    (planned : space.plan slots base layouts = .ok parts) {m : Media g} (faultless : m.Under .clear)
    (blank : ∀ p ∈ parts, (space.image m).slice p.base headerBytes ≠ Partition.magic)
    {mounted : Store g} (mounts : mount space slots base layouts m = .ok mounted)
    {operations : List Operation}
    (reaches : mounted.operateAll slots base layouts operations = some store)
    (few : ∀ p ∈ parts, storedBy p operations < 0x1_0000_0000) (hp : p ∈ parts)
    (eeprom : p.stop ≤ space.boundary) {plan : List Fault} (slow : ∀ fault ∈ plan, fault.Slow)
    (payload : Bytes) :
    (append p.id payload).Ends (store.facing plan) (fun _ after => after.faulted = false)
      fun e after =>
        (e = .outOfRoom ∧ ¬ p.Storable payload ∧ after = store.facing plan) ∨
        (e = .busy ∧ after.faulted = false ∧
          ∃ key last, append p.id payload (after.facing []) = .ok key last) ∨
        (e = .inconsistent ∧ p.StalledTwice after.media.journal ∧
          ∃ again key last, mount space slots base layouts (after.media.facing []) = .ok again ∧
            append p.id payload again = .ok key last) := by
  have t := Space.truthful_of_create made
  have c := Space.conduct_of_clear u t (space.around m)
  have laid := laid_of_plan planned
  obtain ⟨logs, h, hids⟩ := sound_of_operateAll c planned ⟨faultless, rfl, rfl⟩ blank mounts reaches
    fun p hp => Nat.le_of_lt (few p hp)
  have ids : (logs p.id).id + (logs p.id).items.length < 0x1_0000_0000 := hids p hp ▸ few p hp
  have hslow : (store.facing plan).Sound (space.Exposes .slow (space.around m)) space parts logs :=
    h.facing slow
  by_cases storable : p.Storable payload
  · apply (hslow.append_slow u t laid hp eeprom storable ids).mono
    · exact fun _ _ h' => h'
    · rintro e after ⟨count, ⟨rfl, hsound⟩ | ⟨rfl, htwice, image, hm, holds⟩⟩
      · -- The store goes on from the fill state that it has found.
        have hclear : (after.facing []).Sound (space.Exposes .clear (space.around m)) space parts
            (Function.update logs p.id (p.popMany count (logs p.id)).found) := hsound.facing rfl
        exact .inr (.inl ⟨rfl, hsound.faulted,
          hclear.append_left u t laid hp storable (Function.update_self ..) ids⟩)
      · -- The latch is set, but the memories hold the log, so mounting finds it.
        have hm' : space.Exposes .clear (space.around m) image (after.media.facing []) :=
          hm.facing rfl
        obtain ⟨again, hmount, hagain⟩ := mount_ok _ c planned hm' fun q hq => .inl (holds q hq)
        have left : (Function.update logs p.id (p.popMany count (logs p.id)) p.id).found =
            (p.popMany count (logs p.id)).found := by rw [Function.update_self]
        obtain ⟨key, last, hrun⟩ := hagain.append_left u t laid hp storable left ids
        exact .inr (.inr ⟨rfl, htwice, again, key, last, hmount, hrun⟩)
  · rw [Action.Ends, hslow.append_of_long laid hp storable]
    exact .inl ⟨rfl, storable, rfl⟩

/-- An item takes the place of another one while the eeprom is never done. -/
theorem resumes_of_slow_near :
    ∃ mounted store, mount Space.near 1 0 [⟨7, 20, 1⟩] (Media.fresh _) = .ok mounted ∧
      mounted.operateAll 1 0 [⟨7, 20, 1⟩] [.request (.append 7 [1, 2, 3])] = some store ∧
      (append 7 [4, 5]).Ends (store.facing [.stalling]) (fun _ after => after.faulted = false)
        fun e after =>
          (e = .outOfRoom ∧ ¬ Partition.near.Storable [4, 5] ∧ after = store.facing [.stalling]) ∨
          (e = .busy ∧ after.faulted = false ∧
            ∃ key last, append 7 [4, 5] (after.facing []) = .ok key last) ∨
          (e = .inconsistent ∧ Partition.near.StalledTwice after.media.journal ∧
            ∃ again key last, mount Space.near 1 0 [⟨7, 20, 1⟩] (after.media.facing []) =
              .ok again ∧ append 7 [4, 5] again = .ok key last) := by
  have run : ((mount Space.near 1 0 [⟨7, 20, 1⟩] (Media.fresh _)).toOption.bind fun mounted =>
      mounted.operateAll 1 0 [⟨7, 20, 1⟩] [.request (.append 7 [1, 2, 3])]).isSome = true := by
    decide +kernel
  obtain ⟨store, hstore⟩ := Option.isSome_iff_exists.mp run
  obtain ⟨mounted, hmounted, reaches⟩ := Option.bind_eq_some_iff.mp hstore
  have mounts := mount_of_toOption hmounted
  exact ⟨mounted, store, mounts, reaches, resumes_of_slow Space.create_near
    (Geometry.uniform_tinyWith 20) Space.plan_near (Media.under_clear_fresh _) Space.blank_near
    mounts reaches (by decide) (List.mem_singleton_self _) (by decide) (by decide) [4, 5]⟩

/-! ## An eeprom that is never done -/

/-- If the eeprom is never done, an append to a partition without items sets the latch. -/
theorem Open.append_stalling {sound : Bytes → Media g → Prop} {volumes : List Volume} {row : Nat}
    (h : store.Open sound space volumes image) (t : space.Truthful)
    (known : Volume.lookup p.id volumes = some ⟨p, ⟨row, 0, 0⟩⟩) (hrow : row < p.maxItems)
    (eeprom : p.stop ≤ space.boundary) (storable : p.Storable payload)
    (hm : store.media.faults = [.stalling]) :
    ∃ after, append p.id payload store = .error (.error .inconsistent) after ∧
      after.faulted = true := by
  have hends := h.append_ends known (Partition.append_stalling t eeprom hm storable hrow)
  obtain ⟨_, after, hrun, _, _, rfl, rfl⟩ :=
    hends.exists_error fun _ _ ⟨_, _, _, hnever, _⟩ => hnever
  exact ⟨_, hrun, rfl⟩

/-- An item is stored for the first time while the eeprom is never done: the latch is set. -/
theorem not_resumes_of_stalling :
    ∃ mounted after, mount Space.near 1 0 [⟨7, 20, 1⟩] (Media.fresh _) = .ok mounted ∧
      Partition.near.stop ≤ Space.near.boundary ∧ (∀ fault ∈ [Fault.stalling], fault.Slow) ∧
      append 7 [1] (mounted.facing [.stalling]) = .error (.error .inconsistent) after ∧
      after.faulted = true := by
  have t := Space.truthful_of_create Space.create_near
  have hp := List.mem_singleton_self Partition.near
  obtain ⟨mounted, hmount, h⟩ := mount_ok (fun _ => Log.empty)
    (Space.conduct_of_clear (Geometry.uniform_tinyWith 20) t _) Space.plan_near
    ⟨Media.under_clear_fresh _, rfl, rfl⟩ fun p hp => .inr ⟨Space.blank_near p hp, rfl⟩
  have hslow : (mounted.facing [.stalling]).Sound (Space.near.Exposes .slow _) Space.near
      [Partition.near] _ := h.facing (by decide : ∀ fault ∈ [Fault.stalling], fault.Slow)
  obtain ⟨image, hopen, -⟩ := hslow.exists_open
  obtain ⟨after, hrun, hfaulted⟩ := hopen.append_stalling t
    (hslow.known (laid_of_plan Space.plan_near) hp) (by decide) (by decide)
    (by decide : Partition.near.Storable [1]) rfl
  exact ⟨mounted, after, hmount, by decide, by decide, hrun, hfaulted⟩

end Store

end CircularLog
