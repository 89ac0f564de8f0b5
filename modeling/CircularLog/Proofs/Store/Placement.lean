import CircularLog.Proofs.Store.Frame

/-!
# What an append leaves in the place of its item

Whatever else a partition holds, an append that ends with a key has written an item into the row of
the key, with the id of the key and the payload (`Shaped.stores_of_append`), and as long as that is
so, the key fetches the payload (`Shaped.fetch_of_stores`).
-/

namespace CircularLog

variable {g : Geometry} {space : Space g} {parts : List Partition} {p : Partition}
  {sound : Bytes → Media g → Prop} {image : Bytes} {m : Media g} {payload : Bytes}

/-! ## The partition -/

namespace Partition

/-- The row has an item with this id and payload. -/
def Stores (p : Partition) (image : Bytes) (place : Nat × UInt32) (payload : Bytes) : Prop :=
  place.1 < p.maxItems ∧ ∃ entry, p.rowAt image place.1 = some entry ∧ entry.id = place.2 ∧
    entry.start.toNat < p.areaLength ∧ entry.length.toNat = payload.length ∧
    payload.length ≤ p.areaLength ∧ p.ring image entry.start.toNat payload.length = payload

variable (c : space.Conduct 0 space.total sound .never) (fits : p.stop ≤ space.total)
include c fits

/-- An item that was written is there, whatever else the partition holds. -/
theorem writeItem_stores (hm : sound image m) {row : Nat} (hrow : row < p.maxItems) {entry : Row}
    (hstart : entry.start.toNat < p.areaLength) (hlength : entry.length.toNat = payload.length)
    (harea : payload.length ≤ p.areaLength) :
    (p.writeItem space row entry payload).Ends m
      (fun _ m' => ∃ image', sound image' m' ∧ p.Stores image' (row, entry.id) payload)
      (fun _ _ => False) := by
  have hmem := rowAddress_mem hrow
  have hparts := p.parts
  have hlen := c.length hm
  have hbytes : entry.encode.length = rowBytes := entry.length_encode
  have htake : (payload.take (min payload.length (p.areaLength - entry.start.toNat))).length =
      min payload.length (p.areaLength - entry.start.toNat) := by
    rw [List.length_take]
    omega
  have hdrop : (payload.drop (min payload.length (p.areaLength - entry.start.toNat))).length =
      payload.length - min payload.length (p.areaLength - entry.start.toNat) := List.length_drop
  -- The row is written first, and then the payload, which goes on at the start of the area.
  rw [writeItem_eq hrow (Nat.le_of_lt hstart)]
  simp only [Action.ends_bind]
  refine (c.write hm (Nat.zero_le _) (by omega)).mono ?_ fun _ _ => Space.not_halts
  intro _ m₁ h₁
  have hlen₁ := c.length h₁
  refine (c.write h₁ (Nat.zero_le _) (by omega)).mono ?_ fun _ _ => Space.not_halts
  intro _ m₂ h₂
  refine (c.write h₂ (Nat.zero_le _) (by omega)).mono ?_ fun _ _ => Space.not_halts
  intro _ m₃ h₃
  refine ⟨_, h₃, hrow, entry, ?_, rfl, hstart, hlength, harea, ?_⟩
  · -- The payload lies behind the table.
    have hwritten : p.rowAt (image.overlay (p.rowAddress row) entry.encode) row = some entry := by
      rw [rowAt_overlay_self hbytes (by omega), Row.decode_encode]
    show p.rowAt (p.ringPut _ _ payload) row = _
    rw [← hwritten]
    show Row.decode _ = Row.decode _
    congr 1
    refine Bytes.slice_congr fun i hi => ?_
    exact getElem?_ringPut_of_outside (by omega) hstart harea (.inl (by omega))
  · show p.ring (p.ringPut _ _ payload) _ _ = _
    rw [ring_ringPut (by omega) hstart (Nat.le_refl _) harea,
      List.drop_of_length_le (Nat.le_of_eq (length_ring (by omega) hstart harea)),
      List.append_nil]

/-- An item that is there is fetched by its key. -/
theorem fetch_of_stores (hm : sound image m) {key : Key}
    (stores : p.Stores image (key.row, key.id) payload) {capacity : Nat}
    (hcapacity : payload.length ≤ capacity) :
    (p.fetch space key capacity).Ends m (fun bytes m' => sound image m' ∧ bytes = payload)
      (fun _ _ => False) := by
  obtain ⟨hrow, entry, hentry, hid, hstart, hlength, harea, hring⟩ := stores
  have hfits : entry.Fits p.areaLength := ⟨hstart, hlength ▸ harea⟩
  rw [fetch_eq]
  simp only [entryOf, requireRow, current, Action.ends_bind, Action.ends_ite, Action.ends_pure,
    Action.ends_fail]
  refine ⟨fun _ => ?_, fun h => absurd hrow h⟩
  refine (readRow_ends (c.part fits).toLegible hm hrow fun _ h => ?_).mono ?_ fun _ _ =>
    Space.not_halts
  · rw [hentry] at h
    exact Option.some.inj h ▸ hfits
  · rintro _ m₁ ⟨h₁, rfl⟩
    rw [hentry, Option.filter_some_pos (by simpa using hid)]
    refine ⟨fun hsmall => by omega, fun _ => ?_⟩
    refine (payload_eq_ring (c.part fits) h₁ hfits).mono ?_ fun _ _ => Space.not_halts
    rintro _ m₂ ⟨h₂, rfl⟩
    exact ⟨h₂, by rw [hlength, hring]⟩

/-- Putting an item into a place that ends with a key has put it there. -/
theorem putItem_stores (hm : sound image m) (held : Status) {place : Nat × UInt32 × Nat}
    (hrow : place.1 < p.maxItems) (hstart : place.2.2 < p.areaLength)
    (harea : payload.length ≤ p.areaLength) (short : payload.length < 0x1_0000) :
    (p.putItem space payload place).Yields (m, held)
      (fun place after => ∃ image', sound image' after.1 ∧ p.Stores image' place payload)
      fun _ => True := by
  have harea' := p.areaLength_lt
  have hword : (UInt32.ofNat place.2.2).toNat = place.2.2 := by
    rw [UInt32.toNat_ofNat', Nat.mod_eq_of_lt (by omega)]
  have hlength : (UInt16.ofNat payload.length).toNat = payload.length := by
    rw [UInt16.toNat_ofNat', Nat.mod_eq_of_lt (by omega)]
  have hwritten : (p.writeItem space place.1
      ⟨place.2.1, UInt32.ofNat place.2.2, UInt16.ofNat payload.length⟩ payload).Ends m
      (fun _ m' => ∃ image', sound image' m' ∧ p.Stores image' (place.1, place.2.1) payload)
      (fun _ _ => False) :=
    writeItem_stores c fits hm hrow (hword.symm ▸ hstart) hlength harea
  simp only [putItem, status, setStatus, Action.sum, Action.ensure, Action.yields_bind,
    Action.yields_beside, Action.yields_get, Action.yields_pure, Action.yields_modify,
    Action.yields_ite, Action.yields_abort]
  refine (hwritten.mono (fun _ _ h => ?_) fun _ _ h => h).yields_rescue fun _ _ h => h.elim
  exact ⟨fun _ => ⟨fun _ => h, fun _ => trivial⟩, fun _ => trivial⟩

/-- An append that ends with a key has put the item there, whatever else the partition holds. -/
theorem append_stores (hm : sound image m) {held : Status} (hheld : held.oldestRow < p.maxItems)
    (payload : Bytes) :
    (p.append space payload).Yields (m, held)
      (fun place after => ∃ image', sound image' after.1 ∧ p.Stores image' place payload)
      fun _ => True := by
  have k : space.Tends p.base p.stop fun m => ∃ image, sound image m :=
    c.tends Space.Mishap.mild_never fits
  have once : (p.appendOnce space payload).Yields (m, held)
      (fun place after => ∃ image', sound image' after.1 ∧ p.Stores image' place payload)
      fun _ => True := by
    rw [appendOnce_eq]
    simp only [Action.yields_ite, Action.yields_bind, Action.yields_fail]
    refine ⟨fun _ => trivial, fun hlong => ?_⟩
    refine (prepare_yields k (s := (m, held)) ⟨⟨image, hm⟩, hheld⟩ _).mono ?_ fun _ _ => trivial
    rintro place after ⟨⟨⟨image', h'⟩, -⟩, hrow, hstart⟩
    exact putItem_stores c fits h' after.2 hrow hstart (by omega) (by omega)
  refine once.rescue fun e after _ => ?_
  simp only [Action.yields_ite, Action.yields_bind, Action.yields_mapError, Action.yields_fail]
  exact ⟨fun _ => Action.yields_of_forall _ _ (fun _ _ => trivial) fun _ => trivial,
    fun _ => trivial⟩

end Partition

/-! ## The store -/

namespace Store

open CircularLog.Action (alone)

variable {store : Store g}

/-- An append that ends with a key was to a partition of the store, and its item is in the row of
the key. -/
theorem Shaped.stores_of_append (u : g.Uniform) (t : space.Truthful) (laid : Laid space parts)
    {around : Bytes × Bytes} (h : store.Shaped space parts fun m =>
      ∃ image, space.Exposes .clear around image m) {id : UInt8} {key : Key} {after : Store g}
    (ok : append id payload store = .ok key after) :
    ∃ p ∈ parts, id = p.id ∧ key.partition = p.id ∧ after.faulted = false ∧
      (after.Shaped space parts fun m => ∃ image, space.Exposes .clear around image m) ∧
      p.Stores (space.image after.media) (key.row, key.id) payload := by
  have c := Space.conduct_of_clear u t around
  obtain ⟨image, hm⟩ := h.media
  have open' := unfaulted_of_ok ok
  by_cases known : ∃ p ∈ parts, p.id = id
  · obtain ⟨p, hp, rfl⟩ := known
    have k : space.Tends p.base p.stop fun m => ∃ image, space.Exposes .clear around image m :=
      c.tends Space.Mishap.mild_never (laid.inside p hp)
    have hshaped := h.append_yields laid hp k payload
    obtain ⟨volume, hlookup⟩ := h.exists_lookup hp
    obtain ⟨hpart, hrow⟩ := h.of_lookup laid hp hlookup
    -- What the partition says of the append, the store says.
    have hstores : (append p.id payload).Yields store
        (fun key after => key.partition = p.id ∧ after.faulted = false ∧
          p.Stores (space.image after.media) (key.row, key.id) payload) fun _ => True := by
      rw [append, Action.yields_alone]
      refine yields_latched open' ?_ fun _ _ => trivial
      rw [yields_changing hlookup, hpart, h.space]
      simp only [Action.yields_bind, Action.yields_pure]
      refine (p.append_stores c (laid.inside p hp) hm hrow payload).mono ?_ fun _ _ => trivial
      rintro place after ⟨image', h', hstores⟩
      exact ⟨trivial, open', h'.image ▸ hstores⟩
    rw [Action.Yields, ok] at hstores hshaped
    exact ⟨p, hp, rfl, hstores.1, hstores.2.1, hshaped.1, hstores.2.2⟩
  · have finds := h.lookup_eq_none known
    obtain ⟨space', media, volumes, faulted⟩ := store
    simp_all [append, alone, latched, changing, Action.bind_apply, Action.rescue]

/-- What the row of a key has is fetched by the key, on any sound memories with the same
contents. -/
theorem Shaped.fetch_of_stores (u : g.Uniform) (t : space.Truthful) (laid : Laid space parts)
    (hp : p ∈ parts) {kept : Media g → Prop} (h : store.Shaped space parts kept)
    (unfaulted : store.faulted = false) {key : Key} (hkey : key.partition = p.id)
    (stores : p.Stores (space.image store.media) (key.row, key.id) payload) {again : Media g}
    (under : again.Under .clear) (same : space.image again = space.image store.media)
    {capacity : Nat} (hcapacity : payload.length ≤ capacity) :
    ∃ left, fetch key capacity { store with media := again } = .ok payload left := by
  have c := Space.conduct_of_clear u t (space.around again)
  obtain ⟨volume, hlookup⟩ := h.exists_lookup hp
  obtain ⟨rfl, -⟩ := h.of_lookup laid hp hlookup
  have hfetch (other : Store g) (hspace : other.space = space) (hmedia : other.media = again)
      (hvolumes : other.volumes = store.volumes) (hfaulted : other.faulted = store.faulted) :
      (fetch key capacity).Ends other (fun bytes _ => bytes = payload) fun _ _ => False := by
    rw [fetch, hkey, Action.ends_alone, ends_latched (hfaulted.trans unfaulted),
      ends_reading (hvolumes ▸ hlookup), Action.ends_beside, hspace, hmedia]
    exact (Partition.fetch_of_stores c (laid.inside _ hp) ⟨under, same, rfl⟩ stores
      hcapacity).mono (fun _ _ h => h.2) fun _ _ h => h.elim
  obtain ⟨bytes, left, hrun, rfl⟩ :=
    (hfetch { store with media := again } h.space rfl rfl rfl).exists_ok fun _ _ => id
  exact ⟨left, hrun⟩

end Store

end CircularLog
