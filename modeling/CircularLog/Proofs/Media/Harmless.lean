import CircularLog.Proofs.Media.Outage

/-!
# Harmless plans

A plan is harmless if its failing calls have no effect: a reading, a writing or an erasing that is a
lapse reports a failure and stores nothing, and polls may fail or answer anything. How many such
faults there are, and when, is left open. A plan stays harmless from call to call, so harmless plans
are an outage, in which it is always dark and always light (`outage_harmless`). A page that has been
erased and could not be programmed again can be told from the journal (`Unrenewed`), and so it can
be said which pages may be left erased (`outage_marred`).
-/

namespace CircularLog

/-! ## Harmless faults -/

/-- A lapse of such a call has no effect on the memories, and is not taken for a success; a poll may
say anything. -/
structure Lapse.Harmless (access : Access) (lapse : Lapse) : Prop where
  reports : access ≠ .poll → lapse.report ≠ none
  stored : access = .write ∨ access = .erase → lapse.stored = 0

instance (access : Access) (lapse : Lapse) : Decidable (lapse.Harmless access) :=
  decidable_of_iff (_ ∧ _) ⟨fun h => ⟨h.1, h.2⟩, fun h => ⟨h.1, h.2⟩⟩

/-- The fault is for calls of these memories, and has no effect on them. -/
def Fault.Harmless (media : Medium → Prop) (fault : Fault) : Prop :=
  ∀ target ∈ fault.scope, media target.1 ∧ fault.lapse.Harmless target.2

instance (media : Medium → Prop) [DecidablePred media] (fault : Fault) :
    Decidable (fault.Harmless media) :=
  inferInstanceAs (Decidable (∀ target ∈ fault.scope, _))

/-- A fault stays the same but for the calls that it counts. -/
theorem Fault.Harmless.spend {media : Medium → Prop} {fault : Fault} (h : fault.Harmless media) :
    fault.spend.2.Harmless media := by
  unfold Fault.spend
  split <;> exact h

/-- What a harmless plan has for a call is harmless, and so is the plan after it. -/
theorem Fault.harmless_next {media : Medium → Prop} (medium : Medium) (access : Access)
    {plan : List Fault} (h : ∀ fault ∈ plan, fault.Harmless media) :
    (∀ lapse, (Fault.next medium access plan).1 = some lapse →
      media medium ∧ lapse.Harmless access) ∧
    ∀ fault ∈ (Fault.next medium access plan).2, fault.Harmless media := by
  induction plan with
  | nil => exact ⟨nofun, nofun⟩
  | cons fault faults ih =>
    obtain ⟨hfault, hfaults⟩ := List.forall_mem_cons.mp h
    rw [Fault.next]
    split
    · next governs =>
      refine ⟨fun lapse hlapse => ?_, List.forall_mem_cons.mpr ⟨hfault.spend, hfaults⟩⟩
      have hscope : (medium, access) ∈ fault.scope := by
        unfold Fault.governs at governs
        simpa using (Bool.and_eq_true_iff.mp governs).1
      have hsame : lapse = fault.lapse := by
        dsimp only at hlapse
        unfold Fault.spend at hlapse
        split at hlapse
        · exact (Option.some.inj hlapse).symm
        · cases hlapse
      rw [hsame]
      exact hfault (medium, access) hscope
    · exact ⟨(ih hfaults).1, List.forall_mem_cons.mpr ⟨hfault, (ih hfaults).2⟩⟩

/-- Readings that meet a harmless fault fail. -/
theorem Fault.Harmless.honest {media : Medium → Prop} {fault : Fault} (h : fault.Harmless media) :
    fault.Honest := fun medium hscope hnone =>
  absurd hnone ((h (medium, .read) hscope).2.reports (by simp))

/-- Behind so many calls of a kind that pass, the next ones fail without an effect, all or so
many. -/
def Fault.refusing (medium : Medium) (access : Access) (skip : Nat) (count : Option Nat)
    (kind : FailureKind) : Fault :=
  ⟨[(medium, access)], skip, count, ⟨0, some kind, [], false⟩⟩

/-- The memories, with the faults that driver calls meet from now on and no calls in the journal. -/
def Media.facing {g : Geometry} (m : Media g) (plan : List Fault) : Media g :=
  { m with faults := plan, journal := [] }

/-! ## The phase -/

namespace Phase

variable {media : Medium → Prop} {plan : List Fault} {journal : List Call}

/-- The faults to come have no effect, and are faults of these memories. -/
def harmless (media : Medium → Prop) : Phase := fun plan _ =>
  ∀ fault ∈ plan, fault.Harmless media

/-- A call passes, or fails without an effect if it is one of these memories. -/
theorem meets_harmless {failed : FailureKind → Phase} (h : harmless media plan journal)
    (call : Call) (hcall : call.access ≠ .poll) (fails : media call.medium → ∀ kind plan',
      harmless media plan' (call :: journal) → failed kind plan' (call :: journal)) :
    call.Meets .clean (harmless media) failed plan journal := by
  obtain ⟨hlapse, hplan⟩ := Fault.harmless_next call.medium call.access h
  unfold Call.Meets
  cases hnext : Fault.next call.medium call.access plan with
  | mk lapse plan' =>
    rw [hnext] at hlapse hplan
    cases lapse with
    | none => exact hplan
    | some lapse =>
      obtain ⟨hmedium, hharmless⟩ := hlapse lapse rfl
      obtain ⟨kind, hkind⟩ := Option.ne_none_iff_exists'.mp (hharmless.reports hcall)
      refine ⟨kind, ⟨hkind, rfl, fun changes => ?_⟩, fails hmedium kind plan' hplan⟩
      calc
        lapse.stored = 0 := hharmless.stored changes
        _ = if call.medium = .eeprom then Manner.clean.cut else 0 := (ite_self _).symm

/-- Polls change nothing. -/
theorem restless_harmless (media : Medium → Prop) :
    Manner.clean.Restless (harmless media) (harmless media) where
  busy := rfl
  dark h := h
  poll h lapse plan' hnext := by
    have hplan := (Fault.harmless_next .eeprom .poll h).2
    rw [hnext] at hplan
    exact ⟨hplan, fun _ _ => rfl⟩

/-- Faults without effects are an outage; it is torn in some way where a page has been erased and
could not be programmed again, if faults of the flash are among them. -/
theorem outage_of_harmless (media : Medium → Prop) {torn : Nat → Phase}
    (tears : media .flash → ∀ first {plan journal}, harmless media plan journal →
      torn first plan journal) :
    Outage .clean (harmless media) (harmless media) torn := by
  have again {dark : Phase} {plan journal} (h : harmless media plan journal) (call : Call)
      (hcall : call.access ≠ .poll) (darkens : media call.medium → ∀ {plan journal},
        harmless media plan journal → dark plan journal) :
      call.Meets .clean (harmless media) (call.Again .clean (harmless media) dark) plan
        journal := by
    refine meets_harmless h call hcall fun hmedium kind plan' h' => ?_
    unfold Call.Again
    split
    · exact meets_harmless h' call hcall fun _ _ _ h'' => darkens hmedium h''
    · exact darkens hmedium h'
  exact
    { call := fun h call hcall => meets_harmless h call hcall fun _ _ _ h' => h'
      change := fun h call changes _ => again h call changes.ne_poll fun _ _ _ h' => h'
      renew := fun {plan journal start length} h call hwrite hflash =>
        again h call (by simp [hwrite]) fun hmedium => tears (hflash ▸ hmedium) start
      poll := .inr (restless_harmless media) }

/-- The plan stays harmless even where a page has been erased and could not be programmed again. -/
theorem outage_harmless (media : Medium → Prop) :
    Outage .clean (harmless media) (harmless media) fun _ => harmless media :=
  outage_of_harmless media fun _ _ _ _ h => h

/-- Where only calls of the eeprom fail, a page that has been erased is programmed again. -/
theorem outage_eeprom :
    Outage .clean (harmless (· = .eeprom)) (harmless (· = .eeprom)) fun _ => .never :=
  outage_of_harmless _ fun hflash => nomatch hflash

end Phase

/-! ## Pages that were not renewed -/

/-- What is left of a plan after these calls, the latest of which is the first. -/
def Fault.after (plan : List Fault) : List Call → List Fault
  | [] => plan
  | call :: journal => (Fault.next call.medium call.access (after plan journal)).2

/-- The lapse that the plan has had for the latest of these calls, if any. -/
def Fault.latest (plan : List Fault) : List Call → Option Lapse
  | [] => none
  | call :: journal => (Fault.next call.medium call.access (after plan journal)).1

/-- The latest of these calls was to program the flash right behind the erasing of the page that
starts here, and has failed for good: for a cause that does not pass, or for the second time. -/
def Unrenewed (plan : List Fault) (journal : List Call) (first : Nat) : Prop :=
  ∃ lapse call length older, Fault.latest plan journal = some lapse ∧
    call.medium = .flash ∧ call.access = .write ∧
      (journal = call :: ⟨.flash, .erase, first, length⟩ :: older ∧ lapse.report ≠ some .other ∨
        journal = call :: call :: ⟨.flash, .erase, first, length⟩ :: older)

/-- Somewhere in the journal, the page was erased and could not be programmed again. -/
def LeftErased (plan : List Fault) (journal : List Call) (first : Nat) : Prop :=
  ∃ later earlier, journal = later ++ earlier ∧ Unrenewed plan earlier first

/-- Later calls do not undo it. -/
theorem LeftErased.cons {plan : List Fault} {journal : List Call} {first : Nat}
    (h : LeftErased plan journal first) (call : Call) :
    LeftErased plan (call :: journal) first := by
  obtain ⟨later, earlier, rfl, hearlier⟩ := h
  exact ⟨call :: later, earlier, rfl, hearlier⟩

namespace Phase

variable {plan₀ plan : List Fault} {journal : List Call} {page : Option Nat} {call : Call}

/-- What is left of a harmless plan; the page, if any, was erased and not programmed again. -/
structure Marred (plan₀ : List Fault) (page : Option Nat) (plan : List Fault)
    (journal : List Call) : Prop where
  harmless : harmless (fun _ => True) plan journal
  after : plan = Fault.after plan₀ journal
  erased : ∀ first ∈ page, LeftErased plan₀ journal first

/-- A call passes or fails without an effect, and plan and journal tell which. -/
theorem meets_marred {passed : Phase} {failed : FailureKind → Phase}
    (h : Marred plan₀ page plan journal) (hcall : call.access ≠ .poll)
    (passes : ∀ plan', Marred plan₀ page plan' (call :: journal) → passed plan' (call :: journal))
    (fails : ∀ lapse kind plan', Marred plan₀ page plan' (call :: journal) →
      Fault.latest plan₀ (call :: journal) = some lapse → lapse.report = some kind →
      failed kind plan' (call :: journal)) :
    call.Meets .clean passed failed plan journal := by
  obtain ⟨hharmless, rfl, herased⟩ := h
  have hmeets : call.Meets .clean (Phase.harmless fun _ => True)
      (fun _ => Phase.harmless fun _ => True) (Fault.after plan₀ journal) journal :=
    meets_harmless hharmless call hcall fun _ _ _ h => h
  unfold Call.Meets at hmeets ⊢
  cases hnext : Fault.next call.medium call.access (Fault.after plan₀ journal) with
  | mk lapse plan' =>
    have hafter : plan' = Fault.after plan₀ (call :: journal) := by rw [Fault.after, hnext]
    have herased' (first : Nat) (hfirst : first ∈ page) :
        LeftErased plan₀ (call :: journal) first :=
      (herased first hfirst).cons call
    rw [hnext] at hmeets
    cases lapse with
    | none => exact passes plan' ⟨hmeets, hafter, herased'⟩
    | some lapse =>
      obtain ⟨kind, hlapse, hplan⟩ := hmeets
      refine ⟨kind, hlapse, fails lapse kind plan' ⟨hplan, hafter, herased'⟩ ?_ hlapse.report⟩
      rw [Fault.latest, hnext]

/-- A call that failed is submitted again if the cause may pass, and passes or fails as well. -/
theorem again_marred {light dark : Phase} {kind : FailureKind}
    (h : Marred plan₀ page plan (call :: journal)) (hcall : call.access ≠ .poll)
    (passes : ∀ plan', Marred plan₀ page plan' (call :: call :: journal) →
      light plan' (call :: call :: journal))
    (gaveUp : kind ≠ .other → dark plan (call :: journal))
    (fails : ∀ lapse plan', Marred plan₀ page plan' (call :: call :: journal) →
      Fault.latest plan₀ (call :: call :: journal) = some lapse →
      dark plan' (call :: call :: journal)) :
    call.Again .clean light dark kind plan (call :: journal) := by
  unfold Call.Again
  split
  · exact meets_marred h hcall passes fun lapse _ plan' h' hlatest _ => fails lapse plan' h' hlatest
  · next hkind => exact gaveUp hkind

/-- Faults without effects are an outage; it is torn where a page has not been programmed again. -/
theorem outage_marred (plan₀ : List Fault) (page : Option Nat) :
    Outage .clean (Marred plan₀ page) (Marred plan₀ page)
      fun first => Marred plan₀ (some (page.getD first)) where
  call h call hcall := meets_marred h hcall (fun _ h' => h') fun _ _ _ h' _ _ => h'
  change h call changes _ := meets_marred h changes.ne_poll (fun _ h' => h') fun _ _ _ h' _ _ =>
    again_marred h' changes.ne_poll (fun _ h'' => h'') (fun _ => h') fun _ _ h'' _ => h''
  renew {plan journal start length} h call hwrite hflash := by
    have hcall : call.access ≠ .poll := by simp [hwrite]
    -- Either there was such a page already, or it is this one.
    have mars {plan' journal'} (h' : Marred plan₀ page plan' journal')
        (unrenewed : Unrenewed plan₀ journal' start) :
        Marred plan₀ (some (page.getD start)) plan' journal' := by
      refine ⟨h'.harmless, h'.after, fun first hfirst => ?_⟩
      obtain rfl := Option.some.inj hfirst
      cases page with
      | none => exact ⟨[], journal', rfl, unrenewed⟩
      | some first => exact h'.erased first rfl
    refine meets_marred h hcall (fun _ h' => h') fun lapse kind plan' h' hlatest hreport => ?_
    refine again_marred h' hcall (fun _ h'' => h'') (fun hkind => ?_) fun lapse' _ h'' hagain => ?_
    · have hfinal : lapse.report ≠ some .other := by
        rw [hreport]
        exact fun hother => hkind (Option.some.inj hother)
      exact mars h' ⟨lapse, call, length, _, hlatest, hflash, hwrite, .inl ⟨rfl, hfinal⟩⟩
    · exact mars h'' ⟨lapse', call, length, _, hagain, hflash, hwrite, .inr rfl⟩
  poll := .inr ⟨rfl, fun h => h, fun {plan journal} h lapse plan' hnext => by
    obtain ⟨hharmless, rfl, herased⟩ := h
    have hpoll := (restless_harmless fun _ => True).poll hharmless lapse plan' hnext
    refine ⟨⟨hpoll.1, ?_, fun first hfirst => (herased first hfirst).cons _⟩, hpoll.2⟩
    rw [Fault.after, hnext]⟩

end Phase

end CircularLog
