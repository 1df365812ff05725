import Editorial.Proofs.Api.Confidentiality
import Editorial.Proofs.Draft.FreeSlots

/-!
# The listing of drafts

A user who asks for all drafts is shown some, each as it is shown to one who asks for it alone. The
listing looks at the drafts of the user's teams only, while a single draft is shown to everybody who
may read it. This makes a difference to users who sit in a draft of a team that they do not belong
to, and to nobody else: someone who is not a member is no manager and could take no slot
(`Store.mayRead_of_outsider`). So `listing_agrees_with_access` says what is listed, in which order,
and what is shown of single drafts; `outsider_not_listed` has a user who sits in a draft and may
read it, and is listed nothing.
-/

namespace Editorial

namespace Store

variable {s : Store} {user : Int}

/-- Somebody from outside the team may read the drafts in which they sit. -/
theorem mayRead_of_outsider {d : Draft} (h : user ∉ s.membersOf d.team) :
    s.mayRead user d = d.isSeated user := by
  have hmember : s.member? d.team user = none := by
    rw [member?, List.find?_eq_none]
    intro m hm he
    simp only [Bool.and_eq_true, beq_iff_eq] at he
    exact h (mem_membersOf.2 ⟨m, hm, he⟩)
  have hmanager : s.isManager d user = false := by
    simp [isManager, hasTeamPermission, hmember]
  have hfree : s.freeSlots d user = [] := by
    refine List.eq_nil_iff_forall_not_mem.2 fun slot hslot => h ?_
    exact (isEligible_iff.1 (mem_freeSlots.1 hslot).2.2).1
  simp [mayRead, canAccess, hmanager, hfree]

/-- Which drafts are listed for a user, and in which order. -/
structure Listing (s : Store) (user : Int) (ds : List Draft) : Prop where
  listed : ∀ d, d ∈ ds ↔ d ∈ s.drafts ∧ s.mayRead user d = true ∧ user ∈ s.membersOf d.team
  once : (ds.map Draft.module).Nodup
  ordered : ds.Pairwise fun a b => a.created.micros < b.created.micros ∨
    a.created.micros = b.created.micros ∧ a.module < b.module

/-- Drafts that are listed by age and have different modules are ordered strictly. -/
theorem ordered_of_listedBefore {ds : List Draft} (hmodules : (ds.map Draft.module).Nodup)
    (h : ds.Pairwise fun a b => Draft.listedBefore a b = true) :
    ds.Pairwise fun a b => a.created.micros < b.created.micros ∨
      a.created.micros = b.created.micros ∧ a.module < b.module := by
  refine (h.and (List.pairwise_map.1 hmodules)).imp fun {a b} ⟨hbefore, hne⟩ => ?_
  unfold Draft.listedBefore at hbefore
  rw [Ordered.leFirst_eq_true_iff, Draft.not_module_lt_iff] at hbefore
  refine hbefore.imp_right fun ⟨hage, hle⟩ => ⟨hage, ?_⟩
  by_contra hlt
  exact hne (String.le_antisymm hle (String.not_lt.1 hlt))

theorem draftsFor_eq (huser : isStorable user = true) :
    s.draftsFor user = .ok (s.readable user) :=
  bind_eq_ok_iff.2 ⟨(), requireStorable_eq_ok_iff.2 huser, rfl⟩

theorem Sound.listing (h : s.Sound) (user : Int) : s.Listing user (s.readable user) where
  listed d := by rw [mem_readable, mem_teamsOf, and_assoc]
  once := h.nodup_readable user
  ordered := ordered_of_listedBefore (h.nodup_readable user) (s.pairwise_readable user)

end Store

namespace Api

variable {s : Store} {user : Int}

theorem exists_view (huser : isStorable user = true) :
    ∃ view : Draft → Json, ∀ d, s.projection d user = .ok (view d) :=
  ⟨_, fun _ => bind_eq_ok_iff.2 ⟨(), requireStorable_eq_ok_iff.2 huser, rfl⟩⟩

theorem listDrafts_response {ds : List Draft} (hds : s.draftsFor user = .ok ds)
    {view : Draft → Json} (hview : ∀ d, s.projection d user = .ok (view d)) :
    (listDrafts s user).response = .json 200 (.array (ds.map view)) := by
  have hshown : (fun d => (liftM (s.projection d user) : Except Response Json)) =
      fun d => pure (view d) := funext fun d => by
    rw [hview]
    rfl
  unfold listDrafts
  rw [hds, hshown]
  simp only [List.mapM_pure]
  rfl

/-- A draft is shown to those who may read it. -/
theorem showDraft_response (hs : s.Sound) (huser : isStorable user = true) {d : Draft}
    (hd : d ∈ s.drafts) {view : Draft → Json} (hview : ∀ d, s.projection d user = .ok (view d)) :
    (showDraft s user d.module).response =
      if s.mayRead user d then .json 200 (view d) else .ofFailure .noAccess := by
  have hfound : s.draft? d.module = some d := hs.draft?_eq_some_iff.2 ⟨hd, rfl⟩
  unfold showDraft
  rw [readableDraft_of_found hfound, Store.requireStorable_of huser,
    Store.requireStorable_of (Drafting.team_storable hs hfound)]
  simp only [hview]
  cases s.mayRead user d <;> rfl

/-- What a user is listed are the drafts of the user's teams that are shown to the user one by one,
each once and as it is shown alone, by age and then by module; the drafts that are shown and not
listed are those in which the user sits without being a member of the team. -/
theorem listing_agrees_with_access (h : Reachable s) (huser : isStorable user = true)
    (c : Conditions) (body : Body) :
    ∃ ds view, s.draftsFor user = .ok ds ∧ s.Listing user ds ∧
      (∀ d ∈ s.drafts, user ∉ s.membersOf d.team →
        (s.mayRead user d = true ↔ d.isSeated user = true)) ∧
      (∀ d, s.projection d user = .ok (view d)) ∧
      (respond c s user body .listDrafts).response = .json 200 (.array (ds.map view)) ∧
      ∀ d ∈ s.drafts, (respond c s user body (.showDraft d.module)).response =
        if s.mayRead user d then .json 200 (view d) else .ofFailure .noAccess := by
  have hs := h.sound
  have hdrafts : s.draftsFor user = .ok (s.readable user) := Store.draftsFor_eq huser
  obtain ⟨view, hview⟩ := exists_view huser
  refine ⟨s.readable user, view, hdrafts, hs.listing user, fun d _ houtside => ?_, hview, ?_,
    fun d hd => showDraft_response hs huser hd hview⟩
  · rw [Store.mayRead_of_outsider houtside]
  · exact listDrafts_response hdrafts hview

/-- In the review, the editor is listed the draft that the author has submitted, and is shown it. -/
theorem editor_listed :
    Reachable Review.reviewing ∧ isStorable 6 = true ∧
      ∃ ds view, Review.reviewing.draftsFor 6 = .ok ds ∧ Review.submitted ∈ ds ∧
        (respond Review.conditions Review.reviewing 6 .absent .listDrafts).response =
          .json 200 (.array (ds.map view)) ∧
        (respond Review.conditions Review.reviewing 6 .absent (.showDraft "m")).response =
          .json 200 (view Review.submitted) := by
  have hstorable : isStorable 6 = true := by decide
  obtain ⟨ds, view, hds, hlisting, -, -, hlist, hshow⟩ :=
    listing_agrees_with_access Review.reachable_reviewing hstorable Review.conditions .absent
  have hstored : Review.submitted ∈ Review.reviewing.drafts :=
    List.mem_of_find?_eq_some Review.draft?_reviewing
  have hread : Review.reviewing.mayRead 6 Review.submitted = true := by decide +kernel
  have hmember : 6 ∈ Review.reviewing.membersOf 1 := by decide +kernel
  refine ⟨Review.reachable_reviewing, hstorable, ds, view, hds,
    (hlisting.listed _).2 ⟨hstored, hread, hmember⟩, hlist, ?_⟩
  have hshown := hshow _ hstored
  rw [hread, if_pos rfl] at hshown
  exact hshown

/-- In the review, the author sits in the draft without belonging to the team: the draft is shown to
the author and is not listed. -/
theorem outsider_not_listed :
    Reachable Review.store ∧ Review.begun ∈ Review.store.drafts ∧
      Review.store.mayRead 4 Review.begun = true ∧
      (respond Review.conditions Review.store 4 .absent (.showDraft "m")).response.status = 200 ∧
      Review.store.draftsFor 4 = .ok [] ∧
      (respond Review.conditions Review.store 4 .absent .listDrafts).response =
        .json 200 (.array []) := by
  have hnone : Review.store.draftsFor 4 = .ok [] := by
    rw [Store.draftsFor_eq (by decide)]
    exact congrArg Except.ok (by decide +kernel)
  obtain ⟨view, hview⟩ := @exists_view Review.store 4 (by decide)
  exact ⟨Review.reachable, by decide +kernel, by decide +kernel, by decide +kernel, hnone,
    listDrafts_response hnone hview⟩

end Api

end Editorial
