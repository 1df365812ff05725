import Editorial.Draft.View
import Editorial.Proofs.Draft.Advance
import Editorial.Proofs.Event.Replay
import Editorial.Proofs.Run

/-!
# What users may do in a draft

What a user may do is found out four times over: by going through the seats and what the current
step grants to their slots (`Store.permissionsFor`), when all slots of a draft are listed, when a
draft is shown with the slots of its current step, and when the holders of slots are told that a
draft has advanced. Of a sound store all of them say the same (`permission_views_agree`), namely
what the stored grants and seats say (`Store.Agreement.joined`).
-/

namespace Editorial

open Json

/-! ### What is shown -/

/-- A list of slots shows a value among the permissions of the slots of a user. -/
def Json.Shows (slots : List Json) (user : Int) (v : Json) : Prop :=
  ∃ slot ∈ slots, slot.member "user" = int user ∧ v ∈ (slot.member "permissions").items

/-- The slots that a draft is shown with. -/
def Json.slotsShown (shown : Json) : List Json := ((shown.member "step").member "slots").items

theorem mem_items_permissionTexts {ps : List Permission} {v : Json} :
    v ∈ (permissionTexts ps).items ↔ ∃ p ∈ ps, ofText p.text = v := by
  unfold permissionTexts ofTexts items
  rw [List.map_map, List.mem_map]
  rfl

namespace Store

variable {s : Store} {d : Draft} {user : Int}

/-- All that says what a user may do in a draft agrees. -/
structure Agreement (s : Store) (d : Draft) (user : Int) : Prop where
  /-- A permission is had by way of a stored grant to a slot in which the user sits. -/
  joined : ∀ p, p ∈ s.permissionsFor d user ↔
    ∃ g, (d.step, g) ∈ s.grantRows ∧ g.permission = p ∧ ⟨g.slot, user⟩ ∈ d.seats
  /-- All slots of the version together show the permissions of the user. -/
  status : ∀ v, Shows (s.processStatus d) user v ↔
    v ∈ (permissionTexts (s.permissionsFor d user)).items
  /-- So do the slots of the current step, to whomever the draft is shown. -/
  viewed : ∀ viewer shown, s.projection d viewer = .ok shown → ∀ v,
    Shows shown.slotsShown user v ↔ v ∈ (permissionTexts (s.permissionsFor d user)).items
  /-- The user is shown the permissions themselves. -/
  own : ∀ shown, s.projection d user = .ok shown →
    shown.member "permissions" = permissionTexts (s.permissionsFor d user)
  /-- The draft is shown to everybody whom the database can hold. -/
  visible : ∀ viewer, isStorable viewer = true → ∃ shown, s.projection d viewer = .ok shown
  /-- Who is not seated may do nothing. -/
  unseated : d.isSeated user = false → s.permissionsFor d user = []

theorem shows_slotView_iff {step : Step} (hstep : s.stepOf? d = some step) {slots : List Slot}
    {v : Json} :
    Shows (slots.map (s.slotView d)) user v ↔
      ∃ p, ofText p.text = v ∧
        ∃ slot ∈ slots, d.occupant? slot.id = some user ∧ step.grantsTo slot.id p = true := by
  have huser (slot : Slot) : (s.slotView d slot).member "user" = int user ↔
      d.occupant? slot.id = some user := by
    change ofOption int (d.occupant? slot.id) = int user ↔ _
    cases d.occupant? slot.id <;> simp [ofOption]
  have hpermissions (slot : Slot) : v ∈ ((s.slotView d slot).member "permissions").items ↔
      ∃ p, step.grantsTo slot.id p = true ∧ ofText p.text = v := by
    have hview : (s.slotView d slot).member "permissions" =
        permissionTexts (((s.stepOf? d).map fun step => step.permissionsOf slot.id).getD []) := rfl
    rw [hview, hstep, mem_items_permissionTexts]
    simp [Step.permissionsOf, Permission.mem_all]
  unfold Shows
  simp only [List.mem_map, exists_exists_and_eq_and, huser, hpermissions]
  constructor
  · rintro ⟨slot, hslot, hu, p, hgrant, hp⟩
    exact ⟨p, hp, slot, hslot, hu, hgrant⟩
  · rintro ⟨p, hp, slot, hslot, hu, hgrant⟩
    exact ⟨slot, hslot, hu, p, hgrant, hp⟩

theorem slotsShown_projection {viewer : Int} {step : Step} (hstep : s.stepOf? d = some step)
    {shown : Json} (h : s.projection d viewer = .ok shown) :
    shown.slotsShown = (s.activeSlots d).map (s.slotView d) := by
  obtain ⟨-, -, hshown⟩ := bind_eq_ok_iff.1 h
  obtain rfl := pure_eq_ok_iff.1 hshown
  change ((s.stepView d viewer).member "slots").items = _
  unfold stepView
  rw [hstep]
  rfl

theorem permissions_projection {shown : Json} (h : s.projection d user = .ok shown) :
    shown.member "permissions" = permissionTexts (s.permissionsFor d user) := by
  obtain ⟨-, -, hshown⟩ := bind_eq_ok_iff.1 h
  obtain rfl := pure_eq_ok_iff.1 hshown
  rfl

theorem permissionsFor_of_not_seated (h : d.isSeated user = false) :
    s.permissionsFor d user = [] := by
  refine List.eq_nil_iff_forall_not_mem.2 fun p hp => ?_
  obtain ⟨step, -, seat, hseat, rfl, -⟩ := mem_permissionsFor.1 hp
  have hnone := List.any_eq_false.1 h seat hseat
  simp at hnone

namespace Sound

variable (h : s.Sound) (hd : d ∈ s.drafts)

include h hd

/-- Slots that include those of the current step show what a user may do. -/
theorem shows_iff {slots : List Slot} (hslots : ∀ slot ∈ s.activeSlots d, slot ∈ slots) (v : Json) :
    Shows (slots.map (s.slotView d)) user v ↔
      v ∈ (permissionTexts (s.permissionsFor d user)).items := by
  obtain ⟨w, step, -, hfound, -, hwell, hstep, -, hcurrent⟩ := h.exists_version hd
  have hoccupant (slot : Int) : d.occupant? slot = some user ↔ ⟨slot, user⟩ ∈ d.seats :=
    Draft.occupant?_eq_some_iff (h.seats_ordered d hd)
  rw [shows_slotView_iff hcurrent, mem_items_permissionTexts]
  simp only [mem_permissionsFor, hoccupant]
  constructor
  · rintro ⟨p, hp, slot, -, hseat, hgrant⟩
    exact ⟨p, ⟨step, hcurrent, _, hseat, rfl, hgrant⟩, hp⟩
  · rintro ⟨p, ⟨other, hother, ⟨slot, _⟩, hseat, rfl, hgrant⟩, hp⟩
    obtain rfl : step = other := Option.some.inj (hcurrent.symm.trans hother)
    have hg := Step.grantsTo_eq_true_iff.1 hgrant
    obtain ⟨row, hrow, hid⟩ := List.mem_map.1 (hwell.grant_slot step hstep _ hg)
    obtain rfl : row.id = slot := hid
    refine ⟨p, hp, row, hslots row ?_, hseat, hgrant⟩
    unfold activeSlots
    rw [hfound, hcurrent]
    exact List.mem_filter.2 ⟨hrow, List.any_eq_true.2 ⟨_, hg, beq_self_eq_true row.id⟩⟩

theorem mem_permissionsFor_iff {p : Permission} :
    p ∈ s.permissionsFor d user ↔
      ∃ g, (d.step, g) ∈ s.grantRows ∧ g.permission = p ∧ ⟨g.slot, user⟩ ∈ d.seats := by
  obtain ⟨v, hv, hid, hcarries, -⟩ := h.grounds d hd
  exact (h.allows_permissionsFor hv hid hcarries.step user).joined p

theorem agreement (user : Int) : s.Agreement d user := by
  obtain ⟨v, step, -, hfound, -, -, -, -, hcurrent⟩ := h.exists_version hd
  have hactive : ∀ slot ∈ s.activeSlots d, slot ∈ s.slotsOf d := by
    unfold activeSlots slotsOf
    rw [hfound, hcurrent]
    exact fun slot hslot => (List.mem_filter.1 hslot).1
  exact {
    joined := fun p => h.mem_permissionsFor_iff hd
    status := h.shows_iff hd hactive
    viewed := fun viewer shown hshown v => by
      rw [slotsShown_projection hcurrent hshown]
      exact h.shows_iff hd (fun _ => id) v
    own := fun shown => permissions_projection
    visible := fun viewer hviewer =>
      ⟨_, bind_eq_ok_iff.2 ⟨(), requireStorable_eq_ok_iff.2 hviewer, rfl⟩⟩
    unseated := permissionsFor_of_not_seated }

end Sound

end Store

/-! ### Events that arrive -/

/-- One store is another one with further events, each of which tells some of the news. -/
def Store.ExtendsBy (news : List News) (s t : Store) : Prop :=
  ∃ es, s = { t with events := t.events ++ es } ∧ ∀ e ∈ es, e.news ∈ news

namespace Store

variable {news : List News}

theorem extendsBy_refl (news : List News) (s : Store) : s.ExtendsBy news s :=
  ⟨[], by rw [List.append_nil], nofun⟩

theorem ExtendsBy.trans {s t u : Store} (h₁ : ExtendsBy news s t) (h₂ : ExtendsBy news t u) :
    ExtendsBy news s u := by
  obtain ⟨es₁, rfl, hes₁⟩ := h₁
  obtain ⟨es₂, rfl, hes₂⟩ := h₂
  exact ⟨es₂ ++ es₁, by rw [List.append_assoc], List.forall_mem_append.2 ⟨hes₂, hes₁⟩⟩

theorem extendsBy_tell (s : Store) (now : Instant) {told : List News} (h : ∀ n ∈ told, n ∈ news) :
    ExtendsBy news (s.tell now told) s := by
  refine ⟨_, rfl, fun e he => h _ ?_⟩
  rw [← News.map_news_events now (nextId (s.events.map Event.id)) told]
  exact List.mem_map_of_mem he

end Store

namespace Delivery

/-- Whatever becomes of an announcement, nobody is told anything but what it says. -/
theorem extendsBy_deliver (c : Conditions) (d : Delivery) (a : Announcement) {news : List News}
    (h : ∀ n ∈ a.news, n ∈ news) : Store.ExtendsBy news (deliver c d a).store d.store := by
  rcases store_deliver_cases c d a with hstore | ⟨kind, hkind, hstore⟩
  · rw [hstore]
    exact Store.extendsBy_refl _ _
  · rw [hstore, Store.addEvents_eq_tell]
    refine Store.extendsBy_tell _ _ ?_
    unfold Announcement.news at h
    rwa [hkind] at h

theorem extendsBy_deliverAll (c : Conditions) (d : Delivery) (pending : List Announcement)
    {news : List News} (h : ∀ n ∈ pending.flatMap Announcement.news, n ∈ news) :
    Store.ExtendsBy news (deliverAll c d pending).store d.store := by
  induction pending generalizing d with
  | nil => exact Store.extendsBy_refl _ _
  | cons a pending ih =>
      rw [List.flatMap_cons, List.forall_mem_append] at h
      exact (ih (deliver c d a) h.2).trans (extendsBy_deliver c d a h.1)

end Delivery

/-! ### What is told of an advance -/

namespace Drafting

variable {c : Conditions} {s : Store}

theorem news_move (hs : s.Sound) {d : Draft} (hd : d ∈ s.drafts) {target : Int} {w : Work Advance}
    (hw : move c s d target = .ok w) (hflaw : w.flaw = none) :
    ∃ d' filled, w.value = .moved d' ∧ d'.module = d.module ∧ w.store = s.putDraft d' ∧
      w.events.flatMap Announcement.news = movedNews s d' filled ∧
      ∀ a ∈ w.events, a.Deliverable := by
  obtain ⟨change, filled, hok, rfl⟩ := move_eq_ok_iff.1 hw
  have hsize : change.draft.isOversized = false := oversizedIf_eq_none_iff.1 hflaw
  -- Autofill has added the seats that it announces.
  obtain ⟨_, _, hsame, hfilled⟩ := hs.exists_autofill hd c.autofill target
    (s.activeSlots { d with step := target }) fun slot hslot =>
      Store.mem_activeSlots (d := { d with step := target }) hslot
  rw [← Store.autofill_putDraft (e := { d with step := target }) rfl] at hsame
  cases hok.symm.trans hsame
  exact ⟨change.draft, filled, rfl, by rw [hfilled.draft]; rfl, moved_work hs hfilled hsize⟩

theorem news_advance (hs : s.Sound) {d : Draft} (hd : d ∈ s.drafts) {user slot target : Int}
    {d' : Draft} (h : (advance c s d.module user slot target).result = .ok (.moved d')) :
    d'.module = d.module ∧ ∃ filled,
      Store.ExtendsBy (movedNews s d' filled) (advance c s d.module user slot target).store
        (s.putDraft d') ∧
      (c.Delivers → (advance c s d.module user slot target).store =
        (s.putDraft d').tell c.now (movedNews s d' filled)) := by
  rcases advance_cases c s d.module user slot target with ⟨f, hf⟩ |
    ⟨e, step, l, w, -, he, -, -, -, -, -, hw, hcommits, ho⟩
  · rw [hf] at h
    cases h
  · obtain rfl : d = e :=
      Option.some.inj ((hs.draft?_eq_some_iff.2 ⟨hd, rfl⟩).symm.trans he)
    rw [ho] at h ⊢
    by_cases hfinal : s.isFinalFor d l.target = true
    · rw [if_pos hfinal] at hw
      obtain ⟨-, -, rfl⟩ := finish_eq_ok_iff.1 hw
      cases h
    · rw [if_neg hfinal] at hw
      obtain ⟨d₁, filled, hvalue, hmodule, hstore, hnews, hdeliverable⟩ :=
        news_move hs hd hw hcommits.flaw
      obtain rfl : d₁ = d' := by
        cases hvalue.symm.trans (Except.ok.inj h)
        rfl
      refine ⟨hmodule, filled, ?_, fun hc => ?_⟩
      · rw [← hstore]
        exact Delivery.extendsBy_deliverAll c (.start w.store 1) w.events fun n hn => hnews ▸ hn
      · rw [Work.outcome_of_deliverable hc hdeliverable, hstore, hnews]

end Drafting

/-- All that says what a user may do in a draft agrees, and so does what the holders of its slots
are told when it has advanced to a step that does not conclude it. -/
theorem permission_views_agree {s : Store} (h : Reachable s) {d : Draft} (hd : d ∈ s.drafts) :
    (∀ user, s.Agreement d user) ∧
    ∀ c actor slot target d',
      (Drafting.advance c s d.module actor slot target).result = .ok (.moved d') →
      let s' := (Drafting.advance c s d.module actor slot target).store
      s'.draft? d.module = some d' ∧ ∃ es, s'.events = s.events ++ es ∧
        (∀ e ∈ es, e.kind = .draftAdvanced →
          e.payload.member "permissions" = permissionTexts (s'.permissionsFor d' e.user)) ∧
        (c.Delivers → ∀ user, (∃ e ∈ es, e.kind = .draftAdvanced ∧ e.user = user) ↔
          d'.isSeated user = true) := by
  have hs := h.sound
  refine ⟨hs.agreement hd, fun c actor slot target d' hmoved => ?_⟩
  obtain ⟨hmodule, filled, ⟨es, hstore, hes⟩, hdelivers⟩ := Drafting.news_advance hs hd hmoved
  intro s'
  have hs' : s' = _ := hstore
  have hadvanced {e : Event} (he : e.news ∈ Drafting.movedNews s d' filled)
      (hkind : e.kind = .draftAdvanced) :
      e.user ∈ d'.holders ∧ e.payload = object (s.advancedFields d' e.user) := by
    rcases List.mem_append.1 he with he | he
    · obtain ⟨seat, -, hnews⟩ := List.mem_map.1 he
      cases (congrArg News.kind hnews).trans hkind
    · obtain ⟨user, huser, hnews⟩ := List.mem_map.1 he
      obtain rfl : user = e.user := congrArg News.user hnews
      exact ⟨huser, (congrArg News.payload hnews).symm⟩
  refine ⟨?_, es, by rw [hs']; rfl, fun e he hkind => ?_, fun hc user => ⟨?_, fun huser => ?_⟩⟩
  · have hput := s.draft?_putDraft d' d.module
    rw [if_pos hmodule.symm, hs.draft?_eq_some_iff.2 ⟨hd, rfl⟩] at hput
    rw [hs']
    exact hput
  · rw [(hadvanced (hes e he) hkind).2, hs']
    rfl
  · rintro ⟨e, he, hkind, rfl⟩
    exact Draft.mem_holders.1 (hadvanced (hes e he) hkind).1
  · have htold : s' = _ := hdelivers hc
    have hall : es.map Event.news = Drafting.movedNews s d' filled := by
      have hevents : es = News.events c.now _ _ :=
        List.append_cancel_left (congrArg Store.events (hs'.symm.trans htold))
      rw [hevents, News.map_news_events]
    have hmem : ⟨.draftAdvanced, user, object (s.advancedFields d' user)⟩ ∈ es.map Event.news := by
      rw [hall]
      exact List.mem_append_right _ (List.mem_map_of_mem (Draft.mem_holders.2 huser))
    obtain ⟨e, he, hnews⟩ := List.mem_map.1 hmem
    exact ⟨e, he, congrArg News.kind hnews, congrArg News.user hnews⟩

/-- In the review, the editor whom autofill seats when the author submits is told of being allowed
to propose changes. -/
theorem editor_told_in_review :
    (Reachable Review.store ∧ Review.begun ∈ Review.store.drafts) ∧
    (∀ user, Review.store.Agreement Review.begun user) ∧
    ∃ e ∈ (Drafting.advance Review.conditions Review.store "m" 4 1 2).store.events,
      e.kind = .draftAdvanced ∧ e.user = 6 ∧
        e.payload.member "permissions" = permissionTexts [.proposeChanges] := by
  have hd : Review.begun ∈ Review.store.drafts := by decide +kernel
  obtain ⟨hagree, hadvance⟩ := permission_views_agree Review.reachable hd
  have hcode : (Drafting.advance Review.conditions Review.store "m" 4 1 2).result.toOption.map
      Advance.code = some "draft:process:advanced" := by
    decide +kernel
  obtain ⟨d', hmoved⟩ : ∃ d', (Drafting.advance Review.conditions Review.store "m" 4 1 2).result =
      .ok (.moved d') := by
    cases hresult : (Drafting.advance Review.conditions Review.store "m" 4 1 2).result with
    | error f => cases hresult ▸ hcode
    | ok a =>
        cases a with
        | moved d' => exact ⟨d', rfl⟩
        | finished => exact absurd (hresult ▸ hcode) (by decide)
  obtain ⟨hd', es, hevents, hpermissions, hdelivers⟩ := hadvance Review.conditions 4 1 2 _ hmoved
  obtain rfl : Review.submitted = d' := Option.some.inj (Review.draft?_reviewing.symm.trans hd')
  obtain ⟨e, he, hkind, huser⟩ :=
    (hdelivers (Conditions.smooth_of_date rfl true).delivers 6).2 (by decide)
  have hshown := hpermissions e he hkind
  have hmay : (Drafting.advance Review.conditions Review.store "m" 4 1 2).store.permissionsFor
      Review.submitted 6 = [.proposeChanges] := by
    decide +kernel
  refine ⟨⟨Review.reachable, hd⟩, hagree, e, ?_, hkind, huser, ?_⟩
  · exact hevents ▸ List.mem_append_right _ he
  · rw [hshown, huser, ← hmay]
    rfl

end Editorial
