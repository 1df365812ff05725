import Editorial.Proofs.Draft.Placing
import Editorial.Proofs.Draft.Refusal
import Editorial.Proofs.Run
import Editorial.Proofs.Store.Teams
import Mathlib.Logic.Function.Basic

/-!
# Handing over a slot

A slot of a draft is given to a user, claimed by a member of the team or vacated (`SlotRequest`).
When nothing else fails, each of them is decided by what is stored (`slot_requests_decided`): it
fails for the first of its checks that fails (`SlotRequest.Refused`), and otherwise the seats of the
draft are updated at this slot and nowhere else (`Draft.Reseats`), while those who leave and come
are told (`Draft.handover`). A request that has succeeded is granted once more without any effect
(`SlotRequest.perform_again`), and vacating a slot that was empty before gives the former drafts
back (`SlotRequest.drafts_of_vacated`).
-/

namespace Editorial

open Json Number

/-! ### Another occupant -/

namespace Draft

/-- A draft with another occupant of a slot, or with none. -/
def reseat (d : Draft) (slot : Int) : Option Int → Draft
  | some user => d.seat slot user
  | none => d.vacate slot

/-- What there is to announce when a slot gets another occupant, or none. -/
def reseatEvents (d : Draft) (slot : Int) : Option Int → List Announcement
  | some user => d.seatEvents slot user
  | none => d.vacateEvents slot

/-- What users are told about a slot. -/
def slotNews (d : Draft) (slot : Int) (kind : EventKind) (user : Int) : News :=
  ⟨kind, user, object (d.slotPayload slot)⟩

/-- What users are told when a slot gets another occupant, or none: who was there that the slot is
vacated, and then who comes that it is filled. Nothing is told when everything stays as it is. -/
def handover (d : Draft) (slot : Int) (after : Option Int) : List News :=
  if d.occupant? slot = after then []
  else
    (d.occupant? slot).toList.map (d.slotNews slot .slotVacated) ++
      after.toList.map (d.slotNews slot .slotFilled)

/-- A slot of a draft gets another occupant, or none. Its other slots stay as they are, as do all
other drafts and all tables but the events, to which exactly what there is to tell is added. -/
structure Reseats {α : Type} (c : Conditions) (s : Store) (d : Draft) (slot : Int)
    (after : Option Int) (d' : Draft) (answer : α) (o : Outcome α) : Prop where
  draft : d' = { d with seats := d'.seats }
  one_seat : (d'.seats.map Seat.slot).Nodup
  occupants : d'.occupant? = Function.update d.occupant? slot after
  outcome : o = {
    result := .ok answer
    store := Store.tell
      { s with drafts := s.drafts.map fun e => if e.module = d.module then d' else e }
      c.now (d.handover slot after)
    delivered := (d.handover slot after).length
    broken := false }

section Reseat

variable {d : Draft} {slot : Int} {after : Option Int}

theorem occupant?_reseat (d : Draft) (slot : Int) (after : Option Int) :
    (d.reseat slot after).occupant? = Function.update d.occupant? slot after := by
  funext other
  rw [Function.update_apply]
  cases after with
  | some user => exact occupant?_seat d slot user other
  | none => exact occupant?_vacate d slot other

theorem occupant?_reseat_self (d : Draft) (slot : Int) (after : Option Int) :
    (d.reseat slot after).occupant? slot = after := by
  rw [occupant?_reseat, Function.update_self]

theorem reseat_eq (d : Draft) (slot : Int) (after : Option Int) :
    d.reseat slot after = { d with seats := (d.reseat slot after).seats } := by
  cases after <;> rfl

theorem ordered_reseat (hd : SeatsOrdered d.seats) (slot : Int) (after : Option Int) :
    SeatsOrdered (d.reseat slot after).seats := by
  cases after with
  | some user => exact ordered_putSeat slot user hd
  | none => exact hd.filter _

theorem isOversized_reseat (hd : d.isOversized = false)
    (hafter : ∀ user, after = some user → isStorable user = true) :
    (d.reseat slot after).isOversized = false := by
  cases after with
  | some user => exact isOversized_seat_of_storable hd slot (hafter user rfl)
  | none =>
      refine isOversized_eq_false_iff.2 fun seat hseat => ?_
      exact isOversized_eq_false_iff.1 hd seat (List.mem_filter.1 hseat).1

/-- A draft is the same with the occupant that the slot has. -/
theorem reseat_of_occupant (hd : SeatsOrdered d.seats) (h : d.occupant? slot = after) :
    d.reseat slot after = d := by
  cases after with
  | some user => exact seat_of_occupant hd h
  | none => exact vacate_of_empty hd h

/-- What has been done to a slot is undone by giving it back. -/
theorem reseat_back (hd : SeatsOrdered d.seats) (slot : Int) (after : Option Int) :
    (d.reseat slot after).reseat slot (d.occupant? slot) = d := by
  have hfields (x : Option Int) : (d.reseat slot after).reseat slot x =
      { d with seats := ((d.reseat slot after).reseat slot x).seats } := by
    cases after <;> cases x <;> rfl
  have hordered := ordered_reseat (ordered_reseat hd slot after) slot (d.occupant? slot)
  refine (hfields _).trans (eq_of_occupants hd hordered fun other => ?_)
  refine (congrFun (occupant?_reseat (d.reseat slot after) slot (d.occupant? slot)) other).trans ?_
  rw [occupant?_reseat, Function.update_idem, Function.update_eq_self]

end Reseat

/-! ### What is told about it -/

theorem handover_of_occupant {d : Draft} {slot : Int} {after : Option Int}
    (h : d.occupant? slot = after) : d.handover slot after = [] := if_pos h

/-- Announcements that each go to one user, who can be stored, and all that is told by them. -/
structure Tells (events : List Announcement) (news : List News) : Prop where
  deliverable : ∀ a ∈ events, a.Deliverable
  told : events.flatMap Announcement.news = news
  length : events.length = news.length

theorem Tells.nil : Tells [] [] := ⟨nofun, rfl, rfl⟩

theorem Tells.append {events events' : List Announcement} {news news' : List News}
    (h : Tells events news) (h' : Tells events' news') :
    Tells (events ++ events') (news ++ news') where
  deliverable a ha := (List.mem_append.1 ha).elim (h.deliverable a) (h'.deliverable a)
  told := by rw [List.flatMap_append, h.told, h'.told]
  length := by rw [List.length_append, List.length_append, h.length, h'.length]

theorem tells_slotNews (d : Draft) (slot : Int) (kind : EventKind) {user : Int}
    (huser : isStorable user = true) :
    Tells (announce kind (d.slotPayload slot) [user]) [d.slotNews slot kind user] where
  deliverable := deliverable_announce kind (by rw [depth_slotPayload]; decide) fun u hu =>
    (List.mem_singleton.1 hu).symm ▸ huser
  told := by
    rw [news_announce, Ordered.ascending_eq_self (List.pairwise_singleton _ _)]
    rfl
  length := rfl

theorem tells_reseatEvents {d : Draft} (hd : d.isOversized = false) {slot : Int}
    {after : Option Int} (hafter : ∀ user, after = some user → isStorable user = true) :
    Tells (d.reseatEvents slot after) (d.handover slot after) := by
  have hformer {former : Int} (h : d.occupant? slot = some former) : isStorable former = true := by
    by_contra hlarge
    have hover := Drafting.Operation.isOversized_of_occupant h (by simpa using hlarge)
    cases hd.symm.trans hover
  unfold handover
  cases after with
  | none =>
      unfold reseatEvents vacateEvents
      cases hslot : d.occupant? slot with
      | none => exact .nil
      | some former => exact tells_slotNews d slot .slotVacated (hformer hslot)
  | some user =>
      have hcomes := tells_slotNews d slot .slotFilled (hafter user rfl)
      unfold reseatEvents seatEvents
      cases hslot : d.occupant? slot with
      | none => exact hcomes
      | some former =>
          by_cases hsame : former = user
          · simpa [hsame] using Tells.nil
          · simp only [Option.some.injEq, hsame, if_false]
            exact (tells_slotNews d slot .slotVacated (hformer hslot)).append hcomes

end Draft

/-! ### Requests -/

/-- What is asked for a slot of a draft. -/
inductive SlotRequest where
  | assign (user : Int)
  | claim (user : Int)
  | vacate

namespace Store

/-- A module has a draft, and the version of the draft has a slot. -/
structure Provides (s : Store) (module : String) (slot : Int) (d : Draft) (row : Slot) : Prop where
  draft : s.draft? module = some d
  stored : row ∈ s.slotsOf d
  named : row.id = slot

/-- A slot without role limit is open to every user, another one to those who hold one of its roles
in the team. -/
def MeetsLimit (s : Store) (row : Slot) (team user : Int) : Prop :=
  row.roles = [] ∨ ∃ role ∈ row.roles, s.roleOf? team user = some role

/-- The draft is found with the new occupant of the slot. -/
theorem Provides.reseated {α : Type} {c : Conditions} {s : Store} {module : String} {slot : Int}
    {d d' : Draft} {row : Slot} {after : Option Int} {answer : α} {o : Outcome α}
    (h : s.Provides module slot d row)
    (ho : d.Reseats c s slot after d' answer o) : o.store.Provides module slot d' row := by
  have hmodule : d'.module = d.module := by rw [ho.draft]
  have hversion : d'.version = d.version := by rw [ho.draft]
  have hown := module_of_draft? h.draft
  refine ⟨?_, ?_, h.named⟩
  · have hfound := s.draft?_putDraft d' module
    rw [if_pos (hown.symm.trans hmodule.symm), h.draft] at hfound
    rw [ho.outcome]
    unfold putDraft at hfound
    rw [hmodule] at hfound
    exact hfound
  · rw [ho.outcome]
    have hstored := h.stored
    unfold slotsOf at hstored ⊢
    rw [hversion]
    exact hstored

end Store

namespace SlotRequest

/-- Who is to have the slot. -/
def occupant : SlotRequest → Option Int
  | assign user | claim user => some user
  | vacate => none

/-- What kind of answer is given. -/
def Answer : SlotRequest → Type
  | assign _ | claim _ => Draft
  | vacate => Option Int

/-- The answer for a draft as it was and as it is: the draft, or who had the slot. -/
def answer (slot : Int) (d d' : Draft) : (r : SlotRequest) → r.Answer
  | assign _ | claim _ => d'
  | vacate => d.occupant? slot

/-- Carries out a request. -/
def perform (c : Conditions) (s : Store) (module : String) (slot : Int) :
    (r : SlotRequest) → Outcome r.Answer
  | assign user => Drafting.assign c s module slot user
  | claim user => Drafting.claim c s module slot user
  | vacate => Drafting.unassign c s module slot

/-- Who claims a slot has to be a member of the team, and nobody else may have the slot. -/
def Allowed (s : Store) (d : Draft) (slot : Int) : SlotRequest → Prop
  | claim user => user ∈ s.membersOf d.team ∧ ∀ other, d.occupant? slot = some other → other = user
  | assign _ | vacate => True

/-- Nothing is in the way of a request. -/
structure Granted (s : Store) (module : String) (slot : Int) (r : SlotRequest) (d : Draft)
    (row : Slot) : Prop where
  provided : s.Provides module slot d row
  allowed : r.Allowed s d slot
  limit : ∀ user, r.occupant = some user → s.MeetsLimit row d.team user

/-- What is in the way of a request first, with the failure that says so. -/
inductive Refused (s : Store) (module : String) (slot : Int) : SlotRequest → Failure → Prop where
  | noDraft {r : SlotRequest} (missing : s.draft? module = none) :
      Refused s module slot r (.notFound .draft module)
  | noSlot {r : SlotRequest} {d : Draft} (found : s.draft? module = some d)
      (missing : ∀ row ∈ s.slotsOf d, row.id ≠ slot) :
      Refused s module slot r (.notFound .slot (integerText slot))
  | notAMember {user : Int} {d : Draft} {row : Slot} (provided : s.Provides module slot d row)
      (outside : user ∉ s.membersOf d.team) :
      Refused s module slot (claim user) (.notAMember user)
  | occupied {user other : Int} {d : Draft} {row : Slot} (provided : s.Provides module slot d row)
      (member : user ∈ s.membersOf d.team) (taken : d.occupant? slot = some other)
      (someoneElse : other ≠ user) :
      Refused s module slot (claim user) (.slotTaken slot row.name)
  | badRole {r : SlotRequest} {user : Int} {d : Draft} {row : Slot}
      (provided : s.Provides module slot d row) (allowed : r.Allowed s d slot)
      (asked : r.occupant = some user) (limit : ¬s.MeetsLimit row d.team user) :
      Refused s module slot r (.badRole user row.name)

section Decision

variable {s : Store} {c : Conditions} {module : String} {slot : Int} {r : SlotRequest}

/-! ### Granted or refused -/

theorem allowed_or_refused {d : Draft} {row : Slot} (h : s.Provides module slot d row)
    (r : SlotRequest) : r.Allowed s d slot ∨ ∃ f, Refused s module slot r f := by
  cases r with
  | assign user => exact Or.inl trivial
  | vacate => exact Or.inl trivial
  | claim user =>
      by_cases hmember : user ∈ s.membersOf d.team
      · by_cases htaken : ∀ other, d.occupant? slot = some other → other = user
        · exact Or.inl ⟨hmember, htaken⟩
        · push Not at htaken
          obtain ⟨other, hother, hne⟩ := htaken
          exact Or.inr ⟨_, .occupied h hmember hother hne⟩
      · exact Or.inr ⟨_, .notAMember h hmember⟩

theorem granted_or_refused (s : Store) (module : String) (slot : Int) (r : SlotRequest) :
    (∃ d row, Granted s module slot r d row) ∨ ∃ f, Refused s module slot r f := by
  cases hd : s.draft? module with
  | none => exact Or.inr ⟨_, .noDraft hd⟩
  | some d =>
      by_cases hrow : ∃ row ∈ s.slotsOf d, row.id = slot
      · obtain ⟨row, hmem, hid⟩ := hrow
        have hprovided : s.Provides module slot d row := ⟨hd, hmem, hid⟩
        rcases allowed_or_refused hprovided r with hallowed | hrefused
        · by_cases hlimit : ∀ user, r.occupant = some user → s.MeetsLimit row d.team user
          · exact Or.inl ⟨d, row, hprovided, hallowed, hlimit⟩
          · push Not at hlimit
            obtain ⟨user, hasked, hlimit⟩ := hlimit
            exact Or.inr ⟨_, .badRole hprovided hallowed hasked hlimit⟩
        · exact Or.inr hrefused
      · push Not at hrow
        exact Or.inr ⟨_, .noSlot hd hrow⟩

/-! ### Requests that fail -/

section Found

variable (hs : s.Sound) {d : Draft} {row : Slot}

include hs

theorem slotIn_of_provided (hslot : isStorable slot = true) (h : s.Provides module slot d row) :
    s.slotIn d.version slot = .ok row :=
  Store.slotIn_eq_ok_iff.2 ⟨hslot, (hs.slotIn?_eq_some_iff (hs.draft?_eq_some_iff.1 h.draft).1).2
    ⟨h.stored, h.named⟩⟩

theorem slotIn_of_missing (hslot : isStorable slot = true) (hd : d ∈ s.drafts)
    (missing : ∀ row ∈ s.slotsOf d, row.id ≠ slot) :
    s.slotIn d.version slot = .error (.notFound .slot (integerText slot)) := by
  have hnone : s.slotIn? d.version slot = none :=
    Option.eq_none_iff_forall_not_mem.2 fun row hrow =>
      let ⟨hmem, hid⟩ := (hs.slotIn?_eq_some_iff hd).1 hrow
      missing row hmem hid
  unfold Store.slotIn
  rw [Store.requireStorable_of hslot, hnone]
  rfl

theorem seatUser_of_refused (hslot : isStorable slot = true) (h : s.Provides module slot d row)
    {user : Int} (huser : isStorable user = true) (limit : ¬s.MeetsLimit row d.team user) :
    s.seatUser (.start d) row user = .error (.badRole user row.name) := by
  obtain ⟨limited, refused⟩ := not_or.1 limit
  push Not at refused
  have hrole := Store.requireRole_of_refused (Drafting.team_storable hs h.draft) huser limited
    refused
  have hrow := (Store.slotIn_eq_ok_iff.1 (slotIn_of_provided hs hslot h)).2
  rw [← h.named] at hrow
  unfold Store.seatUser
  simp only [Change.start, hrow, hrole, bind, Except.bind]
  rfl

end Found

theorem not_taken {taken : Option Int} {user : Int}
    (h : ∀ other, taken = some other → other = user) : ¬taken.any (· ≠ user) = true := by
  cases taken with
  | none => exact Bool.false_ne_true
  | some other => simp [h other rfl]

theorem perform_of_refused (hs : s.Sound) (hc : c.Smooth) (hslot : isStorable slot = true)
    (huser : ∀ user, r.occupant = some user → isStorable user = true) {f : Failure}
    (h : Refused s module slot r f) : r.perform c s module slot = .failed s f := by
  cases h with
  | noDraft missing => cases r <;> exact onLockedDraft_of_none hc.locks missing
  | noSlot found missing =>
      have hnone := slotIn_of_missing hs hslot (hs.draft?_eq_some_iff.1 found).1 missing
      cases r <;>
        exact onLockedDraft_of_error (f := .notFound .slot (integerText slot)) hc.locks found
          (by simp only [hnone, bind, Except.bind])
  | @notAMember user d row provided outside =>
      refine onLockedDraft_of_error (f := .notAMember user) hc.locks provided.draft ?_
      simp only [slotIn_of_provided hs hslot provided, bind, Except.bind]
      rw [if_neg (by simpa using outside)]
      rfl
  | @occupied user other d row provided member taken someoneElse =>
      refine onLockedDraft_of_error (f := .slotTaken slot row.name) hc.locks provided.draft ?_
      simp only [slotIn_of_provided hs hslot provided, provided.named, bind, Except.bind]
      rw [if_pos (by simpa using member), if_pos (by rw [taken]; simpa using someoneElse)]
      rfl
  | @badRole _ user d row provided allowed asked limit =>
      have hseat := seatUser_of_refused hs hslot provided (huser user asked) limit
      cases r with
      | vacate => cases asked
      | assign =>
          cases asked
          refine onLockedDraft_of_error (f := .badRole user row.name) hc.locks provided.draft ?_
          simp only [slotIn_of_provided hs hslot provided, hseat, bind, Except.bind]
      | claim =>
          cases asked
          refine onLockedDraft_of_error (f := .badRole user row.name) hc.locks provided.draft ?_
          simp only [slotIn_of_provided hs hslot provided, hseat, provided.named, bind, Except.bind]
          rw [if_pos (by simpa using allowed.1), if_neg (not_taken allowed.2)]

/-! ### Requests that succeed -/

/-- What is stored and told for a request that nothing is in the way of. -/
def work (s : Store) (slot : Int) (d : Draft) (r : SlotRequest) : Work r.Answer :=
  Change.work ⟨d.reseat slot r.occupant, d.reseatEvents slot r.occupant⟩ s
    (r.answer slot d (d.reseat slot r.occupant))

theorem seatUser_of_granted (hs : s.Sound) (hslot : isStorable slot = true) {d : Draft} {row : Slot}
    (h : s.Provides module slot d row) {user : Int} (huser : isStorable user = true)
    (limit : s.MeetsLimit row d.team user) :
    s.seatUser (.start d) row user = .ok ((Change.start d).seat slot user) := by
  refine Store.seatUser_eq_ok_iff.2 ⟨?_, ?_, by rw [h.named]⟩
  · rw [h.named]
    exact Option.isSome_iff_exists.2
      ⟨row, (Store.slotIn_eq_ok_iff.1 (slotIn_of_provided hs hslot h)).2⟩
  · exact Store.requireRole_eq_ok_iff.2 (Or.inr
      ⟨huser, Drafting.team_storable hs h.draft, Slot.admits_eq_true_iff.2 limit⟩)

theorem perform_of_granted (hs : s.Sound) (hc : c.Smooth) (hslot : isStorable slot = true)
    (huser : ∀ user, r.occupant = some user → isStorable user = true) {d : Draft} {row : Slot}
    (h : Granted s module slot r d row) :
    d.Reseats c s slot r.occupant (d.reseat slot r.occupant)
      (r.answer slot d (d.reseat slot r.occupant)) (r.perform c s module slot) := by
  have hmem := (hs.draft?_eq_some_iff.1 h.provided.draft).1
  have hordered := hs.seats_ordered d hmem
  have hsmall := hs.seats_storable d hmem
  have hrow := slotIn_of_provided hs hslot h.provided
  have htells : Draft.Tells (d.reseatEvents slot r.occupant) (d.handover slot r.occupant) :=
    Draft.tells_reseatEvents hsmall huser
  have hflaw : (r.work s slot d).flaw = none :=
    oversizedIf_eq_none_iff.2 (Draft.isOversized_reseat hsmall huser)
  have hperform : r.perform c s module slot =
      { result := .ok (r.work s slot d).value
        store := (r.work s slot d).store.tell c.now
          ((r.work s slot d).events.flatMap Announcement.news)
        delivered := (r.work s slot d).events.length, broken := false } := by
    cases r with
    | assign user =>
        have hseat := seatUser_of_granted hs hslot h.provided (huser user rfl) (h.limit user rfl)
        refine onLockedDraft_of_deliverable hc h.provided.draft ?_ hflaw htells.deliverable
        simp only [hrow, hseat, bind, Except.bind]
        rfl
    | claim user =>
        have hseat := seatUser_of_granted hs hslot h.provided (huser user rfl) (h.limit user rfl)
        refine onLockedDraft_of_deliverable hc h.provided.draft ?_ hflaw htells.deliverable
        simp only [hrow, hseat, h.provided.named, bind, Except.bind]
        rw [if_pos (by simpa using h.allowed.1), if_neg (not_taken h.allowed.2)]
        rfl
    | vacate =>
        refine onLockedDraft_of_deliverable hc h.provided.draft ?_ hflaw htells.deliverable
        simp only [hrow, h.provided.named, bind, Except.bind]
        rfl
  have hmodule : (d.reseat slot r.occupant).module = d.module := by rw [Draft.reseat_eq]
  exact {
    draft := Draft.reseat_eq d slot r.occupant
    one_seat := (Draft.ordered_reseat hordered slot r.occupant).nodup
    occupants := Draft.occupant?_reseat d slot r.occupant
    outcome := by
      rw [hperform]
      unfold work Change.work
      dsimp only
      rw [htells.told, htells.length]
      unfold Store.putDraft
      rw [hmodule] }

/-! ### After a request -/

/-- A request for what is already the case has no effect. -/
theorem perform_of_occupant (hs : s.Sound) (hc : c.Smooth) (hslot : isStorable slot = true)
    (huser : ∀ user, r.occupant = some user → isStorable user = true) {d : Draft} {row : Slot}
    (h : Granted s module slot r d row) (hsame : d.occupant? slot = r.occupant) :
    r.perform c s module slot = .read s (.ok (r.answer slot d d)) := by
  have hmem := hs.draft?_eq_some_iff.1 h.provided.draft
  have hput : s.putDraft d = s := hs.putDraft_self (hmem.2 ▸ h.provided.draft)
  unfold Store.putDraft at hput
  rw [(perform_of_granted hs hc hslot huser h).outcome,
    Draft.reseat_of_occupant (hs.seats_ordered d hmem.1) hsame, Draft.handover_of_occupant hsame,
    hput, Store.tell_nil]
  rfl

/-- A request as something that is done to a store. -/
def operation (module : String) (slot : Int) : SlotRequest → Drafting.Operation
  | assign user => .assign module slot user
  | claim user => .claim module slot user
  | vacate => .unassign module slot

theorem reachable_perform (h : Reachable s) (c : Conditions) (module : String) (slot : Int)
    (r : SlotRequest) : Reachable (r.perform c s module slot).store := by
  have := h.after ⟨c, .draft (r.operation module slot)⟩
  cases r <;> exact this

section Reseated

variable {α : Type} {d d' : Draft} {row : Slot} {answer : α} {o : Outcome α}

/-- Nothing is in the way of a request that has succeeded before. -/
theorem Granted.reseated (h : Granted s module slot r d row)
    (ho : d.Reseats c s slot r.occupant d' answer o) :
    Granted o.store module slot r d' row := by
  have hteam : d'.team = d.team := by rw [ho.draft]
  have hmembers : o.store.members = s.members := by rw [ho.outcome]; rfl
  have hoccupant : d'.occupant? slot = r.occupant := by rw [ho.occupants, Function.update_self]
  refine ⟨h.provided.reseated ho, ?_, fun user huser => ?_⟩
  · cases r with
    | assign | vacate => trivial
    | claim user =>
        have hmember := h.allowed.1
        refine ⟨?_, fun other hother => Option.some.inj (hother.symm.trans hoccupant)⟩
        unfold Store.membersOf at hmember ⊢
        rwa [hmembers, hteam]
  · have hlimit := h.limit user huser
    unfold Store.MeetsLimit Store.roleOf? Store.member? at hlimit ⊢
    rwa [hmembers, hteam]

/-- A request that has succeeded has no effect the second time. -/
theorem perform_again (hs : o.store.Sound) {c' : Conditions} (hc' : c'.Smooth)
    (hslot : isStorable slot = true)
    (huser : ∀ user, r.occupant = some user → isStorable user = true)
    (h : Granted s module slot r d row) (ho : d.Reseats c s slot r.occupant d' answer o) :
    r.perform c' o.store module slot = .read o.store (.ok (r.answer slot d' d')) :=
  perform_of_occupant hs hc' hslot huser (h.reseated ho)
    (by rw [ho.occupants, Function.update_self])

/-- A slot that was empty is empty again once it has been vacated, as if nothing had happened. -/
theorem drafts_of_vacated (hs : s.Sound) (ho : o.store.Sound) {c' : Conditions} (hc' : c'.Smooth)
    (hslot : isStorable slot = true) (h : s.Provides module slot d row)
    {after : Option Int} (hafter : d.Reseats c s slot after (d.reseat slot after) answer o)
    (hempty : d.occupant? slot = none) :
    let back := vacate.perform c' o.store module slot
    back.result = .ok after ∧ back.store.drafts = s.drafts := by
  obtain ⟨hmem, hmodule⟩ := hs.draft?_eq_some_iff.1 h.draft
  have hsame : (d.reseat slot after).module = d.module := by rw [Draft.reseat_eq]
  have hvacated := perform_of_granted (r := vacate) ho hc' hslot nofun
    (⟨h.reseated hafter, trivial, nofun⟩ : Granted o.store module slot vacate _ row)
  have hback : (d.reseat slot after).reseat slot none = d :=
    hempty ▸ Draft.reseat_back (hs.seats_ordered d hmem) slot after
  have hdrafts : o.store.drafts = (s.putDraft (d.reseat slot after)).drafts := by
    rw [hafter.outcome, Store.putDraft, hsame]
    rfl
  intro back
  have hb : back = _ := hvacated.outcome
  rw [hb]
  refine ⟨congrArg Except.ok (Draft.occupant?_reseat_self d slot after), ?_⟩
  have hput : (s.putDraft (d.reseat slot after)).putDraft d = s := by
    rw [Store.putDraft_putDraft hsame, hs.putDraft_self (hmodule ▸ h.draft)]
  change o.store.drafts.map (fun e => if e.module = (d.reseat slot after).module then
    (d.reseat slot after).reseat slot none else e) = s.drafts
  rw [hback, hdrafts, hsame]
  exact congrArg Store.drafts hput

end Reseated

end Decision

end SlotRequest

/-! ### What decides a request -/

/-- Under conditions in which nothing else fails, a request about a slot fails exactly with what is
in its way first, leaving the store as it was. One that succeeds updates the seats of the draft at
the slot and tells those concerned; it has no effect at all if the slot has that occupant already,
nor when it is repeated, and vacating a slot that was empty before gives the former drafts back. -/
theorem slot_requests_decided {s : Store} (h : Reachable s) {c : Conditions} (hc : c.Smooth)
    (module : String) (slot : Int) (hslot : isStorable slot = true) (r : SlotRequest)
    (huser : ∀ user, r.occupant = some user → isStorable user = true) :
    let o := r.perform c s module slot
    (∀ f, o.result = .error f ↔ r.Refused s module slot f) ∧
    (∀ f, o.result = .error f → o = .failed s f) ∧
    ∀ answer, o.result = .ok answer → ∃ d d', s.draft? module = some d ∧
      answer = r.answer slot d d' ∧ d.Reseats c s slot r.occupant d' answer o ∧
      (d.occupant? slot = r.occupant → o = .read s (.ok answer)) ∧
      ∀ c', c'.Smooth →
        r.perform c' o.store module slot = .read o.store (.ok (r.answer slot d' d')) ∧
        (d.occupant? slot = none →
          (Drafting.unassign c' o.store module slot).result = .ok r.occupant ∧
          (Drafting.unassign c' o.store module slot).store.drafts = s.drafts) := by
  have hs := h.sound
  intro o
  have ho : o.store.Sound := (SlotRequest.reachable_perform h c module slot r).sound
  have heither := SlotRequest.granted_or_refused s module slot r
  have hrefused {f : Failure} (hf : r.Refused s module slot f) : o = .failed s f :=
    SlotRequest.perform_of_refused hs hc hslot huser hf
  have hgranted {d : Draft} {row : Slot} (hg : r.Granted s module slot d row) :
      d.Reseats c s slot r.occupant (d.reseat slot r.occupant) _ o :=
    SlotRequest.perform_of_granted hs hc hslot huser hg
  have hfailed {f : Failure} (hf : o.result = .error f) : r.Refused s module slot f := by
    rcases heither with ⟨d, row, hg⟩ | ⟨g, hg⟩
    · rw [(hgranted hg).outcome] at hf
      cases hf
    · rw [hrefused hg] at hf
      cases hf
      exact hg
  refine ⟨fun f => ⟨hfailed, fun hf => by rw [hrefused hf]; rfl⟩, fun f hf => hrefused (hfailed hf),
    fun answer hanswer => ?_⟩
  rcases heither with ⟨d, row, hg⟩ | ⟨g, hg⟩
  · have hreseats := hgranted hg
    rw [hreseats.outcome] at hanswer
    cases hanswer
    refine ⟨d, _, hg.provided.draft, rfl, hreseats, fun hsame => ?_, fun c' hc' => ⟨?_, ?_⟩⟩
    · rw [Draft.reseat_of_occupant
        (hs.seats_ordered d (hs.draft?_eq_some_iff.1 hg.provided.draft).1) hsame]
      exact SlotRequest.perform_of_occupant hs hc hslot huser hg hsame
    · exact SlotRequest.perform_again ho hc' hslot huser hg hreseats
    · exact SlotRequest.drafts_of_vacated hs ho hc' hslot hg.provided hreseats
  · rw [hrefused hg] at hanswer
    cases hanswer

/-- In the review, another author takes the place of the first one, who is told so, and an editor
who is no member of the team cannot take the editor's slot. -/
theorem author_replaced_in_review :
    (Reachable Review.store ∧ Review.conditions.Smooth ∧ isStorable 1 = true ∧
      ∀ user, (SlotRequest.assign 5).occupant = some user → isStorable user = true) ∧
    (∃ d', Review.begun.Reseats Review.conditions Review.store 1 (some 5) d' d'
      (Drafting.assign Review.conditions Review.store "m" 1 5)) ∧
    Review.begun.handover 1 (some 5) =
      [Review.begun.slotNews 1 .slotVacated 4, Review.begun.slotNews 1 .slotFilled 5] ∧
    Drafting.claim Review.conditions Review.store "m" 2 5 =
      .failed Review.store (.notAMember 5) := by
  have hsmooth : Review.conditions.Smooth := Conditions.smooth_of_date rfl true
  have huser : ∀ r ∈ [SlotRequest.assign 5, .claim 5], ∀ user, r.occupant = some user →
      isStorable user = true := by
    simp [SlotRequest.occupant, isStorable, storableLimit]
  obtain ⟨-, -, hsucceeds⟩ := slot_requests_decided Review.reachable hsmooth "m" 1 (by decide)
    (.assign 5) (huser _ (by simp))
  obtain ⟨hrefuses, hfails, -⟩ := slot_requests_decided Review.reachable hsmooth "m" 2 (by decide)
    (.claim 5) (huser _ (by simp))
  have hassigned : ∃ a, ((SlotRequest.assign 5).perform Review.conditions Review.store "m" 1).result
      = .ok a := exists_ok_of_toBool (by decide +kernel)
  obtain ⟨a, ha⟩ := hassigned
  obtain ⟨d, d', hd, rfl, hreseats, -⟩ := hsucceeds a ha
  obtain rfl : Review.begun = d := Option.some.inj (Review.draft?_store.symm.trans hd)
  have hprovided : Review.store.Provides "m" 2 Review.begun ⟨2, "Editor", [7], true⟩ :=
    ⟨Review.draft?_store, by decide +kernel, rfl⟩
  have hclaim := (hrefuses (.notAMember 5)).2 (.notAMember hprovided (by decide +kernel))
  exact ⟨⟨Review.reachable, hsmooth, by decide, huser _ (by simp)⟩, ⟨_, hreseats⟩, rfl,
    hfails _ hclaim⟩

end Editorial
