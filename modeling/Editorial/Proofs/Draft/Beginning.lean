import Editorial.Proofs.Draft.Fairness
import Editorial.Proofs.Draft.Placing
import Editorial.Proofs.Process.Latest
import Mathlib.Data.Set.Finite.Lemmas

/-!
# How a draft begins

When nothing else fails, a beginning is decided by what is stored (`begin_decided`): it succeeds if
nothing is in its way (`Drafting.Ready`), and it fails for what is in its way first
(`Drafting.Refused`), the placements being examined in ascending order of their slots. One of the
two is always the case (`Drafting.ready_or_refused`). `Draft.Opens` says what a beginning that
succeeds does.
-/

namespace Editorial

open Number

/-! ### What is in the way -/

namespace Drafting

/-- A module and a process of its team. -/
structure Matches (s : Store) (module : String) (process : Int) (m : Module) : Prop where
  module : s.module? module = some m
  process : ∃ p, s.process? process = some p ∧ p.team = m.team

/-- Nothing is in the way of a draft of a module on a version with users in its slots. -/
structure Ready (s : Store) (module : String) (process : Int) (seats : List Seat) (m : Module)
    (v : Version) : Prop where
  pair : Matches s module process m
  idle : s.draft? module = none
  newest : s.Newest process v
  seatable : ∀ seat ∈ seats, s.Seatable m.team v seat

/-- What is in the way of a draft first, with the failure that says so. -/
inductive Refused (s : Store) (module : String) (process : Int) (seats : List Seat) :
    Failure → Prop where
  | noModule (missing : s.module? module = none) :
      Refused s module process seats (.notFound .module module)
  | noProcess {m : Module} (found : s.module? module = some m)
      (missing : ∀ p, s.process? process = some p → p.team ≠ m.team) :
      Refused s module process seats (.notFound .process (integerText process))
  | drafted {m : Module} (pair : Matches s module process m)
      (present : (s.draft? module).isSome = true) :
      Refused s module process seats (.draftExists module)
  | noVersion {m : Module} (pair : Matches s module process m) (idle : s.draft? module = none)
      (missing : ∀ v ∈ s.versions, v.process ≠ process) :
      Refused s module process seats (.notFound .version ("latest of " ++ integerText process))
  | misplaced {m : Module} {v : Version} {seat : Seat} {f : Failure}
      (pair : Matches s module process m) (idle : s.draft? module = none)
      (newest : s.Newest process v) (placed : seat ∈ seats)
      (first : ∀ other ∈ seats, other.slot < seat.slot → s.Seatable m.team v other)
      (reason : s.Misplaced m.team v seat f) : Refused s module process seats f

end Drafting

/-- What a beginning does: there are a draft at the start step of the version, a copy of the
module's document for it and an active run more than before. The users that are placed have the
seats asked for, and autofill has filled slots of the start step with regard to them. -/
structure Draft.Opens (c : Conditions) (s : Store) (m : Module) (v : Version) (placed : List Seat)
    (d : Draft) (filled : List Seat) (o : Outcome Draft) : Prop where
  result : o.result = .ok d
  draft : d =
    { module := m.id, team := m.team, version := v.id, step := v.start
      document := nextId (s.documents.map Document.id), created := c.now, seats := d.seats }
  fresh : d.document ∉ s.documents.map Document.id
  one_seat : (d.seats.map Seat.slot).Nodup
  seats : ∀ seat, seat ∈ d.seats ↔ seat ∈ placed ∨ seat ∈ filled
  autofilled : ∃ start ∈ v.steps, start.id = v.start ∧ ∃ given, given.Perm placed ∧
    SeatsOrdered given ∧ if c.autofill = true then (Drafting.freshStore c s m v).Fills
      { d with seats := given } (v.activeSlots start) filled else filled = []
  store : o.store.Extends { s with
    documents := s.documents ++ [⟨nextId (s.documents.map Document.id), m.document, c.now⟩]
    drafts := s.drafts ++ [d]
    runs := s.runs ++ [⟨nextId (s.runs.map Run.id), m.id, v.id, .active, c.now, none⟩] }

namespace Drafting

section Begin

variable {s : Store} {c : Conditions} {module : String} {process : Int} {seats : List Seat}

/-! ### One of the two -/

/-- If not all users can be placed, there is one with the least slot who cannot. -/
theorem exists_first_misplaced {team : Int} {v : Version}
    (h : ¬∀ seat ∈ seats, s.Seatable team v seat) :
    ∃ seat ∈ seats, (∀ other ∈ seats, other.slot < seat.slot → s.Seatable team v other) ∧
      ∃ f, s.Misplaced team v seat f := by
  push Not at h
  obtain ⟨seat, ⟨hseat, hbad⟩, hleast⟩ := Set.exists_min_image
    {seat | seat ∈ seats ∧ ¬s.Seatable team v seat} Seat.slot
    (seats.finite_toSet.subset fun _ hseat => hseat.1) h
  refine ⟨seat, hseat, fun other hother hlt => ?_, Store.exists_misplaced hbad⟩
  by_contra hworse
  have := hleast other ⟨hother, hworse⟩
  omega

theorem ready_or_refused (hs : s.Sound) (module : String) (process : Int) (seats : List Seat) :
    (∃ m v, Ready s module process seats m v) ∨ ∃ f, Refused s module process seats f := by
  cases hm : s.module? module with
  | none => exact Or.inr ⟨_, .noModule hm⟩
  | some m =>
      by_cases hp : ∃ p, s.process? process = some p ∧ p.team = m.team
      · have hpair : Matches s module process m := ⟨hm, hp⟩
        cases hd : s.draft? module with
        | some d => exact Or.inr ⟨_, .drafted hpair (by rw [hd]; rfl)⟩
        | none =>
            cases hv : s.latest? process with
            | none => exact Or.inr ⟨_, .noVersion hpair hd (Store.latest?_eq_none_iff.1 hv)⟩
            | some v =>
                have hnewest := hs.latest?_eq_some_iff.1 hv
                by_cases hseats : ∀ seat ∈ seats, s.Seatable m.team v seat
                · exact Or.inl ⟨m, v, hpair, hd, hnewest, hseats⟩
                · obtain ⟨seat, hseat, hfirst, f, hf⟩ := exists_first_misplaced hseats
                  exact Or.inr ⟨f, .misplaced hpair hd hnewest hseat hfirst hf⟩
      · push Not at hp
        exact Or.inr ⟨_, .noProcess hm hp⟩

/-! ### Beginnings that fail -/

theorem process_of_missing (hprocess : isStorable process = true) (h : s.process? process = none) :
    s.process process = .error (.notFound .process (integerText process)) := by
  unfold Store.process
  rw [Store.requireStorable_of hprocess, h]
  rfl

theorem Matches.looked_up {m : Module} (h : Matches s module process m)
    (hprocess : isStorable process = true) : ∃ p, s.module module = .ok m ∧
      s.process process = .ok p ∧ p.id = process ∧ p.team = m.team := by
  obtain ⟨p, hp, hteam⟩ := h.process
  exact ⟨p, Store.module_eq_ok_iff.2 h.module, Store.process_eq_ok_iff.2 ⟨hprocess, hp⟩,
    Store.id_of_process? hp, hteam⟩

theorem Matches.storable_team {m : Module} (h : Matches s module process m) (hs : s.Sound) :
    isStorable m.team = true := by
  obtain ⟨p, hp, hteam⟩ := h.process
  exact hteam ▸ hs.process_team p (List.mem_of_find?_eq_some hp)

/-- Users can be placed in the draft that is opened. -/
theorem hosts_freshDraft (hs : s.Sound) {m : Module} {p : Process} {v : Version}
    (hv : s.latest? p.id = some v) :
    (freshStore c s m v).Hosts m.team v (.start (freshDraft c s m v)) where
  version := version?_freshDraft hs hv
  team := rfl
  small := rfl

theorem misplaced_freshStore {m : Module} {v w : Version} {team : Int} {seat : Seat} {f : Failure}
    (h : s.Misplaced team w seat f) : (freshStore c s m v).Misplaced team w seat f := by
  cases h with
  | noSlot missing => exact .noSlot missing
  | badRole present asked limited refused => exact .badRole present asked limited refused

/-- The placements fail for the user with the least slot who cannot be placed. -/
theorem placing_fails (hs : s.Sound) {m : Module} {p : Process} {v : Version}
    (hv : s.latest? p.id = some v) (hteam : isStorable m.team = true)
    (hslots : (seats.map Seat.slot).Nodup) (hseats : ∀ seat ∈ seats, seat.Storable) {seat : Seat}
    (placed : seat ∈ seats)
    (first : ∀ other ∈ seats, other.slot < seat.slot → s.Seatable m.team v other) {f : Failure}
    (reason : s.Misplaced m.team v seat f) :
    ∃ ordered, Placement.inOrder (seats.map .ofSeat) = .ok ordered ∧
      (freshStore c s m v).placeAll none (.start (freshDraft c s m v)) ordered = .error f := by
  obtain ⟨ordered, hperm, hsorted, hordered⟩ := Placement.exists_inOrder hslots
  obtain ⟨ahead, behind, rfl⟩ := List.append_of_mem (hperm.mem_iff.2 placed)
  have hbefore : ∀ other ∈ ahead, other.slot < seat.slot := fun other hother =>
    (List.pairwise_append.1 hsorted).2.2 other hother seat List.mem_cons_self
  have hahead : ∀ other ∈ ahead, s.Seatable m.team v other := fun other hother =>
    first other (hperm.mem_iff.1 (List.mem_append_left _ hother)) (hbefore other hother)
  have hids := (hs.described v (Store.mem_of_latest? hv).1).wellFormed.slot_ids
  exact ⟨_, hordered, Store.placeAll_of_misplaced (hosts_freshDraft hs hv) hids hteam
    (fun other hother => hseats other (hperm.mem_iff.1 hother)) hahead
    (misplaced_freshStore reason)⟩

theorem begin_of_refused (hs : s.Sound) (hc : c.Smooth) (hprocess : isStorable process = true)
    (hslots : (seats.map Seat.slot).Nodup) (hseats : ∀ seat ∈ seats, seat.Storable) {f : Failure}
    (h : Refused s module process seats f) :
    begin c s module process (seats.map .ofSeat) = .failed s f := by
  unfold begin
  cases h with
  | noModule missing =>
      have hm : s.module module = .error (.notFound .module module) := by
        unfold Store.module
        rw [missing]
      simp only [hm, bind, Except.bind]
      rfl
  | noProcess found missing =>
      have hm := Store.module_eq_ok_iff.2 found
      cases hp : s.process? process with
      | none =>
          simp only [hm, process_of_missing hprocess hp, bind, Except.bind]
          rfl
      | some p =>
          have hprocess := Store.process_eq_ok_iff.2 ⟨hprocess, hp⟩
          simp only [hm, hprocess, bind, Except.bind, if_pos (missing p hp)]
          rfl
  | drafted pair present =>
      obtain ⟨p, hm, hp, -, hteam⟩ := pair.looked_up hprocess
      simp only [hm, hp, hteam, present, bind, Except.bind, ne_eq, not_true, if_false, if_true]
      rfl
  | noVersion pair idle missing =>
      obtain ⟨p, hm, hp, rfl, hteam⟩ := pair.looked_up hprocess
      have hv : s.latest p.id = .error (.notFound .version ("latest of " ++ integerText p.id)) := by
        unfold Store.latest
        rw [Store.latest?_eq_none_iff.2 missing]
      simp only [hm, hp, hteam, idle, hv, bind, Except.bind, ne_eq, not_true, if_false]
      rfl
  | @misplaced m v seat _ pair idle newest placed first reason =>
      obtain ⟨p, hm, hp, rfl, hteam⟩ := pair.looked_up hprocess
      have hlatest := hs.latest?_eq_some_iff.2 newest
      have hv := Store.latest_eq_ok_iff.2 hlatest
      obtain ⟨ordered, hordered, hplaced⟩ := placing_fails (c := c) hs hlatest
        (pair.storable_team hs) hslots hseats placed first reason
      unfold freshStore freshDraft at hplaced
      simp only [hm, hp, hteam, idle, hv, hc.copies, hc.stamp, hordered, hplaced, bind,
        Except.bind, ne_eq, not_true, if_false, Option.isSome_none, Bool.false_eq_true]
      rfl

/-! ### Beginnings that succeed -/

section Ready

variable {m : Module} {p : Process} {v : Version} (hs : s.Sound) (hv : s.latest? p.id = some v)
  (hteam : isStorable m.team = true)

include hs hv hteam

/-- Users who may all be placed get the seats that they are to have. -/
theorem exists_placed (hsorted : SeatsOrdered seats) (hseats : ∀ seat ∈ seats, seat.Storable)
    (h : ∀ seat ∈ seats, s.Seatable m.team v seat) :
    ∃ placed, (freshStore c s m v).placeAll none (.start (freshDraft c s m v))
        (seats.map .ofSeat) = .ok placed ∧
      placed.draft = { freshDraft c s m v with seats } ∧ placed.Storable := by
  have hids := (hs.described v (Store.mem_of_latest? hv).1).wellFormed.slot_ids
  have hempty : (Change.start (freshDraft c s m v)).Storable := ⟨rfl, List.forall_mem_nil _⟩
  exact ⟨_, Store.placeAll_of_seatable (hosts_freshDraft hs hv) hids hteam hseats h,
    Change.draft_seatAll hsorted, hempty.seatAll hseats⟩

/-- Autofill does not fail in the draft that is opened. -/
theorem exists_filled {start : Step} (hstart : v.step? v.start = some start) {placed : Change}
    (hdraft : placed.draft = { freshDraft c s m v with seats }) (hsorted : SeatsOrdered seats) :
    ∃ change filled, (freshStore c s m v).autofill c.autofill placed
        ((freshStore c s m v).activeSlots (freshDraft c s m v)) = .ok (change, filled) ∧
      placed.FilledBy (freshStore c s m v) (v.activeSlots start) change filled ∧
      if c.autofill = true then
        (freshStore c s m v).Fills placed.draft (v.activeSlots start) filled
      else filled = [] := by
  have hordered : SeatsOrdered placed.draft.seats := by
    rw [hdraft]
    exact hsorted
  have hslots : ∀ slot ∈ v.activeSlots start,
      ((freshStore c s m v).slotIn? placed.draft.version slot.id).isSome = true := by
    intro slot hslot
    rw [hdraft]
    exact (Store.slotIn?_isSome_iff (version?_freshDraft hs hv)).2
      (List.mem_map_of_mem (List.mem_filter.1 hslot).1)
  obtain ⟨change, filled, hok, hfilled⟩ := Store.exists_autofill (s := freshStore c s m v)
    hs.member_user c.autofill (by rw [hdraft]; exact hteam) hordered hslots
  rw [activeSlots_freshDraft hs hv hstart]
  exact ⟨change, filled, hok, hfilled,
    Store.fills_autofill (s := freshStore c s m v) hs.member_keys hok⟩

end Ready

theorem begin_of_ready (hs : s.Sound) (hc : c.Smooth) (hprocess : isStorable process = true)
    (hslots : (seats.map Seat.slot).Nodup) (hseats : ∀ seat ∈ seats, seat.Storable) {m : Module}
    {v : Version} (h : Ready s module process seats m v) :
    ∃ (d : Draft) (filled : List Seat), d.Opens c s m v seats filled
      (begin c s module process (seats.map .ofSeat)) := by
  obtain ⟨p, -, hp, rfl, hteam⟩ := h.pair.looked_up hprocess
  obtain rfl := Store.id_of_module? h.pair.module
  have hv := hs.latest?_eq_some_iff.2 h.newest
  have hwell := (hs.described v h.newest.stored).wellFormed
  have hstorable := h.pair.storable_team hs
  obtain ⟨ordered, hperm, hsorted, hordered⟩ := Placement.exists_inOrder hslots
  obtain ⟨placed, hplaced, hdraft, hsmall⟩ := exists_placed (c := c) hs hv hstorable hsorted
    (fun seat hseat => hseats seat (hperm.mem_iff.1 hseat))
    fun seat hseat => h.seatable seat (hperm.mem_iff.1 hseat)
  obtain ⟨start, hstart, hid⟩ := List.mem_map.1 hwell.start
  obtain ⟨change, filled, hok, hfilled, hfills⟩ := exists_filled hs hv hstorable
    ((find?_key_iff Step.id hwell.step_ids).2 ⟨hstart, hid⟩) hdraft hsorted
  have hsame : change.draft = { freshDraft c s m v with seats := change.draft.seats } := by
    rw [hfilled.draft, hdraft]
  refine ⟨change.draft, filled, ?_⟩
  rw [begin_of_placed hs.member_user ⟨hc.copies, hc.stamp, hc.commits 0⟩ h.pair.module hp hteam
    h.idle hv hordered hplaced hsmall hok]
  exact {
    result := rfl
    draft := hsame
    fresh := by
      rw [hsame]
      exact nextId_notMem _
    one_seat := hfilled.ordered.nodup
    seats := fun seat => by
      rw [hfilled.seats, hdraft]
      exact or_congr_left hperm.mem_iff
    autofilled := ⟨start, hstart, hid, ordered, hperm, hsorted, by
      rw [hdraft] at hfills
      rw [hsame]
      exact hfills⟩
    store := by
      rw [← freshStore_putDraft h.idle (by rw [hsame]; rfl)]
      exact Work.extends_outcome c (change.work (freshStore c s m v) change.draft) }

end Begin

end Drafting

/-! ### What decides a beginning -/

/-- Under conditions in which nothing else fails, a beginning that places users in different slots
succeeds exactly when nothing is in its way, and it fails exactly with what is in its way first,
leaving the store as it was. One that succeeds adds a draft, a document and a run, and nothing else
but events. -/
theorem begin_decided {s : Store} (h : Reachable s) {c : Conditions} (hc : c.Smooth)
    (module : String) (process : Int) (hprocess : isStorable process = true) {seats : List Seat}
    (hslots : (seats.map Seat.slot).Nodup) (hseats : ∀ seat ∈ seats, seat.Storable) :
    let o := Drafting.begin c s module process (seats.map Placement.ofSeat)
    ((∃ d, o.result = .ok d) ↔ ∃ m v, Drafting.Ready s module process seats m v) ∧
    (∀ f, o.result = .error f ↔ Drafting.Refused s module process seats f) ∧
    (∀ f, o.result = .error f → o = .failed s f) ∧
    ∀ m v, Drafting.Ready s module process seats m v →
      ∃ (d : Draft) (filled : List Seat), d.Opens c s m v seats filled o := by
  have hs := h.sound
  intro o
  have hready {m : Module} {v : Version} (hr : Drafting.Ready s module process seats m v) :
      ∃ (d : Draft) (filled : List Seat), d.Opens c s m v seats filled o :=
    Drafting.begin_of_ready hs hc hprocess hslots hseats hr
  have hrefused {f : Failure} (hf : Drafting.Refused s module process seats f) : o = .failed s f :=
    Drafting.begin_of_refused hs hc hprocess hslots hseats hf
  have heither := Drafting.ready_or_refused hs module process seats
  have hfailed {f : Failure} (ho : o.result = .error f) :
      Drafting.Refused s module process seats f := by
    rcases heither with ⟨m, v, hr⟩ | ⟨g, hg⟩
    · obtain ⟨d, filled, hopens⟩ := hready hr
      cases hopens.result.symm.trans ho
    · rw [hrefused hg] at ho
      cases ho
      exact hg
  refine ⟨⟨?_, ?_⟩, fun f => ⟨hfailed, fun hf => ?_⟩, fun f ho => hrefused (hfailed ho),
    fun m v hr => hready hr⟩
  · rintro ⟨d, hd⟩
    refine heither.resolve_right fun ⟨f, hf⟩ => ?_
    rw [hrefused hf] at hd
    cases hd
  · rintro ⟨m, v, hr⟩
    obtain ⟨d, filled, hopens⟩ := hready hr
    exact ⟨d, hopens.result⟩
  · rw [hrefused hf]
    rfl

/-- The store of the review before its module is taken. -/
def Review.untaken : Store := Store.empty.afterAll (turns.take 3)

/-- The author and the editor of the review, not in the order of their slots. -/
def Review.placed : List Seat := [⟨2, 6⟩, ⟨1, 4⟩]

/-- The review can be begun with both of its users in their slots. -/
theorem both_placed_in_review :
    (Reachable Review.untaken ∧ Review.conditions.Smooth ∧ isStorable 1 = true ∧
      (Review.placed.map Seat.slot).Nodup ∧ ∀ seat ∈ Review.placed, seat.Storable) ∧
    ∃ m v, Drafting.Ready Review.untaken "m" 1 Review.placed m v ∧
      ∃ (d : Draft) (filled : List Seat), d.seats = [⟨1, 4⟩, ⟨2, 6⟩] ∧
        d.Opens Review.conditions Review.untaken m v Review.placed filled
          (Drafting.begin Review.conditions Review.untaken "m" 1
            (Review.placed.map Placement.ofSeat)) := by
  have hreachable : Reachable Review.untaken := ⟨_, rfl⟩
  have hsmooth : Review.conditions.Smooth := Conditions.smooth_of_date rfl true
  have hslots : (Review.placed.map Seat.slot).Nodup := by decide
  have hseats : ∀ seat ∈ Review.placed, seat.Storable := by
    simp [Review.placed, Seat.Storable, isStorable, storableLimit]
  obtain ⟨hsucceeds, -, -, hopens⟩ :=
    begin_decided hreachable hsmooth "m" 1 (by decide) hslots hseats
  have hseated : (Drafting.begin Review.conditions Review.untaken "m" 1
      (Review.placed.map Placement.ofSeat)).result.toOption.map Draft.seats =
        some [⟨1, 4⟩, ⟨2, 6⟩] := by
    decide +kernel
  obtain ⟨m, v, hready⟩ := hsucceeds.1 (exists_ok_of_toBool (by decide +kernel))
  obtain ⟨d, filled, hopened⟩ := hopens m v hready
  rw [hopened.result] at hseated
  exact ⟨⟨hreachable, hsmooth, by decide, hslots, hseats⟩, m, v, hready, d, filled,
    Option.some.inj hseated, hopened⟩

end Editorial
