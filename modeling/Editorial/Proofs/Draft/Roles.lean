import Editorial.Proofs.Draft.Beginning
import Editorial.Proofs.Draft.Effect
import Editorial.Proofs.Process.Permanence

/-!
# Role limits

A slot with a role limit is for members of the team who hold one of its roles (`Store.Entitled`).
Whoever is seated is entitled to the seat at that moment, whether placed when a draft begins,
assigned, seated by autofill or after a claim: an operation on drafts leaves only seats that were
taken before and seats of entitled users (`Drafting.Operation.admits_perform`). As long as nobody's
membership changes, everyone stays entitled, so that no run of such turns brings about a seat
against its role limit (`role_limits_kept`).
-/

namespace Editorial

/-! ### Entitled users -/

namespace Store

/-- If the slot of a seat has a role limit, its user is a member of the team of the draft with one
of the roles. -/
def Entitled (s : Store) (d : Draft) (seat : Seat) : Prop :=
  ∀ row ∈ s.slotsOf d, row.id = seat.slot → row.roles ≠ [] →
    ∃ m ∈ s.members, m.team = d.team ∧ m.user = seat.user ∧ ∃ role ∈ row.roles, m.role = some role

/-- Every seat of a draft is an old one, or its user is entitled to it. -/
def Admits (s : Store) (old : Seat → Prop) (d : Draft) : Prop :=
  ∀ seat ∈ d.seats, old seat ∨ s.Entitled d seat

/-- The module of a draft had that seat before, in a draft of the same team and version. -/
def Had (s : Store) (d : Draft) (seat : Seat) : Prop :=
  ∃ e ∈ s.drafts, e.module = d.module ∧ e.team = d.team ∧ e.version = d.version ∧ seat ∈ e.seats

variable {s : Store}

theorem entitled_congr {t : Store} {d e : Draft} (hmembers : t.members = s.members)
    (hslots : t.slotsOf e = s.slotsOf d) (hteam : e.team = d.team) (seat : Seat) :
    t.Entitled e seat ↔ s.Entitled d seat := by
  unfold Entitled
  rw [hmembers, hslots, hteam]

theorem exists_member_of_admits {slot : Slot} {team user : Int} (hlimit : slot.roles ≠ [])
    (h : slot.admits (s.roleOf? team user) = true) :
    ∃ m ∈ s.members, m.team = team ∧ m.user = user ∧ ∃ role ∈ slot.roles, m.role = some role := by
  obtain ⟨role, hadmitted, hheld⟩ := (Slot.admits_eq_true_iff.1 h).resolve_left hlimit
  obtain ⟨m, hm, hrole⟩ := Option.bind_eq_some_iff.1 hheld
  have hkey := List.find?_some hm
  simp only [Bool.and_eq_true, beq_iff_eq] at hkey
  exact ⟨m, List.mem_of_find?_eq_some hm, hkey.1, hkey.2, role, hadmitted, hrole⟩

/-! ### Seating entitled users -/

section Seating

variable (hids : ∀ v ∈ s.versions, (v.slots.map Slot.id).Nodup) {old : Seat → Prop}

include hids

/-- A user whom the role limit of the slot admits is entitled to a seat in it. -/
theorem entitled_of_admitted {d : Draft} {slot : Slot} {user : Int}
    (hslot : s.slotIn? d.version slot.id = some slot)
    (hrole : s.requireRole slot d.team user = .ok ()) : s.Entitled d ⟨slot.id, user⟩ := by
  obtain ⟨-, v, hv, hmem⟩ := slotIn?_eq_some hslot
  intro row hrow hid hlimit
  unfold slotsOf at hrow
  rw [hv] at hrow
  have hrow : row ∈ v.slots := hrow
  obtain rfl : row = slot :=
    List.inj_on_of_nodup_map (hids v (List.mem_of_find?_eq_some hv)) hrow hmem hid
  obtain ⟨-, -, hadmits⟩ := (requireRole_eq_ok_iff.1 hrole).resolve_left hlimit
  exact exists_member_of_admits hlimit hadmits

theorem Admits.seat {d : Draft} (h : s.Admits old d) {slot : Slot} {user : Int}
    (hslot : s.slotIn? d.version slot.id = some slot)
    (hrole : s.requireRole slot d.team user = .ok ()) : s.Admits old (d.seat slot.id user) := by
  intro seat hseat
  rcases Draft.mem_putSeat_imp hseat with rfl | hseat
  · exact Or.inr (entitled_of_admitted hids (d := d) hslot hrole)
  · exact h seat hseat

theorem Admits.placeAll {atHand : Option Int} {c c' : Change} {placements : List Placement}
    (h : s.Admits old c.draft) (hok : s.placeAll atHand c placements = .ok c') :
    s.Admits old c'.draft := by
  induction placements generalizing atHand c with
  | nil =>
      obtain ⟨-, rfl⟩ := placeAll_nil_eq_ok_iff.1 hok
      exact h
  | cons p rest ih =>
      obtain ⟨_, c₁, hp, hrest⟩ := placeAll_cons_eq_ok_iff.1 hok
      obtain ⟨_, user, row, -, -, -, -, hrow, hrole, -, rfl⟩ := place_eq_ok_iff.1 hp
      obtain ⟨rfl, -⟩ := slotIn?_eq_some hrow
      exact ih (h.seat hids hrow hrole) hrest

theorem Admits.autofillSlots {c c' : Change} {slots : List Slot} {filled : List Seat}
    (h : s.Admits old c.draft)
    (hslots : ∀ slot ∈ slots, s.slotIn? c.draft.version slot.id = some slot)
    (hok : s.autofillSlots c slots = .ok (c', filled)) : s.Admits old c'.draft := by
  induction slots generalizing c filled with
  | nil =>
      cases hok
      exact h
  | cons slot rest ih =>
      obtain ⟨hslot, hrest⟩ := List.forall_mem_cons.1 hslots
      unfold Store.autofillSlots at hok
      split at hok
      · exact ih h hrest hok
      · obtain ⟨c₁, hseat, hok⟩ := bind_eq_ok_iff.1 hok
        obtain ⟨⟨c₂, filled₂⟩, hfilled, hok⟩ := bind_eq_ok_iff.1 hok
        cases hok
        obtain ⟨-, hrole, rfl⟩ := seatUser_eq_ok_iff.1 hseat
        exact ih (c := c.seat slot.id _) (h.seat hids hslot hrole) hrest hfilled

theorem Admits.autofill {enabled : Bool} {c c' : Change} {slots : List Slot} {filled : List Seat}
    (h : s.Admits old c.draft)
    (hslots : ∀ slot ∈ slots, s.slotIn? c.draft.version slot.id = some slot)
    (hok : s.autofill enabled c slots = .ok (c', filled)) : s.Admits old c'.draft := by
  unfold Store.autofill at hok
  split at hok
  · exact h.autofillSlots hids hslots hok
  · cases hok
    exact h

end Seating

end Store

/-! ### What an operation on drafts leaves -/

namespace Store

variable {s : Store}

theorem mem_putDraft {e d : Draft} (h : d ∈ (s.putDraft e).drafts) : d ∈ s.drafts ∨ d = e := by
  obtain ⟨old, hold, hd⟩ := List.mem_map.1 h
  split at hd
  · exact Or.inr hd.symm
  · exact Or.inl (hd ▸ hold)

theorem admits_of_mem {d : Draft} (h : d ∈ s.drafts) : s.Admits (s.Had d) d :=
  fun _ hseat => Or.inl ⟨d, h, rfl, rfl, rfl, hseat⟩

theorem admits_removeDraft {t : Store} (h : t.drafts = s.drafts) {module : String} :
    ∀ d ∈ (t.removeDraft module).drafts, s.Admits (s.Had d) d :=
  fun _ hd => admits_of_mem (h ▸ (List.mem_filter.1 hd).1)

/-- What an operation leaves admits no seats but those that it should when its work does. -/
theorem admits_of_cases {α : Type} {c : Conditions} {o : Outcome α}
    (h : (∃ f, o = .failed s f) ∨ ∃ w : Work α, (∀ d ∈ w.store.drafts, s.Admits (s.Had d) d) ∧
      o = w.outcome c) : ∀ d ∈ o.store.drafts, s.Admits (s.Had d) d := by
  rcases h with ⟨f, rfl⟩ | ⟨w, hw, rfl⟩
  · exact fun d hd => admits_of_mem hd
  · obtain ⟨es, hes⟩ := w.extends_outcome c
    rw [hes]
    exact hw

/-- A draft is put in place of itself that admits what it should. -/
theorem admits_putDraft {e : Draft} (h : s.Admits (s.Had e) e) :
    ∀ d ∈ (s.putDraft e).drafts, s.Admits (s.Had d) d := by
  intro d hd
  rcases mem_putDraft hd with hd | rfl
  · exact admits_of_mem hd
  · exact h

end Store

namespace Drafting

variable {c : Conditions} {s : Store}

variable (hs : s.Sound)

include hs

theorem slot_ids_distinct : ∀ v ∈ s.versions, (v.slots.map Slot.id).Nodup :=
  fun v hv => (hs.described v hv).wellFormed.slot_ids

theorem admits_begin (c : Conditions) (module : String) (process : Int)
    (placements : List Placement) :
    ∀ d ∈ (begin c s module process placements).store.drafts, s.Admits (s.Had d) d := by
  rcases begin_cases c s module process placements with ⟨f, hf⟩ |
    ⟨m, p, v, ordered, placed, change, filled, hm, -, hp, hteam, hidle, hv, -, -, -, hplaced,
      hfilled, -, ho⟩
  · rw [hf]
    exact fun d hd => Store.admits_of_mem hd
  · obtain rfl := Store.id_of_module? hm
    have hids : ∀ v ∈ (freshStore c s m v).versions, (v.slots.map Slot.id).Nodup :=
      slot_ids_distinct hs
    have hversion : placed.draft.version = (freshDraft c s m v).version := by
      rw [(Store.seats_placeAll hplaced).1.draft_eq]
      rfl
    have hempty : (freshStore c s m v).Admits (fun _ => False)
        (Change.start (freshDraft c s m v)).draft := nofun
    have hadmits : s.Admits (fun _ => False) change.draft :=
      Store.Admits.autofill (s := freshStore c s m v) hids
        (Store.Admits.placeAll (s := freshStore c s m v) hids hempty hplaced)
        (fun slot hslot => by
          rw [hversion]
          exact hs.slotIn?_of_mem_activeSlots (d := freshDraft c s m v) hslot) hfilled
    have hmodule : change.draft.module = m.id := by
      rw [((Store.seats_placeAll hplaced).1.trans (Store.seats_autofill hfilled)).draft_eq]
      rfl
    obtain ⟨es, hes⟩ := Work.extends_outcome c (change.work (freshStore c s m v) change.draft)
    rw [ho, store_lookingBack, hes, Change.work, freshStore_putDraft hidle hmodule]
    intro d hd
    rcases List.mem_append.1 hd with hd | hd
    · exact Store.admits_of_mem hd
    · rw [List.mem_singleton.1 hd]
      exact fun seat hseat => (hadmits seat hseat).imp_left False.elim

theorem admits_advance (c : Conditions) (module : String) (user slot target : Int) :
    ∀ d ∈ (advance c s module user slot target).store.drafts, s.Admits (s.Had d) d := by
  refine Store.admits_of_cases (c := c)
    ((advance_cases c s module user slot target).imp_right ?_)
  rintro ⟨d, step, l, w, -, hd, -, -, -, -, -, hw, -, ho⟩
  refine ⟨w, ?_, ho⟩
  have hmem := (hs.draft?_eq_some_iff.1 hd).1
  by_cases hfinal : s.isFinalFor d l.target = true
  · rw [if_pos hfinal] at hw
    obtain ⟨-, -, rfl⟩ := finish_eq_ok_iff.1 hw
    exact Store.admits_removeDraft
      (sameDrafts_closeOpenRun (s.publish d.module d.document) d.module .finished c.now).1
  · rw [if_neg hfinal] at hw
    obtain ⟨change, filled, hfilled, rfl⟩ := move_eq_ok_iff.1 hw
    have hsame := (Store.seats_autofill hfilled).draft_eq
    have hfilled := (Store.autofill_putDraft (c := .start { d with step := l.target }) rfl _
      _).symm.trans hfilled
    have hstart : s.Admits (s.Had d) (Change.start { d with step := l.target }).draft :=
      fun seat hseat => Store.admits_of_mem hmem seat hseat
    have hadmits : s.Admits (s.Had d) change.draft :=
      hstart.autofill (slot_ids_distinct hs)
        (fun slot hslot => hs.slotIn?_of_mem_activeSlots (d := { d with step := l.target }) hslot)
        hfilled
    have hput : (s.putDraft { d with step := l.target }).putDraft change.draft =
        s.putDraft change.draft := Store.putDraft_putDraft (by rw [hsame]; rfl)
    unfold Change.work
    dsimp only
    rw [hput]
    refine Store.admits_putDraft ?_
    rw [hsame] at hadmits ⊢
    exact hadmits

/-- A user whom the role limit admits comes into a slot. -/
theorem admits_seat {module : String} {d : Draft} (hd : s.draft? module = some d) {slot user : Int}
    {row : Slot} (hrow : s.slotIn? d.version slot = some row)
    (hrole : s.requireRole row d.team user = .ok ()) :
    ∀ e ∈ (s.putDraft (d.seat row.id user)).drafts, s.Admits (s.Had e) e := by
  obtain ⟨rfl, -⟩ := Store.slotIn?_eq_some hrow
  have hold : s.Admits (s.Had d) d := Store.admits_of_mem (hs.draft?_eq_some_iff.1 hd).1
  exact Store.admits_putDraft (hold.seat (slot_ids_distinct hs) hrow hrole)

/-- After an operation on drafts every seat is one that was taken before, or its user is entitled
to it. -/
theorem Operation.admits_perform (c : Conditions) (op : Operation) :
    ∀ d ∈ (op.perform c s).store.drafts, s.Admits (s.Had d) d := by
  cases op with
  | begin module process placements => exact admits_begin hs c module process placements
  | advance module user slot target => exact admits_advance hs c module user slot target
  | cancel module =>
      refine Store.admits_of_cases (c := c) ((cancel_cases c s module).imp_right ?_)
      rintro ⟨d, w, -, hd, -, rfl, -, ho⟩
      exact ⟨_, Store.admits_removeDraft (sameDrafts_closeOpenRun s module .cancelled c.now).1, ho⟩
  | assign module slot user =>
      refine Store.admits_of_cases (c := c) ((assign_cases c s module slot user).imp_right ?_)
      rintro ⟨d, row, w, -, hd, -, hrow, hrole, rfl, -, ho⟩
      exact ⟨_, admits_seat hs hd hrow hrole, ho⟩
  | claim module slot user =>
      refine Store.admits_of_cases (c := c) ((claim_cases c s module slot user).imp_right ?_)
      rintro ⟨d, row, w, -, hd, -, hrow, -, -, hrole, rfl, -, ho⟩
      exact ⟨_, admits_seat hs hd hrow hrole, ho⟩
  | unassign module slot =>
      refine Store.admits_of_cases (c := c) ((unassign_cases c s module slot).imp_right ?_)
      rintro ⟨d, row, w, -, hd, -, -, rfl, -, ho⟩
      have hold : s.Admits (s.Had d) d := Store.admits_of_mem (hs.draft?_eq_some_iff.1 hd).1
      have hleft : s.Admits (s.Had d) (d.vacate row.id) :=
        fun seat hseat => hold seat (List.mem_filter.1 hseat).1
      exact ⟨_, Store.admits_putDraft hleft, ho⟩

omit hs in
theorem Operation.members_perform (c : Conditions) (s : Store) (op : Operation) :
    (op.perform c s).store.members = s.members := by
  obtain ⟨u, heffect, events, hstore⟩ := op.exists_effect c s
  rw [hstore]
  cases heffect with
  | kept | begun | changed => rfl
  | concluded =>
      unfold Store.conclude Store.closeOpenRun
      split <;> rfl
  | cancelled =>
      unfold Store.closeOpenRun
      split <;> rfl

end Drafting

/-! ### Along a run -/

/-- A turn leaves everybody's membership as it is: it neither sets nor ends one. -/
def Turn.KeepsTeams (t : Turn) : Prop :=
  match t.action with
  | .direct (.setMember _) | .direct (.removeMember _ _) => False
  | .define _ | .draft _ | .direct (.setModule _) => True

namespace Store

variable {s : Store}

theorem members_setModule (c : Conditions) (s : Store) (m : Module) :
    (Directory.setModule c s m).store.members = s.members := by
  rcases complete_cases c s Failure.database _ with ⟨f, hf⟩ | ⟨w, hw, -, ho⟩
  · rw [Directory.setModule, hf]
    rfl
  · obtain ⟨es, hes⟩ := w.extends_outcome c
    rw [Directory.setModule, ho, hes, ← pure_eq_ok_iff.1 hw]
    unfold putModule
    split <;> rfl

theorem members_after {t : Turn} (ht : t.KeepsTeams) : (s.after t).members = s.members := by
  obtain ⟨c, action⟩ := t
  cases action with
  | define op =>
      obtain ⟨processes, versions, hafter⟩ := s.exists_after_define c op
      rw [hafter]
  | draft op => exact op.members_perform c s
  | direct op =>
      cases op with
      | setModule m => exact members_setModule c s m
      | setMember m => exact ht.elim
      | removeMember team user => exact ht.elim

namespace Sound

variable (h : s.Sound)

include h

/-- The version of a draft has its slots for as long as the draft is there. -/
theorem slotsOf_after {d : Draft} (hd : d ∈ s.drafts) (t : Turn) :
    (s.after t).slotsOf d = s.slotsOf d := by
  obtain ⟨r, hr, -, hversion, -⟩ := h.running d hd
  obtain ⟨v, -, hv, hfound, -⟩ := h.exists_version hd
  have hid := (h.version?_eq_some_iff.1 hfound).2
  have hused : s.Used v := ⟨r, hr, hversion.trans hid.symm⟩
  have hkept := hused.mem_versions_afterAll h hv [t]
  unfold slotsOf
  rw [hfound, (h.after t).version?_eq_some_iff.2 ⟨hkept, hid⟩]

/-- A turn seats nobody against a role limit. -/
theorem had_of_not_entitled {t : Turn} (ht : t.KeepsTeams) {d : Draft}
    (hd : d ∈ (s.after t).drafts) {seat : Seat} (hseat : seat ∈ d.seats)
    (hnot : ¬(s.after t).Entitled d seat) :
    ∃ e ∈ s.drafts, e.module = d.module ∧ seat ∈ e.seats ∧ ¬s.Entitled e seat := by
  have hmembers := s.members_after ht
  have hstays (hd : d ∈ s.drafts) :
      ∃ e ∈ s.drafts, e.module = d.module ∧ seat ∈ e.seats ∧ ¬s.Entitled e seat :=
    ⟨d, hd, rfl, hseat, fun hentitled =>
      hnot ((entitled_congr hmembers (h.slotsOf_after hd t) rfl seat).2 hentitled)⟩
  obtain ⟨c, action⟩ := t
  cases action with
  | define op =>
      obtain ⟨processes, versions, hstore⟩ := s.exists_after_define c op
      rw [hstore] at hd
      exact hstays hd
  | direct op =>
      obtain ⟨modules, members, hstore⟩ := s.exists_after_direct c op
      rw [hstore] at hd
      exact hstays hd
  | draft op =>
      have hversions : (s.after ⟨c, .draft op⟩).versions = s.versions :=
        (op.sameDefinitions c s).2
      have hslots {e : Draft} (he : e.version = d.version) :
          (s.after ⟨c, .draft op⟩).slotsOf d = s.slotsOf e := by
        unfold slotsOf version?
        rw [hversions, he]
      rcases op.admits_perform h c d hd seat hseat with ⟨e, he, hmodule, hteam, hversion, hold⟩ |
        hentitled
      · exact ⟨e, he, hmodule, hold, fun hentitled =>
          hnot ((entitled_congr hmembers (hslots hversion) hteam.symm seat).2 hentitled)⟩
      · exact absurd ((entitled_congr hmembers (hslots rfl) rfl seat).2 hentitled) hnot

end Sound

end Store

/-- Along a run in which nobody's membership changes, no seat comes about whose user is not entitled
to it: where nobody was seated before, everyone who is seated in a slot with a role limit is a
member of the team of the draft with one of the roles, and in general every other seat was there
before and against its role limit. -/
theorem role_limits_kept {s : Store} (h : Reachable s) {turns : List Turn}
    (hturns : ∀ t ∈ turns, t.KeepsTeams) :
    (s.afterAll turns).members = s.members ∧
    (s.drafts = [] → ∀ d ∈ (s.afterAll turns).drafts, ∀ seat ∈ d.seats,
      (s.afterAll turns).Entitled d seat) ∧
    ∀ d ∈ (s.afterAll turns).drafts, ∀ seat ∈ d.seats, ¬(s.afterAll turns).Entitled d seat →
      ∃ e ∈ s.drafts, e.module = d.module ∧ seat ∈ e.seats ∧ ¬s.Entitled e seat := by
  have hrun : (s.afterAll turns).members = s.members ∧
      ∀ d ∈ (s.afterAll turns).drafts, ∀ seat ∈ d.seats, ¬(s.afterAll turns).Entitled d seat →
        ∃ e ∈ s.drafts, e.module = d.module ∧ seat ∈ e.seats ∧ ¬s.Entitled e seat := by
    induction turns generalizing s with
    | nil => exact ⟨rfl, fun d hd seat hseat hnot => ⟨d, hd, rfl, hseat, hnot⟩⟩
    | cons t turns ih =>
        obtain ⟨ht, hturns⟩ := List.forall_mem_cons.1 hturns
        obtain ⟨hmembers, hseats⟩ := ih (h.after t) hturns
        refine ⟨hmembers.trans (s.members_after ht), fun d hd seat hseat hnot => ?_⟩
        obtain ⟨e, he, hmodule, hold, hnot⟩ := hseats d hd seat hseat hnot
        obtain ⟨f, hf, hsame, hold, hnot⟩ := h.sound.had_of_not_entitled ht he hold hnot
        exact ⟨f, hf, hsame.trans hmodule, hold, hnot⟩
  refine ⟨hrun.1, fun hnone d hd seat hseat => ?_, hrun.2⟩
  by_contra hnot
  obtain ⟨e, he, -⟩ := hrun.2 d hd seat hseat hnot
  rw [hnone] at he
  cases he

/-- The author begins and submits, so that autofill seats the editor, who leaves and returns. -/
def Review.seatings : List Turn :=
  [.begin "m" 1 [⟨.int 1, .int 4⟩], .advance "m" 4 1 2, .unassign "m" 2, .claim "m" 2 6].map
    fun op => ⟨conditions, .draft op⟩

/-- In the review, the editor holds the role that the slot asks for. -/
theorem editor_entitled_in_review :
    (Reachable Review.untaken ∧ ∀ t ∈ Review.seatings, t.KeepsTeams) ∧
    ∃ d ∈ (Review.untaken.afterAll Review.seatings).drafts, ⟨2, 6⟩ ∈ d.seats ∧
      ∃ row ∈ (Review.untaken.afterAll Review.seatings).slotsOf d, row.id = 2 ∧ row.roles = [7] ∧
        ∃ m ∈ (Review.untaken.afterAll Review.seatings).members,
          m.team = d.team ∧ m.user = 6 ∧ m.role = some 7 := by
  have hreachable : Reachable Review.untaken := ⟨_, rfl⟩
  have hturns : ∀ t ∈ Review.seatings, t.KeepsTeams := by
    simp [Review.seatings, Turn.KeepsTeams]
  obtain ⟨-, hentitled, -⟩ := role_limits_kept hreachable hturns
  have hseated : ∃ d ∈ (Review.untaken.afterAll Review.seatings).drafts, ⟨2, 6⟩ ∈ d.seats ∧
      ∃ row ∈ (Review.untaken.afterAll Review.seatings).slotsOf d,
        row.id = 2 ∧ row.roles = [7] := by
    decide +kernel
  obtain ⟨d, hd, hseat, row, hrow, hid, hroles⟩ := hseated
  obtain ⟨m, hm, hteam, huser, role, hrole, hheld⟩ := hentitled (by decide +kernel) d hd _ hseat row
    hrow hid (by rw [hroles]; nofun)
  rw [hroles] at hrole
  exact ⟨⟨hreachable, hturns⟩, d, hd, hseat, row, hrow, hid, hroles, m, hm, hteam, huser,
    List.mem_singleton.1 hrole ▸ hheld⟩

end Editorial
