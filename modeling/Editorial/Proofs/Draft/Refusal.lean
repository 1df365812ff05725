import Editorial.Proofs.Draft.Advance
import Editorial.Proofs.Event.Indifference
import Editorial.Proofs.Refusal

/-!
# What operations on drafts fail with

When nothing around them fails, the operations on drafts fail only with what the client is told, as
long as the numbers that they are given can be stored (`onlyFails_begin`, `onlyFails_advance`,
`onlyFails_cancel`, `onlyFails_assign`, `onlyFails_claim`, `onlyFails_unassign`). Those who have got
a draft to move have an id that can be stored, since they sit in it.
-/

namespace Editorial

open Failure

namespace Drafting

variable {cause : Prop} {c : Conditions} {s : Store}

/-! ### One draft -/

theorem onlyFails_seatUser {change : Change} {slot : Slot} {user : Int}
    (huser : isStorable user = false → cause) (hteam : isStorable change.draft.team = true) :
    OnlyFails (BlamedOn cause) (s.seatUser change slot user) :=
  .guard (fun _ => Or.inl rfl) fun _ =>
    .bind (Store.onlyFails_requireRole huser hteam) fun _ _ => trivial

theorem isOversized_seat {d : Draft} (hd : d.isOversized = false) {slot user : Int}
    (huser : isStorable user = false → cause) : (d.seat slot user).isOversized = true → cause := by
  intro hover
  obtain ⟨seat, hseat, hlarge⟩ := List.any_eq_true.1 hover
  rcases Draft.mem_putSeat_imp hseat with rfl | hseat
  · exact huser (by simpa using hlarge)
  · have hsmall := List.any_eq_false.1 hd seat hseat
    exact absurd hlarge hsmall

theorem advance_of_oversized (hc : c.Smooth) {module : String} {user slot target : Int} {d : Draft}
    (hd : s.draft? module = some d) (hu : d.occupant? slot = some user)
    (htarget : isStorable target = false) :
    advance c s module user slot target = .failed s .oversized := by
  refine onLockedDraft_of_error (f := .oversized) hc.locks hd ?_
  unfold Store.linkFor requireStorable
  rw [if_neg (not_not.2 hu), htarget]
  rfl

theorem onlyFails_advance (hs : s.Sound) (hc : c.Smooth) {module : String} {user slot target : Int}
    (htarget : isStorable target = false → cause) :
    OnlyFails (BlamedOn cause) (advance c s module user slot target).result := by
  cases hd : s.draft? module with
  | none =>
      rw [advance_of_missing hc hd]
      exact Or.inl rfl
  | some d =>
      by_cases hu : d.occupant? slot = some user
      · cases hstorable : isStorable target with
        | false =>
            rw [advance_of_oversized hc hd hu hstorable]
            exact Or.inr ⟨rfl, htarget hstorable⟩
        | true =>
            cases hl : s.linksFor d.step target slot with
            | nil =>
                rw [advance_without_link hs hc hstorable hd hu hl]
                exact Or.inl rfl
            | cons l rest =>
                obtain ⟨-, hmoves, hends⟩ := advance_along_link hs hc hstorable hd hu
                  (hl ▸ List.mem_cons_self)
                by_cases hnext : s.linksOut target = []
                · rw [(hends hnext).result]
                  trivial
                · obtain ⟨d', filled, may, hmoved⟩ := hmoves hnext
                  rw [hmoved.result]
                  trivial
      · rw [advance_of_elsewhere hc hd hu]
        exact Or.inl rfl

/-- Who has moved a draft on sits in it, and so has an id that can be stored. -/
theorem isStorable_of_moved (hs : s.Sound) {module : String} {user slot target : Int} {a : Advance}
    (h : (advance c s module user slot target).result = .ok a) : isStorable user = true := by
  rcases advance_cases c s module user slot target with ⟨f, hf⟩ |
    ⟨d, step, l, w, -, hd, hu, -⟩
  · rw [hf] at h
    cases h
  · have hmem := (hs.draft?_eq_some_iff.1 hd).1
    by_contra hlarge
    have hover := Operation.isOversized_of_occupant hu (by simpa using hlarge)
    rw [hs.seats_storable d hmem] at hover
    cases hover

theorem onlyFails_cancel (hc : c.Smooth) (module : String) :
    OnlyFails (BlamedOn cause) (cancel c s module).result := by
  have hdate : OnlyFails (BlamedOn cause) c.requireDate := by
    rw [hc.date]
    trivial
  refine onlyFails_onLockedDraft hc (fun d _ => ?_) fun d w f _ hw hf => ?_
  · exact .ite (fun _ => .bind hdate fun _ _ => trivial) fun _ => trivial
  · have hnone : w.flaw = none := by
      split at hw
      · obtain ⟨⟨⟩, -, hw⟩ := bind_eq_ok_iff.1 hw
        rw [← pure_eq_ok_iff.1 hw]
      · rw [← pure_eq_ok_iff.1 hw]
    rw [hnone] at hf
    cases hf

/-! ### Seating -/

theorem team_storable (hs : s.Sound) {module : String} {d : Draft}
    (hd : s.draft? module = some d) : isStorable d.team = true := by
  obtain ⟨v, -, -, -, p, hp, -, hteam⟩ := hs.grounds d (hs.draft?_eq_some_iff.1 hd).1
  exact hteam ▸ hs.process_team p hp

theorem onlyFails_assign (hs : s.Sound) (hc : c.Smooth) {module : String} {slot user : Int}
    (hslot : isStorable slot = false → cause) (huser : isStorable user = false → cause) :
    OnlyFails (BlamedOn cause) (assign c s module slot user).result := by
  refine onlyFails_onLockedDraft hc (fun d hd => ?_) fun d w f hd hw hf => ?_
  · exact .bind (Store.onlyFails_slotIn hslot) fun _ _ =>
      .bind (onlyFails_seatUser huser (team_storable hs hd)) fun _ _ => trivial
  · simp only [bind_eq_ok_iff, pure_eq_ok_iff, Store.seatUser_eq_ok_iff] at hw
    obtain ⟨row, -, change, ⟨-, -, rfl⟩, rfl⟩ := hw
    exact blamedOn_of_oversizedIf hf
      (isOversized_seat (hs.seats_storable d (hs.draft?_eq_some_iff.1 hd).1) huser)

theorem onlyFails_claim (hs : s.Sound) (hc : c.Smooth) {module : String} {slot user : Int}
    (hslot : isStorable slot = false → cause) (huser : isStorable user = false → cause) :
    OnlyFails (BlamedOn cause) (claim c s module slot user).result := by
  refine onlyFails_onLockedDraft hc (fun d hd => ?_) fun d w f hd hw hf => ?_
  · exact .bind (Store.onlyFails_slotIn hslot) fun _ _ => .require
      (fun _ => .guard (fun _ => Or.inl rfl) fun _ =>
        .bind (onlyFails_seatUser huser (team_storable hs hd)) fun _ _ => trivial)
      fun _ => Or.inl rfl
  · dsimp only at hw
    simp only [bind_eq_ok_iff, pure_eq_ok_iff, guard_eq_ok_iff, unless_eq_ok_iff,
      Store.seatUser_eq_ok_iff] at hw
    obtain ⟨row, -, -, -, change, ⟨-, -, rfl⟩, rfl⟩ := hw
    exact blamedOn_of_oversizedIf hf
      (isOversized_seat (hs.seats_storable d (hs.draft?_eq_some_iff.1 hd).1) huser)

theorem onlyFails_unassign (hs : s.Sound) (hc : c.Smooth) {module : String} {slot : Int}
    (hslot : isStorable slot = false → cause) :
    OnlyFails (BlamedOn cause) (unassign c s module slot).result := by
  refine onlyFails_onLockedDraft hc (fun d _ => ?_) fun d w f hd hw hf => ?_
  · exact .bind (Store.onlyFails_slotIn hslot) fun _ _ => trivial
  · obtain ⟨row, -, hw⟩ := bind_eq_ok_iff.1 hw
    rw [← pure_eq_ok_iff.1 hw] at hf
    have hsmall : (d.vacate row.id).isOversized = false :=
      Store.Sound.isOversized_vacate (hs.seats_storable d (hs.draft?_eq_some_iff.1 hd).1) row.id
    refine blamedOn_of_oversizedIf hf fun hlarge => ?_
    cases hsmall.symm.trans hlarge

/-! ### Beginning -/

theorem inOrder_ofSeat {seats : List Seat} (h : SeatsOrdered seats) :
    Placement.inOrder (seats.map Placement.ofSeat) = .ok (seats.map Placement.ofSeat) := by
  refine Ordered.arrange_of_ascending (List.pairwise_map.2 (h.imp fun {a b} hlt => ?_))
  have hbelow : decide (b.slot * (1 : Nat) < a.slot * (1 : Nat)) = false := by
    rw [decide_eq_false_iff_not]
    omega
  exact congrArg Except.ok hbelow

theorem onlyFails_place {atHand : Option Int} {change : Change} {seat : Seat}
    (hteam : isStorable change.draft.team = true)
    (hover : change.draft.isOversized = true → cause)
    (hslot : isStorable seat.slot = false → cause)
    (huser : isStorable seat.user = false → cause) :
    OnlyFails (BlamedOn cause) (s.place atHand change (.ofSeat seat)) :=
  .bind True.intro fun slot hwhole => .guard
    (fun hlarge => Or.inr ⟨rfl, hover (Bool.and_eq_true_iff.1 hlarge).1⟩) fun _ => by
      obtain rfl : seat.slot = slot := Except.ok.inj hwhole
      refine .bind (Store.onlyFails_slotIn hslot) fun row _ =>
        .bind True.intro fun user hwhole => ?_
      obtain rfl : seat.user = user := Except.ok.inj hwhole
      exact .bind (onlyFails_seatUser huser hteam) fun _ _ => True.intro

theorem onlyFails_placeAll {atHand : Option Int} {change : Change} {seats : List Seat}
    (hteam : isStorable change.draft.team = true)
    (hover : change.draft.isOversized = true → cause)
    (hslots : ∀ seat ∈ seats, isStorable seat.slot = false → cause)
    (husers : ∀ seat ∈ seats, isStorable seat.user = false → cause) :
    OnlyFails (BlamedOn cause) (s.placeAll atHand change (seats.map Placement.ofSeat)) := by
  induction seats generalizing atHand change with
  | nil =>
      unfold Store.placeAll
      exact .ite (fun hlarge => Or.inr ⟨rfl, hover hlarge⟩) fun _ => True.intro
  | cons seat rest ih =>
      obtain ⟨hslot, hslots⟩ := List.forall_mem_cons.1 hslots
      obtain ⟨huser, husers⟩ := List.forall_mem_cons.1 husers
      refine .bind (onlyFails_place hteam hover hslot huser) fun placed hplace => ?_
      obtain ⟨slot, change'⟩ := placed
      obtain ⟨_, user, row, -, hwhole, -, -, -, -, -, rfl⟩ := Store.place_eq_ok_iff.1 hplace
      obtain rfl : seat.user = user := Except.ok.inj hwhole
      refine ih hteam (fun hlarge => ?_) hslots husers
      obtain ⟨other, hother, hsize⟩ := List.any_eq_true.1 hlarge
      rcases Draft.mem_putSeat_imp hother with rfl | hother
      · exact huser (by simpa using hsize)
      · exact hover (List.any_eq_true.2 ⟨other, hother, hsize⟩)

theorem onlyFails_autofillSlots (hmembers : ∀ m ∈ s.members, isStorable m.user = true)
    {change : Change} (hteam : isStorable change.draft.team = true) (slots : List Slot) :
    OnlyFails (BlamedOn cause) (s.autofillSlots change slots) := by
  induction slots generalizing change with
  | nil => exact True.intro
  | cons slot rest ih =>
      unfold Store.autofillSlots
      split
      · exact ih hteam
      · rename_i user huser
        obtain ⟨-, -, hcandidate⟩ := Store.autofillUser?_eq_some huser
        have hstorable := Store.storable_of_candidate hmembers hcandidate
        refine .bind (onlyFails_seatUser (of_not_storable hstorable) hteam) fun change' hseat => ?_
        obtain ⟨-, -, rfl⟩ := Store.seatUser_eq_ok_iff.1 hseat
        exact .bind (ih hteam) fun _ _ => True.intro

theorem onlyFails_autofill (hmembers : ∀ m ∈ s.members, isStorable m.user = true)
    {change : Change} (hteam : isStorable change.draft.team = true) (enabled : Bool)
    (slots : List Slot) : OnlyFails (BlamedOn cause) (s.autofill enabled change slots) := by
  unfold Store.autofill
  exact .ite (fun _ => onlyFails_autofillSlots hmembers hteam slots) fun _ => True.intro

/-- An operation that looks at the database once more fails then only if somebody is told whom the
database cannot hold. -/
theorem onlyFails_lookingBack {α : Type} {report : DatabaseError → Failure}
    {work : Except Failure (Work α)} (hc : c.Smooth) (hwork : OnlyFails (BlamedOn cause) work)
    (hw : ∀ w, work = .ok w → (∀ f, w.flaw = some f → f.BlamedOn cause) ∧
      (cause ∨ ∀ a ∈ w.events, a.recipients.all isStorable = true)) :
    OnlyFails (BlamedOn cause) (complete c s report work).lookingBack.result := by
  have hresult : OnlyFails (BlamedOn cause) (complete c s report work).result :=
    onlyFails_complete (hc.commits 0) hwork fun w f hok => (hw w hok).1 f
  unfold Outcome.lookingBack
  split
  · rename_i hbroken
    refine Or.inr ⟨rfl, ?_⟩
    rcases complete_cases c s report work with ⟨f, hf⟩ | ⟨w, hok, -, ho⟩
    · rw [hf] at hbroken
      cases hbroken
    · refine (hw w hok).2.resolve_right fun hevents => ?_
      rw [ho] at hbroken
      have husable := Delivery.broken_deliverAll c (d := .start w.store 1) hevents rfl
      cases hbroken.symm.trans husable
  · exact hresult

section Begin

variable {m : Module} {v : Version} {seats : List Seat} {placed : Change}

/-- Whoever autofill seats in a draft that is being opened can be seated. -/
theorem onlyFails_filling (hmembers : ∀ m ∈ s.members, isStorable m.user = true)
    (hteam : isStorable m.team = true) {placements : List Placement}
    (hplaced : (freshStore c s m v).placeAll none (.start (freshDraft c s m v)) placements =
      .ok placed) (slots : List Slot) :
    OnlyFails (BlamedOn cause) ((freshStore c s m v).autofill c.autofill placed slots) := by
  have hsame : placed.draft.team = m.team := by
    rw [(Store.seats_placeAll hplaced).1.draft_eq]
    rfl
  exact onlyFails_autofill (s := freshStore c s m v) hmembers (hsame.symm ▸ hteam) _ slots

theorem storable_begun (hmembers : ∀ m ∈ s.members, isStorable m.user = true)
    (husers : ∀ seat ∈ seats, isStorable seat.user = true)
    (hplaced : (freshStore c s m v).placeAll none (.start (freshDraft c s m v))
      (seats.map Placement.ofSeat) = .ok placed)
    {change : Change} {slots : List Slot} {filled : List Seat}
    (hfilled : (freshStore c s m v).autofill c.autofill placed slots = .ok (change, filled)) :
    change.Storable := by
  have hstart : (Change.start (freshDraft c s m v)).Storable := ⟨rfl, List.forall_mem_nil _⟩
  have hplacements : ∀ q ∈ seats.map Placement.ofSeat, q.isOversized = false := by
    intro q hq
    obtain ⟨seat, hseat, rfl⟩ := List.mem_map.1 hq
    simp [Placement.isOversized, Placement.ofSeat, Json.whole, husers seat hseat]
  exact Store.storable_autofill (s := freshStore c s m v) hmembers hfilled
    (Store.storable_placeAll hplaced hplacements hstart)

theorem onlyFails_begin (hs : s.Sound) (hc : c.Smooth) {module : String} {process : Int}
    (hprocess : isStorable process = false → cause) (hordered : SeatsOrdered seats)
    (hslots : ∀ seat ∈ seats, isStorable seat.slot = false → cause)
    (husers : ∀ seat ∈ seats, isStorable seat.user = false → cause) :
    OnlyFails (BlamedOn cause)
      (begin c s module process (seats.map Placement.ofSeat)).result := by
  refine onlyFails_lookingBack hc ?_ fun w hw => ?_
  · refine .bind (Store.onlyFails_module module) fun m _ =>
      .bind (Store.onlyFails_process hprocess) fun p hp => .guard (fun _ => Or.inl rfl) fun hown =>
        .guard (fun _ => Or.inl rfl) fun _ => .bind (Store.onlyFails_latest p.id) fun v _ =>
          .guard (fun hfails => by simp [hc.copies] at hfails) fun _ =>
            .bind (onlyFails_requireStamp hc) fun _ _ => ?_
    have hteam : isStorable m.team = true := not_not.1 hown ▸
      hs.process_team p (List.mem_of_find?_eq_some (Store.process_eq_ok_iff.1 hp).2)
    rw [inOrder_ofSeat hordered]
    refine .bind True.intro fun ordered hsame => ?_
    obtain rfl := Except.ok.inj hsame
    have hplacing : OnlyFails (BlamedOn cause) ((freshStore c s m v).placeAll none
        (.start (freshDraft c s m v)) (seats.map Placement.ofSeat)) :=
      onlyFails_placeAll hteam nofun hslots husers
    exact .bind hplacing fun placed hplaced =>
      .bind (onlyFails_filling hs.member_user hteam hplaced _) fun _ _ => True.intro
  · dsimp only at hw
    simp only [guard_eq_ok_iff, bind_eq_ok_iff, pure_eq_ok_iff, Prod.exists,
      inOrder_ofSeat hordered] at hw
    obtain ⟨m, -, p, -, -, -, v, -, -, ⟨⟩, -, _, ⟨⟩, placed, hplaced, change, filled, hfilled,
      rfl⟩ := hw
    -- Only somebody whom the database cannot hold spoils the commit or a delivery.
    by_cases hall : ∀ seat ∈ seats, isStorable seat.user = true
    · have hstorable := storable_begun hs.member_user hall hplaced hfilled
      refine ⟨fun f hf => blamedOn_of_oversizedIf hf fun hlarge => ?_, Or.inr hstorable.events⟩
      cases hstorable.draft.symm.trans hlarge
    · push Not at hall
      obtain ⟨seat, hseat, hlarge⟩ := hall
      have hcause := husers seat hseat (by simpa using hlarge)
      exact ⟨fun f hf => blamedOn_of_oversizedIf hf fun _ => hcause, Or.inl hcause⟩

end Begin

end Drafting

end Editorial
