import Editorial.Proofs.Draft.Advance
import Editorial.Proofs.Event.Replay

/-!
# Seats as they are told

While an operation seats users and vacates slots, what it has announced so far is told exactly:
`Change.Told` relates a change to the news that come of its announcements, and replaying these gives
the seats of the draft (`Change.Told.seat`, `Change.Told.vacate`). A user whom the database cannot
hold may be seated for a moment, when another placement for the same slot follows. What is told of
such a user is lost, both on coming and on leaving.
-/

namespace Editorial

/-! ### Users whom the database can hold -/

namespace Draft

variable {d : Draft} {slot user : Int}

/-- Whoever sits elsewhere than in a slot is a user whom the database can hold. -/
def FitsElsewhere (d : Draft) (slot : Int) : Prop :=
  ∀ seat ∈ d.seats, seat.slot ≠ slot → isStorable seat.user = true

theorem fitsElsewhere_of_not_oversized (h : d.isOversized = false) (slot : Int) :
    d.FitsElsewhere slot := fun seat hseat _ => isOversized_eq_false_iff.1 h seat hseat

namespace FitsElsewhere

theorem isOversized_eq_false (h : d.FitsElsewhere slot) (hd : SeatsOrdered d.seats)
    (hslot : ∀ user, d.occupant? slot = some user → isStorable user = true) :
    d.isOversized = false := by
  refine isOversized_eq_false_iff.2 fun seat hseat => ?_
  by_cases hs : seat.slot = slot
  · exact hslot seat.user (hs ▸ (occupant?_eq_some_iff hd).2 hseat)
  · exact h seat hseat hs

theorem isOversized_of_occupant (h : d.FitsElsewhere slot) (hd : SeatsOrdered d.seats)
    (huser : d.occupant? slot = some user) : d.isOversized = !isStorable user := by
  cases hsize : isStorable user with
  | true =>
      refine h.isOversized_eq_false hd fun other hother => ?_
      rw [← Option.some.inj (huser.symm.trans hother), hsize]
  | false =>
      exact List.any_eq_true.2 ⟨_, (occupant?_eq_some_iff hd).1 huser, by rw [hsize]; rfl⟩

theorem isOversized_vacate (h : d.FitsElsewhere slot) : (d.vacate slot).isOversized = false := by
  refine isOversized_eq_false_iff.2 fun seat hseat => ?_
  obtain ⟨hseat, hs⟩ := List.mem_filter.1 hseat
  exact h seat hseat (by simpa using hs)

theorem seat (h : d.FitsElsewhere slot) (user : Int) : (d.seat slot user).FitsElsewhere slot := by
  intro seat hseat hs
  rcases mem_putSeat_imp hseat with rfl | hseat
  · exact absurd rfl hs
  · exact h seat hseat hs

theorem isOversized_seat (h : d.FitsElsewhere slot) (hd : SeatsOrdered d.seats) (user : Int) :
    (d.seat slot user).isOversized = !isStorable user :=
  (h.seat user).isOversized_of_occupant (ordered_putSeat slot user hd)
    ((occupant?_seat d slot user slot).trans (if_pos rfl))

end FitsElsewhere

/-- Who sits where, as far as the database can hold it. -/
def storedSeating (d : Draft) : Seating := fun slot => (d.occupant? slot).filter isStorable

theorem storedSeating_eq (hd : SeatsOrdered d.seats) (h : d.isOversized = false) :
    d.storedSeating = fun slot => d.occupant? slot := by
  funext slot
  unfold storedSeating
  cases hslot : d.occupant? slot with
  | none => rfl
  | some user =>
      have huser : isStorable user = true :=
        isOversized_eq_false_iff.1 h ⟨slot, user⟩ ((occupant?_eq_some_iff hd).1 hslot)
      exact if_pos huser

theorem storedSeating_seat (d : Draft) (slot user : Int) :
    (d.seat slot user).storedSeating =
      Function.update d.storedSeating slot ((some user).filter isStorable) := by
  funext other
  rw [Function.update_apply]
  unfold storedSeating
  rw [occupant?_seat]
  split <;> rfl

theorem storedSeating_vacate (d : Draft) (slot : Int) :
    (d.vacate slot).storedSeating = Function.update d.storedSeating slot none := by
  funext other
  rw [Function.update_apply]
  unfold storedSeating
  rw [occupant?_vacate]
  split <;> rfl

end Draft

/-! ### Announcements to one user -/

/-- What becomes of an announcement to one user. It is lost, and with it the next one, if the
database cannot hold the user. -/
theorem Delivery.deliverAll_announce_one {c : Conditions} (hc : c.Delivers) {d : Delivery}
    (hd : 0 < d.commits) (kind : EventKind) {fields : Json.Fields}
    (hdepth : (Json.object fields).depth ≤ Delivery.depthLimit) (user : Int) :
    let d' := deliverAll c d (announce kind fields [user])
    d'.commits = d.commits + 1 ∧ d'.broken = (!d.broken && !isStorable user) ∧
      d'.store = if !d.broken && isStorable user then
          d.store.tell c.now [⟨kind, user, .object fields⟩] else d.store := by
  have hone : announce kind fields [user] =
      [.ofUsers (.text kind.text) (.object fields) [user]] := rfl
  have hrecipients : Ordered.ascending [user] = [user] :=
    Ordered.ascending_eq_self (List.pairwise_singleton _ _)
  have hnews := news_announce kind fields [user]
  rw [hone, List.flatMap_singleton, hrecipients] at hnews
  have hmem : Announcement.ofUsers (.text kind.text) (.object fields) [user] ∈
      announce kind fields [user] := List.mem_singleton_self _
  obtain ⟨hsendable, hto⟩ := sendable_announce kind hdepth _ hmem
  intro d'
  have hd' : d' = _ := deliver_eq hc hd hsendable
  rw [hd', hto, hrecipients, hnews]
  cases d.broken <;> cases huser : isStorable user <;> simp [huser]

/-! ### Changes -/

namespace Change

variable {c : Conditions} {s : Store} {before : Seating} {change : Change} {news : List News}
  {slot user : Int}

/-- The delivery of what a change announces, after the commit of the store. -/
def delivery (c : Conditions) (s : Store) (change : Change) : Delivery :=
  (Delivery.start s 1).deliverAll c change.events

/-- What a change announces arrives as news about its module, and these lead from the seats before
to the seats of its draft. The connection is broken as long as the draft is oversized. -/
structure Told (c : Conditions) (s : Store) (before : Seating) (change : Change)
    (news : List News) : Prop where
  ordered : SeatsOrdered change.draft.seats
  store : (change.delivery c s).store = s.tell c.now news
  commits : 0 < (change.delivery c s).commits
  broken : (change.delivery c s).broken = change.draft.isOversized
  about : ∀ n ∈ news, n.module? = some change.draft.module ∧ n.kind ≠ .draftAdvanced
  seats : News.replay before news = some change.draft.storedSeating

theorem told_start (c : Conditions) (s : Store) {d : Draft} (hd : SeatsOrdered d.seats)
    (hsize : d.isOversized = false) : (start d).Told c s (fun slot => d.occupant? slot) [] where
  ordered := hd
  store := (s.tell_nil c.now).symm
  commits := Nat.one_pos
  broken := hsize.symm
  about := nofun
  seats := by
    change some _ = some d.storedSeating
    rw [Draft.storedSeating_eq hd hsize]

theorem delivery_append (c : Conditions) (s : Store) (change : Change) (d : Draft)
    (more : List Announcement) :
    (Change.mk d (change.events ++ more)).delivery c s =
      (change.delivery c s).deliverAll c more :=
  List.foldl_append

/-- One user is told about one slot. The news are stored unless the connection is broken or the
database cannot hold the user; without them the seats that it holds have to be the same. -/
theorem Told.announce (hc : c.Delivers) (h : change.Told c s before news) {d : Draft}
    (hordered : SeatsOrdered d.seats) (hmodule : d.module = change.draft.module) (kind : EventKind)
    (hkind : kind ≠ .draftAdvanced)
    (hsize : d.isOversized = (!change.draft.isOversized && !isStorable user))
    (hseats : if !change.draft.isOversized && isStorable user then
        News.follow change.draft.storedSeating
          ⟨kind, user, .object (change.draft.slotPayload slot)⟩ = some d.storedSeating
      else change.draft.storedSeating = d.storedSeating) :
    ∃ news, Told c s before ⟨d,
      change.events ++ Editorial.announce kind (change.draft.slotPayload slot) [user]⟩ news := by
  have hdepth : (Json.object (change.draft.slotPayload slot)).depth ≤ Delivery.depthLimit := by
    rw [depth_slotPayload]
    decide
  have hdelivery := Delivery.deliverAll_announce_one hc h.commits kind hdepth user
  rw [h.broken, ← delivery_append c s change d] at hdelivery
  obtain ⟨hcommits, hbroken, hstore⟩ := hdelivery
  have habout : ∀ n ∈ news, n.module? = some d.module ∧ n.kind ≠ .draftAdvanced := by
    rw [hmodule]
    exact h.about
  by_cases hkept : (!change.draft.isOversized && isStorable user) = true
  · rw [if_pos hkept] at hseats hstore
    let n : News := ⟨kind, user, .object (change.draft.slotPayload slot)⟩
    have hnews : n.module? = some d.module ∧ n.kind ≠ .draftAdvanced :=
      ⟨congrArg some hmodule.symm, hkind⟩
    exact ⟨news ++ [n], {
      ordered := hordered
      store := by rw [hstore, h.store, Store.tell_append]
      commits := hcommits ▸ Nat.succ_pos _
      broken := hbroken.trans hsize.symm
      about := forall_mem_concat habout hnews
      seats := (News.replay_concat h.seats).trans hseats }⟩
  · rw [if_neg hkept] at hseats hstore
    exact ⟨news, {
      ordered := hordered
      store := hstore.trans h.store
      commits := hcommits ▸ Nat.succ_pos _
      broken := hbroken.trans hsize.symm
      about := habout
      seats := h.seats.trans (congrArg some hseats) }⟩

/-- Whoever is in a slot leaves it. -/
theorem Told.vacate (hc : c.Delivers) (h : change.Told c s before news)
    (hfits : change.draft.FitsElsewhere slot) :
    ∃ news, (change.vacate slot).Told c s before news := by
  cases huser : change.draft.occupant? slot with
  | none =>
      have hsame : change.vacate slot = change := by
        unfold Change.vacate Draft.vacateEvents
        rw [Draft.vacate_of_empty h.ordered huser, huser, List.append_nil]
      rw [hsame]
      exact ⟨news, h⟩
  | some user =>
      have hsize : change.draft.isOversized = !isStorable user :=
        hfits.isOversized_of_occupant h.ordered huser
      have hleft : change.vacate slot =
          ⟨change.draft.vacate slot, change.events ++ change.draft.vacated slot user⟩ := by
        unfold Change.vacate Draft.vacateEvents
        rw [huser]
      rw [hleft]
      refine h.announce hc (d := change.draft.vacate slot) (h.ordered.filter _) rfl .slotVacated
        (by decide) ?_ ?_
      · rw [hfits.isOversized_vacate, hsize]
        cases isStorable user <;> rfl
      · have hstored : change.draft.storedSeating slot = (some user).filter isStorable :=
          congrArg (Option.filter isStorable) huser
        rw [hsize, Draft.storedSeating_vacate]
        cases hstorable : isStorable user with
        | true =>
            have hthere : change.draft.storedSeating slot = some user :=
              hstored.trans (if_pos hstorable)
            exact if_pos hthere
        | false =>
            have hthere : change.draft.storedSeating slot = none := by
              rw [hstored]
              exact if_neg (by simp [hstorable])
            exact (Function.update_eq_self_iff.2 hthere.symm).symm

/-- A user comes into a free slot. -/
theorem Told.come (hc : c.Delivers) (h : change.Told c s before news)
    (hsize : change.draft.isOversized = false) (hfree : change.draft.occupant? slot = none)
    (user : Int) : ∃ news, (change.seat slot user).Told c s before news := by
  have hcame : change.seat slot user =
      ⟨change.draft.seat slot user, change.events ++ change.draft.filled slot user⟩ := by
    unfold Change.seat Draft.seatEvents
    rw [hfree]
  have hfits := Draft.fitsElsewhere_of_not_oversized hsize slot
  rw [hcame]
  refine h.announce hc (d := change.draft.seat slot user)
    (Draft.ordered_putSeat slot user h.ordered) rfl .slotFilled (by decide) ?_ ?_
  · rw [hfits.isOversized_seat h.ordered, hsize]
    rfl
  · rw [hsize, Draft.storedSeating_seat]
    cases hstorable : isStorable user with
    | true =>
        have hsome : (some user).filter isStorable = some user := if_pos hstorable
        rw [hsome]
        rfl
    | false =>
        have hnone : (some user).filter isStorable = none := if_neg (by simp [hstorable])
        have hthere : change.draft.storedSeating slot = none :=
          congrArg (Option.filter isStorable) hfree
        rw [hnone]
        exact (Function.update_eq_self_iff.2 hthere.symm).symm

/-- A user comes into a slot, in place of whoever was there. -/
theorem Told.seat (hc : c.Delivers) (h : change.Told c s before news)
    (hfits : change.draft.FitsElsewhere slot) (user : Int) :
    ∃ news, (change.seat slot user).Told c s before news := by
  cases hformer : change.draft.occupant? slot with
  | none =>
      refine h.come hc (hfits.isOversized_eq_false h.ordered fun other hother => ?_) hformer user
      cases hformer.symm.trans hother
  | some former =>
      by_cases hsame : former = user
      · have hunchanged : change.seat slot user = change := by
          rw [hsame] at hformer
          unfold Change.seat Draft.seatEvents
          rw [Draft.seat_of_occupant h.ordered hformer, hformer]
          simp
        rw [hunchanged]
        exact ⟨news, h⟩
      · obtain ⟨_, hleft⟩ := h.vacate hc hfits
        have hfree : (change.draft.vacate slot).occupant? slot = none :=
          (Draft.occupant?_vacate _ _ _).trans (if_pos rfl)
        have hboth : (change.vacate slot).seat slot user = change.seat slot user := by
          unfold Change.seat Change.vacate Draft.seatEvents Draft.vacateEvents
          dsimp only
          rw [Draft.seat_vacate h.ordered, hfree, hformer]
          dsimp only
          rw [if_neg hsame, List.append_assoc]
          rfl
        rw [← hboth]
        exact hleft.come hc hfits.isOversized_vacate hfree user

end Change

/-! ### Many seats -/

namespace Store

variable {c : Conditions} {s u : Store} {before : Seating} {change change' : Change}
  {news : List News}

/-- Placements are told. Only in the slot at hand may somebody sit whom the database cannot hold. -/
theorem told_placeAll (hc : c.Delivers) {atHand : Option Int} {placements : List Placement}
    (h : s.placeAll atHand change placements = .ok change') (htold : change.Told c u before news)
    (hfits : ∀ seat ∈ change.draft.seats, isStorable seat.user = true ∨ atHand = some seat.slot) :
    ∃ news, change'.Told c u before news := by
  induction placements generalizing atHand change news with
  | nil =>
      obtain ⟨-, rfl⟩ := placeAll_nil_eq_ok_iff.1 h
      exact ⟨news, htold⟩
  | cons p rest ih =>
      obtain ⟨slot, _, hp, hrest⟩ := placeAll_cons_eq_ok_iff.1 h
      obtain ⟨_, user, row, -, -, hhand, -, -, -, rfl, rfl⟩ := place_eq_ok_iff.1 hp
      have helsewhere : change.draft.FitsElsewhere slot := by
        intro seat hseat hne
        by_contra hsize
        have hat := (hfits seat hseat).resolve_left hsize
        have hoversized : change.draft.isOversized = true :=
          List.any_eq_true.2 ⟨seat, hseat, by simp [hsize]⟩
        exact hhand ⟨hoversized, fun hslot => hne (Option.some.inj (hat.symm.trans hslot))⟩
      obtain ⟨_, hseated⟩ := htold.seat hc helsewhere user
      refine ih hrest hseated fun seat hseat => ?_
      by_cases hs : seat.slot = slot
      · exact Or.inr (congrArg some hs.symm)
      · exact Or.inl (helsewhere.seat user seat hseat hs)

/-- What autofill does is told. Nobody is seated whom the database cannot hold. -/
theorem told_autofillSlots (hc : c.Delivers) (hs : ∀ m ∈ s.members, isStorable m.user = true)
    {slots : List Slot} {filled : List Seat}
    (h : s.autofillSlots change slots = .ok (change', filled)) (htold : change.Told c u before news)
    (hsize : change.draft.isOversized = false) : ∃ news, change'.Told c u before news := by
  induction slots generalizing change filled news with
  | nil =>
      cases h
      exact ⟨news, htold⟩
  | cons slot rest ih =>
      unfold autofillSlots at h
      split at h
      · exact ih h htold hsize
      · rename_i user huser
        obtain ⟨change₁, hseat, h⟩ := bind_eq_ok_iff.1 h
        obtain ⟨⟨change₂, filled₂⟩, hrest, h⟩ := bind_eq_ok_iff.1 h
        cases h
        obtain ⟨-, -, rfl⟩ := seatUser_eq_ok_iff.1 hseat
        obtain ⟨-, hfree, hcandidate⟩ := autofillUser?_eq_some huser
        have hfits := Draft.fitsElsewhere_of_not_oversized hsize slot.id
        have hsize' : (change.draft.seat slot.id user).isOversized = false := by
          rw [hfits.isOversized_seat htold.ordered, storable_of_candidate hs hcandidate]
          rfl
        obtain ⟨_, hcame⟩ := htold.come hc hsize hfree user
        exact ih hrest hcame hsize'

theorem told_autofill (hc : c.Delivers) (hs : ∀ m ∈ s.members, isStorable m.user = true)
    {enabled : Bool} {slots : List Slot} {filled : List Seat}
    (h : s.autofill enabled change slots = .ok (change', filled))
    (htold : change.Told c u before news) (hsize : change.draft.isOversized = false) :
    ∃ news, change'.Told c u before news := by
  unfold autofill at h
  split at h
  · exact told_autofillSlots hc hs h htold hsize
  · cases h
    exact ⟨news, htold⟩

end Store

end Editorial
