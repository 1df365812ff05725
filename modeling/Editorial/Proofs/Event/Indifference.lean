import Editorial.Proofs.Draft.Records
import Editorial.Proofs.Event.Told
import Editorial.Proofs.Event.Untold

/-!
# Runs and the event sink

A beginning looks at the process once more when all has been told. It answers as it does with a sink
that takes everything, unless the connection is then unusable (`Drafting.begin_delivering`). For
this two things have to come together. Someone has been told of whom the database cannot hold, which
takes a placement that names such a user and another one for the same slot
(`Change.Storable.seat`). And the sink has refused to tell who came into a slot, since the last one
to be told of that is someone who still sits there and would have restored the connection
(`Work.Begins.not_broken`). Two runs of the same turns that differ in the sink are both compared
with the run in which it takes everything (`delivery_indifferent`).
-/

namespace Editorial

/-! ### Users whom the database can hold -/

/-- The database cannot hold the user whom a placement names. -/
def Placement.isOversized (p : Placement) : Bool :=
  match p.user.whole with
  | .ok user => !isStorable user
  | .error _ => false

/-- The database can hold everyone who sits in a changed draft and everyone who is told about it. -/
structure Change.Storable (change : Change) : Prop where
  draft : change.draft.isOversized = false
  events : ∀ a ∈ change.events, a.recipients.all isStorable = true

theorem storable_announce {kind : EventKind} {payload : Json.Fields} {user : Int}
    (huser : isStorable user = true) :
    ∀ a ∈ announce kind payload [user], a.recipients.all isStorable = true := by
  intro a ha
  obtain rfl := List.mem_singleton.1 ha
  have hone : Ordered.ascending [user] = [user] :=
    Ordered.ascending_eq_self (List.pairwise_singleton _ _)
  show (Ordered.ascending [user]).all isStorable = true
  rw [hone, List.all_cons, huser]
  rfl

theorem Change.Storable.seat {change : Change} (h : change.Storable) (slot : Int) {user : Int}
    (huser : isStorable user = true) : (change.seat slot user).Storable where
  draft := Draft.isOversized_seat_of_storable h.draft slot huser
  events := by
    refine List.forall_mem_append.2 ⟨h.events, ?_⟩
    unfold Draft.seatEvents
    cases hformer : change.draft.occupant? slot with
    | none => exact storable_announce huser
    | some former =>
        have hstorable : isStorable former = true := by
          by_contra hlarge
          have hover :=
            Drafting.Operation.isOversized_of_occupant hformer (by simpa using hlarge)
          rw [h.draft] at hover
          cases hover
        dsimp only
        split
        · exact nofun
        · exact List.forall_mem_append.2 ⟨storable_announce hstorable, storable_announce huser⟩

namespace Store

variable {s : Store}

theorem storable_placeAll {atHand : Option Int} {change change' : Change}
    {placements : List Placement} (h : s.placeAll atHand change placements = .ok change')
    (hplacements : ∀ p ∈ placements, p.isOversized = false) (hchange : change.Storable) :
    change'.Storable := by
  induction placements generalizing atHand change with
  | nil =>
      obtain ⟨-, rfl⟩ := placeAll_nil_eq_ok_iff.1 h
      exact hchange
  | cons p rest ih =>
      obtain ⟨hp, hrest⟩ := List.forall_mem_cons.1 hplacements
      obtain ⟨n, change₁, hplace, h⟩ := placeAll_cons_eq_ok_iff.1 h
      obtain ⟨slot, user, row, -, huser, -, -, -, -, -, rfl⟩ := place_eq_ok_iff.1 hplace
      have hstorable : isStorable user = true := by
        simpa [Placement.isOversized, huser] using hp
      exact ih h hrest (hchange.seat slot hstorable)

theorem storable_autofillSlots (hmembers : ∀ m ∈ s.members, isStorable m.user = true)
    {change change' : Change} {slots : List Slot} {filled : List Seat}
    (h : s.autofillSlots change slots = .ok (change', filled)) (hchange : change.Storable) :
    change'.Storable := by
  induction slots generalizing change filled with
  | nil =>
      cases h
      exact hchange
  | cons slot rest ih =>
      unfold autofillSlots at h
      split at h
      · exact ih h hchange
      · rename_i user huser
        obtain ⟨change₁, hseat, h⟩ := bind_eq_ok_iff.1 h
        obtain ⟨⟨change₂, filled₂⟩, hrest, h⟩ := bind_eq_ok_iff.1 h
        cases h
        obtain ⟨-, -, rfl⟩ := seatUser_eq_ok_iff.1 hseat
        obtain ⟨-, -, hcandidate⟩ := autofillUser?_eq_some huser
        exact ih hrest (hchange.seat slot.id (storable_of_candidate hmembers hcandidate))

theorem storable_autofill (hmembers : ∀ m ∈ s.members, isStorable m.user = true)
    {enabled : Bool} {change change' : Change} {slots : List Slot} {filled : List Seat}
    (h : s.autofill enabled change slots = .ok (change', filled)) (hchange : change.Storable) :
    change'.Storable := by
  unfold autofill at h
  split at h
  · exact storable_autofillSlots hmembers h hchange
  · cases h
    exact hchange

end Store

namespace Delivery

/-! What is told to users whom the database can hold leaves the connection usable. -/

section Storable

variable (c : Conditions) {a : Announcement} {d : Delivery}

theorem broken_deliver (ha : a.recipients.all isStorable = true) (hd : d.broken = false) :
    (deliver c d a).broken = false := by
  cases htaken : a.isTaken c with
  | false =>
      rw [deliver_of_not_taken htaken]
      exact hd
  | true =>
      rw [deliver_of_taken htaken, if_pos ha]
      split
      · exact hd
      split
      · rfl
      split <;> exact hd

theorem broken_deliverAll {pending : List Announcement}
    (h : ∀ a ∈ pending, a.recipients.all isStorable = true) (hd : d.broken = false) :
    (d.deliverAll c pending).broken = false := by
  induction pending generalizing d with
  | nil => exact hd
  | cons a rest ih =>
      obtain ⟨ha, hrest⟩ := List.forall_mem_cons.1 h
      exact ih hrest (broken_deliver c ha hd)

end Storable

end Delivery

/-! ### Beginning a draft -/

/-- Work that begins a draft of a module: it stores the draft that it answers, and what it tells is
told of seats, last of all to someone who still sits there. -/
structure Work.Begins (module : String) (placements : List Placement) (w : Work Draft) :
    Prop where
  draft : w.store.draft? module = some w.value
  told : ∃ change : Change, change.events = w.events ∧ change.EndsSeated ∧
    (w.flaw = none → change.draft.isOversized = false)
  storable : (∀ p ∈ placements, p.isOversized = false) →
    ∀ a ∈ w.events, a.recipients.all isStorable = true

/-- A sink that takes who has come into a slot leaves the connection usable. -/
theorem Work.Begins.not_broken {module : String} {placements : List Placement} {w w' : Work Draft}
    (h : w.Begins module placements) (hflaw : w.flaw = none) {c : Conditions}
    (hrefuses : c.refuses (.text EventKind.slotFilled.text) = false)
    (hevents : w'.events = w.events) : (w'.outcome c).broken = false := by
  obtain ⟨change, htold, hends, hsize⟩ := h.told
  show ((Delivery.start w'.store 1).deliverAll c w'.events).broken = false
  rw [hevents, ← htold]
  exact hends.broken_deliverAll hrefuses (hsize hflaw) rfl

/-- The answer of one beginning is lost over the unusable connection, although its draft is stored,
while another one answers with the draft. -/
structure Outcome.Unanswered (module : String) (o o' : Outcome Draft) : Prop where
  lost : o.result = .error .connectionUnusable
  answered : ∃ d, o'.result = .ok d ∧ o.store.draft? module = some d ∧
    o'.store.draft? module = some d

theorem Outcome.Unanswered.of_same {module : String} {o o' ideal : Outcome Draft}
    (h : o.Unanswered module ideal) (hresult : o'.result = ideal.result)
    (hstore : o'.store.untold = ideal.store.untold) : o.Unanswered module o' where
  lost := h.lost
  answered := by
    obtain ⟨d, hanswer, hstored, hideal⟩ := h.answered
    refine ⟨d, hresult.trans hanswer, hstored, ?_⟩
    rw [Store.draft?_eq_of_untold hstore, hideal]

namespace Drafting

open Outcome

variable {s : Store}

/-- Seating users in a draft that is opened. -/
theorem sameWork_seating (u : Store) (enabled : Bool) (d : Draft) (ordered : List Placement) :
    SameWork
      (do
        let change ← u.placeAll none (.start d) ordered
        let (change, _) ← u.autofill enabled change (u.activeSlots d)
        return change.work u change.draft)
      (do
        let change ← u.untold.placeAll none (.start d) ordered
        let (change, _) ← u.untold.autofill enabled change (u.untold.activeSlots d)
        return change.work u.untold change.draft) := by
  rw [Store.placeAll_untold]
  refine .bind fun change => ?_
  rw [Store.autofill_untold]
  exact .bind fun _ => .pure rfl

/-- Up to the last look at the process, a beginning ends as it does with a sink that takes
everything. -/
theorem exists_begin (hmembers : ∀ m ∈ s.members, isStorable m.user = true) (c : Conditions)
    (module : String) (process : Int) (placements : List Placement) :
    ∃ x y, begin c s module process placements =
        (complete c s (beginCommitFailure module) x).lookingBack ∧
      begin c.delivering s.untold module process placements =
        (complete c.delivering s.untold (beginCommitFailure module) y).lookingBack ∧
      SameWork x y ∧ ∀ w, x = .ok w → w.Begins module placements := by
  refine ⟨_, _, rfl, rfl, ?_, fun w hw => ?_⟩
  · exact .bind fun m => .bind fun _ => .guard (.guard (.bind fun v => .guard (.bind fun _ =>
      .bind fun ordered => sameWork_seating (freshStore c s m v) c.autofill _ ordered)))
  · dsimp only at hw
    simp only [guard_eq_ok_iff, bind_eq_ok_iff, pure_eq_ok_iff, Store.module_eq_ok_iff,
      Store.process_eq_ok_iff, Store.latest_eq_ok_iff, Prod.exists] at hw
    obtain ⟨m, hm, p, -, -, hidle, v, -, -, ⟨⟩, -, ordered, hordered, placed, hplaced, change,
      filled, hfilled, rfl⟩ := hw
    have hseats := (Store.seats_placeAll hplaced).1.trans (Store.seats_autofill hfilled)
    have hmodule : change.draft.module = m.id := by
      rw [hseats.draft_eq]
      rfl
    have hmid : m.id = module := Store.id_of_module? hm
    refine ⟨?_, ⟨change, rfl, hseats.endsSeated (Or.inl rfl), oversizedIf_eq_none_iff.1⟩, ?_⟩
    · have hidle : s.draft? module = none := by simpa using hidle
      show ((freshStore c s m v).putDraft change.draft).draft? module = some change.draft
      rw [Store.draft?_putDraft, if_pos (hmid.symm.trans hmodule.symm), draft?_freshStore, hidle,
        if_pos hmid]
      rfl
    · intro hplacements
      have hordered : ∀ p ∈ ordered, p.isOversized = false := fun p hp =>
        hplacements p ((Placement.inOrder_perm hordered).mem_iff.1 hp)
      have hfresh : (Change.start (freshDraft c s m v)).Storable := ⟨rfl, nofun⟩
      exact (Store.storable_autofill (s := freshStore c s m v) hmembers hfilled
        (Store.storable_placeAll hplaced hordered hfresh)).events

/-- A beginning ends as it does with a sink that takes everything, or its answer is lost: the sink
refuses to tell who has come into a slot, and a placement names a user whom the database cannot
hold. -/
theorem begin_delivering (hmembers : ∀ m ∈ s.members, isStorable m.user = true) (c : Conditions)
    (module : String) (process : Int) (placements : List Placement) :
    let o := begin c s module process placements
    let o' := begin c.delivering s.untold module process placements
    o.store.untold = o'.store.untold ∧
      (o.result = o'.result ∨ o.Unanswered module o' ∧
        c.refuses (.text EventKind.slotFilled.text) = true ∧
        ∃ p ∈ placements, p.isOversized = true) := by
  obtain ⟨x, y, hx, hy, hwork, hbegins⟩ := exists_begin hmembers c module process placements
  have hagrees : Agrees (complete c s (beginCommitFailure module) x)
      (complete c.delivering s.untold (beginCommitFailure module) y) := agrees_complete hwork
  have hwhole :
      (complete c.delivering s.untold (beginCommitFailure module) y).broken = false := by
    rcases complete_cases c.delivering s.untold (beginCommitFailure module) y with
      ⟨f, hf⟩ | ⟨w', hw', hcommits, ho⟩
    · rw [hf]
      rfl
    · obtain ⟨w, hw, hsame⟩ := hwork.exists_ok hw'
      obtain ⟨-, -, hevents, hflaw⟩ := Work.untold_eq_iff.1 hsame
      rw [ho]
      exact (hbegins w hw).not_broken (hflaw.trans hcommits.flaw) rfl hevents.symm
  dsimp only
  rw [hx, hy, store_lookingBack, store_lookingBack, lookingBack_of_not_broken hwhole]
  refine ⟨hagrees.store, ?_⟩
  cases hbroken : (complete c s (beginCommitFailure module) x).broken with
  | false =>
      left
      rw [lookingBack_of_not_broken hbroken]
      exact hagrees.result
  | true =>
      right
      rcases complete_cases c s (beginCommitFailure module) x with ⟨f, hf⟩ | ⟨w, hw, hcommits, ho⟩
      · rw [hf] at hbroken
        cases hbroken
      have hbegun := hbegins w hw
      have hstored : (w.outcome c).store.draft? module = some w.value := by
        rw [Store.draft?_eq_of_untold (w.extends_outcome c).untold_eq, hbegun.draft]
      have hstore := Store.draft?_eq_of_untold hagrees.store module
      have hresult := hagrees.result
      rw [ho] at hbroken hstore hresult ⊢
      refine ⟨⟨?_, w.value, hresult.symm, ?_, hstore.symm.trans hstored⟩, ?_, ?_⟩
      · unfold lookingBack
        rw [if_pos hbroken]
      · rw [store_lookingBack]
        exact hstored
      · by_contra hrefuses
        rw [hbegun.not_broken hcommits.flaw (by simpa using hrefuses) rfl] at hbroken
        cases hbroken
      · by_contra hplacements
        push Not at hplacements
        have hstorable := hbegun.storable fun p hp => by simpa using hplacements p hp
        rw [show (w.outcome c).broken = false from
          Delivery.broken_deliverAll c hstorable rfl] at hbroken
        cases hbroken

end Drafting

/-! ### Runs -/

/-- The same turn with an event sink that takes whatever it is given. -/
def Turn.delivering (t : Turn) : Turn := { t with conditions := t.conditions.delivering }

namespace Store

/-- Apart from events, a turn leaves what it leaves with a sink that takes everything. -/
theorem untold_after {s : Store} (hmembers : ∀ m ∈ s.members, isStorable m.user = true)
    (t : Turn) : (s.after t).untold = (s.untold.after t.delivering).untold := by
  obtain ⟨c, action⟩ := t
  cases action with
  | define op => exact (op.agrees c s).store
  | direct op => exact (op.agrees c s).store
  | draft op =>
      by_cases hop : ∀ module process placements, op ≠ .begin module process placements
      · exact (Drafting.Operation.agrees c s hop).store
      · push Not at hop
        obtain ⟨module, process, placements, rfl⟩ := hop
        exact (Drafting.begin_delivering hmembers c module process placements).1

/-- Two runs of the same turns leave the same tables apart from events, whatever the event sink
does in each. -/
theorem untold_afterAll {turns turns' : List Turn}
    (h : turns.map Turn.delivering = turns'.map Turn.delivering) {s s' : Store} (hs : s.Sound)
    (hs' : s'.Sound) (hsame : s.untold = s'.untold) :
    (s.afterAll turns).untold = (s'.afterAll turns').untold := by
  induction turns generalizing turns' s s' with
  | nil =>
      obtain rfl := List.map_eq_nil_iff.1 h.symm
      exact hsame
  | cons t turns ih =>
      obtain ⟨t', rest, rfl, ht, hrest⟩ := List.map_eq_cons_iff.1 h.symm
      refine ih hrest.symm (hs.after t) (hs'.after t') ?_
      rw [untold_after hs.member_user, untold_after hs'.member_user, hsame, ht]

end Store

/-- What the event sink does has no influence on the tables but that of events, nor on what is
answered, whatever has been done and however often the sink or a commit of its own has failed. There
is one exception: a draft may be begun and stored without an answer. Then a placement names a user
whom the database cannot hold, and the sink refuses to tell who has come into a slot. -/
theorem delivery_indifferent {turns turns' : List Turn} {c c' : Conditions}
    (hturns : turns.map Turn.delivering = turns'.map Turn.delivering)
    (hc : c.delivering = c'.delivering) :
    let s := Store.empty.afterAll turns
    let s' := Store.empty.afterAll turns'
    s.untold = s'.untold ∧
    (∀ op : Definitions.Operation, (op.perform c s).result = (op.perform c' s').result) ∧
    (∀ op : Directory.Operation, (op.perform c s).result = (op.perform c' s').result) ∧
    (∀ op : Drafting.Operation,
      (∀ module process placements, op ≠ .begin module process placements) →
      (op.perform c s).result = (op.perform c' s').result) ∧
    ∀ module process placements,
      let o := Drafting.begin c s module process placements
      let o' := Drafting.begin c' s' module process placements
      o.result = o'.result ∨ (∃ p ∈ placements, p.isOversized = true) ∧
        (o.Unanswered module o' ∧ c.refuses (.text EventKind.slotFilled.text) = true ∨
          o'.Unanswered module o ∧ c'.refuses (.text EventKind.slotFilled.text) = true) := by
  have hsound := Store.sound_empty.afterAll turns
  have hsound' := Store.sound_empty.afterAll turns'
  have hsame := Store.untold_afterAll hturns Store.sound_empty Store.sound_empty rfl
  dsimp only
  refine ⟨hsame, fun op => ?_, fun op => ?_, fun op hop => ?_, fun module process placements => ?_⟩
  · rw [(op.agrees c _).result, (op.agrees c' _).result, hsame, hc]
  · rw [(op.agrees c _).result, (op.agrees c' _).result, hsame, hc]
  · rw [(Drafting.Operation.agrees c _ hop).result, (Drafting.Operation.agrees c' _ hop).result,
      hsame, hc]
  · obtain ⟨hstore, hresult⟩ :=
      Drafting.begin_delivering hsound.member_user c module process placements
    obtain ⟨hstore', hresult'⟩ :=
      Drafting.begin_delivering hsound'.member_user c' module process placements
    rw [hsame, hc] at hstore hresult
    rcases hresult with heq | ⟨hlost, hrefuses, hlarge⟩
    · rcases hresult' with heq' | ⟨hlost', hrefuses', hlarge'⟩
      · exact Or.inl (heq.trans heq'.symm)
      · exact Or.inr ⟨hlarge', Or.inr ⟨hlost'.of_same heq hstore, hrefuses'⟩⟩
    · rcases hresult' with heq' | ⟨hlost', -, -⟩
      · exact Or.inr ⟨hlarge, Or.inl ⟨hlost.of_same heq' hstore', hrefuses⟩⟩
      · exact Or.inl (hlost.lost.trans hlost'.lost.symm)

/-- In the review, the author can submit the draft although nobody has been told anything. -/
theorem review_unheard :
    let deaf : Conditions := { Review.conditions with refuses := fun _ => true }
    let unheard := Review.turns.map fun t => { t with conditions := deaf }
    Review.turns.map Turn.delivering = unheard.map Turn.delivering ∧
      Review.conditions.delivering = deaf.delivering ∧
      Review.store.events.length = 1 ∧ (Store.empty.afterAll unheard).events.length = 0 ∧
      Review.store.untold = (Store.empty.afterAll unheard).untold ∧
      (Drafting.advance Review.conditions Review.store "m" 4 1 2).result =
        (Drafting.advance deaf (Store.empty.afterAll unheard) "m" 4 1 2).result := by
  intro deaf unheard
  have hturns : Review.turns.map Turn.delivering = unheard.map Turn.delivering := rfl
  have hconditions : Review.conditions.delivering = deaf.delivering := rfl
  obtain ⟨hsame, -, -, hdrafts, -⟩ := delivery_indifferent hturns hconditions
  exact ⟨hturns, hconditions, by decide +kernel, by decide +kernel, hsame,
    hdrafts (.advance "m" 4 1 2) nofun⟩

/-- Where an author whom the database cannot hold is replaced at once, the beginning of the review
is answered or not, depending on the event sink. -/
theorem answer_depends_on_sink :
    let deaf : Conditions :=
      { Review.conditions with refuses := fun kind => EventKind.ofJson? kind == some .slotFilled }
    let s := Store.empty.afterAll (Review.turns.take 3)
    let placements : List Placement :=
      [⟨.text "01", .int storableLimit⟩, ⟨.text "1", .int 4⟩]
    Review.conditions.delivering = deaf.delivering ∧
      (Drafting.begin Review.conditions s "m" 1 placements).result.toBool = true ∧
      (Drafting.begin deaf s "m" 1 placements).result.toBool = false := by
  refine ⟨rfl, ?_, ?_⟩
  · decide +kernel
  · decide +kernel

end Editorial
