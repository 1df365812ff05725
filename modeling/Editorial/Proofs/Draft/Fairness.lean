import Editorial.Proofs.Draft.Choice
import Editorial.Proofs.Event.Indifference
import Mathlib.Data.Int.CardIntervalMod

/-!
# How autofill spreads drafts

Modules are taken under a process one after the other; its start step has one slot, which is for
autofill. The members of the team who may take it then get the drafts in turn, in the order of their
ids, over and over (`beginnings_rotate`). What carries the induction is the number of drafts in which
each of them sits (`Store.Turned`): after `n` beginnings the member at place `j` sits in as many
drafts as there are numbers below `n` that leave the rest `j`, so that the members at the places
before `n % k` are one draft ahead of the others and the next draft goes to the first of the others
(`Store.Turned.picks`).
-/

namespace Editorial

/-! ### Beginning -/

/-- A beginning for which nothing goes wrong but, maybe, the telling. -/
structure Conditions.Begins (c : Conditions) : Prop where
  copies : c.copyFails = false
  stamp : c.requireStamp = .ok ()
  commit : c.commitError 0 = none

namespace Drafting

variable {c : Conditions} {s : Store} {m : Module} {p : Process} {v : Version}

/-- When users the database can hold have been placed in the draft that is opened, a beginning does
what autofill does with it. -/
theorem begin_of_placed (hmembers : ∀ m ∈ s.members, isStorable m.user = true) (hc : c.Begins)
    (hm : s.module? m.id = some m) (hp : s.process p.id = .ok p) (hteam : p.team = m.team)
    (hidle : s.draft? m.id = none) (hv : s.latest? p.id = some v)
    {placements ordered : List Placement} (hordered : Placement.inOrder placements = .ok ordered)
    {placed change : Change} {filled : List Seat}
    (hplaced : (freshStore c s m v).placeAll none (.start (freshDraft c s m v)) ordered =
      .ok placed) (hstorable : placed.Storable)
    (hfilled : (freshStore c s m v).autofill c.autofill placed
      ((freshStore c s m v).activeSlots (freshDraft c s m v)) = .ok (change, filled)) :
    begin c s m.id p.id placements =
      (change.work (freshStore c s m v) change.draft).outcome c := by
  have hstorable : change.Storable :=
    Store.storable_autofill (s := freshStore c s m v) hmembers hfilled hstorable
  have hcommits : (change.work (freshStore c s m v) change.draft).Commits c :=
    ⟨hc.commit, oversizedIf_eq_none_iff.2 hstorable.draft⟩
  have hbroken : ((change.work (freshStore c s m v) change.draft).outcome c).broken = false :=
    Delivery.broken_deliverAll c hstorable.events rfl
  rw [← lookingBack_of_not_broken hbroken]
  unfold begin
  refine congrArg Outcome.lookingBack (complete_of_commits ?_ hcommits)
  dsimp only
  simp only [guard_eq_ok_iff, bind_eq_ok_iff, pure_eq_ok_iff, Store.module_eq_ok_iff,
    Store.latest_eq_ok_iff, Prod.exists]
  exact ⟨m, hm, p, hp, not_not.2 hteam, by simp [hidle], v, hv, by simp [hc.copies], (), hc.stamp,
    ordered, hordered, placed, hplaced, change, filled, hfilled, rfl⟩

/-- With nobody to place, a beginning does what autofill does with the draft that is opened. -/
theorem begin_of_autofill (hmembers : ∀ m ∈ s.members, isStorable m.user = true) (hc : c.Begins)
    (hm : s.module? m.id = some m) (hp : s.process p.id = .ok p) (hteam : p.team = m.team)
    (hidle : s.draft? m.id = none) (hv : s.latest? p.id = some v) {change : Change}
    {filled : List Seat}
    (hfilled : (freshStore c s m v).autofill c.autofill (.start (freshDraft c s m v))
      ((freshStore c s m v).activeSlots (freshDraft c s m v)) = .ok (change, filled)) :
    begin c s m.id p.id [] = (change.work (freshStore c s m v) change.draft).outcome c :=
  begin_of_placed hmembers hc hm hp hteam hidle hv (Ordered.arrange_of_ascending .nil)
    (Store.placeAll_nil_eq_ok_iff.2 ⟨rfl, rfl⟩) ⟨rfl, nofun⟩ hfilled

end Drafting

namespace Store

/-! ### A draft more -/

variable {s t : Store}

theorem length_seatedIn_concat {d : Draft} (h : t.drafts = s.drafts ++ [d]) (user : Int) :
    (t.seatedIn user).length =
      (s.seatedIn user).length + if ∃ seat ∈ d.seats, seat.user = user then 1 else 0 := by
  unfold seatedIn
  rw [h, List.filter_append, List.length_append, List.filter_singleton]
  by_cases hseat : ∃ seat ∈ d.seats, seat.user = user
  · rw [decide_eq_true hseat, if_pos hseat]
    rfl
  · rw [decide_eq_false hseat, if_neg hseat]
    rfl

theorem draft?_concat {d : Draft} (h : t.drafts = s.drafts ++ [d]) (module : String) :
    t.draft? module = (s.draft? module).or (if d.module = module then some d else none) := by
  unfold draft?
  rw [h, List.find?_append, List.find?_singleton]
  simp only [beq_iff_eq]

/-- The database can hold whoever may take a slot. -/
theorem Sound.storable_of_mayTake (h : s.Sound) {slot : Slot} {team user : Int}
    (hmay : s.MayTake slot team user) : isStorable user = true := by
  obtain ⟨m, hm, -, rfl, -⟩ := hmay
  exact h.member_user m hm

end Store

/-! ### One slot to fill -/

namespace Drafting

section OneSlot

variable {c : Conditions} {s : Store} {m : Module} {p : Process} {v : Version} {step : Step}
  {slot : Slot} {user : Int}

theorem version?_freshDraft (hs : s.Sound) (hv : s.latest? p.id = some v) :
    (freshStore c s m v).version? (freshDraft c s m v).version = some v :=
  hs.version?_eq_some_iff.2 ⟨(Store.mem_of_latest? hv).1, rfl⟩

theorem activeSlots_freshDraft (hs : s.Sound) (hv : s.latest? p.id = some v)
    (hstart : v.step? v.start = some step) :
    (freshStore c s m v).activeSlots (freshDraft c s m v) = v.activeSlots step := by
  have hversion := version?_freshDraft (c := c) (m := m) hs hv
  have hstep : (freshStore c s m v).stepOf? (freshDraft c s m v) = some step := by
    unfold Store.stepOf? Store.stepIn?
    rw [hversion]
    exact hstart
  unfold Store.activeSlots
  rw [hversion, hstep]

/-- A draft with nobody in it makes nobody busier. -/
theorem picks_freshDraft (hidle : s.draft? m.id = none) (hpicks : s.Picks slot m.team user) :
    ((freshStore c s m v).putDraft (freshDraft c s m v)).Picks slot m.team user := by
  have hempty : (freshDraft c s m v).seats = [] := rfl
  have hseated (other : Int) :
      (((freshStore c s m v).putDraft (freshDraft c s m v)).seatedIn other).length =
        (s.seatedIn other).length := by
    rw [freshStore_putDraft hidle rfl,
      Store.length_seatedIn_concat (s := s) (d := freshDraft c s m v) rfl other]
    simp [hempty]
  refine ⟨hpicks.eligible, fun other hother => ?_⟩
  rw [hseated, hseated]
  exact hpicks.least other hother

/-- A slot for autofill in a new draft goes to the member picked for it. -/
theorem autofill_freshDraft (hs : s.Sound) (hteam : isStorable m.team = true)
    (hidle : s.draft? m.id = none) (hv : s.latest? p.id = some v) (hslot : slot ∈ v.slots)
    (hauto : slot.autofill = true) (hpicks : s.Picks slot m.team user) :
    (freshStore c s m v).autofill true (.start (freshDraft c s m v)) [slot] =
      .ok ((Change.start (freshDraft c s m v)).seat slot.id user, [⟨slot.id, user⟩]) := by
  have huser : (freshStore c s m v).autofillUser? (freshDraft c s m v) slot = some user := by
    have hcandidate := (Store.candidate?_eq_some_iff
      (s := (freshStore c s m v).putDraft (freshDraft c s m v)) hs.member_keys).2
      (picks_freshDraft hidle hpicks)
    unfold Store.autofillUser?
    rw [hauto]
    exact hcandidate
  have heligible := (Store.isEligible_iff_mayTake hs.member_keys).2 hpicks.eligible
  have hseat : (freshStore c s m v).seatUser (.start (freshDraft c s m v)) slot user =
      .ok ((Change.start (freshDraft c s m v)).seat slot.id user) :=
    Store.seatUser_eq_ok_iff.2 ⟨
      (Store.slotIn?_isSome_iff (version?_freshDraft hs hv)).2 (List.mem_map_of_mem hslot),
      Store.requireRole_eq_ok_iff.2 (Or.inr ⟨hs.storable_of_mayTake hpicks.eligible, hteam,
        (Bool.and_eq_true_iff.1 heligible).2⟩), rfl⟩
  simp only [Change.start] at hseat ⊢
  simp only [Store.autofill, if_true, Store.autofillSlots, huser, hseat]
  rfl

/-- When the start step has one slot, which is for autofill, a beginning seats the member picked for
it and nobody else. -/
theorem begin_of_picks (hs : s.Sound) (hc : c.Begins) (hon : c.autofill = true)
    (hm : s.module? m.id = some m) (hp : s.process p.id = .ok p) (hteam : p.team = m.team)
    (hidle : s.draft? m.id = none) (hv : s.latest? p.id = some v)
    (hstart : v.step? v.start = some step) (honly : v.activeSlots step = [slot])
    (hauto : slot.autofill = true) (hpicks : s.Picks slot p.team user) :
    ∃ d, (begin c s m.id p.id []).result = .ok d ∧ d.module = m.id ∧
      d.seats = [⟨slot.id, user⟩] ∧
      ∃ documents runs events, (begin c s m.id p.id []).store =
        { s with documents, drafts := s.drafts ++ [d], runs, events } := by
  have hslot : slot ∈ v.slots := by
    have hmem : slot ∈ v.activeSlots step := honly ▸ List.mem_singleton_self slot
    exact (List.mem_filter.1 hmem).1
  have hstorable : isStorable m.team = true :=
    hteam ▸ hs.process_team p (List.mem_of_find?_eq_some (Store.process_eq_ok_iff.1 hp).2)
  have hfilled : (freshStore c s m v).autofill c.autofill (.start (freshDraft c s m v))
      ((freshStore c s m v).activeSlots (freshDraft c s m v)) =
        .ok ((Change.start (freshDraft c s m v)).seat slot.id user, [⟨slot.id, user⟩]) := by
    rw [activeSlots_freshDraft hs hv hstart, honly, hon]
    exact autofill_freshDraft hs hstorable hidle hv hslot hauto (hteam ▸ hpicks)
  rw [begin_of_autofill hs.member_user hc hm hp hteam hidle hv hfilled]
  refine ⟨_, rfl, rfl, rfl, ?_⟩
  obtain ⟨events, hstore⟩ := Work.extends_outcome c (((Change.start (freshDraft c s m v)).seat
    slot.id user).work (freshStore c s m v) ((freshDraft c s m v).seat slot.id user))
  have hput := freshStore_putDraft (c := c) (v := v) (d := (freshDraft c s m v).seat slot.id user)
    hidle rfl
  exact ⟨_, _, _,
    hstore.trans (congrArg (fun t : Store => { t with events := t.events ++ events }) hput)⟩

end OneSlot

end Drafting

/-! ### Taking turns -/

/-- The start step of a process has one slot, which is for autofill, and `u 0 < u 1 < …` up to
`u (k - 1)` are the members of the team who may take it. -/
structure Store.Rotates (s : Store) (p : Process) (slot : Slot) (k : Nat) (u : Nat → Int) :
    Prop where
  process : s.process p.id = .ok p
  start : ∃ v step, s.latest? p.id = some v ∧ v.step? v.start = some step ∧
    v.activeSlots step = [slot]
  auto : slot.autofill = true
  positive : 0 < k
  ascending : ∀ i j, i < j → j < k → u i < u j
  eligible : ∀ user, s.MayTake slot p.team user ↔ ∃ j < k, u j = user

namespace Store.Rotates

variable {s : Store} {p : Process} {slot : Slot} {k : Nat} {u : Nat → Int}

theorem injective (h : s.Rotates p slot k u) {i j : Nat} (hi : i < k) (hj : j < k)
    (hij : u i = u j) : i = j := by
  rcases Nat.lt_trichotomy i j with hlt | heq | hlt
  · exact absurd hij (Int.ne_of_lt (h.ascending i j hlt hj))
  · exact heq
  · exact absurd hij.symm (Int.ne_of_lt (h.ascending j i hlt hi))

/-- Neither drafts nor what belongs to them matter. -/
theorem of_drafts (h : s.Rotates p slot k u) (documents : List Document) (drafts : List Draft)
    (runs : List Run) (events : List Event) :
    { s with documents, drafts, runs, events }.Rotates p slot k u :=
  ⟨h.process, h.start, h.auto, h.positive, h.ascending, h.eligible⟩

end Store.Rotates

/-- The turn that takes the module at a place under a process. -/
def beginning (c : Nat → Conditions) (p : Process) (modules : Nat → String) (i : Nat) : Turn :=
  ⟨c i, .draft (.begin (modules i) p.id [])⟩

/-- The store after the modules at the first places have been taken under a process. -/
def Store.afterBeginnings (s : Store) (c : Nat → Conditions) (p : Process)
    (modules : Nat → String) (n : Nat) : Store :=
  s.afterAll ((List.range n).map (beginning c p modules))

theorem Store.afterBeginnings_succ (s : Store) (c : Nat → Conditions) (p : Process)
    (modules : Nat → String) (n : Nat) :
    s.afterBeginnings c p modules (n + 1) =
      (Drafting.begin (c n) (s.afterBeginnings c p modules n) (modules n) p.id []).store := by
  unfold afterBeginnings afterAll
  rw [List.range_succ, List.map_append, List.foldl_append]
  rfl

theorem Store.Sound.afterBeginnings {s : Store} (h : s.Sound) (c : Nat → Conditions) (p : Process)
    (modules : Nat → String) (n : Nat) : (s.afterBeginnings c p modules n).Sound :=
  h.afterAll _

/-- A store after `n` beginnings. The member at a place sits in one draft for each number below `n`
that leaves the place as the rest modulo `k`. -/
structure Store.Turned (s : Store) (modules : Nat → String) (k : Nat) (u : Nat → Int) (n : Nat)
    (t : Store) : Prop where
  same : ∃ documents drafts runs events, t = { s with documents, drafts, runs, events }
  idle : ∀ module, s.draft? module = none → (∀ i < n, modules i ≠ module) →
    t.draft? module = none
  seated : ∀ j < k, (t.seatedIn (u j)).length = Nat.count (· ≡ j [MOD k]) n

namespace Store.Turned

variable {s t : Store} {modules : Nat → String} {p : Process} {slot : Slot} {k n : Nat}
  {u : Nat → Int}

theorem rotates (ht : s.Turned modules k u n t) (h : s.Rotates p slot k u) :
    t.Rotates p slot k u := by
  obtain ⟨documents, drafts, runs, events, rfl⟩ := ht.same
  exact h.of_drafts documents drafts runs events

/-- The members at the places before `n % k` are one draft ahead. -/
theorem length_seatedIn (ht : s.Turned modules k u n t) (hk : 0 < k) {j : Nat} (hj : j < k) :
    (t.seatedIn (u j)).length = n / k + if j < n % k then 1 else 0 := by
  rw [ht.seated j hj, Nat.count_modEq_card n hk j, Nat.mod_eq_of_lt hj]

/-- The next draft goes to the member whose turn it is. -/
theorem picks (ht : s.Turned modules k u n t) (h : s.Rotates p slot k u) :
    t.Picks slot p.team (u (n % k)) := by
  have hturn : n % k < k := Nat.mod_lt n h.positive
  have hrotates := ht.rotates h
  refine ⟨(hrotates.eligible _).2 ⟨n % k, hturn, rfl⟩, fun other hother => ?_⟩
  obtain ⟨j, hj, rfl⟩ := (hrotates.eligible other).1 hother
  rw [ht.length_seatedIn h.positive hturn, ht.length_seatedIn h.positive hj,
    if_neg (Nat.lt_irrefl _)]
  rcases Nat.lt_trichotomy j (n % k) with hlt | heq | hgt
  · rw [if_pos hlt]
    omega
  · exact Or.inr ⟨by rw [if_neg (by omega)], by rw [heq]⟩
  · exact Or.inr ⟨by rw [if_neg (by omega)], Int.le_of_lt (h.ascending _ _ hgt hj)⟩

/-- A further draft that goes to the member whose turn it is. -/
theorem next (ht : s.Turned modules k u n t) (h : s.Rotates p slot k u) {d : Draft} {t' : Store}
    (hmodule : d.module = modules n) (hseats : d.seats = [⟨slot.id, u (n % k)⟩])
    (hstore : ∃ documents runs events,
      t' = { t with documents, drafts := t.drafts ++ [d], runs, events }) :
    s.Turned modules k u (n + 1) t' := by
  obtain ⟨documents, runs, events, rfl⟩ := hstore
  refine ⟨?_, fun module hidle hnew => ?_, fun j hj => ?_⟩
  · obtain ⟨documents', drafts, runs', events', rfl⟩ := ht.same
    exact ⟨documents, drafts ++ [d], runs, events, rfl⟩
  · have hother : d.module ≠ module := hmodule ▸ hnew n (Nat.lt_succ_self n)
    rw [draft?_concat rfl, ht.idle module hidle fun i hi => hnew i (Nat.lt_succ_of_lt hi),
      if_neg hother]
    rfl
  · have hturn : (∃ seat ∈ d.seats, seat.user = u j) ↔ n ≡ j [MOD k] := by
      simp only [hseats, List.mem_singleton, exists_eq_left]
      rw [Nat.ModEq, Nat.mod_eq_of_lt hj]
      exact ⟨h.injective (Nat.mod_lt n h.positive) hj, congrArg u⟩
    rw [length_seatedIn_concat rfl, ht.seated j hj, Nat.count_succ]
    simp only [hturn]

end Store.Turned

theorem Store.turned_zero {s : Store} (hempty : ∀ d ∈ s.drafts, d.seats = [])
    (modules : Nat → String) (k : Nat) (u : Nat → Int) : s.Turned modules k u 0 s where
  same := ⟨s.documents, s.drafts, s.runs, s.events, rfl⟩
  idle _ hidle _ := hidle
  seated j _ := by
    rw [Nat.count_zero, List.length_eq_zero_iff, seatedIn, List.filter_eq_nil_iff]
    intro d hd
    simp [hempty d hd]

section Run

variable {s : Store} {p : Process} {slot : Slot} {k : Nat} {u : Nat → Int} {c : Nat → Conditions}
  {modules : Nat → String} {n : Nat}

/-- What is asked of the modules that are taken one after the other, and of the conditions. -/
structure Store.Awaits (s : Store) (p : Process) (c : Nat → Conditions) (modules : Nat → String)
    (n : Nat) : Prop where
  begins : ∀ i < n, (c i).Begins
  autofill : ∀ i < n, (c i).autofill = true
  stored : ∀ i < n, ∃ m, s.module? (modules i) = some m ∧ m.team = p.team
  idle : ∀ i < n, s.draft? (modules i) = none
  distinct : ∀ i j, i < j → j < n → modules i ≠ modules j

theorem Store.Awaits.first (ha : s.Awaits p c modules n) {i : Nat} (hi : i ≤ n) :
    s.Awaits p c modules i where
  begins j hj := ha.begins j (Nat.lt_of_lt_of_le hj hi)
  autofill j hj := ha.autofill j (Nat.lt_of_lt_of_le hj hi)
  stored j hj := ha.stored j (Nat.lt_of_lt_of_le hj hi)
  idle j hj := ha.idle j (Nat.lt_of_lt_of_le hj hi)
  distinct j j' hlt hj' := ha.distinct j j' hlt (Nat.lt_of_lt_of_le hj' hi)

/-- A beginning after `n` others seats the member whose turn it is. -/
theorem begin_of_turned (h : s.Rotates p slot k u) (ha : s.Awaits p c modules (n + 1)) {t : Store}
    (hsound : t.Sound) (ht : s.Turned modules k u n t) :
    ∃ d, (Drafting.begin (c n) t (modules n) p.id []).result = .ok d ∧
      d.module = modules n ∧ d.seats = [⟨slot.id, u (n % k)⟩] ∧
      ∃ documents runs events, (Drafting.begin (c n) t (modules n) p.id []).store =
        { t with documents, drafts := t.drafts ++ [d], runs, events } := by
  have hlast := Nat.lt_succ_self n
  have hidle := ht.idle _ (ha.idle n hlast) fun i hi => ha.distinct i n hi hlast
  obtain ⟨m, hm, hteam⟩ := ha.stored n hlast
  have hrotates := ht.rotates h
  obtain ⟨v, step, hv, hstart, honly⟩ := hrotates.start
  have hpicks := ht.picks h
  obtain ⟨documents, drafts, runs, events, rfl⟩ := ht.same
  have hid : m.id = modules n := Store.id_of_module? hm
  rw [← hid] at hm hidle ⊢
  exact Drafting.begin_of_picks hsound (ha.begins n hlast) (ha.autofill n hlast) hm hrotates.process
    hteam.symm hidle hv hstart honly h.auto hpicks

theorem Store.Sound.turned (hs : s.Sound) (hempty : ∀ d ∈ s.drafts, d.seats = [])
    (h : s.Rotates p slot k u) (ha : s.Awaits p c modules n) :
    s.Turned modules k u n (s.afterBeginnings c p modules n) := by
  induction n with
  | zero => exact Store.turned_zero hempty modules k u
  | succ n ih =>
      have ht := ih (ha.first (Nat.le_succ n))
      obtain ⟨d, -, hmodule, hseats, hstore⟩ :=
        begin_of_turned h ha (hs.afterBeginnings c p modules n) ht
      rw [Store.afterBeginnings_succ]
      exact ht.next h hmodule hseats hstore

/-- A draft stays as it is while other modules are taken. -/
theorem draft?_afterBeginnings (hs : s.Sound) (hempty : ∀ d ∈ s.drafts, d.seats = [])
    (h : s.Rotates p slot k u) (ha : s.Awaits p c modules n) {i : Nat} (hi : i ≤ n)
    {module : String} {d : Draft}
    (hd : (s.afterBeginnings c p modules i).draft? module = some d) :
    (s.afterBeginnings c p modules n).draft? module = some d := by
  induction n, hi using Nat.le_induction with
  | base => exact hd
  | succ n _ ih =>
      have hfirst := ha.first (Nat.le_succ n)
      obtain ⟨d', -, -, -, documents, runs, events, hstore⟩ :=
        begin_of_turned h ha (hs.afterBeginnings c p modules n) (hs.turned hempty h hfirst)
      rw [Store.afterBeginnings_succ, hstore, Store.draft?_concat rfl, ih hfirst]
      rfl

end Run

/-- Modules are taken under a process whose start step has one slot, for autofill, from a store in
which nobody is seated. The `i`-th draft goes to the member at place `i % k` of those who may take
the slot, by their ids, and it stays with that member; at no time is one of them ahead of another by
more than one draft. -/
theorem beginnings_rotate {s : Store} (hs : Reachable s) (hempty : ∀ d ∈ s.drafts, d.seats = [])
    {p : Process} {slot : Slot} {k : Nat} {u : Nat → Int} (h : s.Rotates p slot k u)
    {c : Nat → Conditions} {modules : Nat → String} {n : Nat} (ha : s.Awaits p c modules n) :
    (∀ i < n, ∃ d,
      (Drafting.begin (c i) (s.afterBeginnings c p modules i) (modules i) p.id []).result = .ok d ∧
        d.seats = [⟨slot.id, u (i % k)⟩] ∧
        (s.afterBeginnings c p modules n).draft? (modules i) = some d) ∧
      ∀ i ≤ n, ∀ a < k, ∀ b < k, ((s.afterBeginnings c p modules i).seatedIn (u a)).length ≤
        ((s.afterBeginnings c p modules i).seatedIn (u b)).length + 1 := by
  have hsound := hs.sound
  refine ⟨fun i hi => ?_, fun i hi a hak b hbk => ?_⟩
  · have ht := hsound.turned hempty h (ha.first (Nat.le_of_lt hi))
    obtain ⟨d, hresult, hmodule, hseats, documents, runs, events, hstore⟩ :=
      begin_of_turned h (ha.first hi) (hsound.afterBeginnings c p modules i) ht
    refine ⟨d, hresult, hseats, draft?_afterBeginnings hsound hempty h ha hi ?_⟩
    have hidle := ht.idle _ (ha.idle i hi) fun j hj => ha.distinct j i hj hi
    rw [Store.afterBeginnings_succ, hstore, Store.draft?_concat rfl, hidle, if_pos hmodule]
    rfl
  · have ht := hsound.turned hempty h (ha.first hi)
    rw [ht.length_seatedIn h.positive hak, ht.length_seatedIn h.positive hbk]
    split <;> split <;> omega

/-! ### Two writers and three modules -/

namespace Pool

open Json

/-- Writing alone, by whoever is free. -/
def description : Json :=
  object [
    ("name", text "Pool"),
    ("start", int 0),
    ("slots", array [
      object [("name", text "Writer"), ("roles", array [int 7]), ("autofill", bool true)]]),
    ("steps", array [
      Review.step "Writing" [(0, .edit)] [("finish", 1, 0)],
      Review.step "Done" [(0, .view)] []])]

/-- The modules, by their places. -/
def modules (i : Nat) : String := ["a", "b", "c"].getD i ""

/-- The turns before any module is taken. -/
def turns : List Turn :=
  [.direct (.setModule ⟨"a", 1, "", 100⟩), .direct (.setModule ⟨"b", 1, "", 101⟩),
    .direct (.setModule ⟨"c", 1, "", 102⟩), .direct (.setMember ⟨1, 4, none, []⟩),
    .direct (.setMember ⟨1, 6, some 7, []⟩), .direct (.setMember ⟨1, 5, some 7, []⟩),
    .define (.createProcess 1 description)].map (Turn.mk Review.conditions)

/-- The store before any module is taken. -/
def store : Store := Store.empty.afterAll turns

/-- The process of the pool. -/
def process : Process := ⟨1, 1, "Pool"⟩

/-- The slot of the writer. -/
def slot : Slot := ⟨1, "Writer", [7], true⟩

theorem reachable : Reachable store := ⟨turns, rfl⟩

theorem rotates : store.Rotates process slot 2 (fun j => 5 + j) where
  process := Store.process_eq_ok_iff.2 ⟨by decide, by decide +kernel⟩
  start := by
    have hstart : ((store.latest? 1).bind fun v => (v.step? v.start).map v.activeSlots) =
        some [slot] := by
      decide +kernel
    obtain ⟨v, hv, hstep⟩ := Option.bind_eq_some_iff.1 hstart
    obtain ⟨step, hstep, honly⟩ := Option.map_eq_some_iff.1 hstep
    exact ⟨v, step, hv, hstep, honly⟩
  auto := rfl
  positive := by decide
  ascending i j hij _ := by omega
  eligible user := by
    have hcandidates : store.candidates slot 1 = [6, 5] := by decide +kernel
    rw [process, ← Store.mem_candidates_iff_mayTake reachable.sound.member_keys, hcandidates]
    constructor
    · intro huser
      rcases List.mem_pair.1 huser with rfl | rfl
      · exact ⟨1, by decide, rfl⟩
      · exact ⟨0, by decide, rfl⟩
    · rintro ⟨j, hj, rfl⟩
      rw [List.mem_pair]
      omega

theorem awaits : store.Awaits process (fun _ => Review.conditions) modules 3 where
  begins _ _ := ⟨rfl, rfl, rfl⟩
  autofill _ _ := rfl
  stored := by
    have hstored : ∀ i < 3, (store.module? (modules i)).map Module.team = some 1 := by
      decide +kernel
    exact fun i hi => Option.map_eq_some_iff.1 (hstored i hi)
  idle := by decide +kernel
  distinct i j hij hj := by
    have hdistinct : ∀ j < 3, ∀ i < j, modules i ≠ modules j := by decide
    exact hdistinct j hj i hij

end Pool

/-- The third module of the pool goes to the writer with the lesser id again. -/
theorem third_module_of_pool :
    (Reachable Pool.store ∧ (∀ d ∈ Pool.store.drafts, d.seats = []) ∧
      Pool.store.Rotates Pool.process Pool.slot 2 (fun j => 5 + j) ∧
      Pool.store.Awaits Pool.process (fun _ => Review.conditions) Pool.modules 3) ∧
    ∃ d, (Pool.store.afterBeginnings (fun _ => Review.conditions) Pool.process Pool.modules
        3).draft? "c" = some d ∧ d.seats = [⟨1, 5⟩] := by
  have hempty : ∀ d ∈ Pool.store.drafts, d.seats = [] := by decide +kernel
  obtain ⟨hseated, -⟩ := beginnings_rotate Pool.reachable hempty Pool.rotates Pool.awaits
  obtain ⟨d, -, hseats, hd⟩ := hseated 2 (by decide)
  exact ⟨⟨Pool.reachable, hempty, Pool.rotates, Pool.awaits⟩, d, hd, hseats⟩

end Editorial
