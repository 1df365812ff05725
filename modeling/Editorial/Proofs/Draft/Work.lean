import Editorial.Proofs.Draft.Seating

/-!
# What the operations on drafts commit

One statement for each operation on drafts: it fails and leaves everything as it was, or the work
that it commits is known exactly, together with every condition that has been checked on the way.
-/

namespace Editorial

/-- A link that is found for a target leads there. -/
theorem Step.target_of_link? {step : Step} {target slot : Int} {l : Link}
    (h : step.link? target slot = some l) : l.target = target := by
  have hfound := List.find?_some h
  simp only [Bool.and_eq_true, beq_iff_eq] at hfound
  exact hfound.1

namespace Store

/-! ### Looking up or failing -/

variable {s : Store}

theorem id_of_module? {id : String} {m : Module} (h : s.module? id = some m) : m.id = id := by
  simpa using List.find?_some h

theorem id_of_process? {id : Int} {p : Process} (h : s.process? id = some p) : p.id = id := by
  simpa using List.find?_some h

theorem module_of_draft? {module : String} {d : Draft} (h : s.draft? module = some d) :
    d.module = module := by
  simpa using List.find?_some h

theorem module_eq_ok_iff {id : String} {m : Module} :
    s.module id = .ok m ↔ s.module? id = some m := by
  unfold Store.module
  cases s.module? id <;> simp

theorem process_eq_ok_iff {id : Int} {p : Process} :
    s.process id = .ok p ↔ isStorable id = true ∧ s.process? id = some p := by
  unfold Store.process
  simp only [bind_eq_ok_iff, requireStorable_eq_ok_iff, exists_const]
  refine and_congr_right fun _ => ?_
  cases s.process? id <;> simp [throw_ne_ok, pure_eq_ok_iff]

theorem version_eq_ok_iff {process id : Int} {v : Version} :
    s.version process id = .ok v ↔
      isStorable id = true ∧ s.version? id = some v ∧ v.process = process := by
  unfold Store.version
  simp only [bind_eq_ok_iff, requireStorable_eq_ok_iff, exists_const]
  refine and_congr_right fun _ => ?_
  cases s.version? id with
  | none => simp [throw_ne_ok]
  | some w =>
      dsimp only
      constructor
      · intro hw
        split at hw
        · rename_i hprocess
          obtain rfl := pure_eq_ok_iff.1 hw
          exact ⟨rfl, hprocess⟩
        · cases hw
      · rintro ⟨⟨⟩, hprocess⟩
        rw [if_pos hprocess]
        rfl

theorem latest_eq_ok_iff {process : Int} {v : Version} :
    s.latest process = .ok v ↔ s.latest? process = some v := by
  unfold Store.latest
  cases s.latest? process <;> simp

theorem draft_eq_ok_iff {module : String} {d : Draft} :
    s.draft module = .ok d ↔ s.draft? module = some d := by
  unfold Store.draft
  cases s.draft? module <;> simp

theorem linkFor_eq_ok_iff {d : Draft} {user slot target : Int} {l : Link} :
    s.linkFor d user slot target = .ok l ↔
      d.occupant? slot = some user ∧ isStorable target = true ∧
        ∃ step, s.stepOf? d = some step ∧ step.link? target slot = some l := by
  unfold linkFor
  dsimp only
  simp only [guard_eq_ok_iff, bind_eq_ok_iff, requireStorable_eq_ok_iff, exists_const, not_not]
  refine and_congr_right fun _ => and_congr_right fun _ => ?_
  rw [← Option.bind_eq_some_iff]
  cases (s.stepOf? d).bind fun step => step.link? target slot with
  | none => simp [throw_ne_ok]
  | some l' => simp [pure_eq_ok_iff]

theorem teamPermission_eq_ok_iff {team user : Int} {permission : String}
    {granted : Bool} :
    s.teamPermission (some user) team permission = .ok granted ↔
      isStorable user = true ∧ isStorable team = true ∧
        s.hasTeamPermission team user permission = granted := by
  unfold teamPermission
  simp only [bind_eq_ok_iff, requireStorable_eq_ok_iff, exists_const, pure_eq_ok_iff]

theorem requireTeamPermission_eq_ok_iff {team user : Int} {permission : String}
    {u : Unit} :
    s.requireTeamPermission (some user) team permission = .ok u ↔
      isStorable user = true ∧ isStorable team = true ∧
        s.hasTeamPermission team user permission = true := by
  unfold requireTeamPermission
  simp only [bind_eq_ok_iff, teamPermission_eq_ok_iff]
  constructor
  · rintro ⟨granted, ⟨huser, hteam, rfl⟩, hgranted⟩
    split at hgranted
    · rename_i hpermission
      exact ⟨huser, hteam, hpermission⟩
    · cases hgranted
  · rintro ⟨huser, hteam, hpermission⟩
    exact ⟨true, ⟨huser, hteam, hpermission⟩, rfl⟩

/-- A draft that is put in place of itself twice is put once. -/
theorem putDraft_putDraft {d d' : Draft} (h : d.module = d'.module) :
    (s.putDraft d).putDraft d' = s.putDraft d' := by
  unfold putDraft
  simp only [List.map_map]
  congr 1
  refine List.map_congr_left fun e _ => ?_
  simp only [Function.comp_apply]
  by_cases he : e.module = d'.module
  · rw [if_pos (he.trans h.symm), if_pos h, if_pos he]
  · have hne : e.module ≠ d.module := fun e' => he (e'.trans h)
    rw [if_neg hne, if_neg he]

end Store

namespace Drafting

variable {c : Conditions} {s : Store}

/-! ### Moving along a link -/

/-- The work of an advance that does not end the process. -/
theorem move_eq_ok_iff {d : Draft} {target : Int} {w : Work Advance} :
    move c s d target = .ok w ↔
      ∃ change filled,
        (s.putDraft { d with step := target }).autofill c.autofill (.start { d with step := target })
            ((s.putDraft { d with step := target }).activeSlots { d with step := target }) =
          .ok (change, filled) ∧
        w = { change with
          events := change.events ++
            change.draft.holders.flatMap
              ((s.putDraft { d with step := target }).advancedEvent change.draft) }.work
          (s.putDraft { d with step := target }) (.moved change.draft) := by
  unfold move
  simp only [bind_eq_ok_iff, pure_eq_ok_iff, Prod.exists]
  exact exists_congr fun change => exists_congr fun filled =>
    and_congr_right fun _ => ⟨Eq.symm, Eq.symm⟩

/-- The work of an advance that ends the process. -/
theorem finish_eq_ok_iff {d : Draft} {w : Work Advance} :
    finish c s d = .ok w ↔
      c.mergeFails = false ∧ (s.module? d.module).isSome = true ∧
        w = {
          value := .finished
          store := s.conclude d c.now
          events := announce .processEnded
            [("module", .text d.module), ("version", .int d.document)] d.holders
          flaw := none } := by
  unfold finish
  dsimp only
  simp only [guard_eq_ok_iff, pure_eq_ok_iff, Bool.or_eq_true, not_or, Bool.not_eq_true,
    Option.isNone_eq_false_iff, and_assoc]
  exact and_congr_right fun _ => and_congr_right fun _ => ⟨Eq.symm, Eq.symm⟩

theorem advance_cases (c : Conditions) (s : Store) (module : String) (user slot target : Int) :
    (∃ f, advance c s module user slot target = .failed s f) ∨
      ∃ d step l w, c.lockError = none ∧ s.draft? module = some d ∧
        d.occupant? slot = some user ∧ isStorable target = true ∧ s.stepOf? d = some step ∧
        step.link? target slot = some l ∧ c.requireStamp = .ok () ∧
        (if s.isFinalFor d l.target then finish c s d else move c s d l.target) = .ok w ∧
        w.Commits c ∧ advance c s module user slot target = w.outcome c := by
  refine (onLockedDraft_cases c s module _).imp_right ?_
  rintro ⟨d, w, hlock, hd, hw, hcommits, ho⟩
  simp only [bind_eq_ok_iff] at hw
  obtain ⟨l, hl, ⟨⟩, hstamp, hw⟩ := hw
  obtain ⟨hoccupant, hstorable, step, hstep, hlink⟩ := Store.linkFor_eq_ok_iff.1 hl
  exact ⟨d, step, l, w, hlock, hd, hoccupant, hstorable, hstep, hlink, hstamp, hw, hcommits, ho⟩

/-! ### Beginning and cancelling -/

/-- The draft with which the editing of a module begins, before anyone is seated. -/
def freshDraft (c : Conditions) (s : Store) (m : Module) (v : Version) : Draft :=
  (s.openDraft c.now m v).2

/-- The store with the draft with which the editing of a module begins. -/
def freshStore (c : Conditions) (s : Store) (m : Module) (v : Version) : Store :=
  (s.openDraft c.now m v).1

theorem begin_cases (c : Conditions) (s : Store) (module : String) (process : Int)
    (placements : List Placement) :
    (∃ f, begin c s module process placements = .failed s f) ∨
      ∃ m p v ordered placed change filled, s.module? module = some m ∧
        isStorable process = true ∧ s.process? process = some p ∧ p.team = m.team ∧
        s.draft? module = none ∧ s.latest? p.id = some v ∧ c.copyFails = false ∧
        c.requireStamp = .ok () ∧ Placement.inOrder placements = .ok ordered ∧
        (freshStore c s m v).placeAll none (.start (freshDraft c s m v)) ordered = .ok placed ∧
        (freshStore c s m v).autofill c.autofill placed
            ((freshStore c s m v).activeSlots (freshDraft c s m v)) = .ok (change, filled) ∧
        (change.work (freshStore c s m v) change.draft).Commits c ∧
        begin c s module process placements =
          ((change.work (freshStore c s m v) change.draft).outcome c).lookingBack := by
  unfold begin
  rcases complete_cases c s (beginCommitFailure module) _ with ⟨f, hf⟩ | ⟨w, hw, hcommits, ho⟩
  · left
    exact ⟨f, by rw [hf]; rfl⟩
  · right
    rw [ho]
    dsimp only at hw
    simp only [guard_eq_ok_iff, bind_eq_ok_iff, pure_eq_ok_iff, Store.module_eq_ok_iff,
      Store.process_eq_ok_iff, Store.latest_eq_ok_iff, Prod.exists] at hw
    obtain ⟨m, hm, p, ⟨hprocess, hp⟩, hteam, hnone, v, hv, hcopy, ⟨⟩, hstamp, ordered, hordered,
      placed, hplaced, change, filled, hfilled, rfl⟩ := hw
    exact ⟨m, p, v, ordered, placed, change, filled, hm, hprocess, hp, by simpa using hteam,
      by simpa using hnone, hv, by simpa using hcopy, hstamp, hordered, hplaced, hfilled, hcommits,
      rfl⟩

theorem cancel_cases (c : Conditions) (s : Store) (module : String) :
    (∃ f, cancel c s module = .failed s f) ∨
      ∃ d, ∃ w : Work Unit, c.lockError = none ∧ s.draft? module = some d ∧
        ((s.openRun? module).isSome = true → c.requireDate = .ok ()) ∧
        w = {
          value := ()
          store := (s.closeOpenRun module .cancelled c.now).removeDraft module
          events := announce .processCancelled [("module", .text module)] d.holders
          flaw := none } ∧
        w.Commits c ∧ cancel c s module = w.outcome c := by
  refine (onLockedDraft_cases c s module _).imp_right ?_
  rintro ⟨d, w, hlock, hd, hw, hcommits, ho⟩
  dsimp only at hw
  split at hw
  · obtain ⟨⟨⟩, hdate, hw⟩ := bind_eq_ok_iff.1 hw
    exact ⟨d, w, hlock, hd, fun _ => hdate, (pure_eq_ok_iff.1 hw).symm, hcommits, ho⟩
  · rename_i hidle
    exact ⟨d, w, hlock, hd, fun h => absurd h hidle, (pure_eq_ok_iff.1 hw).symm, hcommits, ho⟩

theorem assign_cases (c : Conditions) (s : Store) (module : String) (slot user : Int) :
    (∃ f, assign c s module slot user = .failed s f) ∨
      ∃ d row w, c.lockError = none ∧ s.draft? module = some d ∧ isStorable slot = true ∧
        s.slotIn? d.version slot = some row ∧ s.requireRole row d.team user = .ok () ∧
        w = ((Change.start d).seat row.id user).work s (d.seat row.id user) ∧ w.Commits c ∧
        assign c s module slot user = w.outcome c := by
  refine (onLockedDraft_cases c s module _).imp_right ?_
  rintro ⟨d, w, hlock, hd, hw, hcommits, ho⟩
  simp only [bind_eq_ok_iff, pure_eq_ok_iff, Store.slotIn_eq_ok_iff,
    Store.seatUser_eq_ok_iff] at hw
  obtain ⟨row, ⟨hslot, hrow⟩, _, ⟨-, hrole, rfl⟩, rfl⟩ := hw
  exact ⟨d, row, _, hlock, hd, hslot, hrow, hrole, rfl, hcommits, ho⟩

theorem claim_cases (c : Conditions) (s : Store) (module : String) (slot user : Int) :
    (∃ f, claim c s module slot user = .failed s f) ∨
      ∃ d row w, c.lockError = none ∧ s.draft? module = some d ∧ isStorable slot = true ∧
        s.slotIn? d.version slot = some row ∧ user ∈ s.membersOf d.team ∧
        (∀ other, d.occupant? row.id = some other → other = user) ∧
        s.requireRole row d.team user = .ok () ∧
        w = ((Change.start d).seat row.id user).work s (d.seat row.id user) ∧ w.Commits c ∧
        claim c s module slot user = w.outcome c := by
  refine (onLockedDraft_cases c s module _).imp_right ?_
  rintro ⟨d, w, hlock, hd, hw, hcommits, ho⟩
  dsimp only at hw
  simp only [bind_eq_ok_iff, pure_eq_ok_iff, guard_eq_ok_iff, unless_eq_ok_iff,
    Store.slotIn_eq_ok_iff, Store.seatUser_eq_ok_iff] at hw
  obtain ⟨row, ⟨hslot, hrow⟩, hmember, hfree, _, ⟨-, hrole, rfl⟩, rfl⟩ := hw
  refine ⟨d, row, _, hlock, hd, hslot, hrow, by simpa using hmember, ?_, hrole, rfl, hcommits, ho⟩
  intro other hother
  simpa [hother] using hfree

theorem unassign_cases (c : Conditions) (s : Store) (module : String) (slot : Int) :
    (∃ f, unassign c s module slot = .failed s f) ∨
      ∃ d row w, c.lockError = none ∧ s.draft? module = some d ∧ isStorable slot = true ∧
        s.slotIn? d.version slot = some row ∧
        w = ((Change.start d).vacate row.id).work s (d.occupant? row.id) ∧ w.Commits c ∧
        unassign c s module slot = w.outcome c := by
  refine (onLockedDraft_cases c s module _).imp_right ?_
  rintro ⟨d, w, hlock, hd, hw, hcommits, ho⟩
  simp only [bind_eq_ok_iff, pure_eq_ok_iff, Store.slotIn_eq_ok_iff] at hw
  obtain ⟨row, ⟨hslot, hrow⟩, rfl⟩ := hw
  exact ⟨d, row, _, hlock, hd, hslot, hrow, rfl, hcommits, ho⟩

end Drafting

end Editorial
