import Editorial.Proofs.Reachable

/-!
# Operations on drafts happen wholly or not at all

`Hindrance` lists what can stand in the way of an operation on drafts before its own commit has
succeeded: what it asks for is missing or refused, a collaborator or the database fails, something
is too large for the database. Whatever it is, the operation fails, every table stays as it was and
nothing is announced; and an operation that fails otherwise has been committed before
(`draft_operations_atomic`).
-/

namespace Editorial

open Drafting

namespace Drafting.Operation

/-- The module whose draft an operation locks; to begin a draft locks none. -/
def locked? : Operation → Option String
  | begin .. => none
  | advance module .. | cancel module | assign module .. | claim module .. | unassign module _ =>
      some module

/-- The module and the slot of its draft that a seating operation is about. -/
def slot? : Operation → Option (String × Int)
  | assign module slot _ | claim module slot _ | unassign module slot => some (module, slot)
  | _ => none

/-- The user whom an operation seats. -/
def user? : Operation → Option Int
  | assign _ _ user | claim _ _ user => some user
  | _ => none

/-- Whether an operation notes its moment with what it stores. -/
def isDated : Operation → Bool
  | begin .. | advance .. | cancel .. => true
  | _ => false

/-- What stands in the way of an operation on drafts before its own commit has succeeded. -/
inductive Hindrance (c : Conditions) (s : Store) : Operation → Prop where
  -- The database fails, or the moment has no date.
  | commit {op : Operation} {error : DatabaseError} (failed : c.commitError 0 = some error) :
      Hindrance c s op
  | lock {op : Operation} {module : String} {error : DatabaseError}
      (locks : op.locked? = some module) (failed : c.lockError = some error) : Hindrance c s op
  | undated {op : Operation} (dated : op.isDated = true) (failed : c.requireDate ≠ .ok ()) :
      Hindrance c s op
  -- The draft, or the slot that is named, is missing.
  | draftMissing {op : Operation} {module : String} (locks : op.locked? = some module)
      (missing : s.draft? module = none) : Hindrance c s op
  | slotMissing {op : Operation} {module : String} {slot : Int} {d : Draft}
      (names : op.slot? = some (module, slot)) (found : s.draft? module = some d)
      (missing : s.slotIn? d.version slot = none) : Hindrance c s op
  | slotOversized {op : Operation} {module : String} {slot : Int}
      (names : op.slot? = some (module, slot)) (oversized : isStorable slot = false) :
      Hindrance c s op
  -- The user may not be seated.
  | badRole {op : Operation} {module : String} {slot user : Int} {d : Draft} {row : Slot}
      (names : op.slot? = some (module, slot)) (seats : op.user? = some user)
      (found : s.draft? module = some d) (present : s.slotIn? d.version slot = some row)
      (refused : row.admits (s.roleOf? d.team user) = false) : Hindrance c s op
  | userOversized {op : Operation} {user : Int} (seats : op.user? = some user)
      (oversized : isStorable user = false) : Hindrance c s op
  | notAMember {module : String} {slot user : Int} {d : Draft} (found : s.draft? module = some d)
      (foreign : user ∉ s.membersOf d.team) : Hindrance c s (.claim module slot user)
  | slotTaken {module : String} {slot user other : Int} {d : Draft}
      (found : s.draft? module = some d) (occupied : d.occupant? slot = some other)
      (differs : other ≠ user) : Hindrance c s (.claim module slot user)
  -- The draft cannot be moved.
  | badUser {module : String} {user slot target : Int} {d : Draft}
      (found : s.draft? module = some d) (elsewhere : d.occupant? slot ≠ some user) :
      Hindrance c s (.advance module user slot target)
  | badLink {module : String} {user slot target : Int} {d : Draft}
      (found : s.draft? module = some d)
      (missing : ∀ step, s.stepOf? d = some step → step.link? target slot = none) :
      Hindrance c s (.advance module user slot target)
  | targetOversized {module : String} {user slot target : Int}
      (oversized : isStorable target = false) : Hindrance c s (.advance module user slot target)
  | mergeFailed {module : String} {user slot target : Int} {d : Draft}
      (found : s.draft? module = some d) (final : s.isFinalFor d target = true)
      (failed : c.mergeFails = true) : Hindrance c s (.advance module user slot target)
  -- The draft cannot be begun.
  | moduleMissing {module : String} {process : Int} {placements : List Placement}
      (missing : s.module? module = none) : Hindrance c s (.begin module process placements)
  | processMissing {module : String} {process : Int} {placements : List Placement}
      (missing : s.process? process = none) : Hindrance c s (.begin module process placements)
  | processOversized {module : String} {process : Int} {placements : List Placement}
      (oversized : isStorable process = false) : Hindrance c s (.begin module process placements)
  | foreignProcess {module : String} {process : Int} {placements : List Placement} {m : Module}
      {p : Process} (target : s.module? module = some m) (found : s.process? process = some p)
      (foreign : p.team ≠ m.team) : Hindrance c s (.begin module process placements)
  | draftExists {module : String} {process : Int} {placements : List Placement}
      (present : (s.draft? module).isSome = true) : Hindrance c s (.begin module process placements)
  | versionMissing {module : String} {process : Int} {placements : List Placement}
      (missing : s.latest? process = none) : Hindrance c s (.begin module process placements)
  | copyFailed {module : String} {process : Int} {placements : List Placement}
      (failed : c.copyFails = true) : Hindrance c s (.begin module process placements)
  | unordered {module : String} {process : Int} {placements : List Placement} {f : Failure}
      (failed : Placement.inOrder placements = .error f) :
      Hindrance c s (.begin module process placements)
  | placedNowhere {module : String} {process : Int} {placements : List Placement} {v : Version}
      {p : Placement} (latest : s.latest? process = some v) (placed : p ∈ placements)
      (missing : ∀ slot, p.slot.whole = .ok slot → s.slotIn? v.id slot = none) :
      Hindrance c s (.begin module process placements)
  | placedNobody {module : String} {process : Int} {placements : List Placement} {p : Placement}
      (placed : p ∈ placements) (missing : ∀ user, p.user.whole ≠ .ok user) :
      Hindrance c s (.begin module process placements)
  | placedBadRole {module : String} {process slot user : Int} {placements : List Placement}
      {m : Module} {v : Version} {p : Placement} {row : Slot} (target : s.module? module = some m)
      (latest : s.latest? process = some v) (placed : p ∈ placements)
      (names : p.slot.whole = .ok slot) (seats : p.user.whole = .ok user)
      (present : s.slotIn? v.id slot = some row)
      (refused : row.admits (s.roleOf? m.team user) = false) :
      Hindrance c s (.begin module process placements)
  | placedOversized {module : String} {process slot user : Int} {placements : List Placement}
      (placed : ∃ p ∈ placements, p.slot.whole = .ok slot)
      (seats : ∀ p ∈ placements, p.slot.whole = .ok slot → p.user.whole = .ok user)
      (oversized : isStorable user = false) : Hindrance c s (.begin module process placements)

/-! ### What is hindered fails -/

section Hindered

variable {c : Conditions} {s : Store}

theorem isOversized_of_occupant {d : Draft} {slot user : Int}
    (h : d.occupant? slot = some user) (huser : isStorable user = false) : d.isOversized = true := by
  obtain ⟨seat, hseat, rfl⟩ := Option.map_eq_some_iff.1 h
  exact List.any_eq_true.2 ⟨seat, List.mem_of_find?_eq_some hseat, by simp [huser]⟩

theorem begin_fails {module : String} {process : Int} {placements : List Placement}
    (hh : Hindrance c s (.begin module process placements)) :
    ∃ f, Drafting.begin c s module process placements = .failed s f := by
  refine (begin_cases c s module process placements).resolve_right ?_
  rintro ⟨m, p, v, ordered, placed, change, filled, hm, hprocess, hp, hteam, hidle, hv, hcopy,
    hstamp, hordered, hplaced, hfilled, hcommits, -⟩
  have hmem {q : Placement} (hq : q ∈ placements) : q ∈ ordered :=
    (Placement.inOrder_perm hordered).mem_iff.2 hq
  have hpid := Store.id_of_process? hp
  subst hpid
  cases hh with
  | commit failed => simp [hcommits.commit] at failed
  | lock locks => cases locks
  | undated _ failed => exact failed (Conditions.requireStamp_eq_ok_iff.1 hstamp)
  | draftMissing locks => cases locks
  | slotMissing names => cases names
  | slotOversized names => cases names
  | badRole names => cases names
  | userOversized seats => cases seats
  | moduleMissing missing => simp [hm] at missing
  | processMissing missing => simp [hp] at missing
  | processOversized oversized => simp [hprocess] at oversized
  | foreignProcess target found foreign =>
      rw [hm] at target
      rw [hp] at found
      cases target
      cases found
      exact foreign hteam
  | draftExists present => simp [hidle] at present
  | versionMissing missing => simp [hv] at missing
  | copyFailed failed => simp [hcopy] at failed
  | unordered failed => simp [hordered] at failed
  | placedNowhere latest hq missing =>
      obtain rfl := Option.some.inj (hv.symm.trans latest)
      obtain ⟨slot, user, row, hslot, -, -, hrow, -⟩ := Store.exists_of_placeAll hplaced (hmem hq)
      cases (missing slot hslot).symm.trans hrow
  | placedNobody hq missing =>
      obtain ⟨slot, user, row, -, huser, -⟩ := Store.exists_of_placeAll hplaced (hmem hq)
      exact missing user huser
  | placedBadRole target latest hq names seats present refused =>
      obtain rfl := Option.some.inj (hv.symm.trans latest)
      obtain rfl := Option.some.inj (hm.symm.trans target)
      obtain ⟨slot, user, row, hslot, huser, -, hrow, hrole⟩ :=
        Store.exists_of_placeAll hplaced (hmem hq)
      obtain rfl := Except.ok.inj (hslot.symm.trans names)
      obtain rfl := Except.ok.inj (huser.symm.trans seats)
      obtain rfl := Option.some.inj (hrow.symm.trans present)
      have hadmits := Store.admits_of_requireRole hrole
      exact Bool.false_ne_true (refused.symm.trans hadmits)
  | placedOversized hq seats oversized =>
      obtain ⟨q, hq, hslot⟩ := hq
      have hoccupant := Store.occupant?_placeAll hplaced
        (fun q hq => seats q ((Placement.inOrder_perm hordered).mem_iff.1 hq))
        (Or.inr ⟨q, hmem hq, hslot⟩)
      have hsize := (Store.seats_placeAll hplaced).2
      simp [isOversized_of_occupant hoccupant oversized] at hsize

theorem advance_fails {module : String} {user slot target : Int}
    (hh : Hindrance c s (.advance module user slot target)) :
    ∃ f, Drafting.advance c s module user slot target = .failed s f := by
  refine (advance_cases c s module user slot target).resolve_right ?_
  rintro ⟨d, step, l, w, hlock, hd, hoccupant, htarget, hstep, hlink, hstamp, hw, hcommits, -⟩
  have hltarget := Step.target_of_link? hlink
  subst hltarget
  cases hh with
  | commit failed => simp [hcommits.commit] at failed
  | lock _ failed => simp [hlock] at failed
  | undated _ failed => exact failed (Conditions.requireStamp_eq_ok_iff.1 hstamp)
  | draftMissing locks missing =>
      obtain rfl := Option.some.inj locks
      simp [hd] at missing
  | slotMissing names => cases names
  | slotOversized names => cases names
  | badRole names => cases names
  | userOversized seats => cases seats
  | badUser found elsewhere =>
      obtain rfl := Option.some.inj (hd.symm.trans found)
      exact elsewhere hoccupant
  | badLink found missing =>
      obtain rfl := Option.some.inj (hd.symm.trans found)
      cases (missing step hstep).symm.trans hlink
  | targetOversized oversized => simp [htarget] at oversized
  | mergeFailed found final failed =>
      obtain rfl := Option.some.inj (hd.symm.trans found)
      rw [if_pos final] at hw
      simp [(finish_eq_ok_iff.1 hw).1] at failed

theorem cancel_fails (h : s.Sound) {module : String} (hh : Hindrance c s (.cancel module)) :
    ∃ f, Drafting.cancel c s module = .failed s f := by
  refine (cancel_cases c s module).resolve_right ?_
  rintro ⟨d, w, hlock, hd, hdate, -, hcommits, -⟩
  cases hh with
  | commit failed => simp [hcommits.commit] at failed
  | lock _ failed => simp [hlock] at failed
  | undated _ failed =>
      obtain ⟨hmem, hmodule⟩ := h.draft?_eq_some_iff.1 hd
      obtain ⟨r, -, hopen, -⟩ := h.exists_openRun hmem
      rw [hmodule] at hopen
      exact failed (hdate (by rw [hopen]; rfl))
  | draftMissing locks missing =>
      obtain rfl := Option.some.inj locks
      simp [hd] at missing
  | slotMissing names => cases names
  | slotOversized names => cases names
  | badRole names => cases names
  | userOversized seats => cases seats

/-- A user in a slot of the draft, admitted by the role limit and small enough for the database, is
in the way of no seating. -/
theorem not_hindrance_of_seated {op : Operation} {module : String} {slot user : Int} {d : Draft}
    {row : Slot} (hop : op = .assign module slot user ∨ op = .claim module slot user)
    (hlock : c.lockError = none) (hd : s.draft? module = some d) (hslot : isStorable slot = true)
    (hrow : s.slotIn? d.version slot = some row) (hrole : s.requireRole row d.team user = .ok ())
    (hcommit : c.commitError 0 = none) (hsize : (d.seat row.id user).isOversized = false)
    (hclaim : op = .claim module slot user →
      user ∈ s.membersOf d.team ∧ ∀ other, d.occupant? row.id = some other → other = user) :
    ¬Hindrance c s op := by
  obtain ⟨rfl, -⟩ := Store.slotIn?_eq_some hrow
  have hslot? : op.slot? = some (module, row.id) := by rcases hop with rfl | rfl <;> rfl
  have huser? : op.user? = some user := by rcases hop with rfl | rfl <;> rfl
  have hlocked? : op.locked? = some module := by rcases hop with rfl | rfl <;> rfl
  have hdated : op.isDated = false := by rcases hop with rfl | rfl <;> rfl
  intro hh
  cases hh with
  | commit failed => simp [hcommit] at failed
  | lock _ failed => simp [hlock] at failed
  | undated dated => simp [hdated] at dated
  | draftMissing locks missing =>
      obtain rfl := Option.some.inj (hlocked?.symm.trans locks)
      simp [hd] at missing
  | slotMissing names found missing =>
      cases hslot?.symm.trans names
      cases hd.symm.trans found
      cases missing.symm.trans hrow
  | slotOversized names oversized =>
      cases hslot?.symm.trans names
      simp [hslot] at oversized
  | badRole names seats found present refused =>
      cases hslot?.symm.trans names
      cases huser?.symm.trans seats
      cases hd.symm.trans found
      cases hrow.symm.trans present
      exact Bool.false_ne_true (refused.symm.trans (Store.admits_of_requireRole hrole))
  | userOversized seats oversized =>
      cases huser?.symm.trans seats
      have hoccupant : (d.seat row.id user).occupant? row.id = some user := by
        rw [Draft.occupant?_seat, if_pos rfl]
      simp [isOversized_of_occupant hoccupant oversized] at hsize
  | notAMember found foreign =>
      cases hslot?
      cases huser?
      cases hd.symm.trans found
      exact foreign (hclaim rfl).1
  | slotTaken found occupied differs =>
      cases hslot?
      cases huser?
      cases hd.symm.trans found
      exact differs ((hclaim rfl).2 _ occupied)
  | _ => rcases hop with h | h <;> cases h

theorem assign_fails {module : String} {slot user : Int}
    (hh : Hindrance c s (.assign module slot user)) :
    ∃ f, Drafting.assign c s module slot user = .failed s f := by
  refine (assign_cases c s module slot user).resolve_right ?_
  rintro ⟨d, row, w, hlock, hd, hslot, hrow, hrole, rfl, hcommits, -⟩
  exact not_hindrance_of_seated (Or.inl rfl) hlock hd hslot hrow hrole hcommits.commit
    (oversizedIf_eq_none_iff.1 hcommits.flaw) nofun hh

theorem claim_fails {module : String} {slot user : Int}
    (hh : Hindrance c s (.claim module slot user)) :
    ∃ f, Drafting.claim c s module slot user = .failed s f := by
  refine (claim_cases c s module slot user).resolve_right ?_
  rintro ⟨d, row, w, hlock, hd, hslot, hrow, hmember, hfree, hrole, rfl, hcommits, -⟩
  exact not_hindrance_of_seated (Or.inr rfl) hlock hd hslot hrow hrole hcommits.commit
    (oversizedIf_eq_none_iff.1 hcommits.flaw) (fun _ => ⟨hmember, hfree⟩) hh

theorem unassign_fails {module : String} {slot : Int} (hh : Hindrance c s (.unassign module slot)) :
    ∃ f, Drafting.unassign c s module slot = .failed s f := by
  refine (unassign_cases c s module slot).resolve_right ?_
  rintro ⟨d, row, w, hlock, hd, hslot, hrow, -, hcommits, -⟩
  cases hh with
  | commit failed => simp [hcommits.commit] at failed
  | lock _ failed => simp [hlock] at failed
  | undated dated => cases dated
  | draftMissing locks missing =>
      obtain rfl := Option.some.inj locks
      simp [hd] at missing
  | slotMissing names found missing =>
      cases names
      cases hd.symm.trans found
      cases missing.symm.trans hrow
  | slotOversized names oversized =>
      cases names
      simp [hslot] at oversized
  | badRole _ seats => cases seats
  | userOversized seats => cases seats

/-- Whatever stands in the way, the operation fails and leaves everything as it was. -/
theorem Hindrance.fails (h : s.Sound) {op : Operation} (hh : Hindrance c s op) :
    ∃ f, op.perform c s = .failed s f := by
  cases op with
  | begin module process placements => exact begin_fails hh
  | advance module user slot target => exact advance_fails hh
  | cancel module => exact cancel_fails h hh
  | assign module slot user => exact assign_fails hh
  | claim module slot user => exact claim_fails hh
  | unassign module slot => exact unassign_fails hh

end Hindered

/-! ### What fails has left no trace or is committed -/

theorem begin_of_error {c : Conditions} {s : Store} {module : String} {process : Int}
    {placements : List Placement} {f : Failure}
    (hf : (Drafting.begin c s module process placements).result = .error f) :
    Drafting.begin c s module process placements = .failed s f ∨
      f = .connectionUnusable ∧ s.draft? module = none ∧
        ((Drafting.begin c s module process placements).store.draft? module).isSome = true := by
  rcases begin_cases c s module process placements with ⟨f', hf'⟩ |
    ⟨m, p, v, ordered, placed, change, filled, hm, -, -, -, hidle, -, -, -, -, hplaced, hfilled,
      -, ho⟩
  · rw [hf'] at hf ⊢
    cases hf
    exact Or.inl rfl
  · right
    have hmid := Store.id_of_module? hm
    subst hmid
    have hmodule : change.draft.module = m.id := by
      rw [((Store.seats_placeAll hplaced).1.trans (Store.seats_autofill hfilled)).draft_eq]
      rfl
    rw [ho] at hf ⊢
    refine ⟨?_, hidle, ?_⟩
    · unfold Outcome.lookingBack at hf
      split at hf
      · exact (Except.error.inj hf).symm
      · cases hf
    · obtain ⟨es, hes⟩ := Work.extends_outcome c (change.work (freshStore c s m v) change.draft)
      rw [store_lookingBack, hes, Change.work, freshStore_putDraft hidle hmodule]
      exact List.find?_isSome.2 ⟨change.draft, List.mem_append_right _ (List.mem_singleton_self _),
        by simpa using hmodule⟩

theorem perform_of_error {c : Conditions} {s : Store} {op : Operation} {f : Failure}
    (hf : (op.perform c s).result = .error f) :
    op.perform c s = .failed s f ∨
      f = .connectionUnusable ∧ ∃ module process placements, op = .begin module process placements ∧
        s.draft? module = none ∧ ((op.perform c s).store.draft? module).isSome = true := by
  have honly {α : Type} {o : Outcome α} (ho : o.result = .error f)
      (hcases : (∃ f', o = .failed s f') ∨ ∃ w : Work α, o = w.outcome c) : o = .failed s f := by
    rcases hcases with ⟨f', rfl⟩ | ⟨w, rfl⟩
    · cases ho
      rfl
    · cases ho
  cases op with
  | begin module process placements =>
      exact (begin_of_error hf).imp_right fun ⟨h₁, h₂, h₃⟩ => ⟨h₁, _, _, _, rfl, h₂, h₃⟩
  | advance module user slot target =>
      refine Or.inl (honly hf ((advance_cases c s module user slot target).imp_right ?_))
      rintro ⟨-, -, -, w, -, -, -, -, -, -, -, -, -, ho⟩
      exact ⟨w, ho⟩
  | cancel module =>
      refine Or.inl (honly hf ((cancel_cases c s module).imp_right ?_))
      rintro ⟨-, w, -, -, -, -, -, ho⟩
      exact ⟨w, ho⟩
  | assign module slot user =>
      refine Or.inl (honly hf ((assign_cases c s module slot user).imp_right ?_))
      rintro ⟨-, -, w, -, -, -, -, -, -, -, ho⟩
      exact ⟨w, ho⟩
  | claim module slot user =>
      refine Or.inl (honly hf ((claim_cases c s module slot user).imp_right ?_))
      rintro ⟨-, -, w, -, -, -, -, -, -, -, -, -, ho⟩
      exact ⟨w, ho⟩
  | unassign module slot =>
      refine Or.inl (honly hf ((unassign_cases c s module slot).imp_right ?_))
      rintro ⟨-, -, w, -, -, -, -, -, -, ho⟩
      exact ⟨w, ho⟩

end Drafting.Operation

/-- An operation on drafts that something stands in the way of fails, leaves every table as it was
and announces nothing. So does every operation that fails, unless a draft had been begun and stored
when looking back at the database failed. -/
theorem draft_operations_atomic {s : Store} (h : Reachable s) (c : Conditions)
    (op : Drafting.Operation) :
    (op.Hindrance c s → ∃ f, (op.perform c s).result = .error f ∧ (op.perform c s).store = s ∧
      (op.perform c s).delivered = 0) ∧
    ∀ f, (op.perform c s).result = .error f →
      ((op.perform c s).store = s ∧ (op.perform c s).delivered = 0) ∨
        f = .connectionUnusable ∧ ∃ module process placements,
          op = .begin module process placements ∧ s.draft? module = none ∧
            ((op.perform c s).store.draft? module).isSome = true := by
  constructor
  · intro hh
    obtain ⟨f, hf⟩ := hh.fails h.sound
    exact ⟨f, by rw [hf]; exact ⟨rfl, rfl, rfl⟩⟩
  · intro f hf
    refine (Drafting.Operation.perform_of_error hf).imp_left fun hfailed => ?_
    rw [hfailed]
    exact ⟨rfl, rfl⟩

/-- When the draft that the editor accepts cannot be merged, the review stays as it was. -/
theorem merge_failure_of_review :
    let o := Drafting.advance { Review.conditions with mergeFails := true } Review.reviewing "m" 6 2 3
    (∃ f, o.result = .error f) ∧ o.store = Review.reviewing ∧ o.delivered = 0 := by
  have hfinal : Review.reviewing.isFinalFor Review.submitted 3 = true := by decide +kernel
  obtain ⟨hhindered, hfailed⟩ := draft_operations_atomic Review.reachable_reviewing
    { Review.conditions with mergeFails := true } (.advance "m" 6 2 3)
  obtain ⟨f, hf, -⟩ := hhindered (.mergeFailed Review.draft?_reviewing hfinal rfl)
  rcases hfailed f hf with hkept | ⟨-, _, _, _, hop, -⟩
  · exact ⟨⟨f, hf⟩, hkept⟩
  · cases hop

end Editorial
