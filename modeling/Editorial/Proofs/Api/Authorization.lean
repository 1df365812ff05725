import Editorial.Api.Handler
import Editorial.Proofs.Store.Teams

/-!
# Who changes what through requests

A request changes what is stored for a team only if the user who makes it was allowed to before
(`writes_authorized`): by the permission to edit processes or to manage drafts in that very team, by
sitting in the slot through which a draft is advanced or which is vacated, or as a member of the
team who takes a free slot (`Authorized`). Each endpoint checks first and then carries out one
operation, so two facts come together for each of them: for which team the checks have succeeded,
and that the operation leaves everything else as it was.
-/

namespace Editorial.Api

/-! ### What is asked for -/

namespace Action

/-- A process or a version is created, renamed or deleted. -/
def editsDefinitions : Action → Bool
  | createProcess | renameProcess _ | deleteProcess _ | createVersion _ | deleteVersion .. => true
  | _ => false

/-- A draft is begun or cancelled, or someone comes into a slot or leaves it. -/
def managesDrafts : Action → Bool
  | beginDraft _ | cancelDraft _ | takeSlot | vacateSlot .. => true
  | _ => false

end Action

/-- What a request asks for, if it is something that a user does. -/
def Request.action? (r : Request) : Option Action :=
  let endpoint := (Place.ofPath? r.path).bind fun place =>
    place.endpoint? (Place.fullMethod (methodName r.method))
  match endpoint with
  | some (.action a) => some a
  | _ => none

/-- By what a user may do something that changes what is stored for a team, in the store before; the
store afterwards tells whether nothing else has been done. -/
inductive Authorized (before after : Store) (team user : Int) (body : Body) : Action → Prop where
  | editor {a : Action} (asked : a.editsDefinitions = true)
      (permission : before.hasTeamPermission team user editPermission = true) :
      Authorized before after team user body a
  | manager {a : Action} (asked : a.managesDrafts = true)
      (permission : before.hasTeamPermission team user managePermission = true) :
      Authorized before after team user body a
  | occupant {module : String} {slot target : Int} {d : Draft}
      (asked : advanceFields body = .ok (target, slot)) (found : before.draft? module = some d)
      (own : d.team = team ∨ ∃ m ∈ before.modules, m.id = module ∧ m.team = team)
      (seated : d.occupant? slot = some user) :
      Authorized before after team user body (.advanceDraft module)
  | leaver {module : String} {slot : Int} {d : Draft} (found : before.draft? module = some d)
      (own : d.team = team) (seated : d.occupant? slot = some user) :
      Authorized before after team user body (.vacateSlot module slot)
  | member {module : String} {slot : Int} {d : Draft} {row : Slot}
      (asked : takeFields user body = .ok (module, slot, user))
      (found : before.draft? module = some d) (own : d.team = team)
      (known : user ∈ before.membersOf team) (limit : before.slotIn? d.version slot = some row)
      (admitted : row.admits (before.roleOf? team user) = true)
      (free : d.occupant? slot = none)
      (seats : after.Extends (before.putDraft (d.seat slot user))) :
      Authorized before after team user body .takeSlot

/-! ### Checks -/

variable {c : Conditions} {s : Store} {team user : Int}

/-- A check of the operations that refuses a request with its failure. -/
theorem lift_eq_ok_iff {α : Type} {x : Except Failure α} {a : α} :
    (liftM x : Except Response α) = .ok a ↔ x = .ok a :=
  mapError_eq_ok_iff

/-- A request changes nothing in its first stage. -/
theorem exists_of_after {α : Type} {checks : Except Response α} {next : α → Reply}
    (hchange : (Reply.after s checks next).store.holdings team ≠ s.holdings team) :
    ∃ a, checks = .ok a ∧ (Reply.after s checks next).store = (next a).store ∧
      (next a).store.holdings team ≠ s.holdings team := by
  cases checks with
  | error r => exact absurd rfl hchange
  | ok a => exact ⟨a, rfl, rfl, hchange⟩

/-! ### Changes of definitions -/

section Definitions

open Definitions

/-- Who may change a process may change what is stored for its team. -/
theorem edits_of_editable (h : s.Sound) {process : Int} {p : Process}
    (hp : editableProcess s process user = .ok p) {u : Store}
    (hkeeps : p ∈ s.processes → p.team ≠ team → u.holdings team = s.holdings team)
    (hchange : u.holdings team ≠ s.holdings team) :
    s.hasTeamPermission team user editPermission = true := by
  unfold editableProcess at hp
  simp only [bind_eq_ok_iff, pure_eq_ok_iff, Store.requireTeamPermission_eq_ok_iff,
    Store.process_eq_ok_iff] at hp
  obtain ⟨q, ⟨-, hq⟩, ⟨⟩, ⟨-, -, hpermission⟩, rfl⟩ := hp
  have hteam : q.team = team := by
    by_contra hne
    exact hchange (hkeeps (h.process?_eq_some_iff.1 hq).1 hne)
  rwa [← hteam]

theorem edits_createProcess (h : s.Sound) {body : Body}
    (hchange : (createProcess c s user body).store.holdings team ≠ s.holdings team) :
    s.hasTeamPermission team user editPermission = true := by
  obtain ⟨⟨other, raw⟩, hchecks, -, hchange⟩ := exists_of_after hchange
  rw [Reply.store_ofOutcome] at hchange
  simp only [bind_eq_ok_iff, pure_eq_ok_iff, lift_eq_ok_iff, Store.requireTeamPermission_eq_ok_iff,
    Prod.exists, Prod.mk.injEq] at hchecks
  obtain ⟨_, _, -, ⟨⟩, ⟨-, -, hpermission⟩, hother, -⟩ := hchecks
  rw [hother] at hpermission
  have hteam : other = team := by
    by_contra hne
    exact hchange (holdings_createProcess h c _ hne)
  rwa [← hteam]

theorem edits_renameProcess (h : s.Sound) {process : Int} {body : Body}
    (hchange : (renameProcess c s user process body).store.holdings team ≠ s.holdings team) :
    s.hasTeamPermission team user editPermission = true := by
  obtain ⟨⟨p, name⟩, hchecks, -, hchange⟩ := exists_of_after hchange
  rw [Reply.store_ofOutcome] at hchange
  simp only [bind_eq_ok_iff, pure_eq_ok_iff, lift_eq_ok_iff, Prod.mk.injEq] at hchecks
  obtain ⟨_, hp, _, -, rfl, rfl⟩ := hchecks
  exact edits_of_editable h hp (fun hmem hne => holdings_rename h c hmem _ hne) hchange

theorem edits_deleteProcess (h : s.Sound) {process : Int}
    (hchange : (deleteProcess c s user process).store.holdings team ≠ s.holdings team) :
    s.hasTeamPermission team user editPermission = true := by
  obtain ⟨p, hp, -, hchange⟩ := exists_of_after hchange
  rw [Reply.store_done] at hchange
  exact edits_of_editable h (lift_eq_ok_iff.1 hp)
    (fun hmem hne => holdings_deleteProcess h c hmem hne) hchange

theorem edits_createVersion (h : s.Sound) {process : Int} {body : Body}
    (hchange : (createVersion c s user process body).store.holdings team ≠ s.holdings team) :
    s.hasTeamPermission team user editPermission = true := by
  obtain ⟨⟨p, raw⟩, hchecks, -, hchange⟩ := exists_of_after hchange
  rw [Reply.store_ofOutcome] at hchange
  simp only [bind_eq_ok_iff, pure_eq_ok_iff, lift_eq_ok_iff, Prod.mk.injEq] at hchecks
  obtain ⟨_, hp, _, -, rfl, rfl⟩ := hchecks
  exact edits_of_editable h hp (fun hmem hne => holdings_createVersion h c hmem _ hne) hchange

theorem edits_deleteVersion (h : s.Sound) {process version : Int}
    (hchange : (deleteVersion c s user process version).store.holdings team ≠ s.holdings team) :
    s.hasTeamPermission team user editPermission = true := by
  obtain ⟨v, hchecks, -, hchange⟩ := exists_of_after hchange
  rw [Reply.store_done] at hchange
  simp only [bind_eq_ok_iff, lift_eq_ok_iff, Store.version_eq_ok_iff] at hchecks
  obtain ⟨p, hp, -, hv, hprocess⟩ := hchecks
  have hmem := (h.version?_eq_some_iff.1 hv).1
  exact edits_of_editable h hp
    (fun hp hne => holdings_deleteVersion h c hp hmem hprocess hne) hchange

end Definitions

/-! ### Changes of drafts -/

section Drafts

open Drafting

theorem team_of_change (h : s.Sound) (op : Operation) {other : Int}
    (hteam : op.team? s = some other)
    (hmodule : ∀ module user slot target, op = .advance module user slot target →
      ∀ m ∈ s.modules, m.id = module → m.team ≠ team)
    (hchange : (op.perform c s).store.holdings team ≠ s.holdings team) : other = team := by
  by_contra hne
  refine hchange (op.holdings_perform h c (fun hother => hne ?_) hmodule)
  exact Option.some.inj (hteam.symm.trans hother)

theorem manages_beginDraft (h : s.Sound) {module : String} {body : Body}
    (hchange : (beginDraft c s user module body).store.holdings team ≠ s.holdings team) :
    s.hasTeamPermission team user managePermission = true := by
  obtain ⟨⟨process, seats⟩, hchecks, -, hchange⟩ := exists_of_after hchange
  rw [Reply.store_ofOutcome] at hchange
  simp only [bind_eq_ok_iff, lift_eq_ok_iff, Store.requireTeamPermission_eq_ok_iff,
    Store.module_eq_ok_iff] at hchecks
  obtain ⟨m, hm, ⟨⟩, ⟨-, -, hpermission⟩, -⟩ := hchecks
  have hteam : m.team = team :=
    team_of_change h (.begin module process (seats.map Placement.ofSeat))
      (congrArg (Option.map Module.team) hm) nofun hchange
  rwa [← hteam]

theorem manages_cancelDraft (h : s.Sound) {module : String}
    (hchange : (cancelDraft c s user module).store.holdings team ≠ s.holdings team) :
    s.hasTeamPermission team user managePermission = true := by
  obtain ⟨⟨⟩, hchecks, -, hchange⟩ := exists_of_after hchange
  rw [Reply.store_done] at hchange
  simp only [bind_eq_ok_iff, lift_eq_ok_iff, Store.requireTeamPermission_eq_ok_iff,
    Store.draft_eq_ok_iff] at hchecks
  obtain ⟨d, hd, -, -, hpermission⟩ := hchecks
  have hteam : d.team = team :=
    team_of_change h (.cancel module) (congrArg (Option.map Draft.team) hd) nofun hchange
  rwa [← hteam]

theorem authorized_vacateSlot (h : s.Sound) {module : String} {slot : Int} {body : Body} {u : Store}
    (hchange : (vacateSlot c s user module slot).store.holdings team ≠ s.holdings team) :
    Authorized s u team user body (.vacateSlot module slot) := by
  obtain ⟨⟨⟩, hchecks, -, hchange⟩ := exists_of_after hchange
  rw [Reply.store_done] at hchange
  simp only [bind_eq_ok_iff, lift_eq_ok_iff, Store.draft_eq_ok_iff] at hchecks
  obtain ⟨d, hd, hallowed⟩ := hchecks
  have hteam : d.team = team :=
    team_of_change h (.unassign module slot) (congrArg (Option.map Draft.team) hd) nofun
      hchange
  split at hallowed
  · rename_i hseated
    exact .leaver hd hteam hseated
  · have hmanager := lift_eq_ok_iff.1 hallowed
    obtain ⟨-, -, hpermission⟩ := Store.requireTeamPermission_eq_ok_iff.1 hmanager
    exact .manager rfl (hteam ▸ hpermission)

theorem authorized_advanceDraft (h : s.Sound) {module : String} {body : Body} {u : Store}
    (hchange : (advanceDraft c s user module body).store.holdings team ≠ s.holdings team) :
    Authorized s u team user body (.advanceDraft module) := by
  obtain ⟨⟨target, slot⟩, hfields, -, hchange⟩ := exists_of_after hchange
  rw [Reply.store_ofOutcome] at hchange
  rcases advance_cases c s module user slot target with ⟨f, hf⟩ | ⟨d, _, _, _, -, hd, hseated, -⟩
  · rw [hf] at hchange
    exact absurd rfl hchange
  · refine .occupant hfields hd ?_ hseated
    by_cases hmodule : ∃ m ∈ s.modules, m.id = module ∧ m.team = team
    · exact Or.inr hmodule
    · refine Or.inl (team_of_change h (.advance module user slot target)
        (congrArg (Option.map Draft.team) hd) ?_ hchange)
      rintro _ _ _ _ ⟨⟩ m hm hid hown
      exact hmodule ⟨m, hm, hid, hown⟩

/-- Who takes a slot without being a manager takes a free one. -/
theorem authorized_claim (h : s.Sound) {module : String} {slot : Int} {body : Body} {d : Draft}
    (hasked : takeFields user body = .ok (module, slot, user)) (hd : s.draft? module = some d)
    (hchange : (claim c s module slot user).store.holdings team ≠ s.holdings team) :
    Authorized s (claim c s module slot user).store team user body .takeSlot := by
  have hteam : d.team = team :=
    team_of_change h (.claim module slot user) (congrArg (Option.map Draft.team) hd) nofun
      hchange
  rcases claim_cases c s module slot user with ⟨f, hf⟩ |
    ⟨e, row, w, -, he, -, hrow, hmember, hfree, hrole, rfl, -, ho⟩
  · rw [hf] at hchange
    exact absurd rfl hchange
  · obtain rfl : d = e := Option.some.inj (hd.symm.trans he)
    obtain ⟨rfl, -⟩ := Store.slotIn?_eq_some hrow
    rw [ho] at hchange ⊢
    have hextends := Work.extends_outcome c
      (((Change.start d).seat row.id user).work s (d.seat row.id user))
    subst hteam
    refine .member hasked hd rfl hmember hrow (Store.admits_of_requireRole hrole) ?_ hextends
    cases hoccupant : d.occupant? row.id with
    | none => rfl
    | some other =>
        -- Who sits there already stays, so that nothing would have changed.
        obtain rfl := hfree other hoccupant
        have hmem := (h.draft?_eq_some_iff.1 hd).1
        have hmodule := Store.module_of_draft? hd
        subst hmodule
        have hsame : s.putDraft (d.seat row.id other) = s := by
          rw [Draft.seat_of_occupant (h.seats_ordered d hmem) hoccupant]
          exact h.putDraft_self hd
        change Store.Extends _ (s.putDraft (d.seat row.id other)) at hextends
        rw [hsame] at hextends
        exact absurd (hextends.holdings _) hchange

theorem authorized_takeSlot (h : s.Sound) {body : Body}
    (hchange : (takeSlot c s user body).store.holdings team ≠ s.holdings team) :
    Authorized s (takeSlot c s user body).store team user body .takeSlot := by
  obtain ⟨⟨d, slot, assignee, manager⟩, hchecks, hstore, hchange⟩ := exists_of_after hchange
  have hstore : (takeSlot c s user body).store = _ := hstore
  rw [hstore]
  simp only [bind_eq_ok_iff, lift_eq_ok_iff, Store.draft_eq_ok_iff, Store.teamPermission_eq_ok_iff,
    Prod.exists] at hchecks
  obtain ⟨module, _, other, hasked, d', hd, granted, ⟨-, -, hpermission⟩, hchecks⟩ := hchecks
  by_cases hforeign : other ≠ user ∧ granted = false
  · -- Only a manager seats somebody else.
    rw [if_pos hforeign] at hchecks
    simp only [bind_eq_ok_iff, lift_eq_ok_iff, Store.requireTeamPermission_eq_ok_iff] at hchecks
    obtain ⟨⟨⟩, ⟨-, -, hgranted⟩, -⟩ := hchecks
    rw [hpermission, hforeign.2] at hgranted
    cases hgranted
  · rw [if_neg hforeign, pure_eq_ok_iff] at hchecks
    obtain ⟨⟩ := hchecks
    have hmodule := Store.module_of_draft? hd
    subst hmodule
    cases manager with
    | true =>
        have hseat : (Reply.done (assign c s d.module slot assignee)).store.holdings team ≠
            s.holdings team := hchange
        rw [Reply.store_done] at hseat
        have hteam : d.team = team :=
          team_of_change h (.assign d.module slot assignee) (congrArg (Option.map Draft.team) hd)
            nofun hseat
        exact .manager rfl (hteam ▸ hpermission)
    | false =>
        have hself : assignee = user := by
          by_contra hne
          exact hforeign ⟨hne, rfl⟩
        subst hself
        have hseat : (Reply.done (claim c s d.module slot assignee)).store.holdings team ≠
            s.holdings team := hchange
        rw [Reply.store_done] at hseat
        have hclaim := authorized_claim h hasked hd hseat
        rwa [← Reply.store_done] at hclaim

end Drafts

/-! ### Requests -/

/-- A request changes nothing, or it does for a user what the user asks for. -/
theorem store_route (c : Conditions) (s : Store) (r : Request) :
    (route c s r).store = s ∨ ∃ user a, userOfHeader? r.user = some user ∧ r.action? = some a ∧
      route c s r = respond c s user r.body a := by
  unfold route Request.action?
  dsimp only
  cases Place.ofPath? r.path with
  | none =>
      left
      cases Place.ofPath? (mergeSlashes r.path) <;> rfl
  | some place =>
      dsimp only
      rw [Option.bind_some]
      unfold answerAt
      split
      · exact Or.inl rfl
      split
      · exact Or.inl rfl
      cases place.endpoint? (Place.fullMethod (methodName r.method)) with
      | none => exact Or.inl rfl
      | some e =>
          cases e with
          | ready => exact Or.inl rfl
          | live => exact Or.inl rfl
          | action a =>
              dsimp only [answer]
              cases userOfHeader? r.user with
              | none => exact Or.inl rfl
              | some user => exact Or.inr ⟨user, a, rfl, rfl, rfl⟩

/-- What is stored for a team is changed by an action only if the user may do that. -/
theorem authorized_respond (h : s.Sound) {body : Body} {a : Action}
    (hchange : (respond c s user body a).store.holdings team ≠ s.holdings team) :
    Authorized s (respond c s user body a).store team user body a := by
  cases a with
  | createProcess => exact .editor rfl (edits_createProcess h hchange)
  | renameProcess process => exact .editor rfl (edits_renameProcess h hchange)
  | deleteProcess process => exact .editor rfl (edits_deleteProcess h hchange)
  | createVersion process => exact .editor rfl (edits_createVersion h hchange)
  | deleteVersion process version => exact .editor rfl (edits_deleteVersion h hchange)
  | beginDraft module => exact .manager rfl (manages_beginDraft h hchange)
  | cancelDraft module => exact .manager rfl (manages_cancelDraft h hchange)
  | advanceDraft module => exact authorized_advanceDraft h hchange
  | vacateSlot module slot => exact authorized_vacateSlot h hchange
  | takeSlot => exact authorized_takeSlot h hchange
  | _ => exact absurd (congrArg (fun u => u.holdings team) (Reply.store_read _ _)) hchange

/-- Requests without a valid user change nothing, and every other request changes what is stored for
a team only if its user may do there what the request asks for. -/
theorem writes_authorized (h : Reachable s) (c : Conditions) (r : Request) {reply : Reply}
    (hreply : handle c s r = .ok reply) :
    (userOfHeader? r.user = none → reply.store = s) ∧
      ∀ team, reply.store.holdings team ≠ s.holdings team →
        ∃ user a, userOfHeader? r.user = some user ∧ r.action? = some a ∧
          Authorized s reply.store team user r.body a := by
  have hstore : reply.store = (route c s r).store := by
    unfold handle at hreply
    split at hreply
    · cases hreply
    · rw [← Except.ok.inj hreply]
      split <;> rfl
  rw [hstore]
  rcases store_route c s r with hkept | ⟨user, a, huser, ha, hroute⟩
  · rw [hkept]
    exact ⟨fun _ => rfl, fun team hchange => absurd rfl hchange⟩
  · refine ⟨fun hnone => ?_, fun team hchange => ?_⟩
    · rw [hnone] at huser
      cases huser
    · rw [hroute] at hchange ⊢
      exact ⟨user, a, huser, ha, authorized_respond h.sound hchange⟩

/-- The request by which the author submits the draft of the run. -/
def submission : Request where
  method := "POST"
  path := "/api/v1/drafts/m/advance"
  user := some "4"
  body := .json (.object [("target", .int 2), ("slot", .int 1)])

/-- The author may submit the draft, and doing so changes what is stored for the team. -/
theorem submission_of_review :
    ∃ reply, handle Review.conditions Review.store submission = .ok reply ∧
      reply.store.holdings 1 ≠ Review.store.holdings 1 ∧
      ∃ user a, userOfHeader? submission.user = some user ∧ submission.action? = some a ∧
        Authorized Review.store reply.store 1 user submission.body a := by
  refine ⟨_, rfl, ?_, ?_⟩
  · decide +kernel
  · exact (writes_authorized Review.reachable Review.conditions submission rfl).2 1
      (by decide +kernel)

end Editorial.Api
