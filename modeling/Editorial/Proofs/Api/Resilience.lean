import Editorial.Proofs.Api.Authorization
import Editorial.Proofs.Api.Refusal
import Editorial.Proofs.Draft.Refusal
import Editorial.Proofs.Process.Refusal
import Editorial.Proofs.Store.Storable

/-!
# Requests that get an answer

When nothing around the service fails, a request is answered, or it overtaxes the service
(`handle_answers`): by a number that the database cannot hold, by digits that are no numeral or an
infinite number, by a body of the wrong shape or nested too deep, by a description whose permissions
cannot be compared, or by a name with half characters. `Action.Overtaxes` lists all such requests;
those in `Overtaxing.requests` do get the response that tells nothing (`overtaxing_unanswered`). The
endpoints are judged one by one, each by the rules for the way in which it goes on.
-/

namespace Editorial.Api

open Json

/-! ### Requests that overtax the service -/

namespace Action

/-- Whether the user is looked up in the database. Who advances a draft only has to sit in it. -/
def looksUpUser : Action → Bool
  | advanceDraft _ => false
  | _ => true

/-- The ids in the path. -/
def ids : Action → List Int
  | vacateSlot _ slot => [slot]
  | showProcess p | renameProcess p | deleteProcess p | showTree p => [p]
  | listVersions p | createVersion p => [p]
  | showVersion p v | deleteVersion p v | showVersionTree p v => [p, v]
  | showStep p v step => [p, v, step]
  | _ => []

/-- The fields of the body that hold a whole number each. -/
def numberFields : Action → List String
  | advanceDraft _ => ["target", "slot"]
  | beginDraft _ => ["process"]
  | createProcess => ["team"]
  | takeSlot => ["slot", "user"]
  | _ => []

/-- Those of them whose number is looked up in the database. -/
def keyFields : Action → List String
  | advanceDraft _ => ["target"]
  | a => a.numberFields

/-- Whether the body is looked at. -/
def readsBody : Action → Bool
  | renameProcess _ | createVersion _ => true
  | a => !a.numberFields.isEmpty

/-- A body without fields that seems to have a name, or of which that cannot be asked. -/
def seemsNamed : Json → Bool
  | .text t => occursIn (Text.Wording.whole "name").pieces t.pieces
  | .array items => items.contains (.text "name")
  | .object _ => false
  | v => v.isGiven

/-- What a user asks for that overtaxes the service. -/
inductive Overtaxes (s : Store) (user : Int) (body : Body) : Action → Prop where
  | user {a : Action} (asked : a.looksUpUser = true) (large : isStorable user = false) :
      Overtaxes s user body a
  | path {a : Action} {id : Int} (asked : id ∈ a.ids) (large : isStorable id = false) :
      Overtaxes s user body a
  | depth {a : Action} (reads : a.readsBody = true) (deep : body = .tooDeep) :
      Overtaxes s user body a
  | shape {a : Action} (reads : a.numberFields ≠ []) (shapeless : body.IsShapeless) :
      Overtaxes s user body a
  | digits {a : Action} {fields : Fields} {name : String} (given : body.fields = .ok fields)
      (asked : name ∈ a.numberFields) (odd : OddDigits (field fields name)) :
      Overtaxes s user body a
  | number {a : Action} {fields : Fields} {name : String} {n : Int}
      (given : body.fields = .ok fields) (asked : name ∈ a.keyFields)
      (denoted : wholeField fields name = .ok (some n)) (large : isStorable n = false) :
      Overtaxes s user body a
  | infinity {module : String} {fields : Fields} (given : body.fields = .ok fields)
      (infinite : AssignsInfinity (field fields "slots")) :
      Overtaxes s user body (beginDraft module)
  | seat {module : String} {fields : Fields} {seats : List Seat} {seat : Seat}
      (given : body.fields = .ok fields)
      (assigned : assignments (field fields "slots") = .ok (some seats)) (mem : seat ∈ seats)
      (large : isStorable seat.slot = false ∨ isStorable seat.user = false) :
      Overtaxes s user body (beginDraft module)
  | created {fields : Fields} (given : body.fields = .ok fields)
      (description : Description.Overtaxes (.object (fields.filter fun f => f.1 != "team"))) :
      Overtaxes s user body createProcess
  /-- The database has run out of ids for processes. -/
  | exhausted (large : isStorable (nextId (s.processes.map Process.id)) = false) :
      Overtaxes s user body createProcess
  | described {process : Int} {raw : Option Json} (given : body.value? = .ok raw)
      (description : Description.Overtaxes (raw.getD .null)) :
      Overtaxes s user body (createVersion process)
  | nameless {process : Int} {v : Json} (given : body = .json v) (seems : seemsNamed v = true) :
      Overtaxes s user body (renameProcess process)
  | name {process : Int} {fields : Fields} {w : Text.Wording} (given : body.fields = .ok fields)
      (asked : find? fields "name" = some (.text w)) (torn : w.strip.isTorn = true) :
      Overtaxes s user body (renameProcess process)
  | module {fields : Fields} {pieces : List Text.Piece} (given : body.fields = .ok fields)
      (asked : field fields "draft" = .text (.torn pieces)) :
      Overtaxes s user body takeSlot

end Action

/-! ### Reading -/

section Reading

variable {cause : Prop} {s : Store} {user : Int} {process : Int}

theorem onlyFails_readableDraft (hs : s.Sound) {module : String}
    (huser : isStorable user = false → cause) :
    OnlyFails (Failure.BlamedOn cause) (readableDraft s module user) :=
  .bind (Store.onlyFails_draft module) fun _ hd =>
    have hteam := Drafting.team_storable hs (Store.draft_eq_ok_iff.1 hd)
    .bind (Store.onlyFails_teamPermission huser (of_not_storable hteam)) fun _ _ =>
      .require (fun _ => trivial) fun _ => Or.inl rfl

theorem onlyFails_projection {d : Draft} (huser : isStorable user = false → cause) :
    OnlyFails (Failure.BlamedOn cause) (s.projection d user) :=
  .bind (onlyFails_requireStorable huser) fun _ _ => trivial

theorem onlyFails_visibleProcess (hprocess : isStorable process = false → cause)
    (huser : isStorable user = false → cause) :
    OnlyFails (Failure.BlamedOn cause) (visibleProcess s process user) :=
  .bind (Store.onlyFails_process hprocess) fun _ _ =>
    .bind (onlyFails_requireStorable huser) fun _ _ =>
      .require (fun _ => trivial) fun _ => Or.inl rfl

theorem onlyFails_visibleVersion {version : Int} (hprocess : isStorable process = false → cause)
    (hversion : isStorable version = false → cause) (huser : isStorable user = false → cause) :
    OnlyFails (Failure.BlamedOn cause) (visibleVersion s process version user) :=
  .bind (onlyFails_visibleProcess hprocess huser) fun _ _ => Store.onlyFails_version hversion

theorem onlyFails_editableProcess (hs : s.Sound) (hprocess : isStorable process = false → cause)
    (huser : isStorable user = false → cause) :
    OnlyFails (Failure.BlamedOn cause) (editableProcess s process user) :=
  .bind (Store.onlyFails_process hprocess) fun p hp =>
    have hteam := hs.process_team p (List.mem_of_find?_eq_some (Store.process_eq_ok_iff.1 hp).2)
    .bind (Store.onlyFails_requireTeamPermission huser (of_not_storable hteam)) fun _ _ => trivial

end Reading

/-! ### Endpoints that show something -/

section Showing

variable {cause : Prop} {s : Store} {user process version : Int}

theorem blamedOn_listDrafts (huser : isStorable user = false → cause) :
    (listDrafts s user).response.BlamedOn cause :=
  blamedOn_read <|
    .bind (onlyFails_lift (.bind (onlyFails_requireStorable huser) fun _ _ => trivial)) fun _ _ =>
      .bind (.mapM fun _ _ => onlyFails_lift (onlyFails_projection huser)) fun _ _ =>
        ends_json (by decide) _

theorem blamedOn_showDraft (hs : s.Sound) {module : String}
    (huser : isStorable user = false → cause) :
    (showDraft s user module).response.BlamedOn cause :=
  blamedOn_read <| .bind (onlyFails_lift (onlyFails_readableDraft hs huser)) fun _ _ =>
    .bind (onlyFails_lift (onlyFails_projection huser)) fun _ _ => ends_json (by decide) _

theorem blamedOn_showDraftProcess (hs : s.Sound) {module : String}
    (huser : isStorable user = false → cause) :
    (showDraftProcess s user module).response.BlamedOn cause :=
  blamedOn_read <| .bind (onlyFails_lift (onlyFails_readableDraft hs huser)) fun _ _ =>
    ends_json (by decide) _

theorem blamedOn_listFreeSlots (huser : isStorable user = false → cause) :
    (listFreeSlots s user).response.BlamedOn cause :=
  blamedOn_read <|
    .bind (onlyFails_lift (.bind (onlyFails_requireStorable huser) fun _ _ => trivial)) fun _ _ =>
      .bind (.mapM fun _ _ => .bind (onlyFails_lift (onlyFails_projection huser))
        fun _ _ => trivial) fun _ _ => ends_json (by decide) _

theorem blamedOn_listProcesses (ht : s.TeamsStorable) (huser : isStorable user = false → cause) :
    (listProcesses s user).response.BlamedOn cause := by
  have hteams : ∀ team ∈ s.teamsOf user, isStorable team = true :=
    List.forall_mem_map.2 fun m hm => ht.members m (List.mem_filter.1 hm).1
  have hlist : OnlyFails (Failure.BlamedOn cause)
      (Definitions.processesOf s (s.teamsOf user)) :=
    .bind (.forM fun team hteam => onlyFails_of_storable (hteams team hteam)) fun _ _ => trivial
  exact blamedOn_read <| .bind (onlyFails_lift (onlyFails_requireStorable huser)) fun _ _ =>
    .bind (onlyFails_lift hlist) fun _ _ => ends_json (by decide) _

theorem blamedOn_showProcess (hprocess : isStorable process = false → cause)
    (huser : isStorable user = false → cause) :
    (showProcess s user process).response.BlamedOn cause :=
  blamedOn_read <| .bind (onlyFails_lift (onlyFails_visibleProcess hprocess huser)) fun _ _ =>
    ends_json (by decide) _

theorem blamedOn_listVersions (hprocess : isStorable process = false → cause)
    (huser : isStorable user = false → cause) :
    (listVersions s user process).response.BlamedOn cause :=
  blamedOn_read <| .bind (onlyFails_lift (onlyFails_visibleProcess hprocess huser)) fun _ _ =>
    ends_json (by decide) _

theorem blamedOn_showTree (hprocess : isStorable process = false → cause)
    (huser : isStorable user = false → cause) :
    (showTree s user process).response.BlamedOn cause :=
  blamedOn_read <| .bind (onlyFails_lift (onlyFails_visibleProcess hprocess huser)) fun p _ =>
    .bind (onlyFails_lift (Store.onlyFails_latest p.id)) fun _ _ => ends_json (by decide) _

variable (hprocess : isStorable process = false → cause)
  (hversion : isStorable version = false → cause) (huser : isStorable user = false → cause)

include hprocess hversion huser

theorem blamedOn_showVersion : (showVersion s user process version).response.BlamedOn cause :=
  blamedOn_read <| .bind (onlyFails_lift (onlyFails_visibleVersion hprocess hversion huser))
    fun _ _ => ends_json (by decide) _

theorem blamedOn_showVersionTree :
    (showVersionTree s user process version).response.BlamedOn cause :=
  blamedOn_read <| .bind (onlyFails_lift (onlyFails_visibleVersion hprocess hversion huser))
    fun _ _ => ends_json (by decide) _

theorem blamedOn_showStep {step : Int} (hstep : isStorable step = false → cause) :
    (showStep s user process version step).response.BlamedOn cause :=
  blamedOn_read <| .bind (onlyFails_lift (onlyFails_visibleVersion hprocess hversion huser))
    fun _ _ => .bind (onlyFails_lift (Store.onlyFails_step hstep)) fun _ _ =>
      ends_json (by decide) _

end Showing

/-! ### Endpoints that change something without a body -/

section Changing

variable {cause : Prop} {c : Conditions} {s : Store} {user : Int}

theorem blamedOn_deleteProcess (hs : s.Sound) (hc : c.Smooth) {process : Int}
    (hprocess : isStorable process = false → cause) (huser : isStorable user = false → cause) :
    (deleteProcess c s user process).response.BlamedOn cause :=
  blamedOn_after (onlyFails_lift (onlyFails_editableProcess hs hprocess huser)) fun p _ =>
    blamedOn_done (Definitions.onlyFails_deleteProcess hc p)

theorem blamedOn_deleteVersion (hs : s.Sound) (hc : c.Smooth) {process version : Int}
    (hprocess : isStorable process = false → cause) (hversion : isStorable version = false → cause)
    (huser : isStorable user = false → cause) :
    (deleteVersion c s user process version).response.BlamedOn cause :=
  blamedOn_after
    (.bind (onlyFails_lift (onlyFails_editableProcess hs hprocess huser)) fun _ _ =>
      onlyFails_lift (Store.onlyFails_version hversion))
    fun v _ => blamedOn_done (Definitions.onlyFails_deleteVersion hc v)

theorem onlyFails_requireManager (hs : s.Sound) {module : String} {d : Draft}
    (hd : (liftM (s.draft module) : Except Response Draft) = .ok d)
    (huser : isStorable user = false → cause) :
    OnlyFails (Response.BlamedOn cause) (liftM (s.requireTeamPermission (some user) d.team
      managePermission) : Except Response Unit) :=
  have hteam := Drafting.team_storable hs (Store.draft_eq_ok_iff.1 (lift_eq_ok_iff.1 hd))
  onlyFails_lift (Store.onlyFails_requireTeamPermission huser (of_not_storable hteam))

theorem blamedOn_cancelDraft (hs : s.Sound) (hc : c.Smooth) {module : String}
    (huser : isStorable user = false → cause) :
    (cancelDraft c s user module).response.BlamedOn cause :=
  blamedOn_after
    (.bind (onlyFails_lift (Store.onlyFails_draft module)) fun _ hd =>
      onlyFails_requireManager hs hd huser)
    fun _ _ => blamedOn_done (Drafting.onlyFails_cancel hc module)

theorem blamedOn_vacateSlot (hs : s.Sound) (hc : c.Smooth) {module : String} {slot : Int}
    (hslot : isStorable slot = false → cause) (huser : isStorable user = false → cause) :
    (vacateSlot c s user module slot).response.BlamedOn cause :=
  blamedOn_after
    (.bind (onlyFails_lift (Store.onlyFails_draft module)) fun _ hd =>
      .ite (fun _ => trivial) fun _ => onlyFails_requireManager hs hd huser)
    fun _ _ => blamedOn_done (Drafting.onlyFails_unassign hs hc hslot)

end Changing

/-! ### Endpoints that read a body -/

section Reading

variable {c : Conditions} {s : Store} {user : Int} {body : Body}

theorem onlyFails_given {a : Action} (hreads : a.readsBody = true) (hfields : a.numberFields ≠ []) :
    OnlyFails (Response.BlamedOn (a.Overtaxes s user body))
      (liftM body.fields : Except Response Fields) :=
  onlyFails_lift (onlyFails_fields (.depth hreads) (.shape hfields))

theorem onlyFails_number {a : Action} {fields : Fields} {name : String}
    (hfields : (liftM body.fields : Except Response Fields) = .ok fields)
    (hname : name ∈ a.numberFields) :
    OnlyFails (Response.BlamedOn (a.Overtaxes s user body))
      (liftM (wholeField fields name) : Except Response (Option Int)) :=
  onlyFails_lift (onlyFails_wholeField (.digits (lift_eq_ok_iff.1 hfields) hname))

theorem onlyFails_advanceFields {module : String} :
    OnlyFails (Response.BlamedOn ((Action.advanceDraft module).Overtaxes s user body))
      (advanceFields body) := by
  refine .bind (onlyFails_given rfl nofun) fun fields hfields =>
    .bind (onlyFails_number hfields (.head _)) fun target _ =>
      .bind (onlyFails_number hfields (.tail _ (.head _))) fun slot _ => ?_
  split
  · trivial
  · exact onlyFails_refuse (by decide) _

theorem exists_of_advanceFields {target slot : Int} (h : advanceFields body = .ok (target, slot)) :
    ∃ fields, body.fields = .ok fields ∧ wholeField fields "target" = .ok (some target) := by
  simp only [advanceFields, bind_eq_ok_iff, lift_eq_ok_iff] at h
  obtain ⟨fields, hfields, asked, htarget, _, -, h⟩ := h
  split at h
  · cases h
    exact ⟨fields, hfields, htarget⟩
  · cases h

theorem blamedOn_advanceDraft (hs : s.Sound) (hc : c.Smooth) {module : String} :
    (advanceDraft c s user module body).response.BlamedOn
      ((Action.advanceDraft module).Overtaxes s user body) := by
  refine blamedOn_after onlyFails_advanceFields fun ⟨target, slot⟩ hasked => ?_
  obtain ⟨fields, hfields, htarget⟩ := exists_of_advanceFields hasked
  refine blamedOn_ofOutcome (Drafting.onlyFails_advance hs hc ?_) fun a ha => ?_
  · exact .number hfields (.head _) htarget
  · have huser := Drafting.isStorable_of_moved hs ha
    cases a with
    | finished => exact ends_json (by decide) _
    | moved d =>
        exact .bind (onlyFails_projection (of_not_storable huser)) fun _ _ =>
          ends_json (by decide) _

theorem onlyFails_beginFields {module : String} :
    OnlyFails (Response.BlamedOn ((Action.beginDraft module).Overtaxes s user body))
      (beginFields body) := by
  refine .bind (onlyFails_given rfl nofun) fun fields hfields =>
    .bind (onlyFails_number hfields (.head _)) fun process _ => ?_
  cases process with
  | none => exact onlyFails_refuse (by decide) _
  | some process =>
      refine .bind (onlyFails_lift (onlyFails_assignments (.infinity (lift_eq_ok_iff.1 hfields))))
        fun seats _ => ?_
      cases seats with
      | none => exact onlyFails_refuse (by decide) _
      | some seats => trivial

theorem exists_of_beginFields {process : Int} {seats : List Seat}
    (h : beginFields body = .ok (process, seats)) :
    ∃ fields, body.fields = .ok fields ∧ wholeField fields "process" = .ok (some process) ∧
      assignments (field fields "slots") = .ok (some seats) := by
  simp only [beginFields, bind_eq_ok_iff, lift_eq_ok_iff] at h
  obtain ⟨fields, hfields, asked, hprocess, h⟩ := h
  cases asked with
  | none => cases h
  | some asked =>
      simp only [bind_eq_ok_iff, lift_eq_ok_iff] at h
      obtain ⟨assigned, hseats, h⟩ := h
      cases assigned with
      | none => cases h
      | some assigned =>
          cases h
          exact ⟨fields, hfields, hprocess, hseats⟩

theorem blamedOn_beginDraft (hs : s.Sound) (ht : s.TeamsStorable) (hc : c.Smooth)
    {module : String} :
    (beginDraft c s user module body).response.BlamedOn
      ((Action.beginDraft module).Overtaxes s user body) := by
  refine blamedOn_after (.bind (onlyFails_lift (Store.onlyFails_module module)) fun m hm => ?_)
    fun ⟨process, seats⟩ hchecks => ?_
  · have hfound := Store.module_eq_ok_iff.1 (lift_eq_ok_iff.1 hm)
    have hteam := ht.modules m (List.mem_of_find?_eq_some hfound)
    exact .bind (onlyFails_lift
      (Store.onlyFails_requireTeamPermission (.user rfl) (of_not_storable hteam)))
      fun _ _ => onlyFails_beginFields
  · simp only [bind_eq_ok_iff] at hchecks
    obtain ⟨m, -, ⟨⟩, -, hasked⟩ := hchecks
    obtain ⟨fields, hfields, hprocess, hseats⟩ := exists_of_beginFields hasked
    refine blamedOn_ofOutcome (Drafting.onlyFails_begin hs hc ?_ (ordered_assignments hseats)
      (fun seat hmem hlarge => ?_) fun seat hmem hlarge => ?_) fun d _ => ?_
    · exact .number hfields (.head _) hprocess
    · exact .seat hfields hseats hmem (Or.inl hlarge)
    · exact .seat hfields hseats hmem (Or.inr hlarge)
    · exact .bind (onlyFails_projection (.user rfl)) fun _ _ => ends_json (by decide) _

theorem exists_of_createFields {team : Int} {raw : Json}
    (h : createFields body = .ok (team, raw)) :
    ∃ fields, body.fields = .ok fields ∧ wholeField fields "team" = .ok (some team) ∧
      raw = .object (fields.filter fun f => f.1 != "team") := by
  simp only [createFields, bind_eq_ok_iff, lift_eq_ok_iff] at h
  obtain ⟨fields, hfields, asked, hteam, h⟩ := h
  cases asked with
  | none => cases h
  | some asked =>
      cases h
      exact ⟨fields, hfields, hteam, rfl⟩

theorem process_of_createProcess {team : Int} {raw : Json} {v : Version}
    (h : (Definitions.createProcess c s team raw).result = .ok v) :
    v.process = nextId (s.processes.map Process.id) := by
  rcases Definitions.createProcess_cases c s team raw with ⟨f, hf⟩ |
    ⟨d, t, w, name, -, -, -, -, -, -, -, ht, ho⟩
  · rw [hf] at h
    cases h
  · rw [ho] at h
    obtain rfl : w = v := Except.ok.inj h
    exact congrArg Version.process (Prod.ext_iff.1 ht).2

theorem blamedOn_createProcess (hc : c.Smooth) :
    (createProcess c s user body).response.BlamedOn
      (Action.createProcess.Overtaxes s user body) := by
  have hfields : OnlyFails (Response.BlamedOn (Action.createProcess.Overtaxes s user body))
      (createFields body) := by
    refine .bind (onlyFails_given rfl nofun) fun fields hfields =>
      .bind (onlyFails_number hfields (.head _)) fun team _ => ?_
    cases team with
    | none => exact onlyFails_refuse (by decide) _
    | some team => trivial
  refine blamedOn_after (.bind hfields fun ⟨team, raw⟩ hasked => ?_) fun ⟨team, raw⟩ hchecks => ?_
  · obtain ⟨fields, hfields, hteam, -⟩ := exists_of_createFields hasked
    exact .bind (onlyFails_lift (Store.onlyFails_requireTeamPermission (.user rfl)
      (.number hfields (.head _) hteam))) fun _ _ => trivial
  · simp only [bind_eq_ok_iff, pure_eq_ok_iff, Prod.exists, Prod.mk.injEq] at hchecks
    obtain ⟨_, _, hasked, ⟨⟩, -, rfl, rfl⟩ := hchecks
    obtain ⟨fields, hfields, hteam, rfl⟩ := exists_of_createFields hasked
    refine blamedOn_ofOutcome (Definitions.onlyFails_createProcess hc
      (.number hfields (.head _) hteam) (.created hfields)) fun v hv => ?_
    have hid := process_of_createProcess hv
    exact .bind (Store.onlyFails_process fun hlarge => .exhausted (hid ▸ hlarge)) fun _ _ =>
      ends_json (by decide) _

theorem blamedOn_createVersion (hs : s.Sound) (hc : c.Smooth) {process : Int} :
    (createVersion c s user process body).response.BlamedOn
      ((Action.createVersion process).Overtaxes s user body) := by
  refine blamedOn_after
    (.bind (onlyFails_lift (onlyFails_editableProcess hs (.path (.head _)) (.user rfl))) fun _ _ =>
      .bind (onlyFails_lift (onlyFails_value (.depth rfl))) fun _ _ => trivial)
    fun ⟨p, raw⟩ hchecks => ?_
  simp only [bind_eq_ok_iff, pure_eq_ok_iff, lift_eq_ok_iff, Prod.mk.injEq] at hchecks
  obtain ⟨_, -, given, hgiven, rfl, rfl⟩ := hchecks
  exact blamedOn_ofOutcome (Definitions.onlyFails_createVersion hc (.described hgiven))
    fun _ _ => ends_json (by decide) _

theorem onlyFails_withoutName {cause : Prop} {mentioned : Bool} (h : mentioned = true → cause) :
    OnlyFails (Response.BlamedOn cause) (withoutName mentioned) :=
  .ite (fun hmentioned => Or.inr ⟨rfl, h hmentioned⟩) fun _ => onlyFails_refuse (by decide) _

theorem onlyFails_renameField {process : Int} :
    OnlyFails (Response.BlamedOn ((Action.renameProcess process).Overtaxes s user body))
      (renameField body) := by
  have hjson {v : Json} (hv : (liftM body.value? : Except Response (Option Json)) = .ok (some v)) :
      body = .json v := by
    cases body with
    | json w => rw [Option.some.inj (Except.ok.inj hv)]
    | _ => cases hv
  refine .bind (onlyFails_lift (onlyFails_value (.depth rfl))) fun v hv => ?_
  split
  · exact onlyFails_withoutName fun hseems => .nameless (hjson hv) hseems
  · exact onlyFails_withoutName fun hseems => .nameless (hjson hv) hseems
  · rename_i htext harray
    refine .bind (onlyFails_lift (onlyFails_fields (.depth rfl) ?_)) fun fields _ => ?_
    · rintro ⟨w, rfl, hgiven, hobject⟩
      refine .nameless rfl ?_
      obtain rfl : some w = v := Except.ok.inj (lift_eq_ok_iff.1 hv)
      cases w with
      | text t => exact absurd rfl (htext t)
      | array items => exact absurd rfl (harray items)
      | object fields => exact absurd rfl (hobject fields)
      | _ => exact hgiven
    · split
      · trivial
      · exact onlyFails_refuse (by decide) _

theorem exists_of_renameField {name : Json} (h : renameField body = .ok name) :
    ∃ fields, body.fields = .ok fields ∧ find? fields "name" = some name := by
  have hwithout {mentioned : Bool} : withoutName mentioned ≠ .ok name := by
    unfold withoutName
    split <;> nofun
  obtain ⟨v, -, h⟩ := bind_eq_ok_iff.1 h
  split at h
  · exact absurd h hwithout
  · exact absurd h hwithout
  · simp only [bind_eq_ok_iff, lift_eq_ok_iff] at h
    obtain ⟨fields, hfields, h⟩ := h
    split at h
    · rename_i found hfound
      obtain rfl := pure_eq_ok_iff.1 h
      exact ⟨fields, hfields, hfound⟩
    · cases h

theorem blamedOn_renameProcess (hs : s.Sound) (hc : c.Smooth) {process : Int} :
    (renameProcess c s user process body).response.BlamedOn
      ((Action.renameProcess process).Overtaxes s user body) := by
  refine blamedOn_after
    (.bind (onlyFails_lift (onlyFails_editableProcess hs (.path (.head _)) (.user rfl))) fun _ _ =>
      .bind onlyFails_renameField fun _ _ => trivial)
    fun ⟨p, name⟩ hchecks => ?_
  simp only [bind_eq_ok_iff, pure_eq_ok_iff, Prod.mk.injEq] at hchecks
  obtain ⟨_, -, _, hasked, rfl, rfl⟩ := hchecks
  obtain ⟨fields, hfields, hname⟩ := exists_of_renameField hasked
  refine blamedOn_ofOutcome (Definitions.onlyFails_rename hc fun stripped hread htorn => ?_)
    fun _ _ => ends_json (by decide) _
  unfold readName at hread
  split at hread
  · split at hread
    · cases hread
    · cases hread
      exact .name hfields hname htorn
  · cases hread

/-- Two branches that go on in the same way. -/
theorem ite_bind {ε α β : Type} {p : Prop} [Decidable p] (x y : Except ε α) (f : α → Except ε β) :
    (if p then x >>= f else y >>= f) = (if p then x else y) >>= f := by
  split <;> rfl

theorem onlyFails_takeFields :
    OnlyFails (Response.BlamedOn (Action.takeSlot.Overtaxes s user body))
      (takeFields user body) := by
  refine .bind (onlyFails_given rfl nofun) fun fields hfields =>
    .bind (onlyFails_number hfields (.head _)) fun slot _ => ?_
  dsimp only
  split
  · rw [ite_bind]
    refine .bind (.ite (fun _ => trivial) fun _ => onlyFails_number hfields (.tail _ (.head _)))
      fun assignee _ => ?_
    cases assignee with
    | none => exact onlyFails_refuse (by decide) _
    | some assignee =>
        dsimp only
        split
        · rename_i pieces htorn
          exact Or.inr ⟨rfl, .module (lift_eq_ok_iff.1 hfields) htorn⟩
        · trivial
  · exact onlyFails_refuse (by decide) _

theorem exists_of_takeFields {module : String} {slot assignee : Int}
    (h : takeFields user body = .ok (module, slot, assignee)) :
    ∃ fields, body.fields = .ok fields ∧ wholeField fields "slot" = .ok (some slot) ∧
      (assignee = user ∨ wholeField fields "user" = .ok (some assignee)) := by
  simp only [takeFields, bind_eq_ok_iff, lift_eq_ok_iff] at h
  obtain ⟨fields, hfields, asked, hslot, h⟩ := h
  split at h
  · rw [ite_bind] at h
    obtain ⟨other, hother, h⟩ := bind_eq_ok_iff.1 h
    cases other with
    | none => cases h
    | some other =>
        dsimp only at h
        split at h
        · cases h
        · cases h
          refine ⟨fields, hfields, hslot, ?_⟩
          split at hother
          · exact Or.inl (Option.some.inj (pure_eq_ok_iff.1 hother)).symm
          · exact Or.inr (lift_eq_ok_iff.1 hother)
  · cases h

theorem blamedOn_takeSlot (hs : s.Sound) (hc : c.Smooth) :
    (takeSlot c s user body).response.BlamedOn (Action.takeSlot.Overtaxes s user body) := by
  refine blamedOn_after ?_ fun ⟨d, slot, assignee, manager⟩ hchecks => ?_
  · refine .bind onlyFails_takeFields fun ⟨module, slot, assignee⟩ hasked =>
      .bind (onlyFails_lift (Store.onlyFails_draft module)) fun d hd => ?_
    have hteam := Drafting.team_storable hs (Store.draft_eq_ok_iff.1 (lift_eq_ok_iff.1 hd))
    refine .bind (onlyFails_lift
      (Store.onlyFails_teamPermission (.user rfl) (of_not_storable hteam))) fun manager _ => ?_
    exact .ite (fun _ => .bind (onlyFails_requireManager hs hd (.user rfl)) fun _ _ => trivial)
      fun _ => trivial
  · simp only [bind_eq_ok_iff, Prod.exists] at hchecks
    obtain ⟨module, named, other, hasked, _, -, _, -, hchecks⟩ := hchecks
    obtain ⟨rfl, rfl⟩ : named = slot ∧ other = assignee := by
      split at hchecks
      · obtain ⟨⟨⟩, -, hsame⟩ := bind_eq_ok_iff.1 hchecks
        cases hsame
        exact ⟨rfl, rfl⟩
      · cases hchecks
        exact ⟨rfl, rfl⟩
    obtain ⟨fields, hfields, hslot, hassignee⟩ := exists_of_takeFields hasked
    dsimp only
    split
    · refine blamedOn_done (Drafting.onlyFails_assign hs hc (.number hfields (.head _) hslot) ?_)
      rcases hassignee with rfl | hother
      · exact .user rfl
      · exact .number hfields (.tail _ (.head _)) hother
    · exact blamedOn_done (Drafting.onlyFails_claim hs hc (.number hfields (.head _) hslot)
        (.user rfl))

end Reading

/-! ### All requests -/

section Requests

variable {c : Conditions} {s : Store}

theorem blamedOn_respond (h : Reachable s) (hc : c.Smooth) {user : Int} {body : Body} (a : Action) :
    (respond c s user body a).response.BlamedOn (a.Overtaxes s user body) := by
  have hs := h.sound
  cases a with
  | listDrafts => exact blamedOn_listDrafts (.user rfl)
  | showDraft module => exact blamedOn_showDraft hs (.user rfl)
  | cancelDraft module => exact blamedOn_cancelDraft hs hc (.user rfl)
  | advanceDraft module => exact blamedOn_advanceDraft hs hc
  | showDraftProcess module => exact blamedOn_showDraftProcess hs (.user rfl)
  | vacateSlot module slot => exact blamedOn_vacateSlot hs hc (.path (.head _)) (.user rfl)
  | beginDraft module => exact blamedOn_beginDraft hs h.teamsStorable hc
  | listProcesses => exact blamedOn_listProcesses h.teamsStorable (.user rfl)
  | createProcess => exact blamedOn_createProcess hc
  | showProcess process => exact blamedOn_showProcess (.path (.head _)) (.user rfl)
  | renameProcess process => exact blamedOn_renameProcess hs hc
  | deleteProcess process => exact blamedOn_deleteProcess hs hc (.path (.head _)) (.user rfl)
  | showTree process => exact blamedOn_showTree (.path (.head _)) (.user rfl)
  | listVersions process => exact blamedOn_listVersions (.path (.head _)) (.user rfl)
  | createVersion process => exact blamedOn_createVersion hs hc
  | showVersion process version =>
      exact blamedOn_showVersion (.path (.head _)) (.path (.tail _ (.head _))) (.user rfl)
  | deleteVersion process version =>
      exact blamedOn_deleteVersion hs hc (.path (.head _)) (.path (.tail _ (.head _))) (.user rfl)
  | showVersionTree process version =>
      exact blamedOn_showVersionTree (.path (.head _)) (.path (.tail _ (.head _))) (.user rfl)
  | showStep process version step =>
      exact blamedOn_showStep (.path (.head _)) (.path (.tail _ (.head _))) (.user rfl)
        (.path (.tail _ (.tail _ (.head _))))
  | takeSlot => exact blamedOn_takeSlot hs hc
  | listFreeSlots => exact blamedOn_listFreeSlots (.user rfl)

/-- What a request asks for overtaxes the service. -/
def Request.Overtaxes (s : Store) (r : Request) : Prop :=
  ∃ user a, userOfHeader? r.user = some user ∧ r.action? = some a ∧ a.Overtaxes s user r.body

theorem isAnswer_unknownPath (path : String) : (Response.unknownPath path).IsAnswer :=
  Or.inr (Response.tellsError_json (by decide) (by decide))

theorem isAnswer_methodNotAllowed : Response.methodNotAllowed.IsAnswer :=
  Or.inr (Response.tellsError_json (by decide) (by decide))

theorem isAnswer_health (hping : c.pingError = none) : (health c).IsAnswer := by
  unfold health
  rw [hping]
  exact Or.inl (show (200 : Int) < 400 by decide)

theorem blamedOn_answer (h : Reachable s) (hc : c.Smooth) (hping : c.pingError = none) (r : Request)
    (e : Endpoint) : (answer c s r e).response.BlamedOn
      (∃ user a, userOfHeader? r.user = some user ∧ e = .action a ∧ a.Overtaxes s user r.body) := by
  cases e with
  | ready => exact Or.inl (Or.inl (show (200 : Int) < 400 by decide))
  | live => exact Or.inl (isAnswer_health hping)
  | action a =>
      unfold answer
      dsimp only
      split
      · rename_i user huser
        refine (blamedOn_respond h hc a).imp_right ?_
        rintro ⟨hinternal, hcause⟩
        exact ⟨hinternal, user, a, huser, rfl, hcause⟩
      · exact Or.inl (Or.inr (Response.tellsError_requestError (by decide) _))

theorem blamedOn_route (h : Reachable s) (hc : c.Smooth) (hping : c.pingError = none)
    (r : Request) : (route c s r).response.BlamedOn (r.Overtaxes s) := by
  unfold route
  dsimp only
  cases hplace : Place.ofPath? r.path with
  | none =>
      left
      dsimp only
      split
      · split
        · exact Or.inl (show (308 : Int) < 400 by decide)
        · exact isAnswer_methodNotAllowed
      · exact isAnswer_unknownPath r.path
  | some place =>
      dsimp only
      unfold answerAt
      split
      · exact Or.inl isAnswer_methodNotAllowed
      split
      · left
        dsimp only
        split
        · exact isAnswer_unknownPath r.path
        · exact isAnswer_methodNotAllowed
      split
      · rename_i e he
        refine (blamedOn_answer h hc hping r e).imp_right ?_
        rintro ⟨hinternal, user, a, huser, rfl, hcause⟩
        refine ⟨hinternal, user, a, huser, ?_, hcause⟩
        simp [Request.action?, hplace, he]
      · exact Or.inl (Or.inl (show (200 : Int) < 400 by decide))

/-- In a reachable store and while nothing around the service fails, every response speaks of no
error or tells the client, unless only the head is asked for, of an error of its own, except that
requests which overtax the service may fail without being told why. -/
theorem handle_answers (h : Reachable s) (hc : c.Smooth) (hping : c.pingError = none) {r : Request}
    {reply : Reply} (hreply : handle c s r = .ok reply) :
    reply.response.status < 400 ∨
      (400 ≤ reply.response.status ∧ reply.response.status < 500 ∧
        (r.method ≠ "HEAD" → reply.response.TellsError)) ∨
      reply.response.status = 500 ∧ r.Overtaxes s := by
  have hfull := blamedOn_route h hc hping r
  have hstatus : reply.response.status = (route c s r).response.status ∧
      (r.method ≠ "HEAD" → reply.response = (route c s r).response) := by
    unfold handle at hreply
    split at hreply
    · cases hreply
    · rw [← Except.ok.inj hreply]
      split
      · rename_i hhead
        exact ⟨rfl, fun hne => absurd hhead hne⟩
      · exact ⟨rfl, fun _ => rfl⟩
  rw [hstatus.1]
  rcases hfull with (hlow | htells) | ⟨hinternal, hcause⟩
  · exact Or.inl hlow
  · refine Or.inr (Or.inl ⟨htells.at_least, htells.below, fun hne => ?_⟩)
    rw [hstatus.2 hne]
    exact htells
  · refine Or.inr (Or.inr ⟨?_, hcause⟩)
    rw [hinternal]
    rfl

end Requests

/-- A request to advance the draft that does not say where to is told so. -/
theorem incomplete_advance_of_review :
    let r : Request := { method := "POST", path := "/api/v1/drafts/m/advance", user := some "4"
                         body := .json (object [("slot", int 1)]) }
    Reachable Review.store ∧ Review.conditions.Smooth ∧ Review.conditions.pingError = none ∧
      ∃ reply, handle Review.conditions Review.store r = .ok reply ∧
        reply.response.status = 400 ∧ reply.response.TellsError := by
  intro r
  have hsmooth : Review.conditions.Smooth := Conditions.smooth_of_date rfl true
  have hstatus : (route Review.conditions Review.store r).response.status = 400 := by
    decide +kernel
  have hreply : handle Review.conditions Review.store r =
      .ok (route Review.conditions Review.store r) := rfl
  refine ⟨Review.reachable, hsmooth, rfl, _, hreply, hstatus, ?_⟩
  rcases handle_answers Review.reachable hsmooth rfl hreply with hlow | h | ⟨hhigh, -⟩
  · rw [hstatus] at hlow
    cases hlow
  · exact h.2.2 (by decide)
  · rw [hstatus] at hhigh
    cases hhigh

/-! ### Requests that fail -/

namespace Overtaxing

open Review

/-- The run, with another module and somebody who may edit processes and manage drafts. -/
def store : Store := Store.empty.afterAll (turns ++
  [.direct (.setMember ⟨1, 9, none, [editPermission, managePermission]⟩),
    .direct (.setModule ⟨"n", 1, "", 101⟩)].map (Turn.mk conditions))

theorem reachable : Reachable store := ⟨_, rfl⟩

/-- The least whole number that the database cannot hold. -/
def large : Int := 9223372036854775808

/-- A text with half characters. -/
def torn : Text.Wording := .torn [.half 0xD800]

/-- A description with an array in place of a permission. -/
def description : Fields := [
  ("name", text "Odd"),
  ("start", int 0),
  ("slots", array []),
  ("steps", array [object [
    ("name", text "Done"),
    ("slots", array [object [("slot", int 0), ("permission", array [text "edit"])]])]])]

/-- Requests that overtax the service, each in its own way. -/
def requests : List Request := [
  -- Numbers that are too large: the user, an id in the path, in a field and in an assignment.
  ⟨"GET", "/api/v1/processes", some "9223372036854775808", .absent⟩,
  ⟨"GET", "/api/v1/processes/9223372036854775808", some "9", .absent⟩,
  ⟨"POST", "/api/v1/drafts/m/advance", some "4",
    .json (object [("target", int large), ("slot", int 1)])⟩,
  ⟨"POST", "/api/v1/modules/n/process", some "9",
    .json (object [("process", int 1), ("slots", array [array [int large, int 4]])])⟩,
  -- What is no whole number although it looks like one.
  ⟨"POST", "/api/v1/drafts/m/advance", some "4",
    .json (object [("target", text "²"), ("slot", int 1)])⟩,
  ⟨"POST", "/api/v1/modules/n/process", some "9",
    .json (object [("process", int 1), ("slots", array [array [int 1, float (.infinite false)]])])⟩,
  -- Bodies without fields.
  ⟨"POST", "/api/v1/processes", some "9", .tooDeep⟩,
  ⟨"POST", "/api/v1/drafts/m/advance", some "4", .json (array [int 1])⟩,
  ⟨"PUT", "/api/v1/processes/1", some "9", .json (text "my name")⟩,
  -- Descriptions that cannot be judged.
  ⟨"POST", "/api/v1/processes", some "9", .json (object (("team", int 1) :: description))⟩,
  ⟨"POST", "/api/v1/processes/1/versions", some "9", .json (object description)⟩,
  -- Names with half characters.
  ⟨"PUT", "/api/v1/processes/1", some "9", .json (object [("name", .text torn)])⟩,
  ⟨"POST", "/api/v1/processes/slots", some "9",
    .json (object [("draft", .text torn), ("slot", int 1)])⟩]

end Overtaxing

/-- There are requests that get no answer although nothing around the service fails. -/
theorem overtaxing_unanswered :
    Reachable Overtaxing.store ∧ Review.conditions.Smooth ∧ Review.conditions.pingError = none ∧
      ∀ r ∈ Overtaxing.requests,
        (handle Review.conditions Overtaxing.store r).map (·.response.status) = .ok 500 := by
  refine ⟨Overtaxing.reachable, Conditions.smooth_of_date rfl true, rfl, ?_⟩
  decide +kernel

end Editorial.Api
