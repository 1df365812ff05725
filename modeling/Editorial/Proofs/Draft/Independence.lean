import Editorial.Proofs.Event.Narration
import Editorial.Proofs.Event.Untold
import Editorial.Proofs.Reachable
import Editorial.Proofs.Store.Portion

/-!
# Drafts do not matter to each other

An operation that works on an existing draft looks at the rows of its module, at the definitions and
at the memberships, and writes rows of its module. What it prepares is a `Plan`: a value, an edit of
these rows and announcements about the module. Computations that end in a plan are `Confined`, with
a rule for each way in which they go on, and from these rules follows that an operation does the
same to every store that resembles the one at hand (`Drafting.Operation.localized`). Two operations
on different modules then give the same results in either order and the same tables, events apart,
of which each module has the same ones (`drafts_independent`). Beginning a draft gives out ids of
tables that all modules share, and autofill counts the seats of everybody: both are left out.
-/

namespace Editorial

open Json

/-! ### Delivery to any store -/

namespace Delivery

variable {c : Conditions}

/-- Whether an announcement arrives does not depend on what is stored. -/
theorem exists_told_one (c : Conditions) (commits : Nat) (broken : Bool) (a : Announcement) :
    ∃ news commits' broken' n, (∀ x ∈ news, x ∈ a.news) ∧ ∀ s delivered,
      deliver c ⟨s, commits, broken, delivered⟩ a =
        ⟨s.tell c.now news, commits', broken', delivered + n⟩ := by
  cases htaken : a.isTaken c with
  | false =>
      refine ⟨[], commits, broken, 0, nofun, fun s delivered => ?_⟩
      rw [deliver_of_not_taken htaken, Store.tell_nil, Nat.add_zero]
  | true =>
      simp only [deliver_of_taken htaken]
      by_cases hempty : a.recipients.isEmpty
      · refine ⟨[], commits, broken, 1, nofun, fun s delivered => ?_⟩
        rw [if_pos hempty, Store.tell_nil]
      by_cases hcommit : (c.commitError commits).isSome || broken
      · refine ⟨[], commits + 1, false, 0, nofun, fun s delivered => ?_⟩
        rw [if_neg hempty, if_pos hcommit, Store.tell_nil]
        rfl
      by_cases hprepared : (requirePrepared c a).toBool = false
      · refine ⟨[], commits + 1, broken, 0, nofun, fun s delivered => ?_⟩
        rw [if_neg hempty, if_neg hcommit, if_pos hprepared, Store.tell_nil]
        rfl
      by_cases hstorable : a.recipients.all isStorable
      · refine ⟨a.news, commits + 1, broken, 1, fun _ => id, fun s delivered => ?_⟩
        rw [if_neg hempty, if_neg hcommit, if_neg hprepared, if_pos hstorable]
      · refine ⟨[], commits + 1, true, 0, nofun, fun s delivered => ?_⟩
        rw [if_neg hempty, if_neg hcommit, if_neg hprepared, if_neg hstorable, Store.tell_nil]
        rfl

theorem exists_told (c : Conditions) (commits : Nat) (broken : Bool)
    (pending : List Announcement) :
    ∃ news commits' broken' n, (∀ x ∈ news, x ∈ pending.flatMap Announcement.news) ∧
      ∀ s delivered, deliverAll c ⟨s, commits, broken, delivered⟩ pending =
        ⟨s.tell c.now news, commits', broken', delivered + n⟩ := by
  induction pending generalizing commits broken with
  | nil =>
      refine ⟨[], commits, broken, 0, nofun, fun s delivered => ?_⟩
      rw [deliverAll_nil, Store.tell_nil, Nat.add_zero]
  | cons a pending ih =>
      obtain ⟨news, commits₁, broken₁, n, hnews, hfirst⟩ := exists_told_one c commits broken a
      obtain ⟨more, commits₂, broken₂, n', hmore, hrest⟩ := ih commits₁ broken₁
      refine ⟨news ++ more, commits₂, broken₂, n + n', fun x hx => ?_, fun s delivered => ?_⟩
      · rw [List.flatMap_cons]
        exact List.mem_append.2 ((List.mem_append.1 hx).imp (hnews x) (hmore x))
      · rw [deliverAll_cons, hfirst, hrest, Store.tell_append, Nat.add_assoc]

end Delivery

/-! ### Plans -/

/-- What an operation on a module prepares, for any store that it may find. -/
structure Plan (module : String) (α : Type) where
  value : α
  edit : Store.Edit module
  events : List Announcement
  flaw : Option Failure
  about : ∀ n ∈ events.flatMap Announcement.news, n.module? = some module

/-- The work that a plan amounts to. -/
def Plan.work {module : String} {α : Type} (p : Plan module α) (t : Store) : Work α :=
  { value := p.value, store := p.edit.apply t, events := p.events, flaw := p.flaw }

/-- A computation ends in the same plan on all stores that resemble the one at hand. -/
def Confined {α : Type} (module : String) (s : Store) (x : Store → Except Failure (Work α)) :
    Prop :=
  ∃ y : Except Failure (Plan module α), ∀ t, t.Resembles s module → x t = y.map fun p => p.work t

/-- An operation does the same to all stores that resemble the one at hand: it edits the rows of its
module and tells news about it. -/
def Localized {α : Type} (c : Conditions) (module : String) (s : Store) (o : Store → Outcome α) :
    Prop :=
  ∃ (e : Store.Edit module) (news : List News) (result : Except Failure α) (delivered : Nat)
    (broken : Bool), (∀ n ∈ news, n.module? = some module) ∧ ∀ t, t.Resembles s module →
      o t = ⟨result, (e.apply t).tell c.now news, delivered, broken⟩

namespace Confined

variable {α β : Type} {c : Conditions} {module : String} {s : Store}
  {x x' : Store → Except Failure (Work α)}

theorem congr (h : Confined module s x) (heq : ∀ t, t.Resembles s module → x' t = x t) :
    Confined module s x' := by
  obtain ⟨y, hy⟩ := h
  exact ⟨y, fun t ht => (heq t ht).trans (hy t ht)⟩

theorem error (f : Failure) : Confined module s fun _ => (.error f : Except Failure (Work α)) :=
  ⟨.error f, fun _ _ => rfl⟩

theorem pure (p : Plan module α) {w : Store → Work α}
    (h : ∀ t, t.Resembles s module → w t = p.work t) :
    Confined module s fun t => Pure.pure (w t) :=
  ⟨.ok p, fun t ht => congrArg Except.ok (h t ht)⟩

theorem bind {m : Store → Except Failure β} {f : Store → β → Except Failure (Work α)}
    (hm : ∀ t, t.Resembles s module → m t = m s)
    (hf : ∀ b, m s = .ok b → Confined module s fun t => f t b) :
    Confined module s fun t => m t >>= f t := by
  cases hb : m s with
  | error e => exact (error e).congr fun t ht => by rw [hm t ht, hb]; rfl
  | ok b => exact (hf b hb).congr fun t ht => by rw [hm t ht, hb]; rfl

theorem ite {p : Store → Prop} [∀ t, Decidable (p t)]
    (hp : ∀ t, t.Resembles s module → (p t ↔ p s)) (h : Confined module s x)
    (h' : Confined module s x') : Confined module s fun t => if p t then x t else x' t := by
  by_cases hs : p s
  · exact h.congr fun t ht => if_pos ((hp t ht).2 hs)
  · exact h'.congr fun t ht => if_neg (mt (hp t ht).1 hs)

theorem mapError (h : Confined module s x) (f : Failure → Failure) :
    Confined module s fun t => (x t).mapError f := by
  obtain ⟨y, hy⟩ := h
  refine ⟨y.mapError f, fun t ht => ?_⟩
  dsimp only
  rw [hy t ht]
  cases y <;> rfl

/-- Nothing is done. -/
theorem localized_failed (f : Failure) :
    Localized c module s fun t => (.failed t f : Outcome α) := by
  refine ⟨.keep module, [], .error f, 0, false, nofun, fun t _ => ?_⟩
  rw [Store.apply_keep, Store.tell_nil]
  rfl

theorem complete (h : Confined module s x) (report : DatabaseError → Failure) :
    Localized c module s fun t => Editorial.complete c t report (x t) := by
  obtain ⟨y, hy⟩ := h
  have hfailed {o : Store → Outcome α} (f : Failure)
      (ho : ∀ t, t.Resembles s module → o t = .failed t f) : Localized c module s o := by
    have h : Localized c module s fun t => (.failed t f : Outcome α) := localized_failed f
    obtain ⟨e, news, result, delivered, broken, habout, hsame⟩ := h
    exact ⟨e, news, result, delivered, broken, habout, fun t ht => (ho t ht).trans (hsame t ht)⟩
  cases y with
  | error f => exact hfailed f fun t ht => by rw [hy t ht]; rfl
  | ok p =>
      have hwork (t : Store) (ht : t.Resembles s module) : x t = .ok (p.work t) := hy t ht
      cases hcommit : c.commitError 0 with
      | some e =>
          exact hfailed (report e) fun t ht => by
            simp only [Editorial.complete, hwork t ht, hcommit]
      | none =>
          cases hflaw : p.flaw with
          | some f =>
              exact hfailed f fun t ht => by
                simp only [Editorial.complete, hwork t ht, hcommit, Plan.work, hflaw]
          | none =>
              obtain ⟨news, commits, broken, n, hnews, htold⟩ :=
                Delivery.exists_told c 1 false p.events
              refine ⟨p.edit, news, .ok p.value, n, broken, fun x hx => p.about x (hnews x hx),
                fun t ht => ?_⟩
              have hcommits : (p.work t).Commits c := ⟨hcommit, hflaw⟩
              dsimp only
              rw [complete_of_commits (hwork t ht) hcommits]
              unfold Work.outcome Delivery.start
              simp only [Plan.work, htold, Nat.zero_add]

end Confined

/-! ### What operations look at -/

namespace Store.Resembles

variable {s t : Store} {module : String}

theorem draft_eq (h : t.Resembles s module) : t.draft module = s.draft module := by
  unfold Store.draft
  rw [h.draft]

theorem version?_eq (h : t.Resembles s module) (id : Int) : t.version? id = s.version? id := by
  unfold Store.version?
  rw [h.versions]

theorem slotIn?_eq (h : t.Resembles s module) (version id : Int) :
    t.slotIn? version id = s.slotIn? version id := by
  unfold Store.slotIn?
  rw [h.version?_eq]

theorem stepIn?_eq (h : t.Resembles s module) (version id : Int) :
    t.stepIn? version id = s.stepIn? version id := by
  unfold Store.stepIn?
  rw [h.version?_eq]

theorem slotIn_eq (h : t.Resembles s module) (version id : Int) :
    t.slotIn version id = s.slotIn version id := by
  unfold Store.slotIn
  rw [h.slotIn?_eq]

theorem requireRole_eq (h : t.Resembles s module) (slot : Slot) (team user : Int) :
    t.requireRole slot team user = s.requireRole slot team user := by
  unfold Store.requireRole Store.roleOf? Store.member?
  rw [h.members]

theorem seatUser_eq (h : t.Resembles s module) (change : Change) (slot : Slot) (user : Int) :
    t.seatUser change slot user = s.seatUser change slot user := by
  unfold Store.seatUser
  rw [h.slotIn?_eq, h.requireRole_eq]

theorem membersOf_eq (h : t.Resembles s module) (team : Int) :
    t.membersOf team = s.membersOf team := by
  unfold Store.membersOf
  rw [h.members]

theorem linkFor_eq (h : t.Resembles s module) (d : Draft) (user slot target : Int) :
    t.linkFor d user slot target = s.linkFor d user slot target := by
  unfold Store.linkFor Store.stepOf?
  rw [h.stepIn?_eq]

theorem isFinalFor_eq (h : t.Resembles s module) (d : Draft) (step : Int) :
    t.isFinalFor d step = s.isFinalFor d step := by
  unfold Store.isFinalFor
  rw [h.stepIn?_eq]

theorem advancedEvent_eq (h : t.Resembles s module) (d : Draft) :
    t.advancedEvent d = s.advancedEvent d := by
  funext user
  unfold Store.advancedEvent Store.permissionsFor Store.stepOf?
  rw [h.stepIn?_eq]

end Store.Resembles

/-! ### What operations announce -/

theorem module?_of_announce {kind : EventKind} {module : String} {fields : Json.Fields}
    {users : List Int} (h : Json.find? fields "module" = some (.text module)) :
    ∀ n ∈ (announce kind fields users).flatMap Announcement.news, n.module? = some module := by
  intro n hn
  rw [news_announce] at hn
  obtain ⟨user, -, rfl⟩ := List.mem_map.1 hn
  unfold News.module? News.find?
  dsimp only
  rw [h]

namespace Draft

theorem about_seatEvents (d : Draft) (slot user : Int) :
    ∀ n ∈ (d.seatEvents slot user).flatMap Announcement.news, n.module? = some d.module := by
  have hfilled : ∀ n ∈ (d.filled slot user).flatMap Announcement.news,
      n.module? = some d.module := module?_of_announce rfl
  unfold seatEvents
  split
  · exact hfilled
  split
  · nofun
  · rw [List.flatMap_append]
    exact List.forall_mem_append.2 ⟨module?_of_announce rfl, hfilled⟩

theorem about_vacateEvents (d : Draft) (slot : Int) :
    ∀ n ∈ (d.vacateEvents slot).flatMap Announcement.news, n.module? = some d.module := by
  unfold vacateEvents
  split
  · nofun
  · exact module?_of_announce rfl

theorem about_advancedEvents (s : Store) (d : Draft) (users : List Int) :
    ∀ n ∈ (users.flatMap (s.advancedEvent d)).flatMap Announcement.news,
      n.module? = some d.module := by
  intro n hn
  obtain ⟨a, ha, hn⟩ := List.mem_flatMap.1 hn
  obtain ⟨user, -, ha⟩ := List.mem_flatMap.1 ha
  have habout : ∀ n ∈ (s.advancedEvent d user).flatMap Announcement.news,
      n.module? = some d.module := module?_of_announce rfl
  exact habout n (List.mem_flatMap.2 ⟨a, ha, hn⟩)

end Draft

/-! ### Operations -/

section Operations

variable {α : Type} {c : Conditions} {module : String} {s : Store}

theorem localized_onLockedDraft {prepare : Store → Draft → Except Failure (Work α)}
    (h : ∀ d, d.module = module → Confined module s fun t => prepare t d) :
    Localized c module s fun t => onLockedDraft c t module (prepare t) := by
  unfold onLockedDraft
  cases c.lockError with
  | some e => exact Confined.localized_failed _
  | none =>
      refine Confined.complete (.bind (fun t ht => ht.draft_eq) fun d hd => ?_) _
      exact (h d (Store.module_of_draft? (Store.draft_eq_ok_iff.1 hd))).mapError _

/-- A draft that has changed is put in its place. -/
theorem Change.confined_work (change : Change) (value : α)
    (about : ∀ n ∈ change.events.flatMap Announcement.news, n.module? = some change.draft.module) :
    Confined change.draft.module s fun t => pure (change.work t value) := by
  refine .pure {
    value, edit := .put change.draft, events := change.events
    flaw := oversizedIf change.draft.isOversized, about } fun t _ => ?_
  unfold Change.work Plan.work
  rw [Store.putDraft_eq_apply]

namespace Drafting

theorem confined_seat (d : Draft) (row : Slot) (user : Int) :
    Confined d.module s fun t => do
      let change ← t.seatUser (.start d) row user
      return change.work t change.draft := by
  refine .bind (fun t ht => ht.seatUser_eq _ row user) fun change hchange => ?_
  obtain ⟨-, -, rfl⟩ := Store.seatUser_eq_ok_iff.1 hchange
  exact Change.confined_work ((Change.start d).seat row.id user) _ (d.about_seatEvents row.id user)

theorem localized_assign (c : Conditions) (s : Store) (module : String) (slot user : Int) :
    Localized c module s fun t => assign c t module slot user := by
  refine localized_onLockedDraft fun d hd => ?_
  subst hd
  exact .bind (fun t ht => ht.slotIn_eq _ slot) fun row _ => confined_seat d row user

theorem localized_claim (c : Conditions) (s : Store) (module : String) (slot user : Int) :
    Localized c module s fun t => claim c t module slot user := by
  refine localized_onLockedDraft fun d hd => ?_
  subst hd
  refine .bind (fun t ht => ht.slotIn_eq _ slot) fun row _ => ?_
  refine .ite (fun t ht => by rw [ht.membersOf_eq]) ?_ (.error _)
  exact .ite (fun t ht => Iff.rfl) (.error _) (confined_seat d row user)

theorem localized_unassign (c : Conditions) (s : Store) (module : String) (slot : Int) :
    Localized c module s fun t => unassign c t module slot := by
  refine localized_onLockedDraft fun d hd => ?_
  subst hd
  refine .bind (fun t ht => ht.slotIn_eq _ slot) fun row _ => ?_
  exact Change.confined_work ((Change.start d).vacate row.id) _ (d.about_vacateEvents row.id)

theorem localized_cancel (c : Conditions) (s : Store) (module : String) :
    Localized c module s fun t => cancel c t module := by
  refine localized_onLockedDraft fun d hd => ?_
  have hend : Confined module s fun t => (pure {
      value := ()
      store := (t.closeOpenRun module .cancelled c.now).removeDraft module
      events := announce .processCancelled [("module", text module)] d.holders
      flaw := none } : Except Failure (Work Unit)) := by
    refine .pure {
      value := (), edit := .discard module ((s.openRun? module).map Run.id) .cancelled c.now
      events := announce .processCancelled [("module", text module)] d.holders, flaw := none
      about := module?_of_announce rfl } fun t ht => ?_
    unfold Plan.work
    rw [Store.discard_eq_apply ht]
  refine .ite (fun t ht => by rw [ht.run]) ?_ hend
  exact .bind (fun _ _ => rfl) fun _ _ => hend

theorem confined_finish (d : Draft) : Confined d.module s fun t => finish c t d := by
  refine .ite (fun t ht => by rw [ht.row]) (.error _) ?_
  refine .pure {
    value := .finished
    edit := .conclude d.module d.document ((s.openRun? d.module).map Run.id) c.now
    events := announce .processEnded
      [("module", text d.module), ("version", int d.document)] d.holders
    flaw := none, about := module?_of_announce rfl } fun t ht => ?_
  unfold Plan.work
  rw [Store.conclude_eq_apply ht]

/-- A draft that has moved along a link, when autofill is switched off. -/
def moved (s : Store) (d : Draft) (target : Int) : Change :=
  let d := { d with step := target }
  { draft := d, events := d.holders.flatMap (s.advancedEvent d) }

theorem move_of_autofill_off (hfill : c.autofill = false) (s : Store) (d : Draft) (target : Int) :
    move c s d target =
      .ok ((moved s d target).work s (.moved (moved s d target).draft)) := by
  refine move_eq_ok_iff.2 ⟨.start { d with step := target }, [], ?_, ?_⟩
  · unfold Store.autofill
    rw [hfill]
    rfl
  · have hput : (s.putDraft { d with step := target }).putDraft { d with step := target } =
        s.putDraft { d with step := target } := Store.putDraft_putDraft rfl
    unfold Change.work Change.start
    dsimp only
    rw [hput]
    rfl

theorem confined_move (hfill : c.autofill = false) (d : Draft) (target : Int) :
    Confined d.module s fun t => move c t d target := by
  refine (Change.confined_work (moved s d target) (Advance.moved (moved s d target).draft)
    (Draft.about_advancedEvents s _ _)).congr fun t ht => ?_
  have hmoved : moved t d target = moved s d target := by
    unfold moved
    dsimp only
    rw [ht.advancedEvent_eq]
  rw [move_of_autofill_off hfill, hmoved]
  rfl

theorem localized_advance (hfill : c.autofill = false) (s : Store) (module : String)
    (user slot target : Int) :
    Localized c module s fun t => advance c t module user slot target := by
  refine localized_onLockedDraft fun d hd => ?_
  subst hd
  refine .bind (fun t ht => ht.linkFor_eq d user slot target) fun l _ => ?_
  refine .bind (fun _ _ => rfl) fun _ _ => ?_
  exact .ite (fun t ht => by rw [ht.isFinalFor_eq]) (confined_finish d) (confined_move hfill d _)

/-- An operation that works on an existing draft only, and does not look at other ones to fill its
slots. -/
def Operation.StaysWithin (c : Conditions) : Operation → Prop
  | .begin .. => False
  | .advance .. => c.autofill = false
  | _ => True

theorem Operation.localized {op : Operation} (hop : op.StaysWithin c) (s : Store) :
    Localized c op.module s fun t => op.perform c t := by
  cases op with
  | begin module process placements => exact hop.elim
  | advance module user slot target => exact localized_advance hop s module user slot target
  | cancel module => exact localized_cancel c s module
  | assign module slot user => exact localized_assign c s module slot user
  | claim module slot user => exact localized_claim c s module slot user
  | unassign module slot => exact localized_unassign c s module slot

end Drafting

end Operations

/-! ### Two operations -/

/-- What is stored about a module, in order, whatever the ids. -/
def Store.eventsAbout (s : Store) (module : String) : List Event :=
  (s.events.filter fun e => e.news.module? == some module).map fun e => { e with id := 0 }

/-- The events that tell news about a module, whatever the ids. -/
def News.eventsAbout (now : Instant) (module : String) (news : List News) : List Event :=
  (news.filter fun n => n.module? == some module).map fun n => ⟨0, n.user, n.kind, n.payload, now⟩

theorem News.eventsAbout_of_other {news : List News} {module other : String}
    (h : ∀ n ∈ news, n.module? = some module) (hother : other ≠ module) (now : Instant) :
    eventsAbout now other news = [] := by
  unfold eventsAbout
  rw [List.filter_eq_nil_iff.2 fun n hn => ?_, List.map_nil]
  rw [h n hn]
  simpa using hother.symm

theorem Store.eventsAbout_tell (s : Store) (now : Instant) (news : List News) (module : String) :
    (s.tell now news).eventsAbout module =
      s.eventsAbout module ++ News.eventsAbout now module news := by
  unfold Store.eventsAbout Store.tell
  dsimp only
  rw [List.filter_append, List.map_append]
  congr 1
  generalize nextId (s.events.map Event.id) = id
  induction news generalizing id with
  | nil => rfl
  | cons n rest ih =>
      have hnews : (⟨id, n.user, n.kind, n.payload, now⟩ : Event).news = n := rfl
      unfold News.events News.eventsAbout
      rw [List.filter_cons, List.filter_cons, hnews]
      split
      · rw [List.map_cons, List.map_cons, ih]
        rfl
      · exact ih (id + 1)

/-- Two operations end alike, whatever else is stored. -/
structure Outcome.Parallels {α : Type} (o o' : Outcome α) : Prop where
  result : o.result = o'.result
  delivered : o.delivered = o'.delivered
  broken : o.broken = o'.broken

/-- Operations on drafts of different modules do not matter to each other: in either order they give
the same results and lead to the same tables. Only the events of one of the modules come before or
after those of the other one. -/
theorem drafts_independent {s : Store} (hs : Reachable s) {c₁ c₂ : Conditions}
    {op₁ op₂ : Drafting.Operation} (hmodules : op₁.module ≠ op₂.module)
    (h₁ : op₁.StaysWithin c₁) (h₂ : op₂.StaysWithin c₂) :
    let ahead := op₁.perform c₁ s
    let behind := op₂.perform c₂ ahead.store
    let ahead' := op₂.perform c₂ s
    let behind' := op₁.perform c₁ ahead'.store
    behind'.Parallels ahead ∧ behind.Parallels ahead' ∧
      behind.store.untold = behind'.store.untold ∧
      (∃ news₁ news₂, (∀ n ∈ news₁, n.module? = some op₁.module) ∧
        (∀ n ∈ news₂, n.module? = some op₂.module) ∧
        behind.store.events = ((s.tell c₁.now news₁).tell c₂.now news₂).events ∧
        behind'.store.events = ((s.tell c₂.now news₂).tell c₁.now news₁).events) ∧
      ∀ module, behind.store.eventsAbout module = behind'.store.eventsAbout module := by
  intro ahead behind ahead' behind'
  obtain ⟨e₁, news₁, result₁, n₁, broken₁, habout₁, hsame₁⟩ := Drafting.Operation.localized h₁ s
  obtain ⟨e₂, news₂, result₂, n₂, broken₂, habout₂, hsame₂⟩ := Drafting.Operation.localized h₂ s
  have hahead : ahead = ⟨result₁, (e₁.apply s).tell c₁.now news₁, n₁, broken₁⟩ :=
    hsame₁ s (.refl hs.sound.run_ids _)
  have hahead' : ahead' = ⟨result₂, (e₂.apply s).tell c₂.now news₂, n₂, broken₂⟩ :=
    hsame₂ s (.refl hs.sound.run_ids _)
  -- Each of the stores in between looks to the other operation like the store at hand.
  have hids : (ahead.store.runs.map Run.id).Nodup := (hs.after ⟨c₁, .draft op₁⟩).sound.run_ids
  have hids' : (ahead'.store.runs.map Run.id).Nodup := (hs.after ⟨c₂, .draft op₂⟩).sound.run_ids
  have hbehind : behind = ⟨result₂, (e₂.apply ahead.store).tell c₂.now news₂, n₂, broken₂⟩ :=
    hsame₂ _ (by rw [hahead] at hids ⊢; exact e₁.resembles hmodules.symm hids)
  have hbehind' : behind' = ⟨result₁, (e₁.apply ahead'.store).tell c₁.now news₁, n₁, broken₁⟩ :=
    hsame₁ _ (by rw [hahead'] at hids' ⊢; exact e₂.resembles hmodules hids')
  have hstore : behind.store =
      ((e₂.apply (e₁.apply s)).tell c₁.now news₁).tell c₂.now news₂ := by
    rw [hbehind, hahead]
    rfl
  have hstore' : behind'.store =
      ((e₂.apply (e₁.apply s)).tell c₂.now news₂).tell c₁.now news₁ := by
    rw [hbehind', hahead', ← Store.Edit.apply_comm hmodules]
    rfl
  refine ⟨?_, ?_, ?_, ⟨news₁, news₂, habout₁, habout₂, ?_, ?_⟩, fun module => ?_⟩
  · rw [hbehind', hahead]
    exact ⟨rfl, rfl, rfl⟩
  · rw [hbehind, hahead']
    exact ⟨rfl, rfl, rfl⟩
  · rw [hstore, hstore']
    rfl
  · rw [hstore]
    rfl
  · rw [hstore']
    rfl
  · rw [hstore, hstore']
    simp only [Store.eventsAbout_tell]
    by_cases hmodule : module = op₁.module
    · rw [News.eventsAbout_of_other habout₂ (hmodule ▸ hmodules)]
      simp
    · rw [News.eventsAbout_of_other habout₁ hmodule]
      simp

/-- Two modules under the review: in one the author submits, in the other the editing is cancelled,
and it does not matter which comes first. -/
theorem review_beside_another :
    let turns := Review.turns ++ [.direct (.setModule ⟨"n", 1, "", 200⟩),
      .draft (.begin "n" 1 [⟨int 1, int 5⟩])].map (Turn.mk Review.conditions)
    let s := Store.empty.afterAll turns
    let c := Conditions.smooth ⟨1⟩ false
    let submit := Drafting.Operation.advance "m" 4 1 2
    let cancel := Drafting.Operation.cancel "n"
    let submitted := (submit.perform c s).store
    let cancelled := (cancel.perform c s).store
    Reachable s ∧ submit.module ≠ cancel.module ∧ submit.StaysWithin c ∧ cancel.StaysWithin c ∧
      (submit.perform c s).result.toBool = true ∧ (cancel.perform c s).result.toBool = true ∧
      submitted.events.length = 3 ∧ cancelled.events.length = 3 ∧
      (submit.perform c cancelled).result = (submit.perform c s).result ∧
      (cancel.perform c submitted).result = (cancel.perform c s).result ∧
      (cancel.perform c submitted).store.untold = (submit.perform c cancelled).store.untold := by
  intro turns s c submit cancel submitted cancelled
  have hreachable : Reachable s := ⟨turns, rfl⟩
  have hmodules : submit.module ≠ cancel.module := by decide
  obtain ⟨hsubmit, hcancel, htables, -, -⟩ :=
    @drafts_independent s hreachable c c submit cancel hmodules rfl trivial
  exact ⟨hreachable, hmodules, rfl, trivial, by decide +kernel, by decide +kernel,
    by decide +kernel, by decide +kernel, hsubmit.result, hcancel.result, htables⟩

end Editorial
