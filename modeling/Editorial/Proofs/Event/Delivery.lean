import Editorial.Proofs.Operation
import Editorial.Proofs.Ordered
import Editorial.Proofs.Store.Table

/-!
# What is delivered

Where the event sink stores what it is given, an operation tells exactly what it has announced:
`Store.tell` stores an event for each piece of `News`, and `Work.outcome_of_deliverable` says that
the outcome of committed work is the store of the work with the news of its announcements.
-/

namespace Editorial

open Ordered

/-- What a user is told: a kind of event and what is said about it. -/
structure News where
  kind : EventKind
  user : Int
  payload : Json

/-- The events that tell news, with ids from the second argument on. -/
def News.events (now : Instant) : Int → List News → List Event
  | _, [] => []
  | id, n :: rest => ⟨id, n.user, n.kind, n.payload, now⟩ :: News.events now (id + 1) rest

/-- The store once users have been told news. -/
def Store.tell (s : Store) (now : Instant) (news : List News) : Store :=
  { s with events := s.events ++ News.events now (nextId (s.events.map Event.id)) news }

/-! ### Telling news -/

namespace News

variable {now : Instant}

theorem map_id_events (id : Int) (news : List News) :
    (events now id news).map Event.id = idsFrom id news.length := by
  induction news generalizing id with
  | nil => rfl
  | cons n rest ih => rw [events, List.map_cons, ih, List.length_cons, idsFrom]

theorem events_append (id : Int) (news more : List News) :
    events now id (news ++ more) = events now id news ++ events now (id + news.length) more := by
  induction news generalizing id with
  | nil => simp [events]
  | cons n rest ih =>
      rw [List.cons_append, events, events, ih, List.cons_append, List.length_cons]
      congr 3
      omega

end News

namespace Store

theorem tell_nil (s : Store) (now : Instant) : s.tell now [] = s := by
  simp [tell, News.events]

theorem tell_append (s : Store) (now : Instant) (news more : List News) :
    s.tell now (news ++ more) = (s.tell now news).tell now more := by
  unfold tell
  dsimp only
  rw [List.map_append, News.map_id_events, nextId_append_idsFrom, News.events_append,
    List.append_assoc]

theorem addEvents_eq_tell (s : Store) (kind : EventKind) (a : Announcement) (now : Instant) :
    s.addEvents kind a now = s.tell now (a.recipients.map fun user => ⟨kind, user, a.payload⟩) := by
  unfold addEvents tell
  congr 2
  generalize nextId (s.events.map Event.id) = id
  induction a.recipients generalizing id with
  | nil => rfl
  | cons user rest ih => rw [eventsFor, List.map_cons, News.events, ih]

end Store

/-! ### Announcements -/

/-- The news of an announcement; one of an unknown kind has none. -/
def Announcement.news (a : Announcement) : List News :=
  match EventKind.ofJson? a.kind with
  | some kind => a.recipients.map fun user => ⟨kind, user, a.payload⟩
  | none => []

/-- The event sink knows the kind of an announcement and does not refuse it. -/
def Announcement.isTaken (c : Conditions) (a : Announcement) : Bool :=
  !c.refuses a.kind && (EventKind.ofJson? a.kind).isSome

/-- An announcement of a known kind for which a statement can be prepared. -/
structure Announcement.Sendable (a : Announcement) : Prop where
  kind : (EventKind.ofJson? a.kind).isSome = true
  shallow : a.payload.depth ≤ Delivery.depthLimit

/-- An announcement that nothing is wrong with. -/
structure Announcement.Deliverable (a : Announcement) : Prop extends a.Sendable where
  recipients : ∀ user ∈ a.recipients, isStorable user = true

theorem news_announce (kind : EventKind) (fields : Json.Fields) (users : List Int) :
    (announce kind fields users).flatMap Announcement.news =
      (ascending users).map fun user => ⟨kind, user, .object fields⟩ := by
  unfold announce
  split
  · rename_i h
    rw [List.isEmpty_iff.1 h]
    rfl
  · rw [List.flatMap_singleton]
    unfold Announcement.news Announcement.ofUsers
    dsimp only [EventKind.ofJson?]
    rw [EventKind.ofText?_text]

theorem sendable_announce (kind : EventKind) {fields : Json.Fields} {users : List Int}
    (hdepth : (Json.object fields).depth ≤ Delivery.depthLimit) :
    ∀ a ∈ announce kind fields users, a.Sendable ∧ a.recipients = ascending users := by
  intro a ha
  unfold announce at ha
  split at ha
  · cases ha
  · rw [List.mem_singleton.1 ha]
    refine ⟨⟨?_, hdepth⟩, rfl⟩
    unfold Announcement.ofUsers
    dsimp only [EventKind.ofJson?]
    rw [EventKind.ofText?_text]
    rfl

theorem deliverable_announce (kind : EventKind) {fields : Json.Fields} {users : List Int}
    (hdepth : (Json.object fields).depth ≤ Delivery.depthLimit)
    (husers : ∀ user ∈ users, isStorable user = true) :
    ∀ a ∈ announce kind fields users, a.Deliverable := by
  intro a ha
  obtain ⟨hsendable, hrecipients⟩ := sendable_announce kind hdepth a ha
  refine ⟨hsendable, fun user huser => husers user ?_⟩
  rw [hrecipients] at huser
  exact mem_ascending.1 huser

/-- News that each go to one user. -/
theorem news_announce_each {α : Type} (kind : EventKind) (fields : α → Json.Fields)
    (user : α → Int) (items : List α) :
    (items.flatMap fun a => announce kind (fields a) [user a]).flatMap Announcement.news =
      items.map fun a => ⟨kind, user a, .object (fields a)⟩ := by
  induction items with
  | nil => rfl
  | cons a rest ih =>
      have hone : ascending [user a] = [user a] := ascending_eq_self (List.pairwise_singleton _ _)
      rw [List.flatMap_cons, List.flatMap_append, ih, news_announce, hone]
      rfl

theorem deliverable_announce_each {α : Type} (kind : EventKind) (fields : α → Json.Fields)
    (user : α → Int) {items : List α}
    (hdepth : ∀ a ∈ items, (Json.object (fields a)).depth ≤ Delivery.depthLimit)
    (husers : ∀ a ∈ items, isStorable (user a) = true) :
    ∀ b ∈ items.flatMap (fun a => announce kind (fields a) [user a]), b.Deliverable := by
  intro b hb
  obtain ⟨a, ha, hb⟩ := List.mem_flatMap.1 hb
  refine deliverable_announce kind (hdepth a ha) (fun u hu => ?_) b hb
  rw [List.mem_singleton.1 hu]
  exact husers a ha

namespace Delivery

variable {c : Conditions}

/-- An announcement that the event sink does not take leaves everything as it is. -/
theorem deliver_of_not_taken {d : Delivery} {a : Announcement} (h : a.isTaken c = false) :
    deliver c d a = d := by
  unfold deliver emit
  cases hrefuses : c.refuses a.kind with
  | true => rfl
  | false =>
      have hkind : EventKind.ofJson? a.kind = none := by
        simpa [Announcement.isTaken, hrefuses] using h
      cases hkey : a.kind.isKey <;> simp [hkind]

/-- What becomes of an announcement that the event sink takes: it is stored when it comes to a
commit that succeeds. -/
theorem deliver_of_taken {d : Delivery} {a : Announcement} (h : a.isTaken c = true) :
    deliver c d a =
      if a.recipients.isEmpty then { d with delivered := d.delivered + 1 }
      else if (c.commitError d.commits).isSome || d.broken then
        { d with commits := d.commits + 1, broken := false }
      else if (requirePrepared c a).toBool = false then { d with commits := d.commits + 1 }
      else if a.recipients.all isStorable then
        { d with
          commits := d.commits + 1, store := d.store.tell c.now a.news
          delivered := d.delivered + 1 }
      else { d with commits := d.commits + 1, broken := true } := by
  obtain ⟨hrefuses, hknown⟩ :
      c.refuses a.kind = false ∧ (EventKind.ofJson? a.kind).isSome = true := by
    simpa [Announcement.isTaken] using h
  obtain ⟨kind, hkind⟩ := Option.isSome_iff_exists.1 hknown
  have hkey : a.kind.isKey = true := by
    unfold EventKind.ofJson? at hkind
    split at hkind
    · rename_i hj
      rw [hj]
      rfl
    · cases hkind
  have hnews : d.store.tell c.now a.news = d.store.addEvents kind a c.now := by
    rw [Store.addEvents_eq_tell]
    unfold Announcement.news
    rw [hkind]
  have hemit : emit c a d = if a.recipients.isEmpty then (.ok (), d) else commit c kind a d := by
    simp only [emit, hrefuses, hkey, hkind, Bool.false_eq_true, if_false, Bool.not_true]
  unfold deliver
  rw [hemit, hnews]
  by_cases hempty : a.recipients.isEmpty
  · rw [if_pos hempty, if_pos hempty]
  rw [if_neg hempty, if_neg hempty]
  unfold commit
  cases hcommit : c.commitError d.commits with
  | some e => rfl
  | none =>
      cases hbroken : d.broken with
      | true => rfl
      | false =>
          cases hprepared : requirePrepared c a with
          | error f => rfl
          | ok _ =>
              by_cases hstorable : a.recipients.all isStorable <;> simp [hstorable, Except.toBool]

/-- What becomes of an announcement when the event sink stores what it is given. Only a recipient
that the database cannot hold is in the way, and then the next announcement is lost as well. -/
theorem deliver_eq (hc : c.Delivers) {d : Delivery} (hd : 0 < d.commits) {a : Announcement}
    (ha : a.Sendable) :
    deliver c d a =
      if a.recipients.isEmpty then { d with delivered := d.delivered + 1 }
      else if d.broken then { d with commits := d.commits + 1, broken := false }
      else if a.recipients.all isStorable then
        { d with
          commits := d.commits + 1, store := d.store.tell c.now a.news
          delivered := d.delivered + 1 }
      else { d with commits := d.commits + 1, broken := true } := by
  have htaken : a.isTaken c = true := by
    simp [Announcement.isTaken, hc.accepts, ha.kind]
  have hprepared : (requirePrepared c a).toBool = true := by
    unfold requirePrepared
    rw [if_neg (Nat.not_lt.2 ha.shallow), hc.stamp]
    rfl
  have hcommit : c.commitError d.commits = none := by
    obtain ⟨n, hn⟩ := Nat.exists_eq_succ_of_ne_zero (Nat.ne_of_gt hd)
    rw [hn]
    exact hc.commits n
  rw [deliver_of_taken htaken, hcommit, hprepared, Option.isSome_none, Bool.false_or]
  rfl

/-- An announcement that nothing is wrong with reaches everyone it is meant for. -/
theorem deliver_of_deliverable (hc : c.Delivers) {d : Delivery} (hcommits : 0 < d.commits)
    (hd : d.broken = false) {a : Announcement} (ha : a.Deliverable) :
    (deliver c d a).store = d.store.tell c.now a.news ∧ (deliver c d a).broken = false ∧
      0 < (deliver c d a).commits ∧ (deliver c d a).delivered = d.delivered + 1 := by
  rw [deliver_eq hc hcommits ha.toSendable]
  by_cases hempty : a.recipients.isEmpty
  · have hnews : a.news = [] := by
      unfold Announcement.news
      split
      · rw [List.isEmpty_iff.1 hempty, List.map_nil]
      · rfl
    rw [if_pos hempty, hnews, Store.tell_nil]
    exact ⟨rfl, hd, hcommits, rfl⟩
  · rw [if_neg hempty, if_neg (by simp [hd]), if_pos (List.all_eq_true.2 ha.recipients)]
    exact ⟨rfl, hd, Nat.succ_pos _, rfl⟩

theorem deliverAll_of_deliverable (hc : c.Delivers) {d : Delivery} (hcommits : 0 < d.commits)
    (hd : d.broken = false) {pending : List Announcement}
    (hpending : ∀ a ∈ pending, a.Deliverable) :
    (deliverAll c d pending).store = d.store.tell c.now (pending.flatMap Announcement.news) ∧
      (deliverAll c d pending).broken = false ∧
      (deliverAll c d pending).delivered = d.delivered + pending.length := by
  induction pending generalizing d with
  | nil => exact ⟨(Store.tell_nil _ _).symm, hd, rfl⟩
  | cons a pending ih =>
      obtain ⟨hstore, hbroken, hcommits', hdelivered⟩ :=
        deliver_of_deliverable hc hcommits hd (hpending a List.mem_cons_self)
      obtain ⟨hstore', hbroken', hdelivered'⟩ := ih hcommits' hbroken fun b hb =>
        hpending b (List.mem_cons_of_mem _ hb)
      rw [deliverAll_cons, List.flatMap_cons, Store.tell_append, hstore', hstore, hdelivered',
        hdelivered, List.length_cons]
      exact ⟨rfl, hbroken', by omega⟩

end Delivery

/-- Where the event sink stores what it is given, committed work ends in its store with the news of
its announcements. -/
theorem Work.outcome_of_deliverable {α : Type} {c : Conditions} (hc : c.Delivers) {w : Work α}
    (hevents : ∀ a ∈ w.events, a.Deliverable) :
    w.outcome c =
      { result := .ok w.value, store := w.store.tell c.now (w.events.flatMap Announcement.news)
        delivered := w.events.length, broken := false } := by
  obtain ⟨hstore, hbroken, hdelivered⟩ :=
    Delivery.deliverAll_of_deliverable hc (d := .start w.store 1) Nat.one_pos rfl hevents
  unfold Work.outcome
  dsimp only
  rw [hstore, hbroken, hdelivered]
  simp [Delivery.start]

/-- What an operation on a locked draft prepares is stored and told when nothing is wrong with it. -/
theorem onLockedDraft_of_deliverable {α : Type} {c : Conditions} (hc : c.Smooth) {s : Store}
    {module : String} {d : Draft} {prepare : Draft → Except Failure (Work α)} {w : Work α}
    (hd : s.draft? module = some d) (hw : prepare d = .ok w) (hflaw : w.flaw = none)
    (hevents : ∀ a ∈ w.events, a.Deliverable) :
    onLockedDraft c s module prepare =
      { result := .ok w.value, store := w.store.tell c.now (w.events.flatMap Announcement.news)
        delivered := w.events.length, broken := false } :=
  (onLockedDraft_of_commits hc.locks hd hw ⟨hc.commits 0, hflaw⟩).trans
    (Work.outcome_of_deliverable hc.delivers hevents)

end Editorial
