import Editorial.Proofs.Event.Delivery
import Mathlib.Logic.Function.Basic

/-!
# Replaying events

What has been told about a module says who sits where in its draft. `replay` follows news one after
the other: who is told that a slot is filled sits there, who is told that it is vacated must sit
there and leaves, and with the end of the process everyone leaves. It gives nothing where somebody
would leave a slot who is not there. `Store.newsOf` is what the stored events tell about a module in
the order of their ids; telling more adds to its end (`Store.newsOf_tell`).
-/

namespace Editorial

open Ordered

/-- Who sits in which slot. -/
abbrev Seating := Int → Option Int

/-- Nobody sits anywhere. -/
def Seating.empty : Seating := fun _ => none

namespace News

/-! ### What news say -/

/-- The value under a name. -/
def find? (n : News) (name : String) : Option Json :=
  match n.payload with
  | .object fields => Json.find? fields name
  | _ => none

/-- The module that news name. -/
def module? (n : News) : Option String :=
  match n.find? "module" with
  | some (.text (.whole module)) => some module
  | _ => none

/-- The slot that news name. -/
def slot? (n : News) : Option Int :=
  match n.find? "slot" with
  | some (.int slot) => some slot
  | _ => none

/-- The step that news name. -/
def step? (n : News) : Option Int :=
  match n.find? "step" with
  | some (.int step) => some step
  | _ => none

/-! ### Following news -/

/-- Who sits where once news have come. -/
def follow (seating : Seating) (n : News) : Option Seating :=
  match n.kind, n.slot? with
  | .slotFilled, some slot => some (Function.update seating slot (some n.user))
  | .slotVacated, some slot =>
      if seating slot = some n.user then some (Function.update seating slot none) else none
  | .slotFilled, none | .slotVacated, none => none
  | .processEnded, _ | .processCancelled, _ => some .empty
  | .assigned, _ | .draftAdvanced, _ => some seating

/-- Who sits where once news have come one after the other. -/
def replay (seating : Seating) (news : List News) : Option Seating := news.foldlM follow seating

/-- The last of the news that a draft has advanced. -/
def lastAdvance? (news : List News) : Option News :=
  (news.filter fun n => n.kind == .draftAdvanced).getLast?

variable {seating seating' : Seating} {news more : List News}

theorem replay_cons (seating : Seating) (n : News) (news : List News) :
    replay seating (n :: news) = (follow seating n).bind fun seating => replay seating news :=
  List.foldlM_cons

theorem replay_append (seating : Seating) (news more : List News) :
    replay seating (news ++ more) = (replay seating news).bind fun seating => replay seating more :=
  List.foldlM_append

theorem replay_concat {n : News} (h : replay seating news = some seating') :
    replay seating (news ++ [n]) = follow seating' n := by
  rw [replay_append, h, Option.bind_some, replay_cons]
  exact Option.bind_fun_some _

theorem replay_of_follow (h : ∀ n ∈ news, follow seating n = some seating) :
    replay seating news = some seating := by
  induction news with
  | nil => rfl
  | cons n rest ih =>
      rw [replay_cons, h n List.mem_cons_self, Option.bind_some]
      exact ih fun m hm => h m (List.mem_cons_of_mem _ hm)

/-- News of the end of a process leave everyone without a seat, even if there is nobody to tell. -/
theorem replay_of_end {kind : EventKind} (hkind : kind = .processEnded ∨ kind = .processCancelled)
    (fields : Json.Fields) {users : List Int} (hseated : users = [] → seating = .empty) :
    replay seating (users.map fun user => ⟨kind, user, .object fields⟩) = some .empty := by
  have hfollow (seating : Seating) (user : Int) :
      follow seating ⟨kind, user, .object fields⟩ = some .empty := by
    rcases hkind with rfl | rfl <;> rfl
  cases users with
  | nil =>
      rw [hseated rfl]
      rfl
  | cons user rest =>
      rw [List.map_cons, replay_cons, hfollow, Option.bind_some]
      refine replay_of_follow fun n hn => ?_
      obtain ⟨u, -, rfl⟩ := List.mem_map.1 hn
      exact hfollow .empty u

theorem lastAdvance?_append (news more : List News) :
    lastAdvance? (news ++ more) = (lastAdvance? more).or (lastAdvance? news) := by
  unfold lastAdvance?
  rw [List.filter_append, List.getLast?_append]

theorem lastAdvance?_eq_none (h : ∀ n ∈ news, n.kind ≠ .draftAdvanced) :
    lastAdvance? news = none := by
  have hnone : news.filter (fun n => n.kind == .draftAdvanced) = [] :=
    List.filter_eq_nil_iff.2 fun n hn => by simpa using h n hn
  unfold lastAdvance?
  rw [hnone]
  rfl

end News

/-! ### The events of a store -/

/-- What an event tells. -/
def Event.news (e : Event) : News := ⟨e.kind, e.user, e.payload⟩

theorem News.map_news_events (now : Instant) (id : Int) (news : List News) :
    (News.events now id news).map Event.news = news := by
  induction news generalizing id with
  | nil => rfl
  | cons n rest ih =>
      rw [News.events, List.map_cons, ih]
      rfl

namespace Store

/-- What the stored events tell about a module, in the order of their ids. -/
def newsOf (s : Store) (module : String) : List News :=
  ((sortBy (fun a b => a.id ≤ b.id) s.events).map Event.news).filter fun n =>
    n.module? == some module

/-- Who sits where in the draft of a module. -/
def seating (s : Store) (module : String) : Seating := fun slot =>
  (s.draft? module).bind fun d => d.occupant? slot

/-- Events are stored in the order of their ids. -/
def Numbered (s : Store) : Prop := (s.events.map Event.id).Pairwise (· < ·)

variable {s : Store}

theorem numbered_empty : Store.empty.Numbered := List.Pairwise.nil

theorem Numbered.tell (h : s.Numbered) (now : Instant) (news : List News) :
    (s.tell now news).Numbered := by
  unfold Numbered Store.tell
  rw [List.map_append, News.map_id_events]
  refine List.pairwise_append.2 ⟨h, pairwise_idsFrom _ _, fun a ha b hb => ?_⟩
  have hold : a < nextId (s.events.map Event.id) := lt_nextId ha
  have hnew := (mem_idsFrom.1 hb).1
  omega

theorem Numbered.newsOf_eq (h : s.Numbered) (module : String) :
    s.newsOf module = (s.events.map Event.news).filter fun n => n.module? == some module := by
  unfold newsOf
  rw [sortBy_eq_self]
  exact (List.pairwise_map.1 h).imp fun hlt => decide_eq_true (Int.le_of_lt hlt)

/-- What is told about a module comes after what has been told about it. -/
theorem Numbered.newsOf_tell (h : s.Numbered) (now : Instant) (news : List News)
    (module : String) :
    (s.tell now news).newsOf module =
      s.newsOf module ++ news.filter fun n => n.module? == some module := by
  rw [(h.tell now news).newsOf_eq, h.newsOf_eq]
  unfold Store.tell
  rw [List.map_append, News.map_news_events, List.filter_append]

end Store

end Editorial
