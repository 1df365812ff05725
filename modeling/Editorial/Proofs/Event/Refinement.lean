import Editorial.Proofs.Event.Narration
import Mathlib.Data.List.Induction

/-!
# The events refine the seats

Along every run in which the event sink stores what it is given, the stored events of a module,
replayed in the order of their ids, give the seats of its draft, and the last of its advances that
has been told since the draft was begun names its step (`events_refine_seats`). Every turn adds the
news that it tells to the events of its module and to those of no other (`Store.Narrated.newsOf`).
-/

namespace Editorial

namespace Store

variable {s u : Store}

/-! ### One turn -/

theorem newsOf_congr (h : u.events = s.events) (module : String) :
    u.newsOf module = s.newsOf module := by
  unfold newsOf
  rw [h]

theorem Narrated.numbered {now : Instant} {module : String} {news : List News}
    (h : s.Narrated u now module news) (hs : s.Numbered) : u.Numbered := by
  unfold Numbered
  rw [h.events]
  exact hs.tell now news

theorem Narrated.newsOf {now : Instant} {module : String} {news : List News}
    (h : s.Narrated u now module news) (hs : s.Numbered) :
    u.newsOf module = s.newsOf module ++ news := by
  have hall : news.filter (fun n => n.module? == some module) = news :=
    List.filter_eq_self.2 fun n hn => beq_iff_eq.2 (h.about n hn)
  rw [newsOf_congr h.events, hs.newsOf_tell, hall]

theorem Narrated.newsOf_other {now : Instant} {module other : String} {news : List News}
    (h : s.Narrated u now module news) (hs : s.Numbered) (hother : other ≠ module) :
    u.newsOf other = s.newsOf other := by
  have hnone : news.filter (fun n => n.module? == some other) = [] :=
    List.filter_eq_nil_iff.2 fun n hn => by
      rw [h.about n hn]
      simpa using Ne.symm hother
  rw [newsOf_congr h.events, hs.newsOf_tell, hnone, List.append_nil]

/-- The events are in order and tell who sits where. -/
structure Refined (s : Store) : Prop where
  numbered : s.Numbered
  seats : ∀ module, News.replay .empty (s.newsOf module) = some (s.seating module)

theorem refined_empty : Store.empty.Refined := ⟨numbered_empty, fun _ => rfl⟩

theorem Refined.narrated (hs : s.Refined) {now : Instant} {module : String} {news : List News}
    (h : s.Narrated u now module news) : u.Refined := by
  refine ⟨h.numbered hs.numbered, fun other => ?_⟩
  by_cases hother : other = module
  · rw [hother, h.newsOf hs.numbered, News.replay_append, hs.seats, Option.bind_some, h.seats]
  · have hsame : u.seating other = s.seating other := by
      unfold seating
      rw [h.others other hother]
    rw [h.newsOf_other hs.numbered hother, hs.seats, hsame]

/-! ### All turns -/

theorem afterAll_concat (s : Store) (turns : List Turn) (t : Turn) :
    s.afterAll (turns ++ [t]) = (s.afterAll turns).after t :=
  List.foldl_concat _ _ _ _

theorem refined_afterAll {turns : List Turn} (h : ∀ t ∈ turns, t.Delivers) :
    (Store.empty.afterAll turns).Refined := by
  induction turns using List.reverseRecOn with
  | nil => exact refined_empty
  | append_singleton turns t ih =>
      obtain ⟨hturns, ht⟩ := List.forall_mem_append.1 h
      have hs : (Store.empty.afterAll turns).Sound := sound_empty.afterAll turns
      obtain ⟨module, news, hn⟩ := Turn.narrated hs (ht t (List.mem_singleton_self t))
      rw [afterAll_concat]
      exact (ih hturns).narrated hn

end Store

/-- A run has begun a process on a module that had no draft, and the draft has been there since. -/
structure Begun (turns : List Turn) (module : String) (before : List Turn) (t : Turn)
    (after : List Turn) : Prop where
  run : turns = before ++ t :: after
  begins : t.Begins module
  idle : (Store.empty.afterAll before).draft? module = none
  since : ∀ later, later <+: after →
    ((Store.empty.afterAll (before ++ t :: later)).draft? module).isSome = true

theorem Begun.concat {turns : List Turn} {module : String} {before after : List Turn} {t : Turn}
    (h : Begun turns module before t after) {t' : Turn} {d : Draft}
    (hd : (Store.empty.afterAll (turns ++ [t'])).draft? module = some d) :
    Begun (turns ++ [t']) module before t (after ++ [t']) := by
  have hrun : turns ++ [t'] = before ++ t :: (after ++ [t']) := by
    rw [h.run, List.append_assoc, List.cons_append]
  refine { h with run := hrun, since := fun later hlater => ?_ }
  rcases List.prefix_concat_iff.1 hlater with rfl | hlater
  · rw [← hrun, hd]
    rfl
  · exact h.since later hlater

/-- What has been told about a module since its draft was begun. -/
theorem exists_begun {turns : List Turn} (h : ∀ t ∈ turns, t.Delivers) {module : String}
    {d : Draft} (hd : (Store.empty.afterAll turns).draft? module = some d) :
    ∃ before t after told, Begun turns module before t after ∧
      (Store.empty.afterAll turns).newsOf module =
        (Store.empty.afterAll before).newsOf module ++ told ∧
      ∀ n, News.lastAdvance? told = some n → n.step? = some d.step := by
  induction turns using List.reverseRecOn generalizing d with
  | nil => cases hd
  | append_singleton turns t ih =>
      obtain ⟨hturns, ht⟩ := List.forall_mem_append.1 h
      have ht : t.Delivers := ht t (List.mem_singleton_self t)
      have hs : (Store.empty.afterAll turns).Sound := Store.sound_empty.afterAll turns
      have hnumbered := (Store.refined_afterAll hturns).numbered
      obtain ⟨about, news, hn⟩ := Turn.narrated hs ht
      have hd' := hd
      rw [Store.afterAll_concat] at hd'
      cases hformer : (Store.empty.afterAll turns).draft? module with
      | none =>
          have hbegins := Turn.begins_of_draft? hs ht hformer hd'
          have habout : about = module := by
            by_contra hne
            cases ((hn.others module (Ne.symm hne)).trans hformer).symm.trans hd'
          subst habout
          refine ⟨turns, t, [], news, ⟨rfl, hbegins, hformer, fun later hlater => ?_⟩, ?_,
            fun n hlast => hn.advanced d n hd' hlast⟩
          · rw [List.prefix_nil.1 hlater, hd]
            rfl
          · rw [Store.afterAll_concat, hn.newsOf hnumbered]
      | some e =>
          obtain ⟨before, t', after, told, hbegun, hnews, hlast⟩ := ih hturns hformer
          by_cases habout : module = about
          · subst habout
            refine ⟨before, t', after ++ [t], told ++ news, hbegun.concat hd, ?_, fun n hn' => ?_⟩
            · rw [Store.afterAll_concat, hn.newsOf hnumbered, hnews, List.append_assoc]
            · rw [News.lastAdvance?_append] at hn'
              cases hlate : News.lastAdvance? news with
              | none =>
                  rw [hlate, Option.none_or] at hn'
                  rw [hn.kept e d hformer hd' hlate]
                  exact hlast n hn'
              | some n' =>
                  rw [hlate, Option.some_or] at hn'
                  exact hn.advanced d n hd' (hlate.trans hn')
          · refine ⟨before, t', after ++ [t], told, hbegun.concat hd, ?_, fun n hn' => ?_⟩
            · rw [Store.afterAll_concat, hn.newsOf_other hnumbered habout, hnews]
            · rw [hn.others module habout, hformer] at hd'
              rw [← Option.some.inj hd']
              exact hlast n hn'

/-- In a run in which the event sink stores what it is given, the events that name a module,
replayed in the order of their ids, give the seats of its draft, and none if it has no draft. The
last of its advances that has been told since the draft was begun names the step at which it is. -/
theorem events_refine_seats {turns : List Turn} (h : ∀ t ∈ turns, t.Delivers) (module : String) :
    let s := Store.empty.afterAll turns
    (∃ seating, News.replay .empty (s.newsOf module) = some seating ∧
      ∀ slot user, seating slot = some user ↔
        ∃ d, s.draft? module = some d ∧ ⟨slot, user⟩ ∈ d.seats) ∧
    ∀ d, s.draft? module = some d → ∃ before t after told, Begun turns module before t after ∧
      s.newsOf module = (Store.empty.afterAll before).newsOf module ++ told ∧
      ∀ n, News.lastAdvance? told = some n → n.step? = some d.step := by
  intro s
  have hs : s.Sound := Store.sound_empty.afterAll turns
  refine ⟨⟨s.seating module, (Store.refined_afterAll h).seats module, fun slot user => ?_⟩,
    fun d hd => exists_begun h hd⟩
  unfold Store.seating
  rw [Option.bind_eq_some_iff]
  refine exists_congr fun d => and_congr_right fun hd => ?_
  exact Draft.occupant?_eq_some_iff (hs.seats_ordered d (hs.draft?_eq_some_iff.1 hd).1)

/-- The events of the review up to its submission seat the author and the editor, and tell of the
step to which it has advanced. -/
theorem seats_of_review_told :
    let turns := Review.turns ++ [⟨Review.conditions, .draft (.advance "m" 4 1 2)⟩]
    (∀ t ∈ turns, t.Delivers) ∧
    (∃ seating, News.replay .empty (Review.reviewing.newsOf "m") = some seating ∧
      seating 1 = some 4 ∧ seating 2 = some 6) ∧
    (News.lastAdvance? (Review.reviewing.newsOf "m")).bind News.step? = some 2 ∧
    ∃ before t after told, Begun turns "m" before t after ∧
      Review.reviewing.newsOf "m" = (Store.empty.afterAll before).newsOf "m" ++ told ∧
      ∀ n, News.lastAdvance? told = some n → n.step? = some 2 := by
  intro turns
  have hrun : Store.empty.afterAll turns = Review.reviewing := Store.afterAll_concat _ _ _
  have hconditions : ∀ t ∈ turns, t.conditions = Review.conditions := by
    intro t ht
    rcases List.mem_append.1 ht with ht | ht
    · obtain ⟨action, -, rfl⟩ := List.mem_map.1 ht
      rfl
    · rw [List.mem_singleton.1 ht]
  have hdelivers : ∀ t ∈ turns, t.Delivers := by
    intro t ht _ _
    rw [hconditions t ht]
    exact (Conditions.smooth_of_date rfl true).delivers
  obtain ⟨⟨seating, hreplay, hseating⟩, hbegun⟩ := events_refine_seats hdelivers "m"
  rw [hrun] at hreplay hseating hbegun
  refine ⟨hdelivers, ⟨seating, hreplay, ?_, ?_⟩, by decide +kernel,
    hbegun _ Review.draft?_reviewing⟩
  · exact (hseating 1 4).2 ⟨_, Review.draft?_reviewing, by decide⟩
  · exact (hseating 2 6).2 ⟨_, Review.draft?_reviewing, by decide⟩

end Editorial
