import Editorial.Operation

/-!
# How operations end

An operation either fails and leaves everything as it was, or its work is committed and delivered
(`complete_cases`, `onLockedDraft_cases`); delivering adds events and touches no other table
(`Work.extends_outcome`). The first section opens computations that may fail, one step at a time.
-/

namespace Editorial

/-! ### Computations that may fail -/

section Results

variable {α β ε ε' : Type}

theorem bind_eq_ok_iff {x : Except ε α} {f : α → Except ε β} {b : β} :
    (x >>= f) = .ok b ↔ ∃ a, x = .ok a ∧ f a = .ok b := by
  cases x with
  | error e => simp [bind, Except.bind]
  | ok a => simp [bind, Except.bind]

theorem bind_eq_error_iff {x : Except ε α} {f : α → Except ε β} {e : ε} :
    (x >>= f) = .error e ↔ x = .error e ∨ ∃ a, x = .ok a ∧ f a = .error e := by
  cases x with
  | error e' => simp [bind, Except.bind]
  | ok a => simp [bind, Except.bind]

theorem pure_eq_ok_iff {a b : α} : (pure a : Except ε α) = .ok b ↔ a = b := by
  simp [pure, Except.pure]

theorem throw_ne_ok {e : ε} {b : α} : (throw e : Except ε α) ≠ .ok b := nofun

theorem guard_eq_ok_iff {p : Prop} [Decidable p] {e : ε} {f : PUnit → Except ε β}
    {x : Except ε β} {b : β} : (if p then throw e >>= f else x) = .ok b ↔ ¬p ∧ x = .ok b := by
  by_cases h : p
  · rw [if_pos h]
    exact iff_of_false nofun fun ⟨hn, _⟩ => hn h
  · rw [if_neg h]
    exact ⟨fun hx => ⟨h, hx⟩, fun hx => hx.2⟩

theorem unless_eq_ok_iff {p : Prop} [Decidable p] {e : ε} {f : PUnit → Except ε β}
    {x : Except ε β} {b : β} : (if p then x else throw e >>= f) = .ok b ↔ p ∧ x = .ok b := by
  by_cases h : p
  · rw [if_pos h]
    exact ⟨fun hx => ⟨h, hx⟩, fun hx => hx.2⟩
  · rw [if_neg h]
    exact iff_of_false nofun fun ⟨hp, _⟩ => h hp

theorem mapError_eq_ok_iff {f : ε → ε'} {x : Except ε α} {a : α} :
    x.mapError f = .ok a ↔ x = .ok a := by
  cases x with
  | error e => exact iff_of_false nofun nofun
  | ok b =>
      change Except.ok b = .ok a ↔ _
      simp only [Except.ok.injEq]

theorem exists_ok_of_toBool {x : Except ε α} (h : x.toBool = true) : ∃ a, x = .ok a := by
  cases x with
  | error e => cases h
  | ok a => exact ⟨a, rfl⟩

end Results

theorem requireStorable_eq_ok_iff {n : Int} {u : Unit} :
    requireStorable n = .ok u ↔ isStorable n = true := by
  unfold requireStorable
  split <;> simp_all

/-! ### Conditions under which nothing fails -/

namespace Conditions

variable {c : Conditions}

theorem requireStamp_eq_ok_iff : c.requireStamp = .ok () ↔ c.requireDate = .ok () := by
  unfold requireStamp requireDate
  rw [mapError_eq_ok_iff, mapError_eq_ok_iff]

/-- No collaborator and no commit of the database fails, and the moment has a date. -/
structure Smooth (c : Conditions) : Prop where
  date : c.requireDate = .ok ()
  copies : c.copyFails = false
  merges : c.mergeFails = false
  accepts : ∀ kind, c.refuses kind = false
  locks : c.lockError = none
  commits : ∀ n, c.commitError n = none

theorem Smooth.stamp (h : c.Smooth) : c.requireStamp = .ok () := requireStamp_eq_ok_iff.2 h.date

/-- The event sink stores what it is given: it refuses nothing, the moment has a date, and no commit
fails that comes after the operation's own one. -/
structure Delivers (c : Conditions) : Prop where
  date : c.requireDate = .ok ()
  accepts : ∀ kind, c.refuses kind = false
  commits : ∀ n, c.commitError (n + 1) = none

theorem Delivers.stamp (h : c.Delivers) : c.requireStamp = .ok () := requireStamp_eq_ok_iff.2 h.date

theorem Smooth.delivers (h : c.Smooth) : c.Delivers :=
  ⟨h.date, h.accepts, fun n => h.commits (n + 1)⟩

theorem smooth_of_date {now : Instant} (h : now.requireDate = .ok ()) (autofill : Bool) :
    (smooth now autofill).Smooth where
  date := mapError_eq_ok_iff.2 h
  copies := rfl
  merges := rfl
  accepts _ := rfl
  locks := rfl
  commits _ := rfl

end Conditions

/-! ### Delivery -/

/-- One store is another one with further events. -/
def Store.Extends (s t : Store) : Prop := ∃ es, s = { t with events := t.events ++ es }

namespace Store

theorem Extends.refl (s : Store) : s.Extends s := ⟨[], by rw [List.append_nil]⟩

theorem Extends.trans {s t u : Store} (h₁ : s.Extends t) (h₂ : t.Extends u) : s.Extends u := by
  obtain ⟨es₁, rfl⟩ := h₁
  obtain ⟨es₂, rfl⟩ := h₂
  exact ⟨es₂ ++ es₁, by rw [List.append_assoc]⟩

end Store

namespace Delivery

theorem store_commit_cases (c : Conditions) (kind : EventKind) (a : Announcement) (d : Delivery) :
    (commit c kind a d).2.store = d.store ∨
      (commit c kind a d).2.store = d.store.addEvents kind a c.now := by
  unfold commit
  dsimp only
  split
  · exact Or.inl rfl
  split
  · exact Or.inl rfl
  split
  · exact Or.inl rfl
  split
  · exact Or.inr rfl
  · exact Or.inl rfl

/-- An announcement is stored as it is, if its kind is known, or not at all. -/
theorem store_deliver_cases (c : Conditions) (d : Delivery) (a : Announcement) :
    (deliver c d a).store = d.store ∨ ∃ kind, EventKind.ofJson? a.kind = some kind ∧
      (deliver c d a).store = d.store.addEvents kind a c.now := by
  have hemit : (emit c a d).2.store = d.store ∨ ∃ kind, EventKind.ofJson? a.kind = some kind ∧
      (emit c a d).2.store = d.store.addEvents kind a c.now := by
    unfold emit
    split
    · exact Or.inl rfl
    split
    · exact Or.inl rfl
    split
    · exact Or.inl rfl
    rename_i kind hkind
    split
    · exact Or.inl rfl
    · exact (store_commit_cases c kind a d).imp_right fun h => ⟨kind, hkind, h⟩
  unfold deliver
  generalize emit c a d = r at hemit ⊢
  rcases r with ⟨_ | ⟨⟩, d'⟩ <;> exact hemit

theorem extends_deliver (c : Conditions) (d : Delivery) (a : Announcement) :
    (deliver c d a).store.Extends d.store := by
  rcases store_deliver_cases c d a with h | ⟨kind, -, h⟩
  · rw [h]
    exact .refl _
  · rw [h]
    exact ⟨_, rfl⟩

theorem extends_deliverAll (c : Conditions) (d : Delivery) (pending : List Announcement) :
    (deliverAll c d pending).store.Extends d.store := by
  induction pending generalizing d with
  | nil => exact .refl _
  | cons a pending ih => exact (ih (deliver c d a)).trans (extends_deliver c d a)

end Delivery

/-! ### Commits -/

section Commits

variable {α : Type}

/-- How an operation ends whose work is committed: its announcements are delivered. -/
def Work.outcome (c : Conditions) (w : Work α) : Outcome α :=
  let d := (Delivery.start w.store 1).deliverAll c w.events
  { result := .ok w.value, store := d.store, delivered := d.delivered, broken := d.broken }

theorem Work.extends_outcome (c : Conditions) (w : Work α) :
    (w.outcome c).store.Extends w.store :=
  Delivery.extends_deliverAll c (.start w.store 1) w.events

/-- Work is fit to be committed. -/
structure Work.Commits (c : Conditions) (w : Work α) : Prop where
  commit : c.commitError 0 = none
  flaw : w.flaw = none

theorem complete_of_commits {c : Conditions} {s : Store} {report : DatabaseError → Failure}
    {work : Except Failure (Work α)} {w : Work α} (hw : work = .ok w) (h : w.Commits c) :
    complete c s report work = w.outcome c := by
  subst hw
  simp only [complete, h.commit, h.flaw]
  rfl

theorem complete_cases (c : Conditions) (s : Store) (report : DatabaseError → Failure)
    (work : Except Failure (Work α)) :
    (∃ f, complete c s report work = .failed s f) ∨
      ∃ w, work = .ok w ∧ w.Commits c ∧ complete c s report work = w.outcome c := by
  cases work with
  | error f => exact Or.inl ⟨f, rfl⟩
  | ok w =>
      cases hc : c.commitError 0 with
      | some e => exact Or.inl ⟨report e, by simp only [complete, hc]⟩
      | none =>
          cases hf : w.flaw with
          | some f => exact Or.inl ⟨f, by simp only [complete, hc, hf]⟩
          | none => exact Or.inr ⟨w, rfl, ⟨hc, hf⟩, complete_of_commits rfl ⟨hc, hf⟩⟩

theorem onLockedDraft_cases (c : Conditions) (s : Store) (module : String)
    (prepare : Draft → Except Failure (Work α)) :
    (∃ f, onLockedDraft c s module prepare = .failed s f) ∨
      ∃ d w, c.lockError = none ∧ s.draft? module = some d ∧ prepare d = .ok w ∧ w.Commits c ∧
        onLockedDraft c s module prepare = w.outcome c := by
  unfold onLockedDraft
  cases hl : c.lockError with
  | some e => exact Or.inl ⟨_, rfl⟩
  | none =>
      rcases complete_cases c s (fun _ => .databaseFailed) (do
        let d ← s.draft module
        (prepare d).mapError Failure.whileLocked) with hfailed | ⟨w, hw, hc, h⟩
      · exact Or.inl hfailed
      · obtain ⟨d, hd, hw⟩ := bind_eq_ok_iff.1 hw
        refine Or.inr ⟨d, w, rfl, ?_, mapError_eq_ok_iff.1 hw, hc, h⟩
        unfold Store.draft at hd
        split at hd
        · rename_i hfound
          rw [hfound, Except.ok.inj hd]
        · cases hd

theorem onLockedDraft_of_none {c : Conditions} {s : Store} {module : String}
    {prepare : Draft → Except Failure (Work α)} (hlock : c.lockError = none)
    (hd : s.draft? module = none) :
    onLockedDraft c s module prepare = .failed s (.notFound .draft module) := by
  simp only [onLockedDraft, hlock, Store.draft, hd]
  rfl

theorem store_onLockedDraft_of_none {c : Conditions} {s : Store} {module : String}
    {prepare : Draft → Except Failure (Work α)} (hd : s.draft? module = none) :
    (onLockedDraft c s module prepare).store = s := by
  rcases onLockedDraft_cases c s module prepare with ⟨f, hf⟩ | ⟨d, w, -, hfound, -⟩
  · rw [hf]
    rfl
  · cases hd.symm.trans hfound

theorem onLockedDraft_of_error {c : Conditions} {s : Store} {module : String} {d : Draft}
    {prepare : Draft → Except Failure (Work α)} {f : Failure} (hlock : c.lockError = none)
    (hd : s.draft? module = some d) (hf : prepare d = .error f) :
    onLockedDraft c s module prepare = .failed s f.whileLocked := by
  simp only [onLockedDraft, hlock, Store.draft, hd]
  simp only [bind, Except.bind, hf]
  rfl

theorem onLockedDraft_of_commits {c : Conditions} {s : Store} {module : String} {d : Draft}
    {prepare : Draft → Except Failure (Work α)} {w : Work α} (hlock : c.lockError = none)
    (hd : s.draft? module = some d) (hw : prepare d = .ok w) (h : w.Commits c) :
    onLockedDraft c s module prepare = w.outcome c := by
  simp only [onLockedDraft, hlock, Store.draft, hd]
  refine complete_of_commits ?_ h
  simp only [bind, Except.bind, hw]
  rfl

end Commits

end Editorial
