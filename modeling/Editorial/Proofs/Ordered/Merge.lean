import Editorial.Ordered.Merge
import Editorial.Proofs.Ordered.Search
import Mathlib.Order.Basic

/-!
# What merging yields

Elements with a key can be compared (`Compares`); then two runs in ascending order of the key are
merged into one (`mergeRuns_of_ascending`). While they are being merged everything placed so far
lies on one side of all that is left, and the far end of the shorter run behind the whole longer one
(`Merging.InOrder`). Taking the next elements of a run keeps this as long as they come before the
other run (`Merging.InOrder.takeLeft`, `Merging.InOrder.takeRight`), and what is compared before
makes sure that they do.
-/

namespace Editorial.Ordered

variable {α ε : Type}

/-- Elements of a kind are compared by a key. -/
def Compares (lt : α → α → Except ε Bool) (P : α → Prop) (key : α → Int) : Prop :=
  ∀ a b, P a → P b → lt a b = .ok (decide (key a < key b))

/-- Elements of a kind in ascending order of a key. -/
structure Ascending (P : α → Prop) (key : α → Int) (l : List α) : Prop where
  all : ∀ a ∈ l, P a
  sorted : l.Pairwise fun a b => key a ≤ key b

variable {P : α → Prop} {key : α → Int}

namespace Ascending

variable {l l' : List α}

theorem take (h : Ascending P key l) (n : Nat) : Ascending P key (l.take n) :=
  ⟨fun a ha => h.all a (List.mem_of_mem_take ha), h.sorted.sublist (List.take_sublist n l)⟩

theorem drop (h : Ascending P key l) (n : Nat) : Ascending P key (l.drop n) :=
  ⟨fun a ha => h.all a (List.mem_of_mem_drop ha), h.sorted.sublist (List.drop_sublist n l)⟩

theorem append (h : Ascending P key l) (h' : Ascending P key l')
    (hle : ∀ a ∈ l, ∀ b ∈ l', key a ≤ key b) : Ascending P key (l ++ l') :=
  ⟨fun a ha => (List.mem_append.1 ha).elim (h.all a) (h'.all a),
    List.pairwise_append.2 ⟨h.sorted, h'.sorted, hle⟩⟩

/-- Nothing in front of a place comes behind anything from there on. -/
theorem take_le_drop (h : Ascending P key l) (n : Nat) :
    ∀ a ∈ l.take n, ∀ b ∈ l.drop n, key a ≤ key b := by
  have hwhole := h.sorted
  rw [← List.take_append_drop n l] at hwhole
  exact (List.pairwise_append.1 hwhole).2.2

theorem head_le (h : Ascending P key l) {first : α} (hfirst : l.head? = some first) :
    ∀ a ∈ l, key first ≤ key a := by
  obtain ⟨rest, rfl⟩ := List.head?_eq_some_iff.1 hfirst
  intro a ha
  rcases List.mem_cons.1 ha with rfl | ha
  · exact Int.le_refl _
  · exact (List.pairwise_cons.1 h.sorted).1 a ha

theorem le_last (h : Ascending P key l) {last : α} (hlast : l.getLast? = some last) :
    ∀ a ∈ l, key a ≤ key last := by
  obtain ⟨front, rfl⟩ := List.getLast?_eq_some_iff.1 hlast
  intro a ha
  rcases List.mem_append.1 ha with ha | ha
  · exact (List.pairwise_append.1 h.sorted).2.2 a ha last (List.mem_singleton_self last)
  · exact Int.le_of_eq (congrArg key (List.mem_singleton.1 ha))

end Ascending

/-! ### Directions -/

namespace Direction

/-- One element is met before another when merging from that end, or they have the same key. -/
def Before (key : α → Int) : Direction → α → α → Prop
  | upward, a, b => key a ≤ key b
  | downward, a, b => key b ≤ key a

theorem Before.trans {d : Direction} {a b c : α} (h : d.Before key a b) (h' : d.Before key b c) :
    d.Before key a c := by
  cases d with
  | upward => exact Int.le_trans h h'
  | downward => exact Int.le_trans h' h

theorem Before.of_lt_of_downward {d : Direction} {a b : α}
    (h : decide (key b < key a) = (d == downward)) : d.Before key a b := by
  cases d with
  | upward => exact Int.not_lt.1 (of_decide_eq_false h)
  | downward => exact Int.le_of_lt (of_decide_eq_true h)

theorem Before.of_lt_of_upward {d : Direction} {a b : α}
    (h : decide (key b < key a) = (d == upward)) : d.Before key b a := by
  cases d with
  | upward => exact Int.le_of_lt (of_decide_eq_true h)
  | downward => exact Int.not_lt.1 (of_decide_eq_false h)

theorem not_eq_upward_iff {d : Direction} {x : Bool} :
    ((!x) = (d == upward)) ↔ x = (d == downward) := by
  cases d <;> cases x <;> decide

theorem not_eq_downward_iff {d : Direction} {x : Bool} :
    ((!x) = (d == downward)) ↔ x = (d == upward) := by
  cases d <;> cases x <;> decide

/-- What comes before the next element of a run comes before all of it. -/
theorem Before.of_head {d : Direction} {run : List α} (h : run.Pairwise (d.Before key)) {a : α}
    (ha : ∀ b ∈ run.head?, d.Before key a b) : ∀ b ∈ run, d.Before key a b := by
  cases run with
  | nil => nofun
  | cons first rest =>
      have hfirst := ha first rfl
      intro b hb
      rcases List.mem_cons.1 hb with rfl | hb
      · exact hfirst
      · exact hfirst.trans ((List.pairwise_cons.1 h).1 b hb)

/-- Of a run that is met in order, those elements are counted that lie at the near end, as far as a
question divides them from the others that holds of the lower part. -/
theorem countNear_spec {d : Direction} {low : α → Except ε Bool} {p : α → Bool} {run : List α}
    (hlow : ∀ a ∈ run, low a = .ok (p a)) (hrun : run.Pairwise (d.Before key))
    (hp : ∀ a b, key a ≤ key b → p b = true → p a = true) :
    ∃ n, countNear low d run = .ok n ∧ (∀ a ∈ run.take n, p a = (d == upward)) ∧
      ∀ a ∈ run.drop n, p a = (d == downward) := by
  cases d with
  | upward =>
      obtain ⟨n, hn⟩ := exists_splits (hrun.imp fun {a b} hle => hp a b hle)
      exact ⟨n, search_of_splits hlow hn (Nat.zero_le _), hn.ahead, hn.behind⟩
  | downward =>
      have hreverse : run.reverse.Pairwise fun a b => p b = true → p a = true :=
        List.pairwise_reverse.2 (hrun.imp fun {a b} hle => hp b a hle)
      obtain ⟨n, hn⟩ := exists_splits hreverse
      have hfound : search low run.reverse (run.length - 1) = .ok n :=
        search_of_splits (fun a ha => hlow a (List.mem_reverse.1 ha)) hn (by simp)
      have hle : n ≤ run.length := List.length_reverse ▸ hn.le
      refine ⟨run.length - n, by simp only [countNear, hfound]; rfl, fun a ha => ?_, fun a ha => ?_⟩
      · refine hn.behind a ?_
        rw [List.drop_reverse]
        exact List.mem_reverse.2 ha
      · refine hn.ahead a ?_
        rw [List.take_reverse]
        exact List.mem_reverse.2 ha

end Direction

/-! ### Two runs being merged -/

/-- The next elements of a run go on with what has been placed, last one first, if all of it comes
before the run. -/
theorem placed_take {r : α → α → Prop} {placed run : List α}
    (hplaced : placed.Pairwise fun a b => r b a) (hrun : run.Pairwise r)
    (hbefore : ∀ a ∈ placed, ∀ b ∈ run, r a b) (n : Nat) :
    ((run.take n).reverse ++ placed).Pairwise fun a b => r b a := by
  refine List.pairwise_append.2 ⟨List.pairwise_reverse.2 (hrun.sublist (List.take_sublist n run)),
    hplaced, fun a ha b hb => ?_⟩
  exact hbefore b hb a (List.mem_of_mem_take (List.mem_reverse.1 ha))

/-- The next elements of a run come before its other ones and, if they do, before another run. -/
theorem before_take {r : α → α → Prop} {placed run other : List α} (hrun : run.Pairwise r)
    (hbefore : ∀ a ∈ placed, ∀ b ∈ run, r a b) (hother : ∀ a ∈ placed, ∀ b ∈ other, r a b) {n : Nat}
    (htake : ∀ a ∈ run.take n, ∀ b ∈ other, r a b) {a : α}
    (ha : a ∈ (run.take n).reverse ++ placed) :
    (∀ b ∈ run.drop n, r a b) ∧ ∀ b ∈ other, r a b := by
  rw [← List.take_append_drop n run] at hrun
  rcases List.mem_append.1 ha with ha | ha
  · have ha := List.mem_reverse.1 ha
    exact ⟨(List.pairwise_append.1 hrun).2.2 a ha, htake a ha⟩
  · exact ⟨fun b hb => hbefore a ha b (List.mem_of_mem_drop hb), hother a ha⟩

theorem mem_getLast?_of_drop {l : List α} {n : Nat} {a : α} (h : a ∈ (l.drop n).getLast?) :
    a ∈ l.getLast? := by
  rw [List.getLast?_drop] at h
  split at h
  · cases h
  · exact h

theorem mem_getLast?_of_length_le_one {l : List α} (h : l.length ≤ 1) {a : α} (ha : a ∈ l) :
    a ∈ l.getLast? := by
  match l, h with
  | [b], _ => exact List.mem_singleton.1 ha ▸ rfl

theorem mem_head?_of_take_one {l : List α} {a : α} (h : a ∈ l.take 1) : a ∈ l.head? := by
  cases l with
  | nil => cases h
  | cons b l => exact List.mem_singleton.1 h ▸ rfl

namespace Merging

/-- Two runs of which the first elements have been merged: what is placed and what is left are in
order, the one comes before the other, and the far end of the shorter run comes behind all that is
left of the longer one. -/
structure InOrder (P : α → Prop) (key : α → Int) (d : Direction) (m : Merging α) : Prop where
  all : ∀ a ∈ m.elements, P a
  placed : m.placed.Pairwise fun a b => d.Before key b a
  left : m.left.Pairwise (d.Before key)
  right : m.right.Pairwise (d.Before key)
  before_left : ∀ a ∈ m.placed, ∀ b ∈ m.left, d.Before key a b
  before_right : ∀ a ∈ m.placed, ∀ b ∈ m.right, d.Before key a b
  far_left : d = .upward → ∀ a ∈ m.left.getLast?, ∀ b ∈ m.right, d.Before key b a
  far_right : d = .downward → ∀ b ∈ m.right.getLast?, ∀ a ∈ m.left, d.Before key a b

/-- The number of elements that are left. -/
def remaining (m : Merging α) : Nat := m.left.length + m.right.length

namespace InOrder

variable {d : Direction} {m : Merging α}

theorem of_left (h : m.InOrder P key d) {a : α} (ha : a ∈ m.left) : P a :=
  h.all a (List.mem_append_right _ (List.mem_append_left _ ha))

theorem of_right (h : m.InOrder P key d) {a : α} (ha : a ∈ m.right) : P a :=
  h.all a (List.mem_append_right _ (List.mem_append_right _ ha))

theorem takeLeft (h : m.InOrder P key d) {n : Nat}
    (hn : ∀ a ∈ m.left.take n, ∀ b ∈ m.right, d.Before key a b) :
    (m.takeLeft n).InOrder P key d where
  all a ha := h.all a ((elements_takeLeft m n).mem_iff.1 ha)
  placed := placed_take h.placed h.left h.before_left n
  left := h.left.sublist (List.drop_sublist n m.left)
  right := h.right
  before_left _ ha := (before_take h.left h.before_left h.before_right hn ha).1
  before_right _ ha := (before_take h.left h.before_left h.before_right hn ha).2
  far_left hd a ha := h.far_left hd a (mem_getLast?_of_drop ha)
  far_right hd b hb a ha := h.far_right hd b hb a (List.mem_of_mem_drop ha)

theorem takeRight (h : m.InOrder P key d) {n : Nat}
    (hn : ∀ b ∈ m.right.take n, ∀ a ∈ m.left, d.Before key b a) :
    (m.takeRight n).InOrder P key d where
  all a ha := h.all a ((elements_takeRight m n).mem_iff.1 ha)
  placed := placed_take h.placed h.right h.before_right n
  left := h.left
  right := h.right.sublist (List.drop_sublist n m.right)
  before_left _ ha := (before_take h.right h.before_right h.before_left hn ha).2
  before_right _ ha := (before_take h.right h.before_right h.before_left hn ha).1
  far_left hd a ha b hb := h.far_left hd a ha b (List.mem_of_mem_drop hb)
  far_right hd b hb := h.far_right hd b (mem_getLast?_of_drop hb)

/-- What is merged is in ascending order once nothing needs to be compared any more. -/
theorem result (h : m.InOrder P key d) (hdone : d.isDone m = true) :
    Ascending P key (d.result m) where
  all a ha := h.all a ((d.result_perm m).mem_iff.1 ha)
  sorted := by
    cases d with
    | upward =>
        refine List.pairwise_append.2 ⟨List.pairwise_reverse.2 h.placed,
          List.pairwise_append.2 ⟨h.right, h.left, fun b hb a ha => ?_⟩, fun a ha b hb => ?_⟩
        · rcases Bool.or_eq_true_iff.1 hdone with hone | hnone
          · exact h.far_left rfl a
              (mem_getLast?_of_length_le_one (of_decide_eq_true hone) ha) b hb
          · rw [List.isEmpty_iff.1 hnone] at hb
            cases hb
        · have ha := List.mem_reverse.1 ha
          rcases List.mem_append.1 hb with hb | hb
          · exact h.before_right a ha b hb
          · exact h.before_left a ha b hb
    | downward =>
        refine List.pairwise_append.2 ⟨List.pairwise_reverse.2
          (List.pairwise_append.2 ⟨h.left, h.right, fun a ha b hb => ?_⟩), h.placed,
          fun a ha b hb => ?_⟩
        · rcases Bool.or_eq_true_iff.1 hdone with hnone | hone
          · rw [List.isEmpty_iff.1 hnone] at ha
            cases ha
          · exact h.far_right rfl b
              (mem_getLast?_of_length_le_one (of_decide_eq_true hone) hb) a ha
        · rcases List.mem_append.1 (List.mem_reverse.1 ha) with ha | ha
          · exact h.before_left b hb a ha
          · exact h.before_right b hb a ha

theorem takeLeft_one (h : m.InOrder P key d)
    (hhead : ∀ a ∈ m.left.head?, ∀ b ∈ m.right.head?, d.Before key a b) :
    (m.takeLeft 1).InOrder P key d :=
  h.takeLeft fun a ha => Direction.Before.of_head h.right (hhead a (mem_head?_of_take_one ha))

theorem takeRight_one (h : m.InOrder P key d)
    (hhead : ∀ b ∈ m.right.head?, ∀ a ∈ m.left.head?, d.Before key b a) :
    (m.takeRight 1).InOrder P key d :=
  h.takeRight fun b hb => Direction.Before.of_head h.left (hhead b (mem_head?_of_take_one hb))

end InOrder

/-! ### Steps of a merge -/

section Steps

variable {lt : α → α → Except ε Bool} (hlt : Compares lt P key) {d : Direction} {m : Merging α}

theorem remaining_takeLeft_le (m : Merging α) (n : Nat) :
    (m.takeLeft n).remaining ≤ m.remaining := by
  simp only [remaining, takeLeft, List.length_drop]
  omega

theorem remaining_takeRight_le (m : Merging α) (n : Nat) :
    (m.takeRight n).remaining ≤ m.remaining := by
  simp only [remaining, takeRight, List.length_drop]
  omega

theorem remaining_takeLeft_one_lt (h : m.left ≠ []) :
    (m.takeLeft 1).remaining < m.remaining := by
  have := List.length_pos_iff.2 h
  simp only [remaining, takeLeft, List.length_drop]
  omega

theorem remaining_takeRight_one_lt (h : m.right ≠ []) :
    (m.takeRight 1).remaining < m.remaining := by
  have := List.length_pos_iff.2 h
  simp only [remaining, takeRight, List.length_drop]
  omega

/-- Each run has a next element as long as something needs to be compared. -/
theorem ne_nil_of_not_done (h : d.isDone m = false) : m.left ≠ [] ∧ m.right ≠ [] := by
  cases d with
  | upward =>
      obtain ⟨hleft, hright⟩ := Bool.or_eq_false_iff.1 h
      refine ⟨fun hnil => ?_, fun hnil => ?_⟩
      · simp [hnil] at hleft
      · simp [hnil] at hright
  | downward =>
      obtain ⟨hleft, hright⟩ := Bool.or_eq_false_iff.1 h
      refine ⟨fun hnil => ?_, fun hnil => ?_⟩
      · simp [hnil] at hleft
      · simp [hnil] at hright

include hlt

/-- The run is told apart whose next element comes first. -/
theorem takesRight_spec (h : m.InOrder P key d) (hdone : d.isDone m = false) :
    ∃ right, m.takesRight lt d = .ok right ∧
      (if right then m.takeRight 1 else m.takeLeft 1).InOrder P key d := by
  obtain ⟨hleft, hright⟩ := ne_nil_of_not_done hdone
  obtain ⟨a, lefts, hleft⟩ := List.exists_cons_of_ne_nil hleft
  obtain ⟨b, rights, hright⟩ := List.exists_cons_of_ne_nil hright
  have hask := hlt b a (h.of_right (hright ▸ List.mem_cons_self))
    (h.of_left (hleft ▸ List.mem_cons_self))
  have hfound : m.takesRight lt d = .ok (decide (key b < key a) == (d == .upward)) := by
    unfold takesRight
    rw [hleft, hright]
    simp only [hask]
    cases d <;> cases decide (key b < key a) <;> rfl
  refine ⟨_, hfound, ?_⟩
  split
  · rename_i heq
    have hbefore : d.Before key b a := .of_lt_of_upward (beq_iff_eq.1 heq)
    refine h.takeRight_one fun b' hb' a' ha' => ?_
    rw [hright] at hb'
    rw [hleft] at ha'
    cases hb'
    cases ha'
    exact hbefore
  · rename_i hne
    have hbefore : d.Before key a b := .of_lt_of_downward (Direction.not_eq_upward_iff.1
      (Bool.not_eq.2 fun heq => hne (beq_iff_eq.2 heq)))
    refine h.takeLeft_one fun a' ha' b' hb' => ?_
    rw [hright] at hb'
    rw [hleft] at ha'
    cases hb'
    cases ha'
    exact hbefore

/-- The elements of the left run are counted that come before the next one of the right run. -/
theorem countLeft_spec (h : m.InOrder P key d) :
    ∃ n, m.countLeft lt d = .ok n ∧ (m.takeLeft n).InOrder P key d ∧
      ∀ b ∈ m.right.head?, ∀ a ∈ m.left.drop n, d.Before key b a := by
  unfold countLeft
  cases hright : m.right with
  | nil => exact ⟨0, rfl, h.takeLeft nofun, nofun⟩
  | cons b rest =>
      have hlow : ∀ a ∈ m.left, (lt b a).map not = .ok (!decide (key b < key a)) := fun a ha => by
        rw [hlt b a (h.of_right (hright ▸ List.mem_cons_self)) (h.of_left ha)]
        rfl
      obtain ⟨n, hok, hnear, hfar⟩ := Direction.countNear_spec hlow h.left fun a a' hle => by
        simp only [Bool.not_eq_true', decide_eq_false_iff_not]
        omega
      refine ⟨n, hok, h.takeLeft fun a ha => Direction.Before.of_head h.right fun b' hb' => ?_,
        fun b' hb' a ha => ?_⟩
      · rw [hright] at hb'
        cases hb'
        exact .of_lt_of_downward (Direction.not_eq_upward_iff.1 (hnear a ha))
      · cases hb'
        exact .of_lt_of_upward (Direction.not_eq_downward_iff.1 (hfar a ha))

/-- The elements of the right run are counted that come before the next one of the left run. -/
theorem countRight_spec (h : m.InOrder P key d) :
    ∃ n, m.countRight lt d = .ok n ∧ (m.takeRight n).InOrder P key d ∧
      ∀ a ∈ m.left.head?, ∀ b ∈ m.right.drop n, d.Before key a b := by
  unfold countRight
  cases hleft : m.left with
  | nil => exact ⟨0, rfl, h.takeRight nofun, nofun⟩
  | cons a rest =>
      have hlow : ∀ b ∈ m.right, lt b a = .ok (decide (key b < key a)) := fun b hb =>
        hlt b a (h.of_right hb) (h.of_left (hleft ▸ List.mem_cons_self))
      obtain ⟨n, hok, hnear, hfar⟩ := Direction.countNear_spec hlow h.right fun b b' hle => by
        simp only [decide_eq_true_eq]
        omega
      refine ⟨n, hok, h.takeRight fun b hb => Direction.Before.of_head h.left fun a' ha' => ?_,
        fun a' ha' b hb => ?_⟩
      · rw [hleft] at ha'
        cases ha'
        exact .of_lt_of_upward (hnear b hb)
      · cases ha'
        exact .of_lt_of_downward (hfar b hb)

/-- Leaping leaves the runs in order; it ends early only when the merge is done, and otherwise there
is less left of the runs. -/
theorem leapBoth_spec (h : m.InOrder P key d) :
    ∃ m' length, m.leapBoth lt d = .ok (m', length) ∧ m'.InOrder P key d ∧
      (length = none → d.isDone m' = true) ∧ (length ≠ none → m'.remaining < m.remaining) := by
  obtain ⟨lefts, hlefts, h₁, hnext₁⟩ := countLeft_spec hlt h
  have hsize₁ := remaining_takeLeft_le m lefts
  unfold leapBoth
  simp only [bind, Except.bind, hlefts]
  split
  · rename_i hdone₁
    exact ⟨_, none, rfl, h₁, fun _ => hdone₁, fun hne => absurd rfl hne⟩
  rename_i hdone₁
  have h₂ := h₁.takeRight_one fun b hb a ha => hnext₁ b hb a (List.mem_of_mem_head? ha)
  have hsize₂ := remaining_takeRight_one_lt (ne_nil_of_not_done (Bool.not_eq_true _ ▸ hdone₁)).2
  split
  · rename_i hdone₂
    exact ⟨_, none, rfl, h₂, fun _ => hdone₂, fun hne => absurd rfl hne⟩
  obtain ⟨rights, hrights, h₃, hnext₃⟩ := countRight_spec hlt h₂
  have hsize₃ := remaining_takeRight_le ((m.takeLeft lefts).takeRight 1) rights
  simp only [hrights]
  split
  · rename_i hdone₃
    exact ⟨_, none, rfl, h₃, fun _ => hdone₃, fun hne => absurd rfl hne⟩
  have h₄ := h₃.takeLeft_one fun a ha b hb => hnext₃ a ha b (List.mem_of_mem_head? hb)
  have hsize₄ := remaining_takeLeft_le (((m.takeLeft lefts).takeRight 1).takeRight rights) 1
  split
  · rename_i hdone₄
    exact ⟨_, none, rfl, h₄, fun _ => hdone₄, fun hne => absurd rfl hne⟩
  · exact ⟨_, some _, rfl, h₄, nofun, fun _ => by omega⟩

/-- With fuel for all elements that are left, a merge that is in order goes on until it is done. -/
theorem run_spec {fuel : Nat} (pace : Pace) (patience : Nat) (h : m.InOrder P key d)
    (hfuel : m.remaining ≤ fuel) :
    ∃ m' patience', m.run lt d fuel pace patience = .ok (m', patience') ∧ m'.InOrder P key d ∧
      d.isDone m' = true := by
  induction fuel generalizing m pace patience with
  | zero =>
      refine ⟨m, patience, rfl, h, ?_⟩
      by_contra hdone
      obtain ⟨hleft, -⟩ := ne_nil_of_not_done (Bool.eq_false_iff.2 hdone)
      have := List.length_pos_iff.2 hleft
      unfold remaining at hfuel
      omega
  | succ fuel ih =>
      unfold run
      split
      · rename_i hdone
        exact ⟨m, patience, rfl, h, hdone⟩
      rename_i hdone
      have hdone : d.isDone m = false := Bool.not_eq_true _ ▸ hdone
      split
      · obtain ⟨right, hright, hnext⟩ := takesRight_spec hlt h hdone
        simp only [bind, Except.bind, hright]
        cases right with
        | true =>
            have := remaining_takeRight_one_lt (ne_nil_of_not_done hdone).2
            exact ih _ _ hnext (by omega)
        | false =>
            have := remaining_takeLeft_one_lt (ne_nil_of_not_done hdone).1
            exact ih _ _ hnext (by omega)
      · obtain ⟨m', length, hok, h', hended, hless⟩ := leapBoth_spec hlt h
        simp only [bind, Except.bind, hok]
        cases length with
        | none => exact ⟨m', patience, rfl, h', hended rfl⟩
        | some length =>
            have := hless (Option.some_ne_none length)
            dsimp only
            split
            · exact ih _ _ h' (by omega)
            · exact ih _ _ h' (by omega)

end Steps

end Merging

/-! ### Two runs merged -/

section Runs

variable {lt : α → α → Except ε Bool} {left right : List α}

/-- Two runs that overlap as a whole: the right one begins before all of the left one, and the left
one ends behind all of the right one. -/
structure Overlap (key : α → Int) (left right : List α) : Prop where
  lower : ∀ b ∈ right.head?, ∀ a ∈ left, key b ≤ key a
  upper : ∀ a ∈ left.getLast?, ∀ b ∈ right, key b ≤ key a

/-- The merge of two runs that overlap begins in order, at whichever end it begins. -/
theorem inOrder_start (d : Direction) (hleft : Ascending P key left)
    (hright : Ascending P key right) (h : Overlap key left right) :
    (d.start left right).InOrder P key d := by
  cases d with
  | upward =>
      have hbase : Merging.InOrder P key .upward ⟨[], left, right⟩ := {
        all := fun a (ha : a ∈ left ++ right) =>
          (List.mem_append.1 ha).elim (hleft.all a) (hright.all a)
        placed := .nil
        left := hleft.sorted
        right := hright.sorted
        before_left := nofun
        before_right := nofun
        far_left := fun _ => h.upper
        far_right := nofun }
      exact hbase.takeRight_one fun b hb a ha => h.lower b hb a (List.mem_of_mem_head? ha)
  | downward =>
      have hbase : Merging.InOrder P key .downward ⟨[], left.reverse, right.reverse⟩ := {
        all := fun a (ha : a ∈ left.reverse ++ right.reverse) => (List.mem_append.1 ha).elim
          (fun ha => hleft.all a (List.mem_reverse.1 ha))
          fun ha => hright.all a (List.mem_reverse.1 ha)
        placed := .nil
        left := List.pairwise_reverse.2 hleft.sorted
        right := List.pairwise_reverse.2 hright.sorted
        before_left := nofun
        before_right := nofun
        far_left := nofun
        far_right := fun _ b hb a ha =>
          h.lower b (List.getLast?_reverse ▸ hb) a (List.mem_reverse.1 ha) }
      exact hbase.takeLeft_one fun a ha b hb => h.upper a (List.head?_reverse ▸ ha) b
        (List.mem_reverse.1 (List.mem_of_mem_head? hb))

theorem remaining_start_le (d : Direction) (left right : List α) :
    (d.start left right).remaining ≤ left.length + right.length := by
  cases d with
  | upward => exact Merging.remaining_takeRight_le _ _
  | downward =>
      refine Nat.le_trans (Merging.remaining_takeLeft_le _ _) ?_
      simp [Merging.remaining]

/-- What stays in front of two runs and what stays behind them goes around what they are merged
into. -/
theorem ascending_around (hleft : Ascending P key left) (hright : Ascending P key right)
    {kept moved : Nat} {middle : List α} (hmiddle : Ascending P key middle)
    (hperm : middle.Perm (left.drop kept ++ right.take moved))
    (hfront : ∀ a ∈ left.take kept, ∀ b ∈ right, key a ≤ key b)
    (hback : ∀ a ∈ left, ∀ b ∈ right.drop moved, key a ≤ key b) :
    Ascending P key (left.take kept ++ middle ++ right.drop moved) := by
  refine ((hleft.take kept).append hmiddle fun a ha b hb => ?_).append
    (hright.drop moved) fun a ha b hb => ?_
  · rcases List.mem_append.1 (hperm.mem_iff.1 hb) with hb | hb
    · exact hleft.take_le_drop kept a ha b hb
    · exact hfront a ha b (List.mem_of_mem_take hb)
  · rcases List.mem_append.1 ha with ha | ha
    · exact hback a (List.mem_of_mem_take ha) b hb
    rcases List.mem_append.1 (hperm.mem_iff.1 ha) with ha | ha
    · exact hback a (List.mem_of_mem_drop ha) b hb
    · exact hright.take_le_drop moved a ha b hb

variable (hlt : Compares lt P key)

include hlt

theorem mergeFrom_of_ascending (d : Direction) (patience : Nat) (hleft : Ascending P key left)
    (hright : Ascending P key right) (h : Overlap key left right) :
    ∃ l patience', mergeFrom lt d patience left right = .ok (l, patience') ∧
      Ascending P key l := by
  obtain ⟨m, patience', hok, hm, hdone⟩ := Merging.run_spec hlt (.walk 0 0) patience
    (inOrder_start d hleft hright h) (remaining_start_le d left right)
  refine ⟨d.result m, patience', ?_, hm.result hdone⟩
  unfold mergeFrom
  simp only [hok, bind, Except.bind]
  rfl

/-- How much of the left run stays in front of the first element of the right one. -/
theorem search_kept (hleft : Ascending P key left) {first : α} (hfirst : P first) :
    ∃ kept, search (fun a => (lt first a).map not) left 0 = .ok kept ∧
      (∀ a ∈ left.take kept, key a ≤ key first) ∧ ∀ a ∈ left.drop kept, key first < key a := by
  obtain ⟨kept, hkept⟩ : ∃ kept, Splits (fun a => !decide (key first < key a)) left kept :=
    exists_splits (hleft.sorted.imp fun {a b} hle => by
      simp only [Bool.not_eq_true', decide_eq_false_iff_not]
      omega)
  refine ⟨kept, search_of_splits (fun a ha => ?_) hkept (Nat.zero_le _), fun a ha => ?_,
    fun a ha => ?_⟩
  · rw [hlt first a hfirst (hleft.all a ha)]
    rfl
  · simpa using hkept.ahead a ha
  · simpa using hkept.behind a ha

/-- How much of the right run comes before the last element of the left one. -/
theorem search_moved (hright : Ascending P key right) {last : α} (hlast : P last) :
    ∃ moved, search (fun b => lt b last) right (right.length - 1) = .ok moved ∧
      (∀ b ∈ right.take moved, key b < key last) ∧ ∀ b ∈ right.drop moved, key last ≤ key b := by
  obtain ⟨moved, hmoved⟩ : ∃ moved, Splits (fun b => decide (key b < key last)) right moved :=
    exists_splits (hright.sorted.imp fun {a b} hle => by
      simp only [decide_eq_true_eq]
      omega)
  refine ⟨moved, search_of_splits (fun b hb => hlt b last (hright.all b hb) hlast) hmoved
    (Nat.sub_le _ _), fun b hb => ?_, fun b hb => ?_⟩
  · simpa using hmoved.ahead b hb
  · simpa using hmoved.behind b hb

/-- Two runs in ascending order are merged into one. -/
theorem mergeRuns_of_ascending (patience : Nat) (hleft : Ascending P key left)
    (hright : Ascending P key right) :
    ∃ l patience', mergeRuns lt patience left right = .ok (l, patience') ∧
      Ascending P key l := by
  unfold mergeRuns
  split
  · rename_i last first hlast hfirst
    obtain ⟨kept, hkept, hstay, hgo⟩ :=
      search_kept hlt hleft (hright.all first (List.mem_of_mem_head? hfirst))
    obtain ⟨moved, hmoved, hbelow, habove⟩ :=
      search_moved hlt hright (hleft.all last (List.mem_of_getLast? hlast))
    have hfront : ∀ a ∈ left.take kept, ∀ b ∈ right, key a ≤ key b := fun a ha b hb =>
      Int.le_trans (hstay a ha) (hright.head_le hfirst b hb)
    have hback : ∀ a ∈ left, ∀ b ∈ right.drop moved, key a ≤ key b := fun a ha b hb =>
      Int.le_trans (hleft.le_last hlast a ha) (habove b hb)
    simp only [hkept, hmoved, bind, Except.bind]
    split
    · -- All of the left run stays in front.
      rename_i hall
      have htake : left.take kept = left := by
        rw [← List.append_nil (left.take kept), ← List.isEmpty_iff.1 hall, List.take_append_drop]
      exact ⟨_, patience, rfl, hleft.append hright (htake ▸ hfront)⟩
    split
    · -- All of the right run stays behind.
      rename_i hzero
      subst hzero
      exact ⟨_, patience, rfl, hleft.append hright hback⟩
    rename_i hsome
    have hoverlap : Overlap key (left.drop kept) (right.take moved) := {
      lower := fun b hb a ha => by
        rw [List.head?_take, if_neg hsome, hfirst] at hb
        cases hb
        exact Int.le_of_lt (hgo a ha)
      upper := fun a ha b hb => by
        have ha := mem_getLast?_of_drop ha
        rw [hlast] at ha
        cases ha
        exact Int.le_of_lt (hbelow b hb) }
    obtain ⟨middle, patience', hok, hmiddle⟩ := mergeFrom_of_ascending hlt
      (.of (left.length - kept) moved) patience (hleft.drop kept) (hright.take moved) hoverlap
    simp only [hok]
    exact ⟨_, patience', rfl,
      ascending_around hleft hright hmiddle (mergeFrom_perm hok) hfront hback⟩
  · rename_i hnone
    refine ⟨_, patience, rfl, hleft.append hright fun a ha b hb => ?_⟩
    obtain ⟨last, hlast⟩ := Option.ne_none_iff_exists'.1
      (mt List.getLast?_eq_none_iff.1 (List.ne_nil_of_mem ha))
    obtain ⟨first, hfirst⟩ := Option.ne_none_iff_exists'.1
      (mt List.head?_eq_none_iff.1 (List.ne_nil_of_mem hb))
    exact (hnone last first hlast hfirst).elim

end Runs

end Editorial.Ordered
