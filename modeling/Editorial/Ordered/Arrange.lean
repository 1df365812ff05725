import Editorial.Ordered.Merge

/-!
# Sorting with comparisons that may fail

`arrange` sorts a list by an order that need not relate every two elements: a comparison may fail,
and then so does the sorting. Which failure it is depends on which elements are compared first, so
the comparisons are fixed. The list is divided into runs of ascending or descending elements
(`nextRun`); a run that is too short takes in the elements behind it, one by one by halving. Runs
are merged with their neighbours so that those of like length meet (`power`). The result consists of
the same elements (`arrange_perm`).
-/

namespace Editorial.Ordered

variable {α ε : Type}

/-! ### Runs -/

/-- The number of elements of a list that continue a run after `last`: each comes before the one in
front of it, or none does, as `descending` says. -/
def runLength (lt : α → α → Except ε Bool) (descending : Bool) (last : α) :
    List α → Except ε Nat
  | [] => .ok 0
  | a :: rest => do
      if (← lt a last) = descending then
        let n ← runLength lt descending a rest
        return n + 1
      else return 0

/-- A sorted list with a further element behind all that it does not come before. -/
def insertHalving (lt : α → α → Except ε Bool) (l : List α) (a : α) : Except ε (List α) := do
  let n ← placeFor (fun b => (lt a b).map not) l 0 l.length
  return l.take n ++ a :: l.drop n

/-- A sorted list with further elements, inserted in turn. -/
def insertAll (lt : α → α → Except ε Bool) (l : List α) : List α → Except ε (List α)
  | [] => .ok l
  | a :: rest => do
      let l ← insertHalving lt l a
      insertAll lt l rest

/-- The ascending or descending elements at the beginning of a list, in ascending order, and the
others. -/
def splitRun (lt : α → α → Except ε Bool) : List α → Except ε (List α × List α)
  | [] => .ok ([], [])
  | [a] => .ok ([a], [])
  | a :: b :: rest => do
      let descending ← lt b a
      let n ← runLength lt descending b rest
      let run := a :: b :: rest.take n
      return (if descending then run.reverse else run, rest.drop n)

/-- The first run of a list, filled up to a length, and the other elements. -/
def nextRun (lt : α → α → Except ε Bool) (least : Nat) (l : List α) :
    Except ε (List α × List α) := do
  let (run, rest) ← splitRun lt l
  let missing := least - run.length
  let run ← insertAll lt run (rest.take missing)
  return (run, rest.drop missing)

/-- The length to which the short runs of a list of that length are filled up: the whole of a short
list, otherwise its first six binary digits, rounded up. `more` says whether digits have been cut
off that are not zero. -/
def leastRun (length : Nat) (more : Bool) : Nat :=
  if length < 64 then length + (if more then 1 else 0)
  else leastRun (length / 2) (more || length % 2 == 1)
termination_by length

/-! ### Merging neighbours -/

/-- A run with the power of the border to the one behind it. -/
structure Ranked (α : Type) where
  items : List α
  power : Nat

/-- The number of binary digits after the point up to the first one in which two fractions of
`total` differ, of which the first is below `total`. -/
def differingDigit (total : Nat) : (fuel : Nat) → (first second : Nat) → Nat
  | 0, _, _ => 0
  | fuel + 1, first, second =>
      if total ≤ first then
        1 + differingDigit total fuel (2 * (first - total)) (2 * (second - total))
      else if total ≤ second then 1
      else 1 + differingDigit total fuel (2 * first) (2 * second)

/-- The power of the border between two neighbouring runs, which is the lower the closer it lies to
a dividing line by halves of the whole list. -/
def power (start left right total : Nat) : Nat :=
  differingDigit total (total + 1) (2 * start + left) (2 * start + left + left + right)

/-- Merges the last run with those in front of it across all borders of a higher power. The results
are the last run, the runs in front of it, last one first, and the patience. -/
def collapse (lt : α → α → Except ε Bool) (limit patience : Nat) (last : List α) :
    List (Ranked α) → Except ε (List α × List (Ranked α) × Nat)
  | [] => .ok (last, [], patience)
  | r :: earlier =>
      if limit < r.power then do
        let (merged, patience) ← mergeRuns lt patience r.items last
        collapse lt limit patience merged earlier
      else .ok (last, r :: earlier, patience)

/-- Divides the rest of a list into runs, given the runs so far, and merges across borders of a
higher power than the next one. The fuel bounds the length of the rest. -/
def collect (lt : α → α → Except ε Bool) (least total : Nat) : (fuel : Nat) →
    (patience start : Nat) → (last : List α) → (earlier : List (Ranked α)) → (rest : List α) →
    Except ε (List α × List (Ranked α) × Nat)
  | 0, patience, _, last, earlier, rest => .ok (last ++ rest, earlier, patience)
  | fuel + 1, patience, start, last, earlier, rest =>
      if rest.isEmpty then .ok (last, earlier, patience)
      else do
        let (run, rest) ← nextRun lt least rest
        let border := power start last.length run.length total
        let (merged, earlier, patience) ← collapse lt border patience last earlier
        collect lt least total fuel patience (start + last.length) run
          (⟨merged, border⟩ :: earlier) rest

/-- Merges all runs, the last one first unless the run in front of its neighbour is shorter. -/
def mergeAll (lt : α → α → Except ε Bool) (patience : Nat) (last : List α) :
    List (Ranked α) → Except ε (List α)
  | [] => .ok last
  | [r] => do
      let (merged, _) ← mergeRuns lt patience r.items last
      return merged
  | r :: q :: earlier => do
      if q.items.length < last.length then
        let (merged, patience) ← mergeRuns lt patience q.items r.items
        mergeAll lt patience last (⟨merged, q.power⟩ :: earlier)
      else
        let (merged, patience) ← mergeRuns lt patience r.items last
        mergeAll lt patience merged (q :: earlier)
termination_by earlier => earlier.length

/-- A list in ascending order. -/
def arrange (lt : α → α → Except ε Bool) (l : List α) : Except ε (List α) := do
  let least := leastRun l.length false
  let (run, rest) ← nextRun lt least l
  let (last, earlier, patience) ←
    collect lt least l.length l.length worthLeaping 0 run [] rest
  mergeAll lt patience last earlier

/-! ### Lemmas -/

theorem insertHalving_perm {lt : α → α → Except ε Bool} {l l' : List α} {a : α}
    (h : insertHalving lt l a = .ok l') : l'.Perm (a :: l) := by
  obtain ⟨n, -, h⟩ := Except.bind_eq_ok h
  cases h
  calc (l.take n ++ a :: l.drop n).Perm (a :: (l.take n ++ l.drop n)) := List.perm_middle
    _ = a :: l := by rw [List.take_append_drop]

theorem insertAll_perm {lt : α → α → Except ε Bool} {l rest l' : List α}
    (h : insertAll lt l rest = .ok l') : l'.Perm (l ++ rest) := by
  induction rest generalizing l with
  | nil =>
      cases h
      simp
  | cons a rest ih =>
      obtain ⟨m, hi, h⟩ := Except.bind_eq_ok h
      exact (ih h).trans (((insertHalving_perm hi).append_right rest).trans List.perm_middle.symm)

theorem splitRun_perm {lt : α → α → Except ε Bool} {l run rest : List α}
    (h : splitRun lt l = .ok (run, rest)) : (run ++ rest).Perm l := by
  match l with
  | [] =>
      cases h
      exact List.Perm.refl _
  | [a] =>
      cases h
      exact List.Perm.refl _
  | a :: b :: tail =>
      obtain ⟨descending, -, h⟩ := Except.bind_eq_ok h
      obtain ⟨n, -, h⟩ := Except.bind_eq_ok h
      cases h
      have whole : a :: b :: tail.take n ++ tail.drop n = a :: b :: tail := by simp
      rw [← whole]
      refine List.Perm.append_right _ ?_
      cases descending with
      | true => exact List.reverse_perm _
      | false => exact List.Perm.refl _

theorem nextRun_perm {lt : α → α → Except ε Bool} {least : Nat} {l run rest : List α}
    (h : nextRun lt least l = .ok (run, rest)) : (run ++ rest).Perm l := by
  obtain ⟨⟨first, others⟩, hs, h⟩ := Except.bind_eq_ok h
  obtain ⟨filled, hi, h⟩ := Except.bind_eq_ok h
  cases h
  refine ((insertAll_perm hi).append_right _).trans ?_
  rw [List.append_assoc, List.take_append_drop]
  exact splitRun_perm hs

/-- The elements of runs, those of the last run last. -/
def elementsOf (earlier : List (Ranked α)) : List α :=
  (earlier.reverse.map Ranked.items).flatten

theorem elementsOf_cons (r : Ranked α) (earlier : List (Ranked α)) :
    elementsOf (r :: earlier) = elementsOf earlier ++ r.items := by
  simp [elementsOf]

theorem collapse_perm {lt : α → α → Except ε Bool} {limit patience patience' : Nat}
    {last last' : List α} {earlier earlier' : List (Ranked α)}
    (h : collapse lt limit patience last earlier = .ok (last', earlier', patience')) :
    (elementsOf earlier' ++ last').Perm (elementsOf earlier ++ last) := by
  induction earlier generalizing last patience with
  | nil =>
      cases h
      exact List.Perm.refl _
  | cons r earlier ih =>
      unfold collapse at h
      split at h
      · obtain ⟨⟨merged, patience₁⟩, hm, h⟩ := Except.bind_eq_ok h
        rw [elementsOf_cons, List.append_assoc]
        exact (ih h).trans ((mergeRuns_perm hm).append_left _)
      · cases h
        exact List.Perm.refl _

theorem collect_perm {lt : α → α → Except ε Bool} {least total fuel patience start : Nat}
    {last rest last' : List α} {earlier earlier' : List (Ranked α)} {patience' : Nat}
    (h : collect lt least total fuel patience start last earlier rest =
      .ok (last', earlier', patience')) :
    (elementsOf earlier' ++ last').Perm (elementsOf earlier ++ last ++ rest) := by
  induction fuel generalizing patience start last earlier rest with
  | zero =>
      cases h
      rw [List.append_assoc]
  | succ fuel ih =>
      unfold collect at h
      split at h
      · rename_i he
        cases h
        rw [List.isEmpty_iff.1 he, List.append_nil]
      · obtain ⟨⟨run, others⟩, hn, h⟩ := Except.bind_eq_ok h
        obtain ⟨⟨merged, left, patience₁⟩, hc, h⟩ := Except.bind_eq_ok h
        refine (ih h).trans ?_
        rw [elementsOf_cons, List.append_assoc]
        exact ((collapse_perm hc).append_right _).trans ((nextRun_perm hn).append_left _)

theorem mergeAll_perm {lt : α → α → Except ε Bool} {patience : Nat} {last l : List α}
    {earlier : List (Ranked α)} (h : mergeAll lt patience last earlier = .ok l) :
    l.Perm (elementsOf earlier ++ last) := by
  induction hn : earlier.length generalizing patience last earlier with
  | zero =>
      rw [List.length_eq_zero_iff] at hn
      subst hn
      rw [mergeAll] at h
      cases h
      exact List.Perm.refl _
  | succ n ih =>
      match earlier, hn with
      | [r], _ =>
          rw [mergeAll] at h
          obtain ⟨⟨merged, patience₁⟩, hm, h⟩ := Except.bind_eq_ok h
          cases h
          have he : elementsOf [r] = r.items := by simp [elementsOf]
          rw [he]
          exact mergeRuns_perm hm
      | r :: q :: tail, hn =>
          have ht : tail.length + 1 = n := by simpa using hn
          rw [mergeAll] at h
          simp only [elementsOf_cons]
          split at h
          · obtain ⟨⟨merged, patience₁⟩, hm, h⟩ := Except.bind_eq_ok h
            refine (ih h ht).trans (List.Perm.append_right _ ?_)
            rw [elementsOf_cons, List.append_assoc]
            exact (mergeRuns_perm hm).append_left _
          · obtain ⟨⟨merged, patience₁⟩, hm, h⟩ := Except.bind_eq_ok h
            refine (ih h ht).trans ?_
            rw [elementsOf_cons, List.append_assoc _ _ last]
            exact (mergeRuns_perm hm).append_left _

theorem arrange_perm {lt : α → α → Except ε Bool} {l l' : List α} (h : arrange lt l = .ok l') :
    l'.Perm l := by
  obtain ⟨⟨run, rest⟩, hn, h⟩ := Except.bind_eq_ok h
  obtain ⟨⟨last, earlier, patience⟩, hc, h⟩ := Except.bind_eq_ok h
  exact (mergeAll_perm h).trans ((collect_perm hc).trans (nextRun_perm hn))

end Editorial.Ordered
