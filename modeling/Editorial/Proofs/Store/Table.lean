import Editorial.Store.Basic
import Mathlib.Data.List.Flatten
import Mathlib.Data.List.Nodup

/-!
# Tables of rows with a key

Facts about lists of rows that are looked up by a key: a look-up finds exactly the row with the key
as long as no two rows share one (`find?_key_iff`), rows that are changed or replaced keep their
keys (`map_key_update`, `map_key_replace`), and the id that is given out next is new
(`nextId_notMem`). `idsFrom` lists ids that are given out one after the other. What is selected from
a table stays the same when other rows are added, changed or left out (`filter_concat_of_not`,
`filter_map_of_kept`, `filter_filter_of_imp`).
-/

namespace Editorial

/-! ### The next id -/

theorem le_foldl_max (ids : List Int) (m : Int) :
    m ≤ ids.foldl max m ∧ ∀ n ∈ ids, n ≤ ids.foldl max m := by
  induction ids generalizing m with
  | nil => simp
  | cons a ids ih =>
      obtain ⟨h₁, h₂⟩ := ih (max m a)
      refine ⟨Int.le_trans (Int.le_max_left m a) h₁, fun n hn => ?_⟩
      rcases List.mem_cons.1 hn with rfl | hn
      · exact Int.le_trans (Int.le_max_right m n) h₁
      · exact h₂ n hn

theorem lt_nextId {ids : List Int} {n : Int} (h : n ∈ ids) : n < nextId ids :=
  Int.lt_add_one_of_le ((le_foldl_max ids 0).2 n h)

theorem nextId_notMem (ids : List Int) : nextId ids ∉ ids :=
  fun h => Int.lt_irrefl _ (lt_nextId h)

theorem nodup_append_nextId {ids : List Int} (h : ids.Nodup) : (ids ++ [nextId ids]).Nodup := by
  rw [List.nodup_append]
  refine ⟨h, List.nodup_singleton _, fun a ha b hb e => ?_⟩
  rw [List.mem_singleton.1 hb] at e
  exact nextId_notMem ids (e ▸ ha)

/-! ### Consecutive ids -/

/-- Ids given out from a first one on. -/
def idsFrom (first : Int) : (count : Nat) → List Int
  | 0 => []
  | count + 1 => first :: idsFrom (first + 1) count

theorem mem_idsFrom {first n : Int} {count : Nat} :
    n ∈ idsFrom first count ↔ first ≤ n ∧ n < first + count := by
  induction count generalizing first with
  | zero =>
      simp only [idsFrom, List.not_mem_nil, false_iff]
      omega
  | succ count ih =>
      rw [idsFrom, List.mem_cons, ih]
      omega

theorem pairwise_idsFrom (first : Int) (count : Nat) : (idsFrom first count).Pairwise (· < ·) := by
  induction count generalizing first with
  | zero => exact List.Pairwise.nil
  | succ count ih =>
      refine List.pairwise_cons.2 ⟨fun n hn => ?_, ih (first + 1)⟩
      have := (mem_idsFrom.1 hn).1
      omega

theorem nodup_idsFrom (first : Int) (count : Nat) : (idsFrom first count).Nodup :=
  (pairwise_idsFrom first count).imp Int.ne_of_lt

theorem idsFrom_append (first : Int) (m n : Nat) :
    idsFrom first (m + n) = idsFrom first m ++ idsFrom (first + m) n := by
  induction m generalizing first with
  | zero => simp [idsFrom]
  | succ m ih =>
      have hshift : first + (m + 1 : Nat) = first + 1 + m := by omega
      rw [Nat.succ_add, idsFrom, idsFrom, ih, hshift, List.cons_append]

theorem foldl_max_idsFrom (m : Int) (count : Nat) :
    (idsFrom (m + 1) count).foldl max m = m + count := by
  induction count generalizing m with
  | zero => simp [idsFrom]
  | succ count ih =>
      rw [idsFrom, List.foldl_cons, Int.max_eq_right (by omega), ih]
      omega

theorem nextId_append_idsFrom (ids : List Int) (count : Nat) :
    nextId (ids ++ idsFrom (nextId ids) count) = nextId ids + count := by
  unfold nextId
  rw [List.foldl_append, foldl_max_idsFrom]
  omega

/-! ### Rows by key -/

theorem forall_mem_concat {α : Type} {b : α} {rows : List α} {p : α → Prop}
    (hrows : ∀ a ∈ rows, p a) (hb : p b) : ∀ a ∈ rows ++ [b], p a :=
  List.forall_mem_append.2 ⟨hrows, List.forall_mem_singleton.2 hb⟩

section Keyed

variable {α κ : Type} (key : α → κ)

theorem find?_key_iff [BEq κ] [LawfulBEq κ] {rows : List α} (h : (rows.map key).Nodup) {k : κ}
    {a : α} : (rows.find? fun b => key b == k) = some a ↔ a ∈ rows ∧ key a = k := by
  constructor
  · intro hf
    exact ⟨List.mem_of_find?_eq_some hf, by simpa using List.find?_some hf⟩
  · rintro ⟨ha, rfl⟩
    obtain ⟨b, hb⟩ : ∃ b, (rows.find? fun b => key b == key a) = some b :=
      Option.isSome_iff_exists.1 (List.find?_isSome.2 ⟨a, ha, by simp⟩)
    have hk : key b = key a := by simpa using List.find?_some hb
    rw [hb, List.inj_on_of_nodup_map h (List.mem_of_find?_eq_some hb) ha hk]

theorem find?_key_eq_none_iff [BEq κ] [LawfulBEq κ] {rows : List α} {k : κ} :
    (rows.find? fun b => key b == k) = none ↔ k ∉ rows.map key := by
  rw [List.find?_eq_none]
  simp

/-- Selecting by key and looking up by key give the same. -/
theorem filter_key_eq_toList [BEq κ] [LawfulBEq κ] {rows : List α} (h : (rows.map key).Nodup)
    (k : κ) :
    (rows.filter fun a => key a == k) = (rows.find? fun a => key a == k).toList := by
  induction rows with
  | nil => rfl
  | cons a rest ih =>
      obtain ⟨ha, hrest⟩ := List.nodup_cons.1 h
      by_cases hk : key a = k
      · have hnone : rest.filter (fun b => key b == k) = [] := by
          rw [List.filter_eq_nil_iff]
          intro b hb
          simpa using fun e : key b = k => ha (hk ▸ e ▸ List.mem_map_of_mem hb)
        rw [List.filter_cons_of_pos (by simpa using hk), List.find?_cons_of_pos (by simpa using hk),
          hnone]
        rfl
      · rw [List.filter_cons_of_neg (by simpa using hk), List.find?_cons_of_neg (by simpa using hk),
          ih hrest]

/-- Keys stay distinct when a row with a new key is added. -/
theorem nodup_map_concat {rows : List α} {a : α} (h : (rows.map key).Nodup)
    (ha : key a ∉ rows.map key) : ((rows ++ [a]).map key).Nodup := by
  rw [List.map_append, List.nodup_append]
  refine ⟨h, List.nodup_singleton _, fun k hk k' hk' e => ha ?_⟩
  rw [← List.mem_singleton.1 hk', ← e]
  exact hk

variable [DecidableEq κ]

theorem map_key_replace (b : α) (rows : List α) :
    (rows.map fun a => if key a = key b then b else a).map key = rows.map key := by
  rw [List.map_map]
  refine List.map_congr_left fun a _ => ?_
  simp only [Function.comp_apply]
  split
  · rename_i h
    exact h.symm
  · rfl

/-- Rows with a key that are changed keep the key. -/
theorem map_key_update {f : α → α} (hf : ∀ a, key (f a) = key a) (k : κ) (rows : List α) :
    (rows.map fun a => if key a = k then f a else a).map key = rows.map key := by
  rw [List.map_map]
  refine List.map_congr_left fun a _ => ?_
  simp only [Function.comp_apply]
  split
  · exact hf a
  · rfl

theorem find?_key_update [BEq κ] [LawfulBEq κ] {f : α → α} (hf : ∀ a, key (f a) = key a) (k : κ)
    (rows : List α) :
    (rows.map fun a => if key a = k then f a else a).find? (fun a => key a == k) =
      (rows.find? fun a => key a == k).map f := by
  have hsame : ((fun a => key a == k) ∘ fun a => if key a = k then f a else a) =
      fun a => key a == k := by
    funext a
    simp only [Function.comp_apply]
    split
    · rw [hf]
    · rfl
  rw [List.find?_map, hsame]
  cases hfound : rows.find? fun a => key a == k with
  | none => rfl
  | some a =>
      have hk : key a = k := by simpa using List.find?_some hfound
      rw [Option.map_some, Option.map_some, if_pos hk]

theorem forall_mem_replace {b : α} {rows : List α} {p : α → Prop} (hrows : ∀ a ∈ rows, p a)
    (hb : p b) : ∀ a ∈ rows.map (fun e => if key e = key b then b else e), p a := by
  intro a ha
  obtain ⟨e, he, rfl⟩ := List.mem_map.1 ha
  split
  · exact hb
  · exact hrows e he

end Keyed

/-! ### Rows that belong to other rows -/

/-- An item with a key that no other item has belongs to one owner only. -/
theorem owner_unique {α β κ : Type} {items : α → List β} {key : β → κ} {owners : List α}
    (h : ((owners.flatMap items).map key).Nodup) {a b : α} (ha : a ∈ owners) (hb : b ∈ owners)
    {x y : β} (hx : x ∈ items a) (hy : y ∈ items b) (hk : key x = key y) : a = b := by
  induction owners with
  | nil => cases ha
  | cons o owners ih =>
      rw [List.flatMap_cons, List.map_append, List.nodup_append] at h
      obtain ⟨-, hrest, hdisjoint⟩ := h
      have apart {c : α} {z w : β} (hz : z ∈ items o) (hc : c ∈ owners) (hw : w ∈ items c) :
          key z ≠ key w :=
        hdisjoint _ (List.mem_map_of_mem hz) _
          (List.mem_map_of_mem (List.mem_flatMap.2 ⟨c, hc, hw⟩))
      rcases List.mem_cons.1 ha with rfl | ha'
      · rcases List.mem_cons.1 hb with rfl | hb'
        · rfl
        · exact absurd hk (apart hx hb' hy)
      · rcases List.mem_cons.1 hb with rfl | hb'
        · exact absurd hk.symm (apart hy ha' hx)
        · exact ih hrest ha' hb'

/-- Items with the ids of their owners are told apart by a key that tells apart the items of one
owner. -/
theorem nodup_owned {α β κ : Type} {owners : List α} {id : α → Int} {items : α → List β}
    {key : β → κ} (hids : (owners.map id).Nodup)
    (hkeys : ∀ a ∈ owners, ((items a).map key).Nodup) :
    ((owners.flatMap fun a => (items a).map fun b => (id a, b)).map
      fun row => (row.1, key row.2)).Nodup := by
  rw [List.map_flatMap, List.nodup_flatMap]
  constructor
  · intro a ha
    have hpairs : ((items a).map fun b => (id a, b)).map (fun row => (row.1, key row.2)) =
        ((items a).map key).map fun k => (id a, k) := by
      rw [List.map_map, List.map_map]
      rfl
    rw [hpairs]
    exact (hkeys a ha).map fun k k' h => (Prod.mk.inj h).2
  · refine (List.pairwise_map.1 hids).imp fun {a b} hne row ha hb => hne ?_
    obtain ⟨x, hx, rfl⟩ := List.mem_map.1 ha
    obtain ⟨y, hy, hyx⟩ := List.mem_map.1 hb
    obtain ⟨i, hi, rfl⟩ := List.mem_map.1 hx
    obtain ⟨j, hj, rfl⟩ := List.mem_map.1 hy
    exact (Prod.mk.inj hyx).1.symm

/-- A look-up over all owners finds the owner that has the item. -/
theorem findSome?_find?_owner {α β γ κ : Type} [BEq κ] [LawfulBEq κ] {items : α → List β}
    {key : β → κ} {owners : List α} (h : ((owners.flatMap items).map key).Nodup) {a : α} {x : β}
    (ha : a ∈ owners) (hx : x ∈ items a) (g : α → β → γ) :
    (owners.findSome? fun o => ((items o).find? fun y => key y == key x).map (g o)) =
      some (g a x) := by
  obtain ⟨r, hr⟩ : ∃ r, (owners.findSome? fun o =>
      ((items o).find? fun y => key y == key x).map (g o)) = some r := by
    rw [← Option.isSome_iff_exists, List.findSome?_isSome_iff]
    exact ⟨a, ha, by simpa using ⟨x, hx, rfl⟩⟩
  obtain ⟨o, ho, hor⟩ := List.exists_of_findSome?_eq_some hr
  obtain ⟨y, hy, rfl⟩ := Option.map_eq_some_iff.1 hor
  have hmem := List.mem_of_find?_eq_some hy
  have hkey : key y = key x := by simpa using List.find?_some hy
  obtain rfl := owner_unique h ho ha hmem hx hkey
  have hitems : ((items o).map key).Nodup :=
    h.sublist ((List.sublist_flatten_of_mem (List.mem_map_of_mem ho)).map key)
  rw [hr, List.inj_on_of_nodup_map hitems hmem hx hkey]

/-! ### Rows that are selected -/

/-- What is selected stays the same when rows go that are not. -/
theorem filter_filter_of_imp {α : Type} {rows : List α} {p q : α → Bool}
    (h : ∀ a ∈ rows, p a = true → q a = true) : (rows.filter q).filter p = rows.filter p := by
  rw [List.filter_filter]
  refine List.filter_congr fun a ha => ?_
  cases hp : p a with
  | false => exact Bool.false_and _
  | true => exact (Bool.true_and _).trans (h a ha hp)

theorem any_filter_of_imp {α : Type} {rows : List α} {p q : α → Bool}
    (h : ∀ a ∈ rows, p a = true → q a = true) : (rows.filter q).any p = rows.any p := by
  rw [Bool.eq_iff_iff, List.any_eq_true, List.any_eq_true]
  refine exists_congr fun a => ?_
  rw [List.mem_filter]
  exact ⟨fun ⟨⟨ha, _⟩, hp⟩ => ⟨ha, hp⟩, fun ⟨ha, hp⟩ => ⟨⟨ha, h a ha hp⟩, hp⟩⟩

/-- What is selected stays the same when rows change that are not. -/
theorem filter_map_of_kept {α : Type} {rows : List α} {p : α → Bool} {f : α → α}
    (hp : ∀ a ∈ rows, p (f a) = p a) (hf : ∀ a ∈ rows, p a = true → f a = a) :
    (rows.map f).filter p = rows.filter p := by
  rw [List.filter_map]
  have hfilter : rows.filter (p ∘ f) = rows.filter p := List.filter_congr hp
  rw [hfilter]
  refine (List.map_congr_left fun a ha => ?_).trans (List.map_id _)
  obtain ⟨hmem, hpa⟩ := List.mem_filter.1 ha
  exact hf a hmem hpa

theorem filter_concat_of_not {α : Type} {rows : List α} {p : α → Bool} {a : α} (h : p a = false) :
    (rows ++ [a]).filter p = rows.filter p := by
  rw [List.filter_append, List.filter_cons_of_neg (by simp [h]), List.filter_nil, List.append_nil]

end Editorial
