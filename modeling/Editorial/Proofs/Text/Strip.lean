import Editorial.Text.Blank
import Mathlib.Data.List.TakeWhile

/-!
# Texts without the blanks around them

`Wording.StripsTo` says what stripping a name means: the blanks before and after it are gone, and
what is left neither begins nor ends with one. Only a text that is not blank can be stripped in this
sense, and then to one text (`Wording.stripsTo_iff`).
-/

namespace Editorial.Text

/-! ### Lists -/

section Trim

variable {α : Type} {p : α → Bool}

/-- The second list is left of the first one once the elements at both ends that satisfy `p` are
gone, and it is not empty. -/
structure TrimsTo (p : α → Bool) (l m : List α) : Prop where
  parts : ∃ before after, l = before ++ m ++ after ∧ (∀ a ∈ before, p a = true) ∧
    ∀ a ∈ after, p a = true
  first : ∃ a, m.head? = some a ∧ p a = false
  last : ∃ a, m.getLast? = some a ∧ p a = false

theorem dropWhile_append_of_head {m l : List α} {a : α} (ha : m.head? = some a)
    (hp : p a = false) : (m ++ l).dropWhile p = m ++ l := by
  obtain ⟨m, rfl⟩ := List.head?_eq_some_iff.1 ha
  rw [List.cons_append, List.dropWhile_cons_of_neg (by simp [hp])]

theorem exists_head_dropWhile {l : List α} (h : l.all p = false) :
    ∃ a, (l.dropWhile p).head? = some a ∧ p a = false := by
  obtain ⟨a, ha, hpa⟩ := List.all_eq_false.1 h
  obtain ⟨b, hb⟩ : ∃ b, (l.find? fun a => !p a) = some b :=
    Option.isSome_iff_exists.1 (List.find?_isSome.2 ⟨a, ha, by simpa using hpa⟩)
  rw [← List.find?_not_eq_head?_dropWhile]
  exact ⟨b, hb, by simpa using List.find?_some hb⟩

theorem TrimsTo.eq {l m : List α} (h : TrimsTo p l m) : m = trimBoth p l := by
  obtain ⟨before, after, rfl, hbefore, hafter⟩ := h.parts
  obtain ⟨a, ha, hpa⟩ := h.first
  obtain ⟨b, hb, hpb⟩ := h.last
  unfold trimBoth
  rw [List.append_assoc, List.dropWhile_append_of_pos hbefore, dropWhile_append_of_head ha hpa,
    List.reverse_append, List.dropWhile_append_of_pos (by simpa using hafter)]
  have hlast := dropWhile_append_of_head (l := []) (by rw [List.head?_reverse, hb]) hpb
  rw [List.append_nil] at hlast
  rw [hlast, List.reverse_reverse]

/-- Elements that are all kept, between elements that are cut off, are what is left. -/
theorem trimBoth_of_kept {l before kept after : List α} (hl : l = before ++ kept ++ after)
    (hbefore : ∀ a ∈ before, p a = true) (hafter : ∀ a ∈ after, p a = true) (hne : kept ≠ [])
    (hkept : ∀ a ∈ kept, p a = false) : trimBoth p l = kept := by
  refine (TrimsTo.eq ⟨⟨before, after, hl, hbefore, hafter⟩, ?_, ?_⟩).symm
  · exact ⟨kept.head hne, List.head?_eq_some_head hne, hkept _ (List.head_mem hne)⟩
  · exact ⟨kept.getLast hne, List.getLast?_eq_some_getLast hne, hkept _ (List.getLast_mem hne)⟩

theorem TrimsTo.not_all {l m : List α} (h : TrimsTo p l m) : l.all p = false := by
  obtain ⟨before, after, rfl, -, -⟩ := h.parts
  obtain ⟨a, ha, hpa⟩ := h.first
  rw [List.all_eq_false]
  refine ⟨a, ?_, by simp [hpa]⟩
  simp [List.mem_of_mem_head? (Option.mem_def.2 ha)]

theorem trimsTo_trimBoth {l : List α} (h : l.all p = false) : TrimsTo p l (trimBoth p l) := by
  obtain ⟨a, ha, hpa⟩ := exists_head_dropWhile h
  -- What is cut off at the end, and what is left then, read backwards.
  have hsplit : trimBoth p l ++ ((l.dropWhile p).reverse.takeWhile p).reverse = l.dropWhile p := by
    unfold trimBoth
    rw [← List.reverse_append, List.takeWhile_append_dropWhile, List.reverse_reverse]
  have hall : (l.dropWhile p).reverse.all p = false := by
    rw [List.all_reverse, List.all_eq_false]
    exact ⟨a, List.mem_of_mem_head? (Option.mem_def.2 ha), by simp [hpa]⟩
  obtain ⟨b, hb, hpb⟩ := exists_head_dropWhile hall
  have hlast : (trimBoth p l).getLast? = some b := by
    unfold trimBoth
    rw [List.getLast?_reverse, hb]
  refine ⟨⟨l.takeWhile p, ((l.dropWhile p).reverse.takeWhile p).reverse, ?_, ?_, ?_⟩, ?_,
    b, hlast, hpb⟩
  · rw [List.append_assoc, hsplit, List.takeWhile_append_dropWhile]
  · exact fun c hc => List.mem_takeWhile_imp hc
  · exact fun c hc => List.mem_takeWhile_imp (List.mem_reverse.1 hc)
  · refine ⟨a, ?_, hpa⟩
    obtain ⟨c, rest, hcons⟩ : ∃ c rest, trimBoth p l = c :: rest :=
      List.exists_cons_of_ne_nil fun hnil => by simp [hnil] at hlast
    rw [← hsplit, hcons] at ha
    rw [hcons]
    exact ha

theorem trimsTo_iff {l m : List α} : TrimsTo p l m ↔ l.all p = false ∧ m = trimBoth p l := by
  constructor
  · exact fun h => ⟨h.not_all, h.eq⟩
  · rintro ⟨h, rfl⟩
    exact trimsTo_trimBoth h

/-- Only elements that satisfy `p` are cut off. -/
theorem mem_trimBoth_of_not {l : List α} {a : α} (ha : a ∈ l) (hp : p a = false) :
    a ∈ trimBoth p l := by
  have hall : l.all p = false := List.all_eq_false.2 ⟨a, ha, by simp [hp]⟩
  obtain ⟨before, after, hl, hbefore, hafter⟩ := (trimsTo_trimBoth hall).parts
  rw [hl] at ha
  rcases List.mem_append.1 ha with ha | ha
  · rcases List.mem_append.1 ha with ha | ha
    · exact absurd (hbefore a ha) (by simp [hp])
    · exact ha
  · exact absurd (hafter a ha) (by simp [hp])

theorem trimBoth_map {β : Type} (f : β → α) (l : List β) :
    trimBoth p (l.map f) = (trimBoth (p ∘ f) l).map f := by
  unfold trimBoth
  rw [List.dropWhile_map, ← List.map_reverse, List.dropWhile_map, ← List.map_reverse]

end Trim

/-! ### Texts -/

namespace Wording

/-- The second text is left of the first one once the blanks around it are gone. -/
structure StripsTo (raw w : Wording) : Prop where
  pieces : TrimsTo Piece.isBlank raw.pieces w.pieces
  torn : w.isTorn = raw.isTorn

theorem eq_of_pieces {w w' : Wording} (hpieces : w.pieces = w'.pieces)
    (htorn : w.isTorn = w'.isTorn) : w = w' := by
  cases w <;> cases w'
  · rename_i s s'
    have hchars : s.toList = s'.toList :=
      (List.map_inj_right fun a b h => by simpa using h).1 hpieces
    rw [String.toList_inj.1 hchars]
  · cases htorn
  · cases htorn
  · exact congrArg torn hpieces

theorem pieces_strip (w : Wording) : w.strip.pieces = trimBoth Piece.isBlank w.pieces := by
  cases w with
  | whole s =>
      unfold strip pieces Text.strip
      dsimp only
      rw [String.toList_ofList, trimBoth_map]
      rfl
  | torn ps => rfl

theorem isTorn_strip (w : Wording) : w.strip.isTorn = w.isTorn := by
  cases w <;> rfl

/-- A text that is not blank can be stripped in one way. -/
theorem stripsTo_iff {raw w : Wording} : raw.StripsTo w ↔ raw.isBlank = false ∧ w = raw.strip := by
  constructor
  · rintro ⟨hpieces, htorn⟩
    obtain ⟨hblank, htrim⟩ := trimsTo_iff.1 hpieces
    exact ⟨hblank, eq_of_pieces (htrim.trans raw.pieces_strip.symm)
      (htorn.trans raw.isTorn_strip.symm)⟩
  · rintro ⟨hblank, rfl⟩
    exact ⟨trimsTo_iff.2 ⟨hblank, raw.pieces_strip⟩, raw.isTorn_strip⟩

/-- To strip a text again changes nothing. -/
theorem StripsTo.again {raw w : Wording} (h : raw.StripsTo w) : w.StripsTo w where
  pieces := { h.pieces with parts := ⟨[], [], by simp, nofun, nofun⟩ }
  torn := rfl

end Wording

end Editorial.Text
