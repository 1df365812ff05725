import Editorial.Proofs.Process.Acceptance
import Mathlib.Data.Fintype.EquivFin
import Mathlib.Order.WellFounded

/-!
# Where a process can still conclude

A description is searched forwards from its start, and then it is enough that some step has no
links. So the start can conclude, and with it every step that leads back there
(`Description.Proper.canConclude_start`). For any other step this is not checked: a step that cannot
conclude leads into a cycle, because without one its paths would have to end
(`Description.Proper.canConclude_of_acyclic`), and it never leads back to the start
(`canConclude_of_accepted`). Such descriptions are accepted (`circling_accepted`).
-/

namespace Editorial

open Relation

namespace Description

variable {d : Description} {i j : Nat}

/-- From the step at a position, links lead to a step without links. -/
def CanConclude (d : Description) (i : Nat) : Prop :=
  ∃ j step, ReflTransGen d.Leads i j ∧ d.steps[j]? = some step ∧ step.links = []

theorem CanConclude.of_path (hpath : ReflTransGen d.Leads i j) (h : d.CanConclude j) :
    d.CanConclude i := by
  obtain ⟨k, step, hrest, hstep, hnone⟩ := h
  exact ⟨k, step, hpath.trans hrest, hstep, hnone⟩

namespace Proper

theorem lt_of_leads (h : d.Proper) (hlead : d.Leads i j) : j < d.steps.length := by
  obtain ⟨step, hstep, l, hl, htarget⟩ := hlead
  have := (h.link_target step (List.mem_of_getElem? hstep) l hl).2
  omega

/-- A step ends the process, or it leads somewhere. -/
theorem canConclude_or_leads (h : d.Proper) (hi : i < d.steps.length) :
    d.CanConclude i ∨ ∃ j, d.Leads i j := by
  have hstep : d.steps[i]? = some d.steps[i] := List.getElem?_eq_getElem hi
  by_cases hnone : d.steps[i].links = []
  · exact Or.inl ⟨i, _, ReflTransGen.refl, hstep, hnone⟩
  · obtain ⟨l, hl⟩ := List.exists_mem_of_ne_nil _ hnone
    have hpositive := (h.link_target _ (List.getElem_mem hi) l hl).1
    exact Or.inr ⟨l.target.toNat, _, hstep, l, hl, (Int.toNat_of_nonneg hpositive).symm⟩

theorem canConclude_start (h : d.Proper) : d.CanConclude d.start.toNat := by
  obtain ⟨step, hstep, hnone⟩ := h.final
  obtain ⟨j, hj⟩ := List.mem_iff_getElem?.1 hstep
  exact ⟨j, step, h.reachable j (List.getElem?_eq_some_iff.1 hj).1, hj, hnone⟩

/-- A step from which no cycle can be reached can conclude: of the finitely many positions that it
leads to, one has no other behind it. -/
theorem canConclude_of_acyclic (h : d.Proper) (hi : i < d.steps.length)
    (hacyclic : ∀ j, ReflTransGen d.Leads i j → ¬TransGen d.Leads j j) : d.CanConclude i := by
  let behind (b a : {j : Fin d.steps.length // ReflTransGen d.Leads i j}) : Prop :=
    TransGen d.Leads a.1 b.1
  have : IsTrans _ behind := ⟨fun _ _ _ hba hcb => TransGen.trans hcb hba⟩
  have : Std.Irrefl behind := ⟨fun a hcycle => hacyclic a.1 a.2 hcycle⟩
  have hwf : WellFounded behind := Finite.wellFounded_of_trans_of_irrefl behind
  obtain ⟨⟨⟨m, hm⟩, hpath⟩, -, hlast⟩ := hwf.has_min Set.univ ⟨⟨⟨i, hi⟩, .refl⟩, trivial⟩
  refine CanConclude.of_path hpath ((h.canConclude_or_leads hm).resolve_right ?_)
  rintro ⟨k, hlead⟩
  exact hlast ⟨⟨k, h.lt_of_leads hlead⟩, hpath.tail hlead⟩ trivial (TransGen.single hlead)

end Proper

end Description

/-! ### What is accepted -/

open Description

/-- The start of a process that is accepted can conclude. So can each of its steps, unless it leads
into a cycle and never back to the start. -/
theorem canConclude_of_accepted {raw : Json} {d : Description} (h : validate raw = .ok d) :
    d.CanConclude d.start.toNat ∧ ∀ i < d.steps.length, d.CanConclude i ∨
      (∃ j, ReflTransGen d.Leads i j ∧ TransGen d.Leads j j) ∧
        ¬ReflTransGen d.Leads i d.start.toNat := by
  have hproper := (validate_eq_ok_iff_reads.1 h).2
  refine ⟨hproper.canConclude_start, fun i hi => ?_⟩
  by_cases hconclude : d.CanConclude i
  · exact Or.inl hconclude
  refine Or.inr ⟨?_, ?_⟩
  · by_contra hnone
    push Not at hnone
    exact hconclude (hproper.canConclude_of_acyclic hi hnone)
  · intro hback
    exact hconclude (CanConclude.of_path hback hproper.canConclude_start)

/-- In the review, all of this is about its three steps. -/
theorem review_canConclude :
    ∃ d, validate Review.description = .ok d ∧ d.steps.length = 3 ∧
      d.CanConclude d.start.toNat ∧ ∀ i < d.steps.length, d.CanConclude i ∨
        (∃ j, ReflTransGen d.Leads i j ∧ TransGen d.Leads j j) ∧
          ¬ReflTransGen d.Leads i d.start.toNat := by
  obtain ⟨d, hd⟩ : ∃ d, validate Review.description = .ok d :=
    exists_ok_of_toBool (by decide +kernel)
  have hlength : (validate Review.description).toOption.map (·.steps.length) = some 3 := by
    decide +kernel
  rw [hd] at hlength
  exact ⟨d, hd, Option.some.inj hlength, canConclude_of_accepted hd⟩

namespace Circling

open Json

/-- A process that may be sent into two steps that lead to each other only. -/
def description : Json :=
  object [
    ("name", text "Circling"),
    ("start", int 0),
    ("slots", array [
      object [("name", text "Author"), ("roles", array []), ("autofill", bool false)],
      object [("name", text "Editor"), ("roles", array []), ("autofill", bool false)]]),
    ("steps", array [
      Review.step "Writing" [] [("revise", 1, 0), ("accept", 2, 0)],
      Review.step "Revising" [] [("check", 3, 0)],
      Review.step "Done" [] [],
      Review.step "Checking" [] [("reject", 1, 1)]])]

/-- What the description says. -/
def read : Description :=
  { name := "Circling", start := 0, slots := [⟨"Author", [], false⟩, ⟨"Editor", [], false⟩]
    steps := [
      ⟨"Writing", [], [⟨"revise", 1, 0⟩, ⟨"accept", 2, 0⟩]⟩,
      ⟨"Revising", [], [⟨"check", 3, 0⟩]⟩,
      ⟨"Done", [], []⟩,
      ⟨"Checking", [], [⟨"reject", 1, 1⟩]⟩] }

theorem validate_description : validate description = .ok read := by
  have h : (validate description).toOption = some read := by decide +kernel
  cases hv : validate description with
  | error e => simp [hv, Except.toOption] at h
  | ok d => simpa [hv, Except.toOption] using h

/-- The two steps lead to each other only. -/
theorem leads_of_leads {i j : Nat} (hi : i = 1 ∨ i = 3) (h : read.Leads i j) :
    j = 1 ∨ j = 3 := by
  obtain ⟨step, hstep, l, hl, htarget⟩ := h
  obtain rfl | rfl := hi
  · cases hstep
    obtain rfl := List.mem_singleton.1 hl
    exact Or.inr (Int.ofNat.inj htarget).symm
  · cases hstep
    obtain rfl := List.mem_singleton.1 hl
    exact Or.inl (Int.ofNat.inj htarget).symm

theorem eq_of_path {j : Nat} (h : ReflTransGen read.Leads 1 j) : j = 1 ∨ j = 3 := by
  induction h with
  | refl => exact Or.inl rfl
  | tail _ hlead ih => exact leads_of_leads ih hlead

theorem not_canConclude : ¬read.CanConclude 1 := by
  rintro ⟨j, step, hpath, hstep, hnone⟩
  obtain rfl | rfl := eq_of_path hpath
  · cases hstep
    exact absurd hnone (by decide)
  · cases hstep
    exact absurd hnone (by decide)

end Circling

/-- A process is accepted although one of its steps can never conclude. -/
theorem circling_accepted :
    ∃ d, validate Circling.description = .ok d ∧ 1 < d.steps.length ∧ ¬d.CanConclude 1 :=
  ⟨Circling.read, Circling.validate_description, by decide, Circling.not_canConclude⟩

end Editorial
