import Editorial.Proofs.Process.Acceptance
import Editorial.Proofs.Process.Misreading

/-!
# What a refused description is told

A description that is refused is told one defect: a kind, which is the check that failed, and
details, which are the elements at fault. The kind is the first one whose check fails, so that what
the checks before it ask (`Description.Passes`) holds of the whole description, and the details
name a violation (`Description.Violation`) because of which it fails (`Violation.not_passes`).
Together the checks ask that the description is proper (`proper_iff_passes`). A check stops at the
first violation that it meets, so each of them is opened in the same way: what lies before the hit
has passed.
-/

namespace Editorial

open Json

/-! ### First hits -/

/-- An element occurs in a list for the second time at an index, and none has done so before. -/
structure SecondAt {α : Type} (l : List α) (index : Nat) (a : α) : Prop where
  here : l[index]? = some a
  before : a ∈ l.take index
  distinct : (l.take index).Nodup

theorem SecondAt.not_nodup {α : Type} {l : List α} {index : Nat} {a : α}
    (h : SecondAt l index a) : ¬l.Nodup := by
  intro hnodup
  obtain ⟨j, hj, hja⟩ := List.mem_take_iff_getElem.1 h.before
  have hlt : j < l.length := Nat.lt_of_lt_of_le hj (Nat.min_le_right _ _)
  have hsame : l[j]? = l[index]? := by rw [h.here, List.getElem?_eq_getElem hlt, hja]
  have := (List.getElem?_inj hlt hnodup).1 hsame
  omega

theorem firstRepeat?_eq_some {α : Type} [DecidableEq α] {seen l : List α} {index k : Nat} {a : α}
    (h : firstRepeat? seen index l = some (k, a)) :
    ∃ i, k = index + i ∧ l[i]? = some a ∧ (a ∈ seen ∨ a ∈ l.take i) ∧ (l.take i).Nodup ∧
      ∀ b ∈ l.take i, b ∉ seen := by
  induction l generalizing seen index with
  | nil => cases h
  | cons b l ih =>
      unfold firstRepeat? at h
      split at h
      · rename_i hb
        cases h
        exact ⟨0, rfl, rfl, Or.inl hb, List.nodup_nil, List.forall_mem_nil _⟩
      · rename_i hb
        obtain ⟨i, rfl, ha, hbefore, hnodup, hnew⟩ := ih h
        refine ⟨i + 1, by omega, ha, ?_, ?_, ?_⟩
        · rcases hbefore with hseen | hbefore
          · rcases List.mem_cons.1 hseen with rfl | hseen
            · exact Or.inr List.mem_cons_self
            · exact Or.inl hseen
          · exact Or.inr (List.mem_cons_of_mem _ hbefore)
        · exact List.nodup_cons.2 ⟨fun hmem => hnew b hmem List.mem_cons_self, hnodup⟩
        · exact List.forall_mem_cons.2
            ⟨hb, fun c hc hseen => hnew c hc (List.mem_cons_of_mem _ hseen)⟩

theorem secondAt_of_firstRepeat? {α : Type} [DecidableEq α] {l : List α} {k : Nat} {a : α}
    (h : firstRepeat? [] 0 l = some (k, a)) : SecondAt l k a := by
  obtain ⟨i, hk, ha, hbefore, hnodup, -⟩ := firstRepeat?_eq_some h
  obtain rfl : k = i := by omega
  exact ⟨ha, hbefore.resolve_left List.not_mem_nil, hnodup⟩

/-- The first hit in a list of indexed elements: there is none at a smaller index. -/
theorem findSome?_zipIdx_eq_some {α β : Type} {f : α × Nat → Option β} {l : List α} {b : β}
    (h : l.zipIdx.findSome? f = some b) :
    ∃ i a, l[i]? = some a ∧ f (a, i) = some b ∧
      ∀ j < i, ∀ a', l[j]? = some a' → f (a', j) = none := by
  obtain ⟨before, ⟨a, i⟩, after, hsplit, hhit, hnone⟩ := List.findSome?_eq_some_iff.1 h
  have hat (j : Nat) : (before ++ (a, i) :: after)[j]? = (l[j]?).map fun a => (a, j) := by
    rw [← hsplit, List.getElem?_zipIdx, Nat.zero_add]
  obtain ⟨hi, ha⟩ : before.length = i ∧ l[before.length]? = some a := by
    have := hat before.length
    simp only [List.getElem?_append_right (Nat.le_refl _), Nat.sub_self,
      List.getElem?_cons_zero] at this
    obtain ⟨a', ha', hpair⟩ := Option.map_eq_some_iff.1 this.symm
    cases hpair
    exact ⟨rfl, ha'⟩
  subst hi
  refine ⟨before.length, a, ha, hhit, fun j hj a' ha' => hnone (a', j) ?_⟩
  have := hat j
  rw [List.getElem?_append_left hj, ha'] at this
  exact List.mem_of_getElem? this

/-! ### The order of the checks -/

/-- The place of a check in the order in which they are made. Self loops and ambiguous targets are
looked for together, link by link. -/
def DefectKind.rank : DefectKind → Nat
  | malformed => 0
  | badReference => 1
  | duplicateName => 2
  | selfLoop | ambiguousTarget => 3
  | exclusivePermission => 4
  | unreachableStep => 5
  | noFinalStep => 6

namespace Description

/-- A path along links leads from the start to the step at an index. -/
def WithinReach (d : Description) (i : Nat) : Prop :=
  Relation.ReflTransGen d.Leads d.start.toNat i

/-- What a check asks of a description as a whole. One that has been read is not malformed. -/
def Passes (d : Description) : DefectKind → Prop
  | .malformed => True
  | .badReference =>
      (0 ≤ d.start ∧ d.start < d.steps.length) ∧
        (∀ step ∈ d.steps, ∀ g ∈ step.grants, 0 ≤ g.slot ∧ g.slot < d.slots.length) ∧
        (∀ step ∈ d.steps, ∀ l ∈ step.links, 0 ≤ l.target ∧ l.target < d.steps.length) ∧
        ∀ step ∈ d.steps, ∀ l ∈ step.links, 0 ≤ l.slot ∧ l.slot < d.slots.length
  | .duplicateName =>
      (d.slots.map SlotSpec.name).Nodup ∧ (d.steps.map StepSpec.name).Nodup ∧
        ∀ step ∈ d.steps, (step.links.map LinkSpec.name).Nodup
  | .selfLoop => ∀ i, ¬d.Leads i i
  | .ambiguousTarget => ((d.steps.flatMap StepSpec.links).map LinkSpec.key).Nodup
  | .exclusivePermission => ∀ step ∈ d.steps, IsExclusive step
  | .unreachableStep => ∀ i < d.steps.length, d.WithinReach i
  | .noFinalStep => ∃ step ∈ d.steps, step.links = []

/-- A description is proper when it passes every check. -/
theorem proper_iff_passes {d : Description} : d.Proper ↔ ∀ k, d.Passes k := by
  constructor
  · intro h k
    cases k with
    | malformed => trivial
    | badReference => exact ⟨h.start, h.grant_slot, h.link_target, h.link_slot⟩
    | duplicateName => exact ⟨h.slot_names, h.step_names, h.link_names⟩
    | selfLoop => exact h.no_loop
    | ambiguousTarget => exact h.links
    | exclusivePermission =>
        exact fun step hs => isExclusive_iff_unmixed.2
          ⟨h.one_editor step hs, h.one_proposer step hs, h.unmixed step hs⟩
    | unreachableStep => exact h.reachable
    | noFinalStep => exact h.final
  · intro h
    obtain ⟨hstart, hgrant, htarget, hslot⟩ := h .badReference
    obtain ⟨hslots, hsteps, hlinks⟩ := h .duplicateName
    have hexclusive := fun step hs => isExclusive_iff_unmixed.1 (h .exclusivePermission step hs)
    exact {
      start := hstart, grant_slot := hgrant, link_target := htarget, link_slot := hslot
      slot_names := hslots, step_names := hsteps, link_names := hlinks
      no_loop := h .selfLoop, links := h .ambiguousTarget
      one_editor := fun step hs => (hexclusive step hs).1
      one_proposer := fun step hs => (hexclusive step hs).2.1
      unmixed := fun step hs => (hexclusive step hs).2.2
      reachable := h .unreachableStep, final := h .noFinalStep }

/-! ### Violations -/

/-- A link comes right after certain other ones, of which none leads to its own step and no two have
the same target and slot. -/
structure Follows (d : Description) (before : List (Nat × LinkSpec)) (i : Nat) (l : LinkSpec) :
    Prop where
  order : before ++ [(i, l)] <+: d.allLinks
  no_loop : ∀ e ∈ before, e.2.target ≠ e.1
  distinct : (before.map fun e => e.2.key).Nodup

/-- The details name a violation of what a check asks. -/
inductive Violation (d : Description) : DefectKind → Fields → Prop where
  | start (missing : ¬(0 ≤ d.start ∧ d.start < d.steps.length)) :
      Violation d .badReference [("start", int d.start)]
  | grantSlot {i : Nat} {step : StepSpec} {g : GrantSpec} (at_step : d.steps[i]? = some step)
      (grant : g ∈ step.grants) (missing : ¬(0 ≤ g.slot ∧ g.slot < d.slots.length)) :
      Violation d .badReference [("step", int i), ("slot", int g.slot)]
  | linkTarget {i : Nat} {step : StepSpec} {l : LinkSpec} (at_step : d.steps[i]? = some step)
      (link : l ∈ step.links) (missing : ¬(0 ≤ l.target ∧ l.target < d.steps.length)) :
      Violation d .badReference [("step", int i), ("link", text l.name), ("to", int l.target)]
  | linkSlot {i : Nat} {step : StepSpec} {l : LinkSpec} (at_step : d.steps[i]? = some step)
      (link : l ∈ step.links) (missing : ¬(0 ≤ l.slot ∧ l.slot < d.slots.length)) :
      Violation d .badReference [("step", int i), ("link", text l.name), ("slot", int l.slot)]
  | slotName {i : Nat} {name : Text.Wording}
      (again : SecondAt (d.slots.map SlotSpec.name) i name) :
      Violation d .duplicateName [("slot", int i), ("name", text name)]
  | stepName {i : Nat} {name : Text.Wording}
      (again : SecondAt (d.steps.map StepSpec.name) i name) :
      Violation d .duplicateName [("step", int i), ("name", text name)]
  | linkName {i j : Nat} {step : StepSpec} {name : Text.Wording}
      (at_step : d.steps[i]? = some step)
      (again : SecondAt (step.links.map LinkSpec.name) j name) :
      Violation d .duplicateName [("step", int i), ("name", text name)]
  | loop {before : List (Nat × LinkSpec)} {i : Nat} {l : LinkSpec} (follows : d.Follows before i l)
      (loop : l.target = i) :
      Violation d .selfLoop [("step", int i), ("link", text l.name)]
  | ambiguous {before : List (Nat × LinkSpec)} {i j : Nat} {l l' : LinkSpec}
      (follows : d.Follows before i l) (no_loop : l.target ≠ i)
      (earlier : (j, l') ∈ before) (target : l'.target = l.target) (slot : l'.slot = l.slot) :
      Violation d .ambiguousTarget
        [("step", int i), ("other_step", int j), ("to", int l.target), ("slot", int l.slot)]
  | shared {i : Nat} {step : StepSpec} {p : Permission} {slots : List Int}
      (at_step : d.steps[i]? = some step) (exclusive : p.isExclusive = true)
      (several : 2 ≤ slots.length) (distinct : slots.Nodup)
      (holders : ∀ slot, slot ∈ slots ↔ step.Grants p slot) :
      Violation d .exclusivePermission
        [("step", int i), ("permission", text p.text), ("slots", ofInts slots)]
  | mixed {i : Nat} {step : StepSpec} {a b : Int} (at_step : d.steps[i]? = some step)
      (edits : step.Grants .edit a) (proposes : step.Grants .proposeChanges b) :
      Violation d .exclusivePermission [("step", int i)]
  | lost {i : Nat} {step : StepSpec} (at_step : d.steps[i]? = some step)
      (lost : ¬d.WithinReach i) (least : ∀ j < i, d.WithinReach j) :
      Violation d .unreachableStep [("step", int i), ("name", text step.name)]
  | endless (no_end : ∀ step ∈ d.steps, step.links ≠ []) : Violation d .noFinalStep []

variable {d : Description}

theorem Follows.mem {before : List (Nat × LinkSpec)} {i : Nat} {l : LinkSpec}
    (h : d.Follows before i l) : (i, l) ∈ d.allLinks :=
  h.order.subset (List.mem_append_right _ List.mem_cons_self)

/-- A violation is genuine: the check fails because of it. -/
theorem Violation.not_passes {kind : DefectKind} {details : Fields} (h : d.Violation kind details) :
    ¬d.Passes kind := by
  cases h with
  | start hmissing => exact fun hpasses => hmissing hpasses.1
  | grantSlot hstep hg hmissing =>
      exact fun hpasses => hmissing (hpasses.2.1 _ (List.mem_of_getElem? hstep) _ hg)
  | linkTarget hstep hl hmissing =>
      exact fun hpasses => hmissing (hpasses.2.2.1 _ (List.mem_of_getElem? hstep) _ hl)
  | linkSlot hstep hl hmissing =>
      exact fun hpasses => hmissing (hpasses.2.2.2 _ (List.mem_of_getElem? hstep) _ hl)
  | slotName hagain => exact fun hpasses => hagain.not_nodup hpasses.1
  | stepName hagain => exact fun hpasses => hagain.not_nodup hpasses.2.1
  | linkName hstep hagain =>
      exact fun hpasses => hagain.not_nodup (hpasses.2.2 _ (List.mem_of_getElem? hstep))
  | loop hfollows hloop =>
      obtain ⟨step, hstep, hl⟩ := mem_allLinks.1 hfollows.mem
      exact fun hpasses => hpasses _ ⟨step, hstep, _, hl, hloop⟩
  | @ambiguous before i j l l' hfollows _ hearlier htarget hslot =>
      intro hpasses
      have hkeys : ((before ++ [(i, l)]).map fun e => e.2.key).Nodup := by
        refine List.Nodup.sublist (hfollows.order.sublist.map _) ?_
        unfold Passes at hpasses
        rwa [← map_snd_allLinks, List.map_map] at hpasses
      rw [List.map_append, List.nodup_append] at hkeys
      refine hkeys.2.2 _ (List.mem_map_of_mem hearlier) _
        (List.mem_map_of_mem List.mem_cons_self) ?_
      rw [LinkSpec.key, LinkSpec.key, htarget, hslot]
  | shared hstep hexclusive hseveral hdistinct hholders =>
      intro hpasses
      have hgrants := hpasses _ (List.mem_of_getElem? hstep)
      have hone := length_le_one_of_nodup hdistinct fun a ha b hb =>
        congrArg GrantSpec.slot
          (hgrants _ ((hholders a).1 ha) _ ((hholders b).1 hb) hexclusive hexclusive)
      omega
  | mixed hstep hedits hproposes =>
      intro hpasses
      cases hpasses _ (List.mem_of_getElem? hstep) _ hedits _ hproposes rfl rfl
  | lost hstep hlost _ =>
      exact fun hpasses => hlost (hpasses _ (List.getElem?_eq_some_iff.1 hstep).1)
  | endless hno_end =>
      rintro ⟨step, hs, hnil⟩
      exact hno_end step hs hnil

/-! ### What each check finds -/

variable {defect : Defect}

theorem violation_of_referenceDefect? (h : d.referenceDefect? = some defect) :
    defect.kind.rank = 1 ∧ d.Violation defect.kind defect.details := by
  unfold referenceDefect? at h
  split at h
  · obtain ⟨i, step, hstep, h, -⟩ := findSome?_zipIdx_eq_some h
    unfold stepReferenceDefect? at h
    dsimp only at h
    rw [Option.orElse_eq_orElse, Option.orElse_eq_or, Option.or_eq_some_iff] at h
    rcases h with h | ⟨-, h⟩
    · obtain ⟨g, hg, h⟩ := List.exists_of_findSome?_eq_some h
      split at h
      · cases h
      · rename_i hmissing
        cases h
        exact ⟨rfl, .grantSlot hstep hg (mt isIndex_iff.2 hmissing)⟩
    · obtain ⟨l, hl, h⟩ := List.exists_of_findSome?_eq_some h
      simp only [Bool.not_eq_true', ← Bool.not_eq_true] at h
      split at h
      · rename_i hmissing
        cases h
        exact ⟨rfl, .linkTarget hstep hl (mt isIndex_iff.2 hmissing)⟩
      · split at h
        · rename_i hmissing
          cases h
          exact ⟨rfl, .linkSlot hstep hl (mt isIndex_iff.2 hmissing)⟩
        · cases h
  · rename_i hmissing
    cases h
    exact ⟨rfl, .start (mt isIndex_iff.2 hmissing)⟩

theorem violation_of_nameDefect? (h : d.nameDefect? = some defect) :
    defect.kind.rank = 2 ∧ d.Violation defect.kind defect.details := by
  unfold nameDefect? at h
  dsimp only at h
  simp only [Option.orElse_eq_orElse, Option.orElse_eq_or, Option.or_eq_some_iff,
    Option.map_eq_some_iff] at h
  rcases h with ⟨r, h, rfl⟩ | ⟨-, ⟨r, h, rfl⟩ | ⟨-, h⟩⟩
  · exact ⟨rfl, .slotName (secondAt_of_firstRepeat? h)⟩
  · exact ⟨rfl, .stepName (secondAt_of_firstRepeat? h)⟩
  · obtain ⟨i, step, hstep, h, -⟩ := findSome?_zipIdx_eq_some h
    obtain ⟨r, hrepeat, rfl⟩ := Option.map_eq_some_iff.1 h
    exact ⟨rfl, .linkName hstep (secondAt_of_firstRepeat? hrepeat)⟩

theorem linkDefectFrom?_eq_some {earlier links : List (Nat × LinkSpec)}
    (h : d.linkDefectFrom? earlier links = some defect) :
    ∃ before i l, before ++ [(i, l)] <+: links ∧ d.linkDefectFrom? earlier before = none ∧
      d.linkDefectAfter? (earlier ++ before) i l = some defect := by
  induction links generalizing earlier with
  | nil => cases h
  | cons e links ih =>
      obtain ⟨i, l⟩ := e
      unfold linkDefectFrom? at h
      rw [Option.orElse_eq_orElse, Option.orElse_eq_or, Option.or_eq_some_iff] at h
      rcases h with h | ⟨hnone, h⟩
      · exact ⟨[], i, l, List.prefix_append _ _, rfl, by rwa [List.append_nil]⟩
      · obtain ⟨before, i', l', horder, hbefore, h⟩ := ih h
        refine ⟨(i, l) :: before, i', l', (List.prefix_cons_inj _).2 horder, ?_, ?_⟩
        · rw [linkDefectFrom?, hnone, hbefore]
          rfl
        · rwa [List.append_assoc] at h

theorem violation_of_linkDefect? (h : d.linkDefect? = some defect) :
    defect.kind.rank = 3 ∧ d.Violation defect.kind defect.details := by
  obtain ⟨before, i, l, horder, hnone, h⟩ := linkDefectFrom?_eq_some h
  obtain ⟨hloops, hkeys, -⟩ := linkDefectFrom?_eq_none_iff.1 hnone
  have hfollows : d.Follows before i l := ⟨horder, hloops, hkeys⟩
  unfold linkDefectAfter? at h
  split at h
  · rename_i hloop
    cases h
    exact ⟨rfl, .loop hfollows hloop⟩
  · rename_i hloop
    obtain ⟨⟨j, l'⟩, hfind, rfl⟩ := Option.map_eq_some_iff.1 h
    have hkey := List.find?_some hfind
    rw [Bool.and_eq_true, beq_iff_eq, beq_iff_eq] at hkey
    exact ⟨rfl, .ambiguous hfollows hloop (List.mem_of_find?_eq_some hfind) hkey.1 hkey.2⟩

theorem mem_holders_iff {step : StepSpec} {p : Permission} {slot : Int} :
    slot ∈ holders step p ↔ step.Grants p slot := by
  unfold holders StepSpec.Grants
  simp only [List.mem_map, List.mem_filter, beq_iff_eq]
  constructor
  · rintro ⟨g, ⟨hg, rfl⟩, rfl⟩
    exact hg
  · intro hg
    exact ⟨_, ⟨hg, rfl⟩, rfl⟩

theorem nodup_holders {step : StepSpec} {p : Permission} (h : step.grants.Nodup) :
    (holders step p).Nodup := by
  refine List.Nodup.map_on ?_ (h.filter _)
  rintro ⟨a, q⟩ hg ⟨b, r⟩ hg' rfl
  simp only [List.mem_filter, beq_iff_eq] at hg hg'
  rw [hg.2, hg'.2]

/-- A step that grants more than one exclusive permission grants both. -/
theorem exists_grants_of_mixed {step : StepSpec} (h : 1 < (exclusiveGranted step).length) :
    ∃ a b, step.Grants .edit a ∧ step.Grants .proposeChanges b := by
  obtain ⟨p, hp, q, hq, hne⟩ : ∃ p ∈ exclusiveGranted step, ∃ q ∈ exclusiveGranted step, p ≠ q := by
    by_contra! hsame
    exact absurd (length_le_one_of_nodup (Ordered.nodup_eraseDups _) hsame) (Nat.not_le.2 h)
  obtain ⟨⟨⟨a, p⟩, hg, rfl⟩, hpe⟩ := mem_exclusiveGranted_iff.1 hp
  obtain ⟨⟨⟨b, q⟩, hg', rfl⟩, hqe⟩ := mem_exclusiveGranted_iff.1 hq
  rcases Permission.isExclusive_iff.1 hpe with rfl | rfl <;>
    rcases Permission.isExclusive_iff.1 hqe with rfl | rfl
  · exact absurd rfl hne
  · exact ⟨a, b, hg, hg'⟩
  · exact ⟨b, a, hg', hg⟩
  · exact absurd rfl hne

theorem violation_of_permissionDefect? (hgrants : ∀ step ∈ d.steps, step.grants.Nodup)
    (h : d.permissionDefect? = some defect) :
    defect.kind.rank = 4 ∧ d.Violation defect.kind defect.details := by
  obtain ⟨i, step, hstep, h, -⟩ := findSome?_zipIdx_eq_some h
  unfold stepPermissionDefect? at h
  dsimp only at h
  rw [Option.orElse_eq_orElse, Option.orElse_eq_or, Option.or_eq_some_iff] at h
  rcases h with h | ⟨-, h⟩
  · obtain ⟨p, hp, h⟩ := List.exists_of_findSome?_eq_some h
    split at h
    · rename_i hseveral
      cases h
      exact ⟨rfl, .shared hstep (mem_exclusiveGranted_iff.1 hp).2 hseveral
        (nodup_holders (hgrants step (List.mem_of_getElem? hstep))) fun _ => mem_holders_iff⟩
    · cases h
  · split at h
    · rename_i hmixed
      cases h
      obtain ⟨a, b, hedits, hproposes⟩ := exists_grants_of_mixed hmixed
      exact ⟨rfl, .mixed hstep hedits hproposes⟩
    · cases h

/-- The search for what is out of reach presupposes that every link leads to a step. -/
theorem violation_of_reachDefect? (href : d.Passes .badReference)
    (h : d.reachDefect? = some defect) :
    (defect.kind.rank = 5 ∨ defect.kind.rank = 6 ∧ d.Passes .unreachableStep) ∧
      d.Violation defect.kind defect.details := by
  have hreached {i : Nat} : i ∈ d.reached ↔ d.WithinReach i := mem_reached_iff href.2.2.1
  unfold reachDefect? at h
  dsimp only at h
  rw [Option.orElse_eq_orElse, Option.orElse_eq_or, Option.or_eq_some_iff] at h
  rcases h with h | ⟨hnone, h⟩
  · obtain ⟨i, step, hstep, h, hbefore⟩ := findSome?_zipIdx_eq_some h
    split at h
    · cases h
    · rename_i hlost
      cases h
      refine ⟨Or.inl rfl, .lost hstep (mt hreached.2 hlost) fun j hj => ?_⟩
      have hlt : j < d.steps.length := Nat.lt_trans hj (List.getElem?_eq_some_iff.1 hstep).1
      have hfound := hbefore j hj _ (List.getElem?_eq_getElem hlt)
      simp only [ite_eq_left_iff, reduceCtorEq, imp_false, not_not] at hfound
      exact hreached.1 hfound
  · split at h
    · cases h
    · rename_i hfinal
      cases h
      refine ⟨Or.inr ⟨rfl, ?_⟩, .endless fun step hs hnil => hfinal ?_⟩
      · simp only [List.findSome?_eq_none_iff, ite_eq_left_iff, reduceCtorEq, imp_false, not_not,
          hreached, forall_mem_zipIdx_snd] at hnone
        exact hnone
      · exact List.any_eq_true.2 ⟨step, hs, by rw [StepSpec.isFinal, hnil]; rfl⟩

/-! ### What comes before

A check that finds nothing adds what it asks to what has been passed. The lemmas are named for the
check that is made next. -/

/-- A description passes the checks that come before one in their order. -/
def PassesBefore (d : Description) (rank : Nat) : Prop := ∀ k, k.rank < rank → d.Passes k

namespace PassesBefore

theorem next {rank : Nat} (h : d.PassesBefore rank) (hnext : ∀ k, k.rank = rank → d.Passes k) :
    d.PassesBefore (rank + 1) :=
  fun k hk => (Nat.lt_succ_iff_lt_or_eq.1 hk).elim (h k) (hnext k)

theorem references (d : Description) : d.PassesBefore 1 := fun k hk => by
  cases k with
  | malformed => trivial
  | _ => exact absurd hk (by decide)

theorem names (h : d.referenceDefect? = none) : d.PassesBefore 2 :=
  (references d).next fun k hk => by
    cases k with
    | badReference => exact referenceDefect?_eq_none_iff_inRange.1 h
    | _ => exact absurd hk (by decide)

theorem links (hbefore : d.PassesBefore 2) (h : d.nameDefect? = none) : d.PassesBefore 3 :=
  hbefore.next fun k hk => by
    cases k with
    | duplicateName => exact nameDefect?_eq_none_iff.1 h
    | _ => exact absurd hk (by decide)

theorem permissions (hbefore : d.PassesBefore 3) (h : d.linkDefect? = none) : d.PassesBefore 4 :=
  hbefore.next fun k hk => by
    cases k with
    | selfLoop => exact (linkDefect?_eq_none_iff_distinct.1 h).1
    | ambiguousTarget => exact (linkDefect?_eq_none_iff_distinct.1 h).2
    | _ => exact absurd hk (by decide)

theorem reach (hbefore : d.PassesBefore 4) (h : d.permissionDefect? = none) : d.PassesBefore 5 :=
  hbefore.next fun k hk => by
    cases k with
    | exclusivePermission =>
        rw [permissionDefect?, List.findSome?_eq_none_iff] at h
        exact forall_mem_zipIdx_fst.1 fun s hs => isExclusive_of_stepPermissionDefect? (h s hs)
    | _ => exact absurd hk (by decide)

theorem final (hbefore : d.PassesBefore 5) (h : d.Passes .unreachableStep) : d.PassesBefore 6 :=
  hbefore.next fun k hk => by
    cases k with
    | unreachableStep => exact h
    | _ => exact absurd hk (by decide)

end PassesBefore

/-- The defect that is found is the first one, and it names a violation. -/
theorem violation_of_defect? (hgrants : ∀ step ∈ d.steps, step.grants.Nodup)
    (h : d.defect? = some defect) :
    d.PassesBefore defect.kind.rank ∧ d.Violation defect.kind defect.details := by
  unfold defect? at h
  simp only [Option.orElse_eq_orElse, Option.orElse_eq_or, Option.or_eq_some_iff] at h
  rcases h with h | ⟨href, h⟩
  · obtain ⟨hrank, hviolation⟩ := violation_of_referenceDefect? h
    exact ⟨hrank ▸ .references d, hviolation⟩
  have hnames : d.PassesBefore 2 := .names href
  rcases h with h | ⟨hname, h⟩
  · obtain ⟨hrank, hviolation⟩ := violation_of_nameDefect? h
    exact ⟨hrank ▸ hnames, hviolation⟩
  have hlinks := hnames.links hname
  rcases h with h | ⟨hlink, h⟩
  · obtain ⟨hrank, hviolation⟩ := violation_of_linkDefect? h
    exact ⟨hrank ▸ hlinks, hviolation⟩
  have hpermissions := hlinks.permissions hlink
  rcases h with h | ⟨hpermission, h⟩
  · obtain ⟨hrank, hviolation⟩ := violation_of_permissionDefect? hgrants h
    exact ⟨hrank ▸ hpermissions, hviolation⟩
  have hreach := hpermissions.reach hpermission
  obtain ⟨hrank | ⟨hrank, hreachable⟩, hviolation⟩ :=
    violation_of_reachDefect? (hnames .badReference (by decide)) h
  · exact ⟨hrank ▸ hreach, hviolation⟩
  · exact ⟨hrank ▸ hreach.final hreachable, hviolation⟩

/-! ### Diagnoses -/

/-- The details name a part of a value that cannot be read. -/
inductive Misshapen (raw : Json) : Fields → Prop where
  | top (unframed : ¬Framed raw) : Misshapen raw []
  | slot {i : Nat} {v : Json} (item : (raw.member "slots").items[i]? = some v)
      (unread : ∀ s, ¬SlotSpec.Reads v s) : Misshapen raw [("slot", int i)]
  | step {i : Nat} {v : Json} (item : (raw.member "steps").items[i]? = some v)
      (unread : ∀ s, ¬StepSpec.Reads v s) : Misshapen raw [("step", int i)]
  | permission {i : Nat} {v p : Json} (item : (raw.member "steps").items[i]? = some v)
      (asked : p ∈ StepSpec.rawPermissions v) (unknown : ∀ q : Permission, p ≠ text q.text) :
      Misshapen raw [("step", int i), ("permission", p)]

/-- What is wrong with a value: it says nothing, and the details name a part that cannot be read; or
it says something that passes every check before the one that fails, and the details name a
violation. -/
inductive Diagnosis (raw : Json) : DefectKind → Fields → Prop where
  | malformed {details : Fields} (silent : ∀ d, ¬Reads raw d) (part : Misshapen raw details) :
      Diagnosis raw .malformed details
  | defective {d : Description} {kind : DefectKind} {details : Fields} (reads : Reads raw d)
      (before : ∀ k : DefectKind, k.rank < kind.rank → d.Passes k) (fails : ¬d.Passes kind)
      (violation : d.Violation kind details) : Diagnosis raw kind details

theorem Fault.misshapen {raw : Json} (h : Fault raw (.invalid defect)) :
    defect.kind = .malformed ∧ Misshapen raw defect.details := by
  have hplace {place : Place} (h : place.Blamed (.invalid defect)) :
      defect.kind = .malformed ∧ defect.details = place.details := by
    obtain ⟨cause, hshape, h⟩ := h
    cases h
    cases cause with
    | unknownPermission => cases hshape
    | _ => exact ⟨rfl, rfl⟩
  cases h with
  | top hunframed h =>
      obtain ⟨hkind, hdetails⟩ := hplace h
      exact ⟨hkind, hdetails ▸ .top hunframed⟩
  | slot hitem hunread h =>
      obtain ⟨hkind, hdetails⟩ := hplace h
      exact ⟨hkind, hdetails ▸ .slot hitem hunread⟩
  | step hitem hunread h =>
      rcases h with h | ⟨p, hp, h⟩
      · obtain ⟨hkind, hdetails⟩ := hplace h
        exact ⟨hkind, hdetails ▸ .step hitem hunread⟩
      · cases h with
        | unknown hunknown => exact ⟨rfl, .permission hitem hp hunknown⟩

theorem diagnosis_of_validate {raw : Json} (h : validate raw = .error (.invalid defect)) :
    Diagnosis raw defect.kind defect.details := by
  unfold validate at h
  cases hread : ofJson raw with
  | error f =>
      rw [hread] at h
      cases h
      have hfault : OnlyFails (Fault raw) (ofJson raw) := onlyFails_ofJson
      rw [hread] at hfault
      obtain ⟨hkind, hpart⟩ := Fault.misshapen hfault
      rw [hkind]
      refine .malformed (fun d hd => ?_) hpart
      cases hread.symm.trans (ofJson_eq_ok_iff.2 hd)
  | ok d =>
      rw [hread] at h
      have hreads := ofJson_eq_ok_iff.1 hread
      have hdefect : d.defect? = some defect := by
        simp only [bind, Except.bind] at h
        split at h
        · rename_i hd
          cases h
          exact hd
        · cases h
      obtain ⟨hbefore, hviolation⟩ := violation_of_defect? hreads.clean.grants hdefect
      exact .defective hreads hbefore hviolation.not_passes hviolation

/-- A description that fails a check is refused with a defect. -/
theorem exists_defect_of_not_passes {raw : Json} (hreads : Reads raw d) {k : DefectKind}
    (hfails : ¬d.Passes k) : ∃ defect, validate raw = .error (.invalid defect) := by
  have hsome : d.defect? ≠ none := fun hnone =>
    hfails (proper_iff_passes.1 ((defect?_eq_none_iff hreads.clean.grants).1 hnone) k)
  obtain ⟨defect, hdefect⟩ := Option.ne_none_iff_exists'.1 hsome
  refine ⟨defect, ?_⟩
  unfold validate
  rw [ofJson_eq_ok_iff.2 hreads]
  simp only [bind, Except.bind, hdefect]

end Description

/-- The client is told the kind of a defect, and again together with the details. -/
theorem Defect.report?_invalid (defect : Defect) :
    ∃ r, (Failure.invalid defect).report? = some r ∧ r.kind = text defect.kind.text ∧
      r.details = object (("kind", text defect.kind.text) :: defect.details) := by
  refine ⟨_, rfl, rfl, ?_⟩
  cases defect with
  | malformed place cause => cases place <;> cases cause <;> rfl
  | _ => rfl

open Description in
/-- A description that fails a check is refused with a defect. Every defect is genuine: the client is
told the first check that fails and a violation because of which it does. -/
theorem refusal_diagnosed (raw : Json) :
    (∀ d k, Reads raw d → ¬d.Passes k → ∃ defect, validate raw = .error (.invalid defect)) ∧
    ∀ defect, validate raw = .error (.invalid defect) →
      Diagnosis raw defect.kind defect.details ∧
        ∃ r, (Failure.invalid defect).report? = some r ∧ r.kind = text defect.kind.text ∧
          r.details = object (("kind", text defect.kind.text) :: defect.details) :=
  ⟨fun _ _ hreads hfails => exists_defect_of_not_passes hreads hfails,
    fun defect h => ⟨diagnosis_of_validate h, defect.report?_invalid⟩⟩

/-- A review whose editor can bring a draft to its end from either of two steps. -/
def Review.hasty : Json :=
  object [
    ("name", text "Review"),
    ("start", int 0),
    ("slots", array [object [("name", text "Author")], object [("name", text "Editor")]]),
    ("steps", array [
      step "Writing" [(0, .edit)] [("submit", 1, 0), ("accept", 2, 1)],
      step "Reviewing" [(0, .view), (1, .proposeChanges)] [("accept", 2, 1)],
      step "Done" [(0, .view)] []])]

open Description in
/-- The hasty review is refused because of the links to its end: which of them the editor follows
would not be clear. -/
theorem hasty_review_diagnosed :
    ∃ defect, validate Review.hasty = .error (.invalid defect) ∧
      defect.kind = .ambiguousTarget ∧
      defect.details =
        ([("step", int 1), ("other_step", int 0), ("to", int 2), ("slot", int 1)] : Fields) ∧
      Diagnosis Review.hasty defect.kind defect.details := by
  have h : validate Review.hasty =
      .error (.invalid (.ambiguousTarget 1 0 2 1 "Editor" "Done")) := by
    rfl
  exact ⟨_, h, rfl, rfl, ((refusal_diagnosed Review.hasty).2 _ h).1⟩

end Editorial
