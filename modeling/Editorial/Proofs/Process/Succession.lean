import Editorial.Proofs.Draft.Publication
import Editorial.Proofs.Process.Change
import Editorial.Proofs.Process.Latest

/-!
# Which version is the latest

A new version gets the moment at which it is created and a greater id than all others that are
stored. Ids are given out again and moments may be the same, so that it is the latest one only as
long as the clock does not go back: then no stored version is of a later moment
(`created_of_mem_afterAll`, `Turn.Creates.newest`). From then on only a further version of the same
process can come before it (`Store.Newest.afterAll`), and once it is deleted the listing is what is
left of the one before it (`versionsOf_deleteVersion`).
-/

namespace Editorial

open Store

variable {s u : Store} {t : Turn} {v : Version}

/-! ### The clock -/

/-- The clock never goes back along a run. -/
def NeverBack (turns : List Turn) : Prop :=
  turns.Pairwise fun a b => a.conditions.now.micros ≤ b.conditions.now.micros

/-- A version that has been stored on the way has the moment of some turn. -/
theorem created_of_mem_afterAll {turns : List Turn} (h : v ∈ (s.afterAll turns).versions) :
    v ∈ s.versions ∨ ∃ t ∈ turns, v.created = t.conditions.now := by
  induction turns generalizing s with
  | nil => exact Or.inl h
  | cons t turns ih =>
      rcases ih h with hv | ⟨t', ht', hnow⟩
      · rcases mem_or_creates_of_after hv with hv | hcreates
        · exact Or.inl hv
        · obtain ⟨-, raw, d, -, -, hnext⟩ := hcreates.added
          right
          refine ⟨t, List.mem_cons_self, ?_⟩
          rw [hnext]
          rfl
      · exact Or.inr ⟨t', List.mem_cons_of_mem _ ht', hnow⟩

/-- As long as the clock does not go back, nothing that is stored is of a later moment. -/
theorem NeverBack.created_le {turns : List Turn} (h : NeverBack (turns ++ [t]))
    (hv : v ∈ (Store.empty.afterAll turns).versions) :
    v.created.micros ≤ t.conditions.now.micros := by
  rcases created_of_mem_afterAll hv with hv | ⟨t', ht', hnow⟩
  · cases hv
  · rw [hnow]
    exact (List.pairwise_append.1 h).2.2 t' ht' t (List.mem_singleton_self t)

/-! ### The new version -/

namespace Turn

/-- A turn creates a further version of the process with an id. -/
def CreatesFor (process : Int) (s : Store) (t : Turn) : Prop :=
  ∃ raw v, t.action = .define (.createVersion process raw) ∧ t.Creates s v

namespace Creates

theorem id_notMem (h : t.Creates s v) : v.id ∉ s.versions.map Version.id := by
  obtain ⟨-, raw, d, -, -, hnext⟩ := h.added
  rw [hnext]
  exact nextId_notMem _

theorem newest (h : t.Creates s v)
    (hclock : ∀ w ∈ s.versions, w.created.micros ≤ t.conditions.now.micros) :
    (s.after t).Newest v.process v := by
  obtain ⟨hversions, raw, d, -, -, hnext⟩ := h.added
  have hcreated : v.created = t.conditions.now := by
    rw [hnext]
    rfl
  have hid : v.id = nextId (s.versions.map Version.id) := by
    rw [hnext]
    rfl
  refine ⟨?_, rfl, ?_⟩
  · rw [hversions]
    exact List.mem_append_right _ (List.mem_singleton_self v)
  · rw [hversions]
    intro w hw _
    rcases List.mem_append.1 hw with hw | hw
    · have hmoment := hclock w hw
      have hless : w.id < nextId (s.versions.map Version.id) :=
        lt_nextId (List.mem_map_of_mem hw)
      rw [hcreated, hid]
      omega
    · rw [List.mem_singleton.1 hw]
      exact Or.inr ⟨rfl, Int.le_refl _⟩

/-- A new version is one of a new process, or the turn is for its process. -/
theorem process_new_or (h : t.Creates s v) :
    v.process ∉ s.processes.map Process.id ∨ t.CreatesFor v.process s := by
  cases h with
  | @process c team raw done =>
      obtain ⟨d, name, -, -, -, -, hv, -⟩ := Definitions.createProcess_of_ok done
      left
      rw [hv]
      exact nextId_notMem _
  | @version c process raw p found done =>
      obtain ⟨d, name, -, -, -, -, hv, -⟩ := Definitions.createVersion_of_ok done
      right
      refine ⟨raw, v, ?_, .version found done⟩
      rw [hv, ← id_of_process? (process_eq_ok_iff.1 found).2]
      rfl

end Creates

end Turn

/-! ### As long as no other one is created -/

/-- A version that comes before all others of its process still does when a turn neither deletes it
nor creates a further one. -/
theorem Store.Newest.after (hv : s.Newest v.process v) (hs : s.Sound) (hkept : ¬t.Deletes s v)
    (hlast : ¬t.CreatesFor v.process s) :
    (s.after t).Newest v.process v ∧
      ∀ w ∈ (s.after t).versions, w.process = v.process → w ∈ s.versions := by
  have hold : ∀ w ∈ (s.after t).versions, w.process = v.process → w ∈ s.versions := by
    intro w hw hprocess
    rcases mem_or_creates_of_after hw with hw | hcreates
    · exact hw
    · have hstored : w.process ∈ s.processes.map Process.id := by
        rw [hprocess]
        exact hs.version_process v hv.stored
      rcases hcreates.process_new_or with hnew | hfor
      -- An id that is given out to a new process is not that of a stored one.
      · exact absurd hstored hnew
      · exact absurd (hprocess ▸ hfor) hlast
  refine ⟨⟨(mem_versions_after_iff hs hv.stored t).2 hkept, rfl, ?_⟩, hold⟩
  intro w hw hprocess
  exact hv.greatest w (hold w hw hprocess) hprocess

theorem Store.Newest.afterAll {turns : List Turn} (hv : s.Newest v.process v) (hs : s.Sound)
    (h : s.Along (fun u t => ¬t.Deletes u v ∧ ¬t.CreatesFor v.process u) turns) :
    (s.afterAll turns).Newest v.process v ∧
      ∀ w ∈ (s.afterAll turns).versions, w.process = v.process → w ∈ s.versions := by
  induction turns generalizing s with
  | nil => exact ⟨hv, fun _ hw _ => hw⟩
  | cons t turns ih =>
      obtain ⟨⟨hkept, hlast⟩, hturns⟩ := h
      obtain ⟨hnext, hold⟩ := hv.after hs hkept hlast
      obtain ⟨hnewest, hrest⟩ := ih hnext (hs.after t) hturns
      exact ⟨hnewest, fun w hw hprocess => hold w (hrest w hw hprocess) hprocess⟩

/-! ### Listings -/

/-- How the versions of a process are listed: each of them once, the latest one first. -/
structure Store.Listed (s : Store) (process : Int) : Prop where
  head : s.latest? process = (s.versionsOf process).head?
  mem : ∀ v, v ∈ s.versionsOf process ↔ v ∈ s.versions ∧ v.process = process
  once : (s.versionsOf process).Nodup
  descending : (s.versionsOf process).Pairwise fun v w =>
    w.created.micros < v.created.micros ∨ w.created.micros = v.created.micros ∧ w.id < v.id

theorem Store.Sound.nodup_versionsOf (hs : s.Sound) (process : Int) :
    (s.versionsOf process).Nodup := by
  have hversions : s.versions.Nodup := List.Nodup.of_map Version.id hs.version_ids
  exact (Ordered.sortBy_perm _ _).nodup_iff.2 (hversions.filter _)

theorem Store.Sound.listed (hs : s.Sound) (process : Int) : s.Listed process where
  head := latest?_eq_head? s process
  mem _ := mem_versionsOf
  once := hs.nodup_versionsOf process
  descending := by
    have hboth := (pairwise_versionsOf s process).and
      (List.nodup_iff_pairwise_ne.1 (hs.nodup_versionsOf process))
    refine hboth.imp_of_mem fun {v w} hv hw ⟨hnewer, hne⟩ => ?_
    have hid : v.id ≠ w.id := fun hid =>
      hne (hs.version_unique (mem_versionsOf.1 hv).1 (mem_versionsOf.1 hw).1 hid)
    rw [newer_eq_true_iff] at hnewer
    omega

/-- A listing is determined by what is listed. -/
theorem Store.Sound.versionsOf_eq (hs : s.Sound) {process : Int} {l : List Version}
    (hnodup : l.Nodup) (hsorted : l.Pairwise fun v w => newer v w = true)
    (hmem : ∀ v, v ∈ s.versionsOf process ↔ v ∈ l) : s.versionsOf process = l := by
  have hperm : (s.versionsOf process).Perm l :=
    (List.perm_ext_iff_of_nodup (hs.nodup_versionsOf process) hnodup).2 hmem
  refine hperm.eq_of_pairwise (fun v w hv hw hvw hwv => ?_) (pairwise_versionsOf s process) hsorted
  exact hs.version_unique (mem_versionsOf.1 hv).1 (mem_versionsOf.1 ((hmem w).2 hw)).1
    (newer_antisymm hvw hwv)

/-- Once a version that was created last is deleted, the listing is what is left of the one before
it. -/
theorem versionsOf_deleteVersion (hs : s.Sound) (hu : u.Sound)
    (hnew : v.id ∉ s.versions.map Version.id)
    (hold : ∀ w ∈ u.versions, w.process = v.process → w ∈ s.versions ++ [v]) {c : Conditions}
    (hdone : (Definitions.deleteVersion c u v).result = .ok ()) :
    (Definitions.deleteVersion c u v).store.versionsOf v.process =
      (s.versionsOf v.process).filter (· ∈ u.versions) := by
  have hsound : (Definitions.deleteVersion c u v).store.Sound := by
    obtain ⟨r, hr, es, hes⟩ := Definitions.settles_deleteVersion c u v
    exact (hu.transition hr).extends ⟨es, hes⟩
  apply hsound.versionsOf_eq ((hs.nodup_versionsOf _).filter _)
    ((pairwise_versionsOf s _).sublist List.filter_sublist)
  intro w
  rcases Definitions.deleteVersion_cases c u v with ⟨f, hf⟩ | ⟨-, -, ho⟩
  · rw [hf] at hdone
    cases hdone
  -- Both listings are in order, so it is enough that they list the same.
  rw [ho, List.mem_filter, mem_versionsOf, mem_versionsOf, decide_eq_true_iff]
  show w ∈ u.versions.filter (fun e => e.id != v.id) ∧ w.process = v.process ↔ _
  rw [List.mem_filter, bne_iff_ne]
  constructor
  · rintro ⟨⟨hw, hne⟩, hprocess⟩
    rcases List.mem_append.1 (hold w hw hprocess) with hmem | hmem
    · exact ⟨⟨hmem, hprocess⟩, hw⟩
    · rw [List.mem_singleton.1 hmem] at hne
      exact absurd rfl hne
  · rintro ⟨⟨hmem, hprocess⟩, hw⟩
    refine ⟨⟨hw, fun hid => hnew ?_⟩, hprocess⟩
    rw [← hid]
    exact List.mem_map_of_mem hmem

/-! ### The latest version -/

/-- In every store that comes about, the versions of a process are listed each once, the latest one
first. Along a run in which the clock does not go back, a new version is the latest one of its
process, it stays so until it is deleted or a further one is created, and when it is deleted then,
the one that was the latest before among those that are left is the latest again. -/
theorem latest_version_decided :
    (∀ s, Reachable s → ∀ process, s.Listed process) ∧
    ∀ before t v, NeverBack (before ++ [t]) →
      let s := Store.empty.afterAll before
      t.Creates s v →
      (s.after t).latest? v.process = some v ∧
      ∀ later, (s.after t).Along (fun u t => ¬t.Deletes u v ∧ ¬t.CreatesFor v.process u) later →
        let u := (s.after t).afterAll later
        u.latest? v.process = some v ∧
        ∀ c, (Definitions.deleteVersion c u v).result = .ok () →
          (Definitions.deleteVersion c u v).store.latest? v.process =
            (s.versionsOf v.process).find? (· ∈ u.versions) := by
  refine ⟨fun s h process => h.sound.listed process, ?_⟩
  intro before t v hclock s hcreates
  have hs : s.Sound := Reachable.sound ⟨before, rfl⟩
  have hnewest := hcreates.newest fun w hw => hclock.created_le hw
  refine ⟨(hs.after t).latest?_eq_some_iff.2 hnewest, ?_⟩
  intro later hlater u
  obtain ⟨hstill, hold⟩ := hnewest.afterAll (hs.after t) hlater
  have hu : u.Sound := (hs.after t).afterAll later
  refine ⟨hu.latest?_eq_some_iff.2 hstill, fun c hdone => ?_⟩
  rw [hcreates.added.1] at hold
  rw [latest?_eq_head?, versionsOf_deleteVersion hs hu hcreates.id_notMem hold hdone,
    List.head?_filter]

/-- In the review, a second version is the latest one until it is deleted. Then the first one is the
latest again, although both are of the same moment. -/
theorem first_version_of_review_latest_again :
    let s := Review.store
    let t : Turn := ⟨Review.conditions, .define (.createVersion 1 Review.description)⟩
    ∃ v w, s.Listed 1 ∧ s.latest? 1 = some w ∧ t.Creates s v ∧ v.created = w.created ∧
      (s.after t).latest? 1 = some v ∧
      (Definitions.deleteVersion Review.conditions (s.after t) v).store.latest? 1 = some w := by
  intro s t
  obtain ⟨hlisted, hlatest⟩ := latest_version_decided
  obtain ⟨w, hw⟩ : ∃ w, s.latest? 1 = some w := Option.isSome_iff_exists.1 (by decide +kernel)
  let o := Definitions.createVersion Review.conditions s ⟨1, 1, "Review"⟩ Review.description
  obtain ⟨v, hv⟩ : ∃ v, o.result = .ok v := exists_ok_of_toBool (by decide +kernel)
  have hcreates : t.Creates s v :=
    .version (process_eq_ok_iff.2 ⟨by decide, by decide +kernel⟩) hv
  have hprocess : o.result.toOption.map Version.process = some 1 := by decide +kernel
  have hcreated : o.result.toOption.map Version.created =
      (s.latest? 1).map Version.created := by decide +kernel
  have hdeleted : (o.result.toOption.map fun v =>
      (Definitions.deleteVersion Review.conditions (s.after t) v).result.toBool) = some true := by
    decide +kernel
  rw [hv] at hprocess hcreated hdeleted
  rw [hw] at hcreated
  have hone : v.process = 1 := Option.some.inj hprocess
  obtain ⟨⟨⟩, hdone⟩ := exists_ok_of_toBool (Option.some.inj hdeleted)
  obtain ⟨hnow, hlater⟩ := hlatest Review.turns t v (by unfold NeverBack; decide +kernel) hcreates
  obtain ⟨-, hagain⟩ := hlater [] trivial
  have hlast := hagain Review.conditions hdone
  rw [hone] at hnow hlast
  obtain ⟨rest, hlist⟩ := List.head?_eq_some_iff.1 ((hlisted s Review.reachable 1).head ▸ hw)
  have hkept : w ∈ (s.after t).versions := by
    rw [hcreates.added.1]
    exact List.mem_append_left _ (mem_of_latest? hw).1
  refine ⟨v, w, hlisted s Review.reachable 1, hw, hcreates, Option.some.inj hcreated, hnow,
    hlast.trans ?_⟩
  show (s.versionsOf 1).find? (· ∈ (s.after t).versions) = some w
  rw [hlist]
  exact List.find?_cons_of_pos (decide_eq_true hkept)

end Editorial
