import Editorial.Proofs.Ordered
import Editorial.Proofs.Reachable

/-!
# The newest version of a process

Versions are listed by the moment at which they were created, the later one first, and of two from
one moment the one with the greater id comes first (`Store.newer_eq_true_iff`). This order is total
(`Store.newer_total`, `Store.newer_trans`), so that the head of the listing comes before all other
versions of the process. The latest version is looked for without a listing, and it is that head
(`Store.latest?_eq_head?`): the newest version (`Store.Sound.latest?_eq_some_iff`), of which there is
one at most (`Store.Newest.unique`).
-/

namespace Editorial.Store

/-! ### The order of the listing -/

theorem created_eq_iff {v w : Version} :
    v.created = w.created ↔ w.created.micros = v.created.micros :=
  ⟨fun h => by rw [h], fun h => congrArg Instant.mk h.symm⟩

theorem newer_eq_true_iff {v w : Version} :
    newer v w = true ↔ w.created.micros < v.created.micros ∨
      w.created.micros = v.created.micros ∧ w.id ≤ v.id := by
  simp [newer, Instant.before, created_eq_iff]

theorem later_eq_true_iff {v w : Version} :
    later v w = true ↔ w.created.micros < v.created.micros ∨
      w.created.micros = v.created.micros ∧ w.id < v.id := by
  simp [later, Instant.before, created_eq_iff]

theorem newer_total (v w : Version) : newer v w = true ∨ newer w v = true := by
  simp only [newer_eq_true_iff]
  omega

theorem newer_trans (u v w : Version) (huv : newer u v = true) (hvw : newer v w = true) :
    newer u w = true := by
  rw [newer_eq_true_iff] at huv hvw ⊢
  omega

/-- Two versions that come before each other have one id. -/
theorem newer_antisymm {v w : Version} (hvw : newer v w = true) (hwv : newer w v = true) :
    v.id = w.id := by
  rw [newer_eq_true_iff] at hvw hwv
  omega

/-- One version is later than another one unless that one may be listed first. -/
theorem later_eq (v w : Version) : later v w = !newer w v := by
  rw [Bool.eq_iff_iff, Bool.not_eq_true', ← Bool.not_eq_true, later_eq_true_iff, newer_eq_true_iff]
  omega

variable {s : Store} {process : Int} {v w : Version}

theorem pairwise_versionsOf (s : Store) (process : Int) :
    (s.versionsOf process).Pairwise fun v w => newer v w = true :=
  Ordered.pairwise_sortBy newer_total newer_trans _

/-! ### The head of the listing -/

theorem latest?_eq_head? (s : Store) (process : Int) :
    s.latest? process = (s.versionsOf process).head? := by
  have hlater : later = fun v w => !newer w v := funext₂ later_eq
  unfold latest? versionsOf
  rw [Ordered.head?_sortBy, hlater]

/-- A version of a process that comes before all its versions: none was created later, and none of
those from the same moment has a greater id. -/
structure Newest (s : Store) (process : Int) (v : Version) : Prop where
  stored : v ∈ s.versions
  owner : v.process = process
  greatest : ∀ w ∈ s.versions, w.process = process →
    w.created.micros < v.created.micros ∨ w.created.micros = v.created.micros ∧ w.id ≤ v.id

theorem Newest.unique (hs : s.Sound) (hv : s.Newest process v) (hw : s.Newest process w) :
    v = w := by
  have hvw : newer v w = true := newer_eq_true_iff.2 (hv.greatest w hw.stored hw.owner)
  have hwv : newer w v = true := newer_eq_true_iff.2 (hw.greatest v hv.stored hv.owner)
  exact hs.version_unique hv.stored hw.stored (newer_antisymm hvw hwv)

theorem newest_of_latest? (h : s.latest? process = some v) : s.Newest process v := by
  obtain ⟨hv, hprocess⟩ := mem_of_latest? h
  refine ⟨hv, hprocess, fun w hw hwp => newer_eq_true_iff.1 ?_⟩
  rw [latest?_eq_head?] at h
  obtain ⟨rest, hlist⟩ := List.head?_eq_some_iff.1 h
  have hsorted := pairwise_versionsOf s process
  have hmem : w ∈ s.versionsOf process := mem_versionsOf.2 ⟨hw, hwp⟩
  rw [hlist] at hsorted hmem
  rcases List.mem_cons.1 hmem with rfl | hmem
  · exact (newer_total w w).elim id id
  · exact (List.pairwise_cons.1 hsorted).1 w hmem

theorem latest?_eq_none_iff : s.latest? process = none ↔ ∀ v ∈ s.versions, v.process ≠ process := by
  rw [latest?_eq_head?, List.head?_eq_none_iff, List.eq_nil_iff_forall_not_mem]
  simp only [mem_versionsOf, not_and, ne_eq]

theorem Sound.latest?_eq_some_iff (hs : s.Sound) :
    s.latest? process = some v ↔ s.Newest process v := by
  refine ⟨newest_of_latest?, fun hv => ?_⟩
  cases hlatest : s.latest? process with
  | none => exact absurd hv.owner (latest?_eq_none_iff.1 hlatest v hv.stored)
  | some w => rw [(newest_of_latest? hlatest).unique hs hv]

end Editorial.Store
