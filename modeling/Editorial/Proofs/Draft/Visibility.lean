import Editorial.Draft.Seating
import Editorial.Draft.View
import Editorial.Proofs.Ordered
import Editorial.Proofs.Store.Sound

/-!
# What a user sees of the drafts

Two stores are alike for a user (`Store.AlikeFor`) if they differ in nothing but drafts that the
user may read in neither of them, and in what nobody is shown. What a user is shown of process
definitions and of a draft at hand depends on no other draft (`Store.AlikeFor.congr`). The listings
select the drafts that the user may read, and an order that tells all drafts apart leaves only one
way to list them (`Draft.listing_unique`), so that both stores give the same listings
(`Store.AlikeFor.draftsFor`, `Store.AlikeFor.freeSlots`).
-/

namespace Editorial

open Ordered

/-! ### The order of a listing -/

namespace Draft

/-- The order in which drafts are listed: by age, drafts of one age by module. -/
def listedBefore : Draft → Draft → Bool :=
  leFirst (fun d => d.created.micros) fun a b => !(b.module < a.module : Bool)

theorem not_module_lt_iff {a b : Draft} :
    (!(b.module < a.module : Bool)) = true ↔ a.module ≤ b.module := by
  rw [Bool.not_eq_true', decide_eq_false_iff_not, String.not_lt]

theorem listedBefore_total (a b : Draft) :
    listedBefore a b = true ∨ listedBefore b a = true := by
  apply leFirst_total
  intro a b
  rw [not_module_lt_iff, not_module_lt_iff]
  exact String.le_total a.module b.module

theorem listedBefore_trans (a b c : Draft) :
    listedBefore a b = true → listedBefore b c = true → listedBefore a c = true := by
  apply leFirst_trans
  intro a b c
  rw [not_module_lt_iff, not_module_lt_iff, not_module_lt_iff]
  exact String.le_trans

theorem module_eq_of_listedBefore {a b : Draft} (hab : listedBefore a b = true)
    (hba : listedBefore b a = true) : a.module = b.module := by
  unfold listedBefore at hab hba
  rw [leFirst_eq_true_iff, not_module_lt_iff] at hab hba
  rcases hab with hlt | ⟨heq, hle⟩
  · omega
  · rcases hba with hlt | ⟨-, hge⟩
    · omega
    · exact String.le_antisymm hle hge

/-- Drafts of different modules can be listed in one way only. -/
theorem listing_unique {ds es : List Draft} (hds : (ds.map Draft.module).Nodup)
    (hes : (es.map Draft.module).Nodup)
    (hds' : ds.Pairwise fun a b => listedBefore a b = true)
    (hes' : es.Pairwise fun a b => listedBefore a b = true) (h : ∀ d, d ∈ ds ↔ d ∈ es) :
    ds = es := by
  refine List.Perm.eq_of_pairwise (fun a b ha hb hab hba => ?_) hds' hes' ?_
  · exact List.inj_on_of_nodup_map hes ((h a).1 ha) hb (module_eq_of_listedBefore hab hba)
  · exact (List.perm_ext_iff_of_nodup hds.of_map hes.of_map).2 h

end Draft

namespace Store

variable {s t : Store} {user : Int} {d : Draft}

theorem draftsOfTeams_eq (s : Store) (user : Int) :
    s.draftsOfTeams user =
      sortBy Draft.listedBefore (s.drafts.filter fun d => (s.teamsOf user).contains d.team) := by
  unfold draftsOfTeams
  congr 1
  funext a b
  have hage : (a.created == b.created) = (a.created.micros == b.created.micros) := by
    rw [Bool.eq_iff_iff, beq_iff_eq, beq_iff_eq, Instant.mk.injEq]
  simp only [Draft.listedBefore, leFirst, Instant.before, hage]

theorem mem_draftsOfTeams : d ∈ s.draftsOfTeams user ↔ d ∈ s.drafts ∧ d.team ∈ s.teamsOf user := by
  rw [draftsOfTeams_eq, mem_sortBy, List.mem_filter, List.contains_iff_mem]

/-! ### Reading -/

/-- Whether a user may read a draft, as a manager or not. -/
def mayRead (s : Store) (user : Int) (d : Draft) : Bool :=
  s.canAccess d user (s.isManager d user)

/-- The drafts of a user's teams that the user may read, in the order in which they are listed. -/
def readable (s : Store) (user : Int) : List Draft :=
  (s.draftsOfTeams user).filter (s.mayRead user)

theorem mem_readable :
    d ∈ s.readable user ↔ (d ∈ s.drafts ∧ s.mayRead user d = true) ∧ d.team ∈ s.teamsOf user := by
  rw [readable, List.mem_filter, mem_draftsOfTeams, and_right_comm]

theorem Sound.nodup_readable (h : s.Sound) (user : Int) :
    ((s.readable user).map Draft.module).Nodup := by
  have hlisted : ((s.draftsOfTeams user).map Draft.module).Nodup := by
    rw [draftsOfTeams_eq, ((sortBy_perm _ _).map _).nodup_iff]
    exact h.draft_modules.sublist (List.filter_sublist.map _)
  exact hlisted.sublist (List.filter_sublist.map _)

theorem pairwise_readable (s : Store) (user : Int) :
    (s.readable user).Pairwise fun a b => Draft.listedBefore a b = true := by
  rw [readable, draftsOfTeams_eq]
  exact (pairwise_sortBy Draft.listedBefore_total Draft.listedBefore_trans _).filter _

/-- Who may not read a draft can take none of its slots. -/
theorem freeSlots_eq_nil (h : s.mayRead user d = false) : s.freeSlots d user = [] := by
  simp only [mayRead, canAccess, Bool.or_eq_false_iff, Bool.not_eq_false', List.isEmpty_iff] at h
  exact h.2

/-- The slots that a user could take are slots of drafts that the user may read. -/
theorem freeSlots_eq_of_readable (s : Store) (user : Int) :
    Drafting.freeSlots s user = do
      requireStorable user
      return (s.readable user).flatMap fun d => (s.freeSlots d user).map fun slot => (d, slot) := by
  unfold Drafting.freeSlots readable
  congr 2
  funext _
  congr 1
  induction s.draftsOfTeams user with
  | nil => rfl
  | cons d rest ih =>
      rw [List.flatMap_cons, ih]
      cases hread : s.mayRead user d with
      | true => rw [List.filter_cons_of_pos hread, List.flatMap_cons]
      | false =>
          rw [List.filter_cons_of_neg (by simp [hread]), freeSlots_eq_nil hread]
          rfl

/-! ### Stores that are alike for a user -/

/-- A module has the same draft in two stores, or in each a draft of the same team that a user may
read in neither. -/
inductive SameDraft (s t : Store) (user : Int) (module : String) : Prop where
  | shown (same : t.draft? module = s.draft? module)
  | hidden {d e : Draft} (left : s.draft? module = some d) (right : t.draft? module = some e)
      (team : e.team = d.team) (unread : s.mayRead user d = false)
      (unread' : t.mayRead user e = false)

/-- Two stores differ in nothing but drafts that a user may read in neither of them, and in what
nobody is shown: runs, documents and events. -/
structure AlikeFor (s t : Store) (user : Int) : Prop where
  processes : t.processes = s.processes
  versions : t.versions = s.versions
  modules : t.modules = s.modules
  members : t.members = s.members
  drafts : ∀ module, SameDraft s t user module

namespace AlikeFor

theorem symm (h : AlikeFor s t user) : AlikeFor t s user where
  processes := h.processes.symm
  versions := h.versions.symm
  modules := h.modules.symm
  members := h.members.symm
  drafts := fun module => by
    cases h.drafts module with
    | shown same => exact .shown same.symm
    | hidden left right team unread unread' => exact .hidden right left team.symm unread' unread

theorem exists_eq (h : AlikeFor s t user) :
    ∃ drafts runs documents events, t = { s with drafts, runs, documents, events } := by
  obtain ⟨hprocesses, hversions, hmodules, hmembers, -⟩ := h
  refine ⟨t.drafts, t.runs, t.documents, t.events, ?_⟩
  rw [← hprocesses, ← hversions, ← hmodules, ← hmembers]

/-- What looks into neither drafts nor what nobody is shown gives the same in both stores. -/
theorem congr {β : Type} (h : AlikeFor s t user) {f : Store → β}
    (hf : ∀ drafts runs documents events, f { s with drafts, runs, documents, events } = f s) :
    f t = f s := by
  obtain ⟨_, _, _, _, rfl⟩ := h.exists_eq
  exact hf ..

theorem mayRead (h : AlikeFor s t user) (d : Draft) : t.mayRead user d = s.mayRead user d :=
  h.congr (f := fun s => s.mayRead user d) fun _ _ _ _ => rfl

theorem freeSlotsOf (h : AlikeFor s t user) (d : Draft) : t.freeSlots d user = s.freeSlots d user :=
  h.congr (f := fun s => s.freeSlots d user) fun _ _ _ _ => rfl

theorem projection (h : AlikeFor s t user) (d : Draft) :
    t.projection d user = s.projection d user :=
  h.congr (f := fun s => s.projection d user) fun _ _ _ _ => rfl

theorem processStatus (h : AlikeFor s t user) (d : Draft) :
    t.processStatus d = s.processStatus d :=
  h.congr (f := fun s => s.processStatus d) fun _ _ _ _ => rfl

theorem version? (h : AlikeFor s t user) (id : Int) : t.version? id = s.version? id :=
  h.congr (f := fun s => s.version? id) fun _ _ _ _ => rfl

theorem teamsOf (h : AlikeFor s t user) : t.teamsOf user = s.teamsOf user :=
  h.congr (f := fun s => s.teamsOf user) fun _ _ _ _ => rfl

/-- A draft that the user may read in one of the stores is stored in the other one, too. -/
theorem mem_of_mem (h : AlikeFor s t user) (hs : s.Sound) (ht : t.Sound) (hd : d ∈ s.drafts)
    (hread : s.mayRead user d = true) : d ∈ t.drafts := by
  have hfound := hs.draft?_eq_some_iff.2 ⟨hd, rfl⟩
  cases h.drafts d.module with
  | shown same => exact (ht.draft?_eq_some_iff.1 (same.trans hfound)).1
  | hidden left _ _ unread _ =>
      obtain rfl := Option.some.inj (hfound.symm.trans left)
      rw [hread] at unread
      cases unread

theorem mem_readable_iff (h : AlikeFor s t user) (hs : s.Sound) (ht : t.Sound) (d : Draft) :
    d ∈ t.readable user ↔ d ∈ s.readable user := by
  rw [mem_readable, mem_readable, h.teamsOf, h.mayRead]
  refine and_congr_left fun _ => and_congr_left fun hread => ⟨fun hd => ?_, fun hd => ?_⟩
  · exact h.symm.mem_of_mem ht hs hd ((h.mayRead d).trans hread)
  · exact h.mem_of_mem hs ht hd hread

/-- In both stores the user may read the same drafts, and they are listed in the same order. -/
theorem readable (h : AlikeFor s t user) (hs : s.Sound) (ht : t.Sound) :
    t.readable user = s.readable user :=
  Draft.listing_unique (ht.nodup_readable user) (hs.nodup_readable user)
    (t.pairwise_readable user) (s.pairwise_readable user) (h.mem_readable_iff hs ht)

theorem draftsFor (h : AlikeFor s t user) (hs : s.Sound) (ht : t.Sound) :
    t.draftsFor user = s.draftsFor user := by
  change (do requireStorable user; return t.readable user) =
    (do requireStorable user; return s.readable user)
  rw [h.readable hs ht]

theorem freeSlots (h : AlikeFor s t user) (hs : s.Sound) (ht : t.Sound) :
    Drafting.freeSlots t user = Drafting.freeSlots s user := by
  rw [freeSlots_eq_of_readable, freeSlots_eq_of_readable, h.readable hs ht]
  simp only [h.freeSlotsOf]

end AlikeFor

end Store

end Editorial
