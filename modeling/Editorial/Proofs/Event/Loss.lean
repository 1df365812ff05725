import Editorial.Draft.Direct
import Editorial.Proofs.Event.Delivery
import Editorial.Proofs.Run
import Mathlib.Data.List.Induction

/-!
# What a failed delivery costs

The announcements of a batch are delivered one after the other over one connection, and whether one
of them arrives is judged by what would become of it over a connection of its own
(`Announcement.arrivesAlone`). A delivery that fails costs only its own announcement, with one
exception: a recipient that the database cannot hold leaves the connection unusable, and the next
announcement that comes to a commit is lost as well. That one restores the connection whatever it
is, so in a row of such announcements every other one is lost to the connection
(`Delivery.spoiledRow`). `Delivery.deliverAll_eq_reached` gives the delivery of a batch in these
terms.
-/

namespace Editorial

open Ordered

/-! ### One announcement -/

namespace Announcement

/-- An announcement would be delivered over a connection of its own with the given commit next. -/
def arrivesAlone (c : Conditions) (s : Store) (commit : Nat) (a : Announcement) : Bool :=
  (Delivery.deliver c (.start s commit) a).delivered == 1

/-- An announcement would leave a connection of its own unusable. -/
def spoilsAlone (c : Conditions) (s : Store) (commit : Nat) (a : Announcement) : Bool :=
  (Delivery.deliver c (.start s commit) a).broken

end Announcement

namespace Delivery

/-! ### Announcements one after the other -/

/-- The number of commits that some announcements take. -/
def commitsOf (c : Conditions) (before : List Announcement) : Nat :=
  before.countP (Announcement.isTaken c)

/-- The number of announcements at the end of some, among those that come to a commit, each of which
would leave a connection of its own unusable. -/
def spoiledRow (c : Conditions) (s : Store) (before : List Announcement) : Nat :=
  ((before.filter (Announcement.isTaken c)).zipIdx.reverse.takeWhile fun p =>
    p.1.spoilsAlone c s p.2).length

/-- An announcement arrives behind others: it would do so on its own, and the connection is usable
when its turn comes. -/
def arrives (c : Conditions) (s : Store) (before : List Announcement) (a : Announcement) : Bool :=
  a.arrivesAlone c s (commitsOf c before) && spoiledRow c s before % 2 == 0

/-- The announcements of a batch that arrive, each behind those in front of it. -/
def arriving (c : Conditions) (s : Store) (batch : List Announcement) : List Announcement :=
  (batch.zipIdx.filter fun p => arrives c s (batch.take p.2) p.1).map Prod.fst

/-- The delivery of a batch once it is over. -/
def reached (c : Conditions) (s : Store) (batch : List Announcement) : Delivery :=
  { store := s.tell c.now ((arriving c s batch).flatMap Announcement.news)
    commits := commitsOf c batch, broken := spoiledRow c s batch % 2 == 1
    delivered := (arriving c s batch).length }

section Rows

variable {c : Conditions} {s : Store} {before : List Announcement} {a : Announcement}

theorem commitsOf_concat (c : Conditions) (before : List Announcement) (a : Announcement) :
    commitsOf c (before ++ [a]) = commitsOf c before + if a.isTaken c then 1 else 0 := by
  unfold commitsOf
  rw [List.countP_append, List.countP_singleton]

theorem spoiledRow_concat_of_not_taken (h : a.isTaken c = false) :
    spoiledRow c s (before ++ [a]) = spoiledRow c s before := by
  unfold spoiledRow
  rw [List.filter_append, List.filter_cons_of_neg (by simp [h]), List.filter_nil, List.append_nil]

theorem spoiledRow_concat_of_taken (h : a.isTaken c = true) :
    spoiledRow c s (before ++ [a]) =
      if a.spoilsAlone c s (commitsOf c before) then spoiledRow c s before + 1 else 0 := by
  unfold spoiledRow commitsOf
  rw [List.filter_append, List.filter_cons_of_pos h, List.filter_nil, List.zipIdx_append,
    List.reverse_append, List.countP_eq_length_filter]
  simp only [List.zipIdx_cons, List.zipIdx_nil, List.reverse_singleton, List.singleton_append,
    List.takeWhile_cons, Nat.zero_add]
  split <;> rfl

theorem arriving_concat (c : Conditions) (s : Store) (before : List Announcement)
    (a : Announcement) :
    arriving c s (before ++ [a]) =
      arriving c s before ++ if arrives c s before a then [a] else [] := by
  unfold arriving
  have hfront : before.zipIdx.filter (fun p => arrives c s ((before ++ [a]).take p.2) p.1) =
      before.zipIdx.filter fun p => arrives c s (before.take p.2) p.1 := by
    refine List.filter_congr fun p hp => ?_
    have hlt : p.2 < before.length := (List.mem_zipIdx' hp).1
    rw [List.take_append_of_le_length (Nat.le_of_lt hlt)]
  rw [List.zipIdx_append, List.filter_append, hfront, List.map_append]
  congr 1
  simp only [List.zipIdx_cons, List.zipIdx_nil, Nat.zero_add]
  by_cases h : arrives c s before a <;> simp [h]

/-- Where somebody would arrive but is lost, the last one in front that came to a commit has spoiled
the connection. -/
theorem exists_spoiler (halone : a.arrivesAlone c s (commitsOf c before) = true)
    (hlost : arrives c s before a = false) :
    ∃ earlier b skipped, before = earlier ++ b :: skipped ∧ b.isTaken c = true ∧
      b.spoilsAlone c s (commitsOf c earlier) = true ∧ ∀ x ∈ skipped, x.isTaken c = false := by
  have hrow : spoiledRow c s before % 2 ≠ 0 := by
    simpa [arrives, halone] using hlost
  clear halone hlost
  induction before using List.reverseRecOn with
  | nil => exact absurd rfl hrow
  | append_singleton before x ih =>
      cases hx : x.isTaken c with
      | false =>
          rw [spoiledRow_concat_of_not_taken hx] at hrow
          obtain ⟨earlier, b, skipped, rfl, hb, hspoils, hskipped⟩ := ih hrow
          refine ⟨earlier, b, skipped ++ [x], by simp, hb, hspoils, ?_⟩
          exact List.forall_mem_append.2 ⟨hskipped, List.forall_mem_singleton.2 hx⟩
      | true =>
          rw [spoiledRow_concat_of_taken hx] at hrow
          cases hspoils : x.spoilsAlone c s (commitsOf c before) with
          | true => exact ⟨before, x, [], rfl, hx, hspoils, nofun⟩
          | false => simp [hspoils] at hrow

end Rows

/-! ### The delivery of a batch -/

section Batch

variable {c : Conditions} {s : Store} {a : Announcement}

theorem arrivesAlone_of_not_taken (h : a.isTaken c = false) (commit : Nat) :
    a.arrivesAlone c s commit = false := by
  unfold Announcement.arrivesAlone
  rw [deliver_of_not_taken h]
  rfl

/-- An announcement that would leave a connection of its own unusable has a recipient that the
database cannot hold, and would not arrive. -/
theorem of_spoilsAlone (htaken : a.isTaken c = true) {commit : Nat}
    (h : a.spoilsAlone c s commit = true) :
    (∃ user ∈ a.recipients, isStorable user = false) ∧ a.arrivesAlone c s commit = false := by
  unfold Announcement.spoilsAlone at h
  unfold Announcement.arrivesAlone
  rw [deliver_of_taken htaken] at h ⊢
  split at h
  · cases h
  split at h
  · cases h
  split at h
  · cases h
  split at h
  · cases h
  · rename_i hempty hcommit hprepared hstorable
    refine ⟨by simpa using hstorable, ?_⟩
    rw [if_neg hempty, if_neg hcommit, if_neg hprepared, if_neg hstorable]
    rfl

/-- What becomes of an announcement with recipients that comes to a commit, by what would become of
it on its own. -/
theorem deliver_eq_alone (htaken : a.isTaken c = true) (hsome : a.recipients.isEmpty = false)
    (d : Delivery) :
    deliver c d a =
      if d.broken then { d with commits := d.commits + 1, broken := false }
      else if a.arrivesAlone c s d.commits then
        { d with
          commits := d.commits + 1, store := d.store.tell c.now a.news
          delivered := d.delivered + 1 }
      else { d with commits := d.commits + 1, broken := a.spoilsAlone c s d.commits } := by
  obtain ⟨store, commits, broken, delivered⟩ := d
  unfold Announcement.arrivesAlone Announcement.spoilsAlone
  rw [deliver_of_taken htaken, deliver_of_taken htaken, hsome]
  unfold Delivery.start
  cases broken with
  | true => simp
  | false =>
      cases hcommit : c.commitError commits with
      | some e => simp
      | none =>
          cases hprepared : (requirePrepared c a).toBool with
          | false => simp
          | true => cases hstorable : a.recipients.all isStorable <;> simp

/-- One announcement more: it arrives or not, and leaves the connection usable or not, as the number
of spoilers right in front of it says. -/
theorem deliver_reached {before : List Announcement} (hsome : a.recipients.isEmpty = false) :
    deliver c (reached c s before) a = reached c s (before ++ [a]) := by
  cases htaken : a.isTaken c with
  | false =>
      rw [deliver_of_not_taken htaken]
      unfold reached
      rw [arriving_concat, commitsOf_concat, spoiledRow_concat_of_not_taken htaken]
      simp [arrives, arrivesAlone_of_not_taken htaken, htaken]
  | true =>
      rw [deliver_eq_alone (s := s) htaken hsome]
      unfold reached
      rw [arriving_concat, commitsOf_concat, spoiledRow_concat_of_taken htaken]
      unfold arrives
      rcases Nat.mod_two_eq_zero_or_one (spoiledRow c s before) with hrow | hrow
      · cases harrives : a.arrivesAlone c s (commitsOf c before) with
        | true =>
            have hspoils : a.spoilsAlone c s (commitsOf c before) = false := by
              by_contra hspoils
              have hlost := (of_spoilsAlone htaken (Bool.of_not_eq_false hspoils)).2
              exact Bool.noConfusion (harrives.symm.trans hlost)
            simp [hrow, htaken, hspoils, Store.tell_append]
        | false =>
            cases hspoils : a.spoilsAlone c s (commitsOf c before) with
            | true =>
                have hodd : (spoiledRow c s before + 1) % 2 = 1 := by omega
                simp [hrow, htaken, hodd]
            | false => simp [hrow, htaken]
      -- Behind an odd number of spoilers the connection is restored, whatever comes.
      · have heven : (spoiledRow c s before + 1) % 2 = 0 := by omega
        cases hspoils : a.spoilsAlone c s (commitsOf c before) <;> simp [hrow, htaken, heven]

/-- The delivery of a batch. -/
theorem deliverAll_eq_reached (c : Conditions) (s : Store) {batch : List Announcement}
    (h : ∀ a ∈ batch, a.recipients.isEmpty = false) :
    deliverAll c (.start s 0) batch = reached c s batch := by
  induction batch using List.reverseRecOn with
  | nil => simp [deliverAll, start, reached, arriving, commitsOf, spoiledRow, Store.tell_nil]
  | append_singleton batch a ih =>
      obtain ⟨hbatch, ha⟩ := List.forall_mem_append.1 h
      have hlast : deliverAll c (.start s 0) (batch ++ [a]) =
          deliver c (deliverAll c (.start s 0) batch) a := List.foldl_concat _ _ _ _
      rw [hlast, ih hbatch, deliver_reached (ha a (List.mem_singleton_self a))]

end Batch

end Delivery

/-! ### A batch that no operation has made -/

namespace Drafting

theorem upToShapeless_front (pending : List Announcement) :
    (upToShapeless pending).1 <+: pending := by
  induction pending with
  | nil => exact List.prefix_refl _
  | cons a rest ih =>
      unfold upToShapeless
      split
      · exact List.prefix_cons_inj a |>.2 ih
      · exact List.prefix_append [a] rest

theorem upToShapeless_of_objects {pending : List Announcement}
    (h : ∀ a ∈ pending, ∃ fields, a.payload = .object fields) :
    upToShapeless pending = (pending, none) := by
  induction pending with
  | nil => rfl
  | cons a rest ih =>
      obtain ⟨ha, hrest⟩ := List.forall_mem_cons.1 h
      obtain ⟨fields, hfields⟩ := ha
      unfold upToShapeless
      rw [hfields, ih hrest]

/-- What becomes of a batch of announcements. Those with recipients are tried in turn, all of them
when every payload is an object; everyone whom an announcement that arrives is meant for is told
once, in ascending order, and nothing else is stored. What would arrive on its own does so too,
unless the last one in front of it that came to a commit has a recipient that the database cannot
hold. -/
theorem announceAll_outcome (c : Conditions) (s : Store) (events : List (Json × Json × List Int)) :
    let batch := events.map fun e => Announcement.ofUsers e.1 e.2.1 e.2.2
    let pending := batch.filter fun a => !a.recipients.isEmpty
    let tried := (upToShapeless pending).1
    let arriving := Delivery.arriving c s tried
    let o := announceAll c s batch
    (∀ e ∈ events, (Announcement.ofUsers e.1 e.2.1 e.2.2).recipients.Pairwise (· < ·) ∧
      ∀ user, user ∈ (Announcement.ofUsers e.1 e.2.1 e.2.2).recipients ↔ user ∈ e.2.2) ∧
    tried <+: pending ∧
    ((∀ a ∈ pending, ∃ fields, a.payload = .object fields) →
      tried = pending ∧ o.result = .ok (pending.map Announcement.kind)) ∧
    ((Delivery.start s 0).deliverAll c tried).commits = tried.countP (Announcement.isTaken c) ∧
    o.store = s.tell c.now (arriving.flatMap Announcement.news) ∧
    o.delivered = arriving.length ∧
    ∀ before a after, tried = before ++ a :: after →
      (Delivery.arrives c s before a = true →
        a.arrivesAlone c s (Delivery.commitsOf c before) = true) ∧
      (a.arrivesAlone c s (Delivery.commitsOf c before) = true →
        Delivery.arrives c s before a = true ∨
        ∃ earlier b skipped, before = earlier ++ b :: skipped ∧ b.isTaken c = true ∧
          (∃ user ∈ b.recipients, isStorable user = false) ∧
          ∀ x ∈ skipped, x.isTaken c = false) := by
  intro batch pending tried arriving o
  have hfront : tried <+: pending := upToShapeless_front pending
  have hsome : ∀ a ∈ tried, a.recipients.isEmpty = false := by
    intro a ha
    simpa using (List.mem_filter.1 (hfront.subset ha)).2
  have hdelivery := Delivery.deliverAll_eq_reached c s hsome
  refine ⟨fun e _ => ⟨pairwise_ascending _, fun _ => mem_ascending⟩, hfront, fun hobjects => ?_,
    ?_, ?_, ?_, fun before a after hsplit => ⟨fun harrives => ?_, fun halone => ?_⟩⟩
  · have hall : upToShapeless pending = (pending, none) := upToShapeless_of_objects hobjects
    refine ⟨congrArg Prod.fst hall, ?_⟩
    show (announceAll c s batch).result = _
    unfold announceAll
    dsimp only
    rw [hall]
  · exact congrArg Delivery.commits hdelivery
  · exact congrArg Delivery.store hdelivery
  · exact congrArg Delivery.delivered hdelivery
  · exact (Bool.and_eq_true_iff.1 harrives).1
  · cases harrives : Delivery.arrives c s before a with
    | true => exact Or.inl rfl
    | false =>
        obtain ⟨earlier, b, skipped, hbefore, hb, hspoils, hskipped⟩ :=
          Delivery.exists_spoiler halone harrives
        exact Or.inr ⟨earlier, b, skipped, hbefore, hb, (Delivery.of_spoilsAlone hb hspoils).1,
          hskipped⟩

/-- Behind an announcement to a user whom the database cannot hold, one that nothing is wrong with
is lost; on its own it arrives. -/
theorem lost_behind_oversized :
    let c := Review.conditions
    let told : Announcement := .ofUsers (.ofText "assigned") (.object [("module", .ofText "m")]) [1]
    let oversized : Announcement := .ofUsers (.ofText "assigned") (.object []) [storableLimit]
    told.arrivesAlone c .empty 1 = true ∧
      (announceAll c .empty [told]).store.events.length = 1 ∧
      (announceAll c .empty [oversized, told]).result.toBool = true ∧
      (announceAll c .empty [oversized, told]).delivered = 0 ∧
      (announceAll c .empty [oversized, told]).store.events.length = 0 := by
  decide +kernel

end Drafting

end Editorial
