import Editorial.Proofs.Process.Positions

/-!
# Trees of versions

The tree of a version shows a description by position, with ids added to its slots and steps
(`Description.treeWith`). A tree says what the description says (`Description.reads_treeWith`), so
it can be given back to the validation, and to an operation that creates a version. What a new
version shows is the description that it was created from, with its grants and links in order
(`Creation.shows`); to create a version from that tree changes nothing but ids
(`creation_round_trip`).
-/

namespace Editorial

open Json Ordered Text

/-! ### Trees -/

/-- A slot as a tree shows it. -/
def SlotSpec.tree (id : Int) (s : SlotSpec) : Json :=
  object [("id", int id), ("name", text s.name), ("roles", ofInts s.roles),
    ("autofill", bool s.autofill)]

/-- A step as a tree shows it. -/
def StepSpec.tree (id : Int) (s : StepSpec) : Json :=
  object [
    ("id", int id),
    ("name", text s.name),
    ("slots", array <| s.grants.map fun g =>
      object [("slot", int g.slot), ("permission", text g.permission.text)]),
    ("links", array <| s.links.map fun l =>
      object [("name", text l.name), ("to", int l.target), ("slot", int l.slot)])]

/-- A description as a tree with these ids of slots and steps. -/
def Description.treeWith (d : Description) (slots steps : List Int) : Json :=
  object [
    ("name", text d.name),
    ("start", int d.start),
    ("slots", array (List.zipWith SlotSpec.tree slots d.slots)),
    ("steps", array (List.zipWith StepSpec.tree steps d.steps))]

/-- The tree of a version is that of its description with the ids of its slots and steps. -/
theorem Version.tree_eq_treeWith (v : Version) (name : String) :
    v.tree name = (v.description name).treeWith (v.slots.map Slot.id) (v.steps.map Step.id) := by
  have hzip {α : Type} (f : α → Int) (g : α → Json) (l : List α) {β : Type} (spec : α → β)
      (present : Int → β → Json) (h : ∀ a, g a = present (f a) (spec a)) :
      l.map g = List.zipWith present (l.map f) (l.map spec) := by
    rw [List.zipWith_map, List.zipWith_self]
    exact List.map_congr_left fun a _ => h a
  unfold tree Description.treeWith description
  dsimp only
  rw [hzip Slot.id (fun s => object s.fields) v.slots
      (fun s => (⟨s.name, s.roles, s.autofill⟩ : SlotSpec)) SlotSpec.tree fun _ => rfl,
    hzip Step.id v.stepTree v.steps v.stepSpec StepSpec.tree fun _ => rfl]

/-! ### What a tree says -/

theorem forall₂_zipWith {α β γ : Type} {R : γ → β → Prop} {f : α → β → γ} {as : List α}
    {bs : List β} (hlength : as.length = bs.length) (h : ∀ b ∈ bs, ∀ a, R (f a b) b) :
    List.Forall₂ R (List.zipWith f as bs) bs := by
  induction bs generalizing as with
  | nil => simp
  | cons b bs ih =>
      obtain ⟨a, as, rfl⟩ := List.exists_cons_of_length_eq_add_one hlength
      rw [List.forall_mem_cons] at h
      exact .cons (h.1 a) (ih (Nat.succ.inj hlength) h.2)

theorem forall₂_map_left {α β : Type} {R : β → α → Prop} {f : α → β} {as : List α}
    (h : ∀ a ∈ as, R (f a) a) : List.Forall₂ R (as.map f) as :=
  List.forall₂_map_left_iff.2 (List.forall₂_same.2 h)

theorem SlotSpec.reads_tree {s : SlotSpec} (hname : s.name.StripsTo s.name)
    (hroles : s.roles.Pairwise (· < ·)) (id : Int) : Reads (s.tree id) s := by
  have hmem (r : Int) : r ∈ s.roles ↔ int r ∈ s.roles.map int := by simp
  exact .mk ⟨s.name, rfl, hname⟩ (Or.inl rfl) (forall_int_iff.2 ⟨s.roles, rfl⟩) hmem hroles
    (Or.inl rfl)

theorem StepSpec.reads_tree {s : StepSpec} (hname : s.name.StripsTo s.name)
    (hgrants : s.grants.Nodup) (hlinks : ∀ l ∈ s.links, l.name.StripsTo l.name) (id : Int) :
    Reads (s.tree id) s := by
  refine .mk ⟨s.name, rfl, hname⟩ (Or.inl rfl) (forall₂_map_left fun g _ => .mk rfl rfl)
    (eraseDups_eq_self hgrants).symm (Or.inl rfl)
    (forall₂_map_left fun l hl => .mk ⟨l.name, rfl, hlinks l hl⟩ rfl rfl)

/-- A tree says what the description says, whatever its ids. -/
theorem Description.reads_treeWith {d : Description} (h : d.Clean) {slots steps : List Int}
    (hslots : slots.length = d.slots.length) (hsteps : steps.length = d.steps.length) :
    Reads (d.treeWith slots steps) d := by
  refine .mk ⟨d.name, rfl, h.name⟩ rfl (Or.inl rfl)
    (forall₂_zipWith hslots fun s hs id =>
      SlotSpec.reads_tree (h.slot_names s hs) (h.roles s hs) id)
    rfl ?_
    (forall₂_zipWith hsteps fun s hs id =>
      StepSpec.reads_tree (h.step_names s hs) (h.grants s hs) (h.link_names s hs) id)
  intro hnil
  refine h.some_step (List.length_eq_zero_iff.1 ?_)
  have := congrArg List.length hnil
  rw [List.length_zipWith, hsteps, Nat.min_self] at this
  exact this

/-! ### New versions -/

/-- An operation that creates a version from a value: together with its process, or of a process
that is stored. -/
inductive Creation (c : Conditions) (s : Store) (raw : Json) : Outcome Version → Prop where
  | process (team : Int) : Creation c s raw (Definitions.createProcess c s team raw)
  | version {p : Process} (found : s.process? p.id = some p) :
      Creation c s raw (Definitions.createVersion c s p raw)

namespace Store

theorem process?_setName {s : Store} {p : Process} (hp : s.process? p.id = some p)
    (name : String) : (Definitions.setName s p.id name).process? p.id = some { p with name } := by
  have hupdate := find?_key_update Process.id (f := fun q => { q with name }) (fun _ => rfl) p.id
    s.processes
  exact hupdate.trans (congrArg (Option.map _) hp)

theorem process?_addProcess (s : Store) {p : Process}
    (hp : p.id = nextId (s.processes.map Process.id)) :
    ({ s with processes := s.processes ++ [p] } : Store).process? p.id = some p := by
  have hnone : (s.processes.find? fun q => q.id == p.id) = none := by
    rw [find?_key_eq_none_iff Process.id, hp]
    exact nextId_notMem _
  unfold process?
  rw [List.find?_append, hnone]
  simp

theorem version?_addVersion (s : Store) (now : Instant) (process : Int) (d : Description) :
    (Definitions.addVersion s now process d).1.version?
        (Definitions.addVersion s now process d).2.id =
      some (Definitions.addVersion s now process d).2 := by
  unfold Definitions.addVersion version?
  dsimp only
  have hnone : (s.versions.find? fun v => v.id == nextId (s.versions.map Version.id)) = none := by
    rw [find?_key_eq_none_iff Version.id]
    exact nextId_notMem _
  rw [List.find?_append]
  change Option.or (s.versions.find? fun v => v.id == nextId (s.versions.map Version.id)) _ = _
  rw [hnone]
  simp

end Store

/-- A stored version shows a description: its tree is that of the description, and the ids of its
slots and of its steps ascend. -/
structure Version.Shows (v : Version) (s : Store) (d : Description) : Prop where
  stored : s.version? v.id = some v
  slot_count : v.slots.length = d.slots.length
  step_count : v.steps.length = d.steps.length
  slot_ids : (v.slots.map Slot.id).Pairwise (· < ·)
  step_ids : (v.steps.map Step.id).Pairwise (· < ·)
  tree : s.tree v = d.treeWith (v.slots.map Slot.id) (v.steps.map Step.id)

namespace Creation

variable {c : Conditions} {s : Store} {raw : Json} {d : Description} {o : Outcome Version}
  {v : Version}

/-- A new version is numbered from the description, and its process has the name that the
description gives. -/
theorem exists_addVersion (ho : Creation c s raw o) (hvalid : Description.validate raw = .ok d)
    (hv : o.result = .ok v) :
    d.hasTornPart = false ∧ ∃ t process p, t.process? process = some p ∧ d.name = p.name ∧
      o.store = (Definitions.addVersion t c.now process d).1 ∧
      v = (Definitions.addVersion t c.now process d).2 := by
  cases ho with
  | process team =>
      rcases Definitions.createProcess_cases c s team raw with ⟨f, hf⟩ |
        ⟨d', t, v', name, hvalid', hname, -, -, -, hwhole, -, ht, ho⟩
      · rw [hf] at hv
        cases hv
      · obtain rfl := Except.ok.inj (hvalid.symm.trans hvalid')
        rw [ho] at hv ⊢
        obtain rfl := Except.ok.inj hv
        exact ⟨hwhole, _, _, _, s.process?_addProcess rfl, hname, Prod.ext_iff.1 ht⟩
  | @version p found =>
      rcases Definitions.createVersion_cases c s p raw with ⟨f, hf⟩ |
        ⟨d', t, v', name, hvalid', hname, -, -, hwhole, -, ht, ho⟩
      · rw [hf] at hv
        cases hv
      · obtain rfl := Except.ok.inj (hvalid.symm.trans hvalid')
        rw [ho] at hv ⊢
        obtain rfl := Except.ok.inj hv
        exact ⟨hwhole, _, _, _, Store.process?_setName found name, hname, Prod.ext_iff.1 ht⟩

/-- A new version shows the description from which it was created, with its grants and links in
order. -/
theorem shows (ho : Creation c s raw o) (hvalid : Description.validate raw = .ok d)
    (hv : o.result = .ok v) : v.Shows o.store d.sorted := by
  obtain ⟨hread, hproper⟩ := Description.validate_eq_ok_iff_reads.1 hvalid
  obtain ⟨hwhole, t, process, p, hp, hname, hstore, hversion⟩ := ho.exists_addVersion hvalid hv
  have hnamed : (o.store.process? v.process).map Process.name = some p.name := by
    rw [hstore, hversion]
    exact congrArg (Option.map Process.name) hp
  have hslots : v.slots.map Slot.id = idsFrom t.firstIds.slot d.slots.length := by
    rw [hversion]
    exact map_id_numberSlots _ _
  have hsteps : v.steps.map Step.id = idsFrom t.firstIds.step d.steps.length := by
    rw [hversion]
    exact map_id_numberSteps _ _ _ _ _
  have hdescription : v.description p.name = d.sorted := by
    rw [hversion]
    exact Version.description_ofDescription hproper hwhole hname
  exact {
    stored := by
      rw [hstore, hversion]
      exact t.version?_addVersion c.now process d
    slot_count := by
      rw [hversion]
      exact Version.length_numberSlots _ _
    step_count := by
      rw [hversion, Description.length_steps_sorted]
      exact Version.length_numberSteps _ _ _ _ _
    slot_ids := hslots ▸ pairwise_idsFrom _ _
    step_ids := hsteps ▸ pairwise_idsFrom _ _
    tree := by
      unfold Store.tree
      rw [hnamed, Option.getD_some, Version.tree_eq_treeWith, hdescription] }

end Creation

/-! ### The round trip -/

/-- The tree of a version that shows a proper description is accepted as this description. -/
theorem Version.Shows.validate_tree {v : Version} {s : Store} {d : Description}
    (h : v.Shows s d) (hclean : d.Clean) (hproper : d.Proper) :
    Description.validate (s.tree v) = .ok d := by
  have hslots : (v.slots.map Slot.id).length = d.slots.length := by
    rw [List.length_map, h.slot_count]
  have hsteps : (v.steps.map Step.id).length = d.steps.length := by
    rw [List.length_map, h.step_count]
  rw [h.tree, Description.validate_eq_ok_iff_reads]
  exact ⟨Description.reads_treeWith hclean hslots hsteps, hproper⟩

/-- A version can be created from an accepted value without torn names when the process has the name
already, the moment has a date and the commit does not fail. -/
theorem Definitions.exists_createVersion {c : Conditions} {s : Store} {p : Process} {raw : Json}
    {d : Description} (hvalid : Description.validate raw = .ok d) (hname : d.name = p.name)
    (hwhole : d.hasTornPart = false) (hstamp : c.requireStamp = .ok ())
    (hcommit : c.commitError 0 = none) : ∃ v, (createVersion c s p raw).result = .ok v :=
  exists_createVersion_of_free hvalid hname (absurd rfl) hwhole hstamp hcommit

/-- A new version shows the description from which it was created, with its grants and links in
order, in which no two of them share a place. Its tree is accepted as that description. To create
another version from the tree is possible, unless its moment has no date or its commit fails, and
every version that is created from the tree, in whatever store, shows the same but for the ids. -/
theorem creation_round_trip {c : Conditions} {s : Store} {raw : Json} {d : Description}
    (hvalid : Description.validate raw = .ok d) {o : Outcome Version} (ho : Creation c s raw o)
    {v : Version} (hv : o.result = .ok v) :
    v.Shows o.store d.sorted ∧ (∀ step ∈ d.sorted.steps, step.InOrder) ∧
      Description.validate (o.store.tree v) = .ok d.sorted ∧
      (∀ c' p, o.store.process? v.process = some p → c'.requireStamp = .ok () →
        c'.commitError 0 = none →
        ∃ v', (Definitions.createVersion c' o.store p (o.store.tree v)).result = .ok v') ∧
      ∀ c' s' o' v', Creation c' s' (o.store.tree v) o' → o'.result = .ok v' →
        v'.Shows o'.store d.sorted := by
  obtain ⟨hread, hproper⟩ := Description.validate_eq_ok_iff_reads.1 hvalid
  have hshows := ho.shows hvalid hv
  have htree := hshows.validate_tree hread.clean.sorted hproper.sorted
  refine ⟨hshows, Description.inOrder_sorted hread.clean hproper, htree, ?_, ?_⟩
  · intro c' p hp hstamp hcommit
    obtain ⟨hwhole, t, process, p', hp', hname, hstore, hversion⟩ := ho.exists_addVersion hvalid hv
    have hsame : o.store.process? v.process = some p' := by
      rw [hstore, hversion]
      exact hp'
    obtain rfl := Option.some.inj (hsame.symm.trans hp)
    exact Definitions.exists_createVersion htree hname (Description.hasTornPart_sorted hwhole)
      hstamp hcommit
  · intro c' s' o' v' ho' hv'
    rw [← d.sorted_sorted]
    exact ho'.shows htree hv'

/-- A second version of the review, and a third one from the tree of the second, show the review. -/
theorem second_version_of_review :
    let o := Definitions.createVersion Review.conditions Review.store ⟨1, 1, "Review"⟩
      Review.description
    ∃ d v, Description.validate Review.description = .ok d ∧ o.result = .ok v ∧
      v.Shows o.store d.sorted ∧
      let o' := Definitions.createVersion Review.conditions o.store ⟨1, 1, "Review"⟩
        (o.store.tree v)
      ∃ v', o'.result = .ok v' ∧ v'.Shows o'.store d.sorted := by
  intro o
  obtain ⟨d, hvalid⟩ : ∃ d, Description.validate Review.description = .ok d :=
    exists_ok_of_toBool (by decide +kernel)
  obtain ⟨v, hv⟩ : ∃ v, o.result = .ok v := exists_ok_of_toBool (by decide +kernel)
  have hfound : (o.result.toOption.bind fun v => o.store.process? v.process) =
      some ⟨1, 1, "Review"⟩ := by decide +kernel
  rw [hv] at hfound
  have hid : o.store.process? 1 = some ⟨1, 1, "Review"⟩ := by decide +kernel
  have ho : Creation Review.conditions Review.store Review.description o :=
    .version (p := ⟨1, 1, "Review"⟩) (by decide +kernel)
  obtain ⟨hshows, -, -, hagain, hsame⟩ := creation_round_trip hvalid ho hv
  obtain ⟨v', hv'⟩ := hagain Review.conditions _ hfound rfl rfl
  exact ⟨d, v, hvalid, hv, hshows, v', hv', hsame _ _ _ v' (.version hid) hv'⟩

end Editorial
