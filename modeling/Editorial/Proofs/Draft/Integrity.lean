import Editorial.Proofs.Reachable

/-!
# Integrity of drafts

Whatever has been done, a draft refers to rows that exist and fit together
(`drafts_fit_definitions`): its version belongs to a process of its team, its step and the slots of
its seats belong to that version and to no other one, and no slot has two seats. Seats are rows of
their own in the database; `Store.seatRows` lists them.
-/

namespace Editorial

namespace Store

/-- The rows of seats, each with the module of its draft. -/
def seatRows (s : Store) : List (String × Seat) :=
  s.drafts.flatMap fun d => d.seats.map fun seat => (d.module, seat)

variable {s : Store}

theorem mem_seatRows {row : String × Seat} :
    row ∈ s.seatRows ↔ ∃ d ∈ s.drafts, d.module = row.1 ∧ row.2 ∈ d.seats := by
  unfold seatRows
  rw [List.mem_flatMap]
  refine exists_congr fun d => and_congr_right fun _ => ?_
  rw [List.mem_map]
  constructor
  · rintro ⟨seat, hseat, rfl⟩
    exact ⟨rfl, hseat⟩
  · rintro ⟨hmodule, hseat⟩
    exact ⟨row.2, hseat, Prod.ext hmodule rfl⟩

namespace Sound

/-- The slots of a version are found by id alone. -/
theorem slot?_eq_some (h : s.Sound) {v : Version} {slot : Slot} (hv : v ∈ s.versions)
    (hslot : slot ∈ v.slots) : s.slot? slot.id = some slot := by
  unfold slot? Version.slot?
  simpa only [Option.map_id'] using findSome?_find?_owner h.slot_ids hv hslot fun _ found => found

/-- The steps of a version are found by id alone, together with the version. -/
theorem step?_eq_some (h : s.Sound) {v : Version} {step : Step} (hv : v ∈ s.versions)
    (hstep : step ∈ v.steps) : s.step? step.id = some (v, step) :=
  findSome?_find?_owner h.step_ids hv hstep Prod.mk

/-- A module and a slot have one seat at most. -/
theorem nodup_seatRows (h : s.Sound) :
    (s.seatRows.map fun row => (row.1, row.2.slot)).Nodup := by
  unfold seatRows
  rw [List.map_flatMap, List.nodup_flatMap]
  constructor
  · intro d hd
    refine List.Nodup.of_map Prod.snd ?_
    rw [List.map_map, List.map_map]
    exact (h.seats_ordered d hd).nodup
  · refine (List.pairwise_map.1 h.draft_modules).imp fun {d d'} hne row hrow hrow' => hne ?_
    simp only [List.map_map, List.mem_map, Function.comp_apply] at hrow hrow'
    obtain ⟨seat, -, rfl⟩ := hrow
    obtain ⟨seat', -, hrow'⟩ := hrow'
    exact (congrArg Prod.fst hrow').symm

end Sound

end Store

/-- The version of a draft is stored and belongs to a process of the team of the draft; its step and
the slots of its seats are found under their ids and belong to that version; no slot has two seats.
Every row of a seat belongs to the draft that is found for its module. -/
theorem drafts_fit_definitions {s : Store} (h : Reachable s) :
    (∀ d ∈ s.drafts,
      (∃ v p step, s.version? d.version = some v ∧ s.process? v.process = some p ∧
        p.team = d.team ∧ s.step? d.step = some (v, step) ∧
        ∀ seat ∈ d.seats, ∃ slot ∈ v.slots, s.slot? seat.slot = some slot) ∧
      (d.seats.map Seat.slot).Nodup) ∧
    (∀ row ∈ s.seatRows, ∃ d, s.draft? row.1 = some d ∧ row.2 ∈ d.seats) ∧
    (s.seatRows.map fun row => (row.1, row.2.slot)).Nodup := by
  have hs := h.sound
  refine ⟨fun d hd => ⟨?_, (hs.seats_ordered d hd).nodup⟩, fun row hrow => ?_, hs.nodup_seatRows⟩
  · obtain ⟨v, hv, hid, hcarries, p, hp, hpv, hteam⟩ := hs.grounds d hd
    obtain ⟨step, hstep, hstepid⟩ := List.mem_map.1 hcarries.step
    refine ⟨v, p, step, hs.version?_eq_some_iff.2 ⟨hv, hid⟩,
      hs.process?_eq_some_iff.2 ⟨hp, hpv⟩, hteam, ?_, fun seat hseat => ?_⟩
    · rw [← hstepid]
      exact hs.step?_eq_some hv hstep
    · obtain ⟨slot, hslot, hslotid⟩ := List.mem_map.1 (hcarries.seats seat hseat)
      refine ⟨slot, hslot, ?_⟩
      rw [← hslotid]
      exact hs.slot?_eq_some hv hslot
  · obtain ⟨d, hd, hmodule, hseat⟩ := Store.mem_seatRows.1 hrow
    exact ⟨d, hs.draft?_eq_some_iff.2 ⟨hd, hmodule⟩, hseat⟩

/-- In the review, the seat of the author belongs to the draft of the module. -/
theorem author_seat_of_review :
    Reachable Review.store ∧ Review.store.seatRows = [("m", ⟨1, 4⟩)] ∧
      ∃ d, Review.store.draft? "m" = some d ∧ ⟨1, 4⟩ ∈ d.seats ∧ (d.seats.map Seat.slot).Nodup := by
  obtain ⟨hdrafts, hrows, -⟩ := drafts_fit_definitions Review.reachable
  have hseats : Review.store.seatRows = [("m", ⟨1, 4⟩)] := by decide +kernel
  obtain ⟨d, hd, hseat⟩ := hrows ("m", ⟨1, 4⟩) (by rw [hseats]; exact List.mem_singleton_self _)
  exact ⟨Review.reachable, hseats, d, hd, hseat, (hdrafts d (List.mem_of_find?_eq_some hd)).2⟩

end Editorial
