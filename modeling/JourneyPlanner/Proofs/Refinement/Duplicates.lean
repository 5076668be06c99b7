import JourneyPlanner.Proofs.Itinerary.Text
import JourneyPlanner.Proofs.Refinement.Optimum

/-!
# Itineraries that read the same

Of refined itineraries that read the same only the first one is kept. The text tells the times, the
transfers and the cost of an itinerary, so for everything that is left out there is something left
with the same summary.

* `firstsBy`: the elements of a list that are the first ones with their key.
* `distinctBy_eq_filter`: those are kept.
* `RefinementScene.refineAll_eq_ok`: what is left of refined itineraries.
* `RefinementScene.refineAll_firsts`: for each of them one with the same summary is left.
-/

namespace JourneyPlanner

section

variable {α β : Type} [DecidableEq β] {key : α → β} {xs : List α} {x : α}

/-- The elements whose key is not that of an earlier one. -/
def firstsBy (key : α → β) (xs : List α) : List α :=
  (xs.zipIdx.filter fun (x, i) => ∀ earlier ∈ xs.take i, key earlier ≠ key x).map (·.1)

theorem firstsBy_sublist : (firstsBy key xs).Sublist xs := by
  have h := (List.filter_sublist (l := xs.zipIdx)
    (p := fun (x, i) => ∀ earlier ∈ xs.take i, key earlier ≠ key x)).map (·.1)
  rwa [List.zipIdx_map_fst] at h

/-- The first of some elements is kept, and after it the first ones with another key. -/
theorem firstsBy_cons : firstsBy key (x :: xs) =
    x :: (firstsBy key xs).filter fun y => key x ≠ key y := by
  rw [firstsBy, firstsBy, List.zipIdx_cons', List.filter_cons, if_pos (by simp), List.filter_map,
    List.map_cons, List.filter_map, List.map_map, List.filter_filter]
  refine congrArg (x :: List.map _ ·) (List.filter_congr ?_)
  rintro ⟨y, i⟩ -
  simp [List.take_succ_cons]

/-- For every element there is one with its key among the first ones. -/
theorem exists_mem_firstsBy (key : α → β) (h : x ∈ xs) :
    ∃ first ∈ firstsBy key xs, key first = key x := by
  induction xs with
  | nil => cases h
  | cons y ys ih =>
    rw [firstsBy_cons]
    by_cases hsame : key y = key x
    · exact ⟨y, List.mem_cons_self, hsame⟩
    · have hx : x ∈ ys := by
        rcases List.mem_cons.mp h with rfl | hx
        · exact absurd rfl hsame
        · exact hx
      obtain ⟨first, hfirst, hkey⟩ := ih hx
      refine ⟨first, List.mem_cons_of_mem _ (List.mem_filter.mpr ⟨hfirst, ?_⟩), hkey⟩
      simpa [hkey] using hsame

/-- Of elements whose texts tell their keys, the first ones are kept unless their texts are
known. -/
theorem distinctBy_eq_filter (key : α → β) {label : String → β}
    (hlabel : Function.Injective label) {labelled : List (α × String)}
    (hkey : ∀ pair ∈ labelled, key pair.1 = label pair.2)
    (known : List String) : distinctBy known labelled =
      (firstsBy key (labelled.map Prod.fst)).filter fun x => key x ∉ known.map label := by
  induction labelled generalizing known with
  | nil => rfl
  | cons pair rest ih =>
    obtain ⟨x, text⟩ := pair
    obtain ⟨hx, hrest⟩ := List.forall_mem_cons.mp hkey
    have hx : key x = label text := hx
    have hmem : key x ∈ known.map label ↔ text ∈ known := by
      rw [hx, List.mem_map_of_injective hlabel]
    rw [distinctBy, List.map_cons, firstsBy_cons, List.filter_cons, List.filter_filter]
    by_cases hknown : text ∈ known
    · rw [if_pos (List.contains_iff_mem.mpr hknown), ih hrest,
        if_neg (by simpa using hmem.mpr hknown)]
      apply List.filter_congr
      intro y _
      -- an element with the key of `x` is known, too
      by_cases hy : key x = key y
      · simp [hy ▸ hmem.mpr hknown]
      · simp [hy]
    · rw [if_neg (by simpa using hknown), ih hrest, if_pos (by simpa using mt hmem.mp hknown)]
      refine congrArg (x :: ·) (List.filter_congr fun y _ => ?_)
      rw [List.map_cons, ← hx]
      by_cases hy : key x = key y
      · simp [hy]
      · simp [hy, Ne.symm hy]

end

namespace RefinementScene

variable {c : RefinementScene} {deadline : Deadline} {its : List Itinerary}
  {refined results : List ScoredItinerary} {labelled : List (ScoredItinerary × String)}

/-- Itineraries with their texts. -/
theorem label_eq_ok
    (h : (refined.mapM fun scored => do return (scored, ← scored.itinerary.toText)) =
      (.ok labelled : Checked _)) :
    labelled.map Prod.fst = refined ∧
      ∀ pair ∈ labelled, pair.1.itinerary.toText = .ok pair.2 := by
  constructor
  · have hpairs : List.Forall₂ (· = ·) refined (labelled.map Prod.fst) := by
      refine List.forall₂_map_right_iff.mpr ((mapM_eq_ok_iff.mp h).imp fun scored pair hpair => ?_)
      obtain ⟨text, -, hpair⟩ := bind_eq_ok.mp hpair
      cases hpair
      rfl
    rw [List.forall₂_eq_eq_eq] at hpairs
    exact hpairs.symm
  · intro pair hpair
    obtain ⟨scored, -, hpair⟩ := exists_of_mem_mapM h hpair
    obtain ⟨text, htext, hpair⟩ := bind_eq_ok.mp hpair
    cases hpair
    exact htext

/-- Of itineraries that are all refined and that can all be read, the first ones with their text are
left. -/
theorem refineAll_eq_ok
    (hdeadline : ∀ place < its.length, deadline.spent (.itinerary place) = false) :
    c.refineAll deadline its = .ok results ↔ ∃ refined, its.mapM c.refine = .ok refined ∧
      (∀ scored ∈ refined, ∃ text, scored.itinerary.toText = .ok text) ∧
      results = firstsBy (fun scored => scored.itinerary.toText) refined := by
  rw [refineAll_of_lasting hdeadline, refineAll_unlimited, bind_eq_ok]
  refine exists_congr fun refined => and_congr_right fun _ => ?_
  -- no text is known before the first itinerary, so nothing is filtered out of the first ones
  have hfirsts : ∀ labelled,
      (refined.mapM fun scored => do return (scored, ← scored.itinerary.toText)) =
        (.ok labelled : Checked _) →
      distinctBy [] labelled = firstsBy (fun scored => scored.itinerary.toText) refined := by
    intro labelled h
    obtain ⟨hfst, htexts⟩ := label_eq_ok h
    rw [distinctBy_eq_filter (fun scored => scored.itinerary.toText)
      (fun _ _ => Except.ok.inj) htexts, hfst]
    exact List.filter_eq_self.mpr fun _ _ => rfl
  constructor
  · intro h
    obtain ⟨labelled, hlabelled, h⟩ := bind_eq_ok.mp h
    cases h
    constructor
    · intro scored hscored
      obtain ⟨pair, -, hpair⟩ := exists_mem_of_mapM hlabelled hscored
      obtain ⟨text, htext, -⟩ := bind_eq_ok.mp hpair
      exact ⟨text, htext⟩
    · exact hfirsts labelled hlabelled
  · rintro ⟨htexts, rfl⟩
    obtain ⟨labelled, hlabelled⟩ := exists_mapM_iff.mpr fun scored hscored => by
      obtain ⟨text, htext⟩ := htexts scored hscored
      exact ⟨(scored, text), bind_eq_ok.mpr ⟨text, htext, rfl⟩⟩
    exact bind_eq_ok.mpr ⟨labelled, hlabelled, congrArg _ (hfirsts labelled hlabelled)⟩

/-- Itineraries are refined together when each of them can be refined and read. What is left are the
first refined ones with their text, in their order, and for every itinerary there is one left that
starts and ends at the times of the refined itinerary, with as many transfers and at the same
cost. -/
theorem refineAll_firsts
    (hdeadline : ∀ place < its.length, deadline.spent (.itinerary place) = false) :
    ((∃ results, c.refineAll deadline its = .ok results) ↔
      ∀ it ∈ its, ∃ scored text, c.refine it = .ok scored ∧
        scored.itinerary.toText = .ok text) ∧
    ∀ results, c.refineAll deadline its = .ok results →
      ∃ refined, its.mapM c.refine = .ok refined ∧ results.Sublist refined ∧
        results = firstsBy (fun scored => scored.itinerary.toText) refined ∧
        ∀ it ∈ its, ∃ scored kept, c.refine it = .ok scored ∧ kept ∈ results ∧
          scored.itinerary.SameSummary kept.itinerary := by
  constructor
  · constructor
    · rintro ⟨results, h⟩ it hit
      obtain ⟨refined, hrefined, htexts, -⟩ := (refineAll_eq_ok hdeadline).mp h
      obtain ⟨scored, hscored, hrefine⟩ := exists_mem_of_mapM hrefined hit
      obtain ⟨text, htext⟩ := htexts scored hscored
      exact ⟨scored, text, hrefine, htext⟩
    · intro h
      obtain ⟨refined, hrefined⟩ := exists_mapM_iff.mpr fun it hit => by
        obtain ⟨scored, -, hrefine, -⟩ := h it hit
        exact ⟨scored, hrefine⟩
      have htexts : ∀ scored ∈ refined, ∃ text, scored.itinerary.toText = .ok text := by
        intro scored hscored
        obtain ⟨it, hit, hrefine⟩ := exists_of_mem_mapM hrefined hscored
        obtain ⟨scored', text, hrefine', htext⟩ := h it hit
        cases hrefine.symm.trans hrefine'
        exact ⟨text, htext⟩
      exact ⟨_, (refineAll_eq_ok hdeadline).mpr ⟨refined, hrefined, htexts, rfl⟩⟩
  · intro results h
    obtain ⟨refined, hrefined, htexts, rfl⟩ := (refineAll_eq_ok hdeadline).mp h
    refine ⟨refined, hrefined, firstsBy_sublist, rfl, fun it hit => ?_⟩
    obtain ⟨scored, hscored, hrefine⟩ := exists_mem_of_mapM hrefined hit
    obtain ⟨kept, hkept, hsame⟩ :=
      exists_mem_firstsBy (fun scored => scored.itinerary.toText) hscored
    obtain ⟨text, htext⟩ := htexts scored hscored
    exact ⟨scored, kept, hrefine, hkept,
      Itinerary.sameSummary_of_toText htext (hsame.trans htext)⟩

/-- A line through A, B and C and a line through B, C and D, whose trips are named like parts of a
text. -/
def namesakeLines : Draft :=
  { Draft.new Draft.defaultDate with
    routes := #[⟨"red", 0⟩, ⟨"blue", 0⟩]
    trips := #[
      ⟨"red ~ Walk 0s [", 0, Draft.defaultCalendar,
        [⟨"A", 36000, 36000, .boardAndAlight⟩, ⟨"B", 36600, 36600, .boardAndAlight⟩,
          ⟨"C", 37200, 37200, .boardAndAlight⟩]⟩,
      ⟨"10:00:00 Tx0 C0]", 1, Draft.defaultCalendar,
        [⟨"B", 36900, 36900, .boardAndAlight⟩, ⟨"C", 37500, 37500, .boardAndAlight⟩,
          ⟨"D", 38100, 38100, .boardAndAlight⟩]⟩] }

/-- From A to D with a change at B or at C, and from A to B. -/
def changingAtBOrC (net : Network) : Option (List Itinerary) := do
  let red ← net.trip? "red ~ Walk 0s ["
  let blue ← net.trip? "10:00:00 Tx0 C0]"
  let journeys : List (List Leg × Connector) := [
    ([.ride ⟨red, 0, 1, 0, 1, .regular⟩, .ride ⟨blue, 0, 2, 1, 3, .regular⟩], ⟨3, 0, 0, false⟩),
    ([.ride ⟨red, 0, 2, 0, 2, .regular⟩, .ride ⟨blue, 1, 2, 2, 3, .regular⟩], ⟨3, 0, 0, false⟩),
    ([.ride ⟨red, 0, 1, 0, 1, .regular⟩], ⟨1, 0, 0, false⟩)]
  (journeys.mapM fun (legs, egress) =>
    Itinerary.new ⟨0, 0, 0, false⟩ legs egress {} plainTariff 35000).toOption

/-- Both itineraries to D get the change at B, so the second one is left out. -/
theorem refineAll_firsts_namesakeLines : ∃ net its refined results,
    namesakeLines.build = .ok net ∧ changingAtBOrC net = some its ∧ its.length = 3 ∧
    (∀ place < its.length, Deadline.unlimited.spent (.itinerary place) = false) ∧
    (∀ it ∈ its, ∃ scored text, (withoutWaits net).refine it = .ok scored ∧
      scored.itinerary.toText = .ok text) ∧
    (withoutWaits net).refineAll .unlimited its = .ok results ∧
    results.map (·.itinerary.rides.length) = [2, 1] ∧
    its.mapM (withoutWaits net).refine = .ok refined ∧ results.Sublist refined ∧
    results = firstsBy (fun scored => scored.itinerary.toText) refined ∧
    ∀ it ∈ its, ∃ scored kept, (withoutWaits net).refine it = .ok scored ∧ kept ∈ results ∧
      scored.itinerary.SameSummary kept.itinerary := by
  have hbuilds : namesakeLines.builds (fun net => decide (∃ its ∈ changingAtBOrC net,
      its.length = 3 ∧ ((withoutWaits net).refineAll .unlimited its).map
        (·.map (·.itinerary.rides.length)) = .ok [2, 1])) = true := by
    decide +kernel
  obtain ⟨net, hbuild, hfacts⟩ := Draft.exists_of_builds hbuilds
  obtain ⟨its, hits, hlength, hfacts⟩ := of_decide_eq_true hfacts
  obtain ⟨results, hresults, hrides⟩ := map_eq_ok.mp hfacts
  have hdeadline : ∀ place < its.length, Deadline.unlimited.spent (.itinerary place) = false :=
    fun _ _ => rfl
  have hrefines := (refineAll_firsts hdeadline).1.mp ⟨results, hresults⟩
  obtain ⟨refined, hrefined, hsublist, hfirsts, hkept⟩ :=
    (refineAll_firsts hdeadline).2 results hresults
  exact ⟨net, its, refined, results, hbuild, hits, hlength, hdeadline, hrefines, hresults, hrides,
    hrefined, hsublist, hfirsts, hkept⟩

end RefinementScene

end JourneyPlanner
