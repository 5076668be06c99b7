import Mathlib.Data.List.Forall2
import JourneyPlanner.Proofs.Network.Timetable

/-!
# Insertion into timetables

A trip that is offered to a timetable is compared with its two neighbours only, found by halving one
column. That is enough: it is accepted when it is compatible with all trips of the timetable, and
then the columns at every position go on listing the times of the trips in order.

* `Timetable.offer`, `Timetable.offerAll`: a trip is accepted or given back.
* `Timetable.Sound.insert?_isSome_iff`: a trip is accepted if and only if the timetable admits it.
* `Timetable.Built`: the timetables that successful insertions make.
* `Timetable.offerAll_exact`: what holds after any sequence of offers.
-/

namespace JourneyPlanner

namespace Timetable

variable {t t' : Timetable} {trip : Trip} {length : Nat}

/-- The timetable after a trip has been offered, and the trip if it was given back. -/
def offer (t : Timetable) (trip : Trip) : Timetable × Option Trip :=
  match t.insert? trip with
  | some inserted => (inserted, none)
  | none => (t, some trip)

/-- The timetable after trips have been offered one after the other, and those that were given
back. -/
def offerAll (t : Timetable) : List Trip → Timetable × List Trip
  | [] => (t, [])
  | trip :: rest =>
    let (offered, back) := t.offer trip
    let (final, refused) := offered.offerAll rest
    (final, back.toList ++ refused)

/-- A timetable admits a trip: it is nowhere earlier than the trips whose first departure is at or
before its own, and nowhere later than those whose first departure is after its own. -/
def Admits (t : Timetable) (trip : Trip) : Prop :=
  ∀ other ∈ t.trips,
    (other.departures.getD 0 0 ≤ trip.departures.getD 0 0 → other.NeverAfter trip) ∧
      (trip.departures.getD 0 0 < other.departures.getD 0 0 → trip.NeverAfter other)

/-! ### Which trips are accepted -/

/-- Halving the first column finds the trips whose first departure is no later. -/
theorem Sound.lt_rank_iff (ht : t.Sound length) (hlength : 0 < length) (trip : Trip) {i : Nat}
    {other : Trip} (hi : t.trips[i]? = some other) :
    i < countLeading (t.departures.getD 0 #[]) (fun time => time ≤ trip.departures.getD 0 0) ↔
      other.departures.getD 0 0 ≤ trip.departures.getD 0 0 := by
  have hcolumn : t.departures.getD 0 #[] = t.trips.map fun other => other.departures.getD 0 0 := by
    rw [Array.getD_eq_getD_getElem?, ht.departures_column hlength, Option.getD_some]
  rw [hcolumn, lt_countLeading_iff (fun other => other.departures.getD 0 0) _
    (fun i j a b hij ha hb => (ht.neverAfter hij ha hb 0).1) (by grind) hi, decide_eq_true_eq]

/-- A trip is accepted if and only if the timetable admits it. -/
theorem Sound.insert?_isSome_iff (ht : t.Sound length) (hlength : 0 < length)
    (hfits : trip.Fits length) : (t.insert? trip).isSome = true ↔ t.Admits trip := by
  constructor
  · intro h other hother
    obtain ⟨t', h⟩ := Option.isSome_iff_exists.mp h
    obtain ⟨rank, hrank, -⟩ := Option.bind_eq_some_iff.mp h
    obtain ⟨i, hi⟩ := Array.mem_iff_getElem?.mp hother
    have hcount := ht.lt_rank_iff hlength trip hi
    have hapart := ht.apart hfits hrank hi
    simp only [insertionRank?, Option.ite_none_right_eq_some, Option.some.injEq] at hrank
    rw [hrank.2] at hcount
    exact ⟨fun hle => hapart.1 (hcount.mpr hle),
      fun hlt => hapart.2 (not_lt.mp (mt hcount.mp (not_le.mpr hlt)))⟩
  · intro hadmits
    have hcount := fun (i : Nat) (other : Trip) (hi : t.trips[i]? = some other) =>
      ht.lt_rank_iff hlength trip hi
    set rank := countLeading (t.departures.getD 0 #[]) fun time =>
      time ≤ trip.departures.getD 0 0 with hrank
    have hsome : t.insertionRank? trip = some rank := by
      refine insertionRank?_of_neighbours hrank.symm (fun previous hne hneighbour => ?_)
        fun next hneighbour => ?_
      · have hmem := Array.mem_of_getElem? hneighbour
        have hle := (hcount _ _ hneighbour).mp (by omega)
        exact (isAfter_iff hfits (ht.fits _ hmem)).mpr ((hadmits _ hmem).1 hle)
      · have hmem := Array.mem_of_getElem? hneighbour
        have hlt := not_le.mp (mt (hcount _ _ hneighbour).mpr (lt_irrefl rank))
        exact (isAfter_iff (ht.fits _ hmem) hfits).mpr ((hadmits _ hmem).2 hlt)
    rw [insert?, hsome]
    rfl

/-! ### Sequences of offers -/

theorem offer_of_some (h : t.insert? trip = some t') : t.offer trip = (t', none) := by
  rw [offer, h]

theorem offer_of_none (h : t.insert? trip = none) : t.offer trip = (t, some trip) := by
  rw [offer, h]

/-- The timetables that successful insertions of trips with `length` positions make, also when the
trips have been given their ranks. -/
inductive Built (length : Nat) : Timetable → Prop
  | empty (pattern : PatternId) : Built length (Timetable.empty pattern length)
  | insert {t t' : Timetable} {trip : Trip} (h : Built length t) (hfits : trip.Fits length)
      (hinsert : t.insert? trip = some t') : Built length t'
  | number {t : Timetable} (h : Built length t) (pattern : PatternId) :
      Built length (t.number pattern)

theorem Built.sound (h : Built length t) : t.Sound length := by
  induction h with
  | empty pattern => exact empty_sound pattern length
  | insert _ hfits hinsert ih => exact insert?_sound ih hfits hinsert
  | number _ pattern ih => exact ih.number pattern

/-- After an offer, the trips of the timetable and the trip given back are those there were. -/
theorem Built.offer (h : Built length t) (hfits : trip.Fits length) :
    Built length (t.offer trip).1 ∧
      ((t.offer trip).2.toList ++ (t.offer trip).1.trips.toList).Perm
        (trip :: t.trips.toList) := by
  cases hinsert : t.insert? trip with
  | none =>
    rw [offer_of_none hinsert]
    exact ⟨h, .refl _⟩
  | some t' =>
    rw [offer_of_some hinsert]
    exact ⟨h.insert hfits hinsert, insert?_perm h.sound hinsert⟩

/-- No trip that is offered is lost: each is in the timetable or given back. -/
theorem Built.offerAll (h : Built length t) {calls : List Trip}
    (hcalls : ∀ trip ∈ calls, trip.Fits length) :
    Built length (t.offerAll calls).1 ∧
      ((t.offerAll calls).2 ++ (t.offerAll calls).1.trips.toList).Perm
        (calls ++ t.trips.toList) := by
  induction calls generalizing t with
  | nil => exact ⟨h, .refl _⟩
  | cons trip rest ih =>
    obtain ⟨hbuilt, hperm⟩ := h.offer (hcalls trip List.mem_cons_self)
    obtain ⟨hall, hrest⟩ :=
      ih hbuilt fun other hother => hcalls other (List.mem_cons_of_mem _ hother)
    refine ⟨hall, ?_⟩
    have hback : ((t.offer trip).2.toList ++ (rest ++ (t.offer trip).1.trips.toList)).Perm
        (rest ++ ((t.offer trip).2.toList ++ (t.offer trip).1.trips.toList)) := by
      rw [← List.append_assoc, ← List.append_assoc]
      exact List.perm_append_comm.append_right _
    simp only [Timetable.offerAll, List.append_assoc]
    exact ((hrest.append_left _).trans hback).trans ((hperm.append_left rest).trans
      List.perm_middle)

/-- A column of a timetable lists a time of the trips at a position, in their order, and is
sorted. -/
def Lists (t : Timetable) (columns : Array (Array Time)) (time : Trip → Checked Time)
    (position : Nat) : Prop :=
  ∃ column, columns[position]? = some column ∧ t.trips.toList.mapM time = .ok column.toList ∧
    column.toList.Pairwise (· ≤ ·)

theorem Sound.lists_departures (ht : t.Sound length) {position : Nat} (hp : position < length) :
    t.Lists t.departures (·.departure position) position := by
  refine ⟨_, ht.departures_column hp, ?_, ?_⟩
  · rw [mapM_eq_ok_iff, Array.toList_map, List.forall₂_map_right_iff, List.forall₂_same]
    exact fun trip htrip => (ht.fits trip (Array.mem_toList_iff.mp htrip)).boardTime hp .forward
  · rw [Array.toList_map, List.pairwise_map]
    exact ht.ordered.imp fun h => (h position).1

theorem Sound.lists_arrivals (ht : t.Sound length) {position : Nat} (hp : position < length) :
    t.Lists t.arrivals (·.arrival position) position := by
  refine ⟨_, ht.arrivals_column hp, ?_, ?_⟩
  · rw [mapM_eq_ok_iff, Array.toList_map, List.forall₂_map_right_iff, List.forall₂_same]
    exact fun trip htrip => (ht.fits trip (Array.mem_toList_iff.mp htrip)).boardTime hp .reverse
  · rw [Array.toList_map, List.pairwise_map]
    exact ht.ordered.imp fun h => (h position).2

/-- After any sequence of offers to a new timetable, there is a column of departures and one of
arrivals for each position, each lists the times of the trips in their order and is sorted, and the
trips are those that were offered less those given back. A further trip is inserted if and only if
the timetable admits it. Otherwise it is given back and the timetable stays as it is. -/
theorem offerAll_exact (pattern : PatternId) (hlength : 0 < length) {calls : List Trip}
    (hcalls : ∀ trip ∈ calls, trip.Fits length) {refused : List Trip}
    (h : (Timetable.empty pattern length).offerAll calls = (t, refused)) :
    t.departures.size = length ∧ t.arrivals.size = length ∧
    (∀ position < length, t.Lists t.departures (·.departure position) position ∧
      t.Lists t.arrivals (·.arrival position) position) ∧
    (refused ++ t.trips.toList).Perm calls ∧
    ∀ trip : Trip, trip.Fits length →
      (t.Admits trip → ∃ t', t.offer trip = (t', none) ∧
        t'.trips.toList.Perm (trip :: t.trips.toList)) ∧
      (¬t.Admits trip → t.offer trip = (t, some trip)) := by
  have hempty : Built length (Timetable.empty pattern length) := .empty pattern
  obtain ⟨hbuilt, hperm⟩ := hempty.offerAll hcalls
  rw [h] at hbuilt hperm
  have ht := hbuilt.sound
  refine ⟨by rw [ht.departures_eq]; simp, by rw [ht.arrivals_eq]; simp,
    fun position hp => ⟨ht.lists_departures hp, ht.lists_arrivals hp⟩,
    by simpa [Timetable.empty] using hperm, fun trip hfits => ⟨fun hadmits => ?_, fun hnot => ?_⟩⟩
  · obtain ⟨t', hinsert⟩ :=
      Option.isSome_iff_exists.mp ((ht.insert?_isSome_iff hlength hfits).mpr hadmits)
    exact ⟨t', offer_of_some hinsert, insert?_perm ht hinsert⟩
  · rw [← ht.insert?_isSome_iff hlength hfits, Option.not_isSome_iff_eq_none] at hnot
    exact offer_of_none hnot

def shuttle (departure arrival : Time) : Trip :=
  { id := 0, name := "shuttle", pattern := 0, route := 0, service := 0, rank := 0, reluctance := 0
    arrivals := #[departure, arrival], departures := #[departure, arrival] }

theorem shuttle_fits (departure arrival : Time) : (shuttle departure arrival).Fits 2 := ⟨rfl, rfl⟩

/-- Of three shuttles the one that overtakes another is given back. -/
theorem offerAll_exact_shuttles :
    let offered := (Timetable.empty 0 2).offerAll
      [shuttle 300 400, shuttle 100 200, shuttle 150 450]
    offered.2 = [shuttle 150 450] ∧ offered.1.trips.size = 2 ∧
      ¬offered.1.Admits (shuttle 150 450) ∧ offered.1.Admits (shuttle 150 250) := by
  intro offered
  have hrefused : offered.2 = [shuttle 150 450] := by decide +kernel
  have hfinal : (Timetable.empty 0 2).offerAll [shuttle 300 400, shuttle 100 200, shuttle 150 450] =
      (offered.1, [shuttle 150 450]) := Prod.ext rfl hrefused
  obtain ⟨-, -, -, hperm, hoffer⟩ := offerAll_exact 0 (by decide) (by simp [shuttle_fits]) hfinal
  refine ⟨hrefused, by simpa using hperm.length_eq, fun hadmits => ?_, ?_⟩
  · obtain ⟨t', haccepted, -⟩ := (hoffer (shuttle 150 450) (shuttle_fits _ _)).1 hadmits
    have hback : (offered.1.offer (shuttle 150 450)).2 = some (shuttle 150 450) := by
      decide +kernel
    simp [haccepted] at hback
  · by_contra hnot
    have hgiven := (hoffer (shuttle 150 250) (shuttle_fits _ _)).2 hnot
    have hback : (offered.1.offer (shuttle 150 250)).2 = none := by decide +kernel
    simp [hgiven] at hback

end Timetable

end JourneyPlanner
