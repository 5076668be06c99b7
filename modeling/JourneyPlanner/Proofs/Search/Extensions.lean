import JourneyPlanner.Proofs.Route.Trails
import JourneyPlanner.Proofs.Search.Completeness

/-!
# What follows a label

Without rules, what can follow a label can also follow the label it comes from, after one more ride
or walk. So whatever a search finds is something that can follow a leg of the request at one of the
start times.

* `LabelScene.Brief`: what can follow an arrival never takes too long.
* `LabelScene.OnwardFrom`: what can follow a label.
* `LabelScene.RidesAfter.onward`, `LabelScene.OnwardFrom.of_walked`: it can follow the label before.
* `LabelScene.Departs`: a search has departed at some start times.
* `LabelScene.Iterations.exists_onward`: a finish can follow a leg of the request.
-/

namespace JourneyPlanner

/-- Neither time nor boardings or stops lower a price, and boarding again costs no less than the
first boarding. -/
structure Tariff.Nonneg (tariff : Tariff) : Prop where
  boardAgain : tariff.board ≤ tariff.boardAgain
  wait : 0 ≤ tariff.wait
  stopCost : ∀ stop, 0 ≤ tariff.stopCost stop
  rides : tariff.RidesCost

/-- All trips of a network run between two times, and no walk takes longer than some seconds. -/
structure Network.Within (net : Network) (first last : Time) (walk : Span) : Prop where
  trips : ∀ t ∈ net.timetables, ∀ trip ∈ t.trips, ∀ time,
    time ∈ trip.departures ∨ time ∈ trip.arrivals → first ≤ time ∧ time ≤ last
  walks : ∀ w, net.HasWalk w → w.duration ≤ walk

/-- The end of a span of time in the sense of a search. -/
def Direction.endOf (d : Direction) (first last : Time) : Time :=
  match d with
  | .forward => last
  | .reverse => first

theorem Direction.gap_endOf (d : Direction) {first last time : Time}
    (h : first ≤ time ∧ time ≤ last) :
    0 ≤ d.gap time (d.endOf first last) ∧ d.gap time (d.endOf first last) ≤ last - first := by
  obtain ⟨hfirst, hlast⟩ := h
  cases d with
  | forward => exact ⟨sub_nonneg.mpr hlast, sub_le_sub_left hfirst last⟩
  | reverse => exact ⟨sub_nonneg.mpr hfirst, sub_le_sub_right hlast first⟩

namespace LabelScene

/-- What can follow an arrival takes less than the time that stands for unreached stops. -/
def Brief (c : LabelScene) (net : Network) : Prop :=
  ∀ ⦃started : Bool⦄ ⦃stop : StopId⦄ ⦃onBoard : Bool⦄ ⦃time : Time⦄ ⦃rides : Nat⦄ ⦃duration : Span⦄
    ⦃cost : Cost⦄ ⦃ending : Time⦄,
    c.Onward net started stop onBoard time rides duration cost ending → duration < unreached

/-- What can follow a label. -/
def OnwardFrom (c : LabelScene) (net : Network) (l : Label) : Nat → Span → Cost → Time → Prop :=
  c.Onward net (l.round != 0) l.stop l.onBoard l.time

/-- A search has departed at some start times. -/
def Departs (c : LabelScene) (s : Labels) (times : List Time) : Prop :=
  ∀ ⦃id : LabelId⦄ ⦃label : Label⦄ ⦃leg : Connector⦄, s.arena[id]? = some label →
    label.origin = .access leg → ∃ start ∈ times, label.time = c.direction.shift start leg.duration

variable {c : LabelScene} {net : Network} {course : Course} {s s₁ : Labels} {maxRounds rides : Nat}
  {kind : Label → Prop} {id : LabelId} {label l : Label} {duration : Span} {cost : Cost}
  {time ending : Time} {times : List Time}

/-! ### Ways that are short -/

/-- The time of an arrival or departure of a trip at a position. -/
theorem mem_times_of_fits {trip : Trip} {length position : Nat} {d : Direction}
    (h : trip.Fits length) (hposition : position < length) :
    (d.boardingAt trip position ∈ trip.departures ∨ d.boardingAt trip position ∈ trip.arrivals) ∧
      (d.alightingAt trip position ∈ trip.departures ∨
        d.alightingAt trip position ∈ trip.arrivals) := by
  have hdeparts : trip.departures.getD position 0 ∈ trip.departures := by
    rw [← h.departures_size] at hposition
    rw [Array.getD_eq_getD_getElem?, Array.getElem?_eq_getElem hposition]
    exact Array.getElem_mem hposition
  have harrives : trip.arrivals.getD position 0 ∈ trip.arrivals := by
    rw [← h.arrivals_size] at hposition
    rw [Array.getD_eq_getD_getElem?, Array.getElem?_eq_getElem hposition]
    exact Array.getElem_mem hposition
  cases d with
  | forward => exact ⟨.inl hdeparts, .inr harrives⟩
  | reverse => exact ⟨.inr harrives, .inl hdeparts⟩

section

variable {first last : Time} {walk leg : Span} {started onBoard : Bool} {stop : StopId}

/-- Where all trips run between two times, so does what follows an arrival, but for a walk before
the first ride and the leg to the end. -/
theorem Onward.duration_le
    (h : c.Onward net started stop onBoard time rides duration cost ending)
    (hwithin : net.Within first last walk) (hnet : net.Sound) (hslacks : c.slacks.Nonneg)
    (hlegs : ∀ l ∈ c.egress, l.duration ≤ leg) (hwalk : 0 ≤ walk) (hspan : first ≤ last) :
    (onBoard = true ∧ duration ≤ leg ∨
      duration ≤ c.direction.gap time (c.direction.endOf first last) + leg) ∧
    (onBoard = false → duration ≤ last - first + leg) ∧
    duration ≤ last - first + walk + leg := by
  have hbefore := hslacks.beforeBoarding c.direction
  have hafter := hslacks.afterAlighting c.direction
  have htransfer := hslacks.transfer
  induction h with
  | finish hleg =>
    have hle := hlegs _ hleg
    exact ⟨.inl ⟨rfl, hle⟩, by simp, by linarith⟩
  | @ride started onBoard i boardPosition position stop target rides p t trip time ending duration
      cost hp ht htrip hruns hstop hboards htarget halights hprecedes hinTime after hshort ih =>
    have hfits := (hnet.timetable_sound hp ht).fits trip htrip
    have htimes := hwithin.trips t (Array.mem_of_getElem? ht) trip htrip
    obtain ⟨hboard, -⟩ := mem_times_of_fits (d := c.direction) hfits
      (Array.getElem?_eq_some_iff.mp hstop).1
    obtain ⟨-, halight⟩ := mem_times_of_fits (d := c.direction) hfits
      (Array.getElem?_eq_some_iff.mp htarget).1
    have hboard := c.direction.gap_endOf (htimes _ hboard)
    have halight := c.direction.gap_endOf (htimes _ halight)
    have hsum := Direction.gap_add_gap (d := c.direction)
      (a := c.direction.boardingAt trip boardPosition)
      (b := c.direction.alightingAt trip position) (c := c.direction.endOf first last)
    have hwaits := Direction.gap_add_gap (d := c.direction) (a := time)
      (b := c.direction.boardingAt trip boardPosition) (c := c.direction.endOf first last)
    have hrest : duration ≤
        c.direction.gap (c.direction.alightingAt trip position)
        (c.direction.endOf first last) + leg := by
      rcases ih.1 with ⟨-, hfinish⟩ | hride
      · linarith
      · rw [Direction.gap_shift_left] at hride
        linarith
    rw [readyAt, Direction.shift_noLater_iff] at hinTime
    refine ⟨.inr ?_, fun _ => by linarith, by linarith⟩
    split at hinTime <;> linarith
  | @walk started rides w time ending duration cost hw hleaves after hshort ih =>
    obtain ⟨hends, hrides, -⟩ := ih
    have hends := hends.resolve_left fun hon => Bool.false_ne_true hon.1
    have hrides := hrides rfl
    have hwalk := hwithin.walks w hw
    rw [Direction.gap_shift_left] at hends
    exact ⟨.inr (by linarith), by simp, by linarith⟩

/-- Where all trips run between two times that are not far from each other, and walks are short, so
is all that can follow an arrival. -/
theorem brief_of_within (hwithin : net.Within first last walk) (hnet : net.Sound)
    (hslacks : c.slacks.Nonneg) (hlegs : ∀ l ∈ c.egress, l.duration ≤ leg) (hwalk : 0 ≤ walk)
    (hspan : first ≤ last) (hshort : last - first + walk + leg < unreached) : c.Brief net :=
  fun _ _ _ _ _ _ _ _ h =>
    (h.duration_le hwithin hnet hslacks hlegs hwalk hspan).2.2.trans_lt hshort

end

/-- The trips of the two lines run between ten and five to eleven. -/
theorem within_twoLines (hbuild : twoLines.build = .ok net) : net.Within 36000 39300 300 := by
  have hbuilds : twoLines.builds (fun net =>
      (net.timetables.all fun t => t.trips.all fun trip => (trip.departures ++ trip.arrivals).all
        fun time => decide (36000 ≤ time ∧ time ≤ 39300)) &&
      net.walksFrom.all fun walks => walks.all fun w => decide (w.duration ≤ 300)) = true := by
    decide +kernel
  obtain ⟨_, hbuild', hfacts⟩ := Draft.exists_of_builds hbuilds
  obtain rfl := Except.ok.inj (hbuild.symm.trans hbuild')
  simp only [Bool.and_eq_true, Array.all_eq_true', List.all_eq_true, decide_eq_true_eq] at hfacts
  obtain ⟨htrips, hwalks⟩ := hfacts
  refine ⟨fun t ht trip htrip time htime => htrips t ht trip htrip time ?_,
    fun w ⟨walks, hget, hw⟩ => ?_⟩
  · exact Array.mem_append.mpr htime
  · exact hwalks walks (Array.mem_of_getElem? hget) w hw

/-! ### The label before -/

theorem readyAt_eq_earliest : c.readyAt (label.round != 0) label.time = c.earliest label := by
  unfold readyAt earliest
  by_cases hround : label.round = 0 <;> simp [hround]

/-- The trip that is boarded without rules is met in time. -/
theorem bestTrip_of_choose {p : Pattern} {t : Timetable} {stop : StopId} {position : Nat}
    {e : Boarded} {k : AboardCriteria} (hrules : c.rules = none)
    (h : c.choose s t (c.ruleSearch p) id label stop position = .ok (some (e, k))) :
    ∃ rank trip, t.bestTrip c.direction c.runs (c.earliest label) position =
        .ok (some (rank, trip)) ∧
      e = c.boarded id label stop position trip .regular none := by
  rw [ruleSearch_eq_none hrules] at h
  rcases choose_eq_some h with ⟨_, _, hruled, -⟩ | ⟨-, rank, trip, hbest, he, -⟩
  · cases hruled
  · exact ⟨rank, trip, hbest, he⟩

/-- What can follow the end of a ride can follow the label before the ride, and costs no less. -/
theorem RidesAfter.onward (h : c.RidesAfter net s id label l) (hnet : net.Sound)
    (hrules : c.rules = none) (honward : c.OnwardFrom net l rides duration cost ending)
    (hshort : duration < unreached) : ∃ duration' cost',
      c.OnwardFrom net label (rides + 1) duration' cost' ending ∧
      (c.tariff.Nonneg → c.slacks.Nonneg → label.cost + cost' ≤ l.cost + cost) := by
  obtain ⟨i, boardPosition, position, stop, p, t, e, k, hp, ht, hboardStop, hboards,
    hstop, halights, hprecedes, hchoose, rfl⟩ := h
  have hsound := hnet.timetable_sound hp ht
  have hposition := (Array.getElem?_eq_some_iff.mp hboardStop).1
  have hchosen := chosen_of_choose hsound hposition hchoose
  obtain ⟨rank, trip, hbest, rfl⟩ := bestTrip_of_choose hrules hchoose
  have hinTime := noLater_of_bestTrip hsound hposition hbest
  rw [← readyAt_eq_earliest] at hinTime
  have hstarted : ((c.alighted stop position (label.round + 1) label.iteration
      (c.boarded id label label.stop boardPosition trip .regular none)).round != 0) = true :=
    bne_iff_ne.mpr (Nat.succ_ne_zero _)
  rw [OnwardFrom, hstarted] at honward
  refine ⟨_, _, .ride hp ht (Array.mem_of_getElem? hchosen.trip) hchosen.runs hboardStop
    hboards hstop halights hprecedes hinTime honward hshort, fun hnonneg hslacks => ?_⟩
  have hwaits := mul_nonneg hnonneg.wait (hslacks.afterAlighting c.direction)
  have hwaited := mul_nonneg hnonneg.wait (Int.natCast_nonneg
    (c.direction.boardingAt trip boardPosition - c.waitSince label
      (c.direction.boardingAt trip boardPosition) .regular none).natAbs)
  have hleaves := hnonneg.stopCost stop
  have henters := hnonneg.stopCost label.stop
  have hagain := hnonneg.boardAgain
  rw [hrules]
  simp only [Tariff.leastBoarding, alighted, boarded, Tariff.boardingPrice, Tariff.ridingPrice]
  split <;> linarith

/-- What can follow the end of a walk can follow the label before the walk. -/
theorem OnwardFrom.of_walked {w : Walk}
    (honward : c.OnwardFrom net (c.walked label.stop w id label) rides duration cost ending)
    (honBoard : label.onBoard = true) (hwalk : net.HasWalk w)
    (hsource : c.direction.walkSource w = label.stop)
    (htarget : c.direction.walkTarget w ≠ label.stop)
    (hshort : duration < unreached) :
    c.OnwardFrom net label rides (duration + w.duration) (cost + c.tariff.walk * w.duration)
      ending := by
  rw [← hsource] at htarget
  rw [OnwardFrom, ← hsource, honBoard]
  exact .walk hwalk htarget honward hshort

/-- A leg to the end can follow a label on board. -/
theorem onwardFrom_finish {leg : Connector} (honBoard : label.onBoard = true)
    (hleg : leg ∈ c.egress)
    (hstop : leg.stop = label.stop) (hwalks : leg.onBoard = false)
    (hlt : leg.stop < net.stopCount) :
    c.OnwardFrom net label 0 leg.duration leg.cost
      (c.direction.shift label.time leg.duration) := by
  rw [OnwardFrom, honBoard, ← hstop]
  exact .finish hleg hwalks hlt

/-! ### Departures -/

theorem Tried.departs (h : c.Tried maxRounds kind s s₁) (hs : c.Departs s times)
    (hkind : ∀ l leg, kind l → l.origin = .access leg →
      ∃ start ∈ times, l.time = c.direction.shift start leg.duration) : c.Departs s₁ times := by
  intro id label leg hlabel horigin
  obtain ⟨attempts, hoffered, hmade, -⟩ := h.offered
  rcases hoffered.added hlabel with hbefore | ⟨hmem, -⟩
  · exact hs hbefore horigin
  · exact hkind label leg (hmade label hmem) horigin

/-- The labels by legs of the request depart at a start time. -/
theorem departs_seeded {leg leg' : Connector} {round iteration : Nat} (htime : time ∈ times)
    (horigin : (c.seeded leg time round iteration).origin = .access leg') :
    ∃ start ∈ times, (c.seeded leg time round iteration).time =
      c.direction.shift start leg'.duration := by
  obtain rfl := Origin.access.inj horigin
  exact ⟨time, htime, rfl⟩

theorem Round.departs (h : c.Round course time s s₁) (hs : c.Departs s times)
    (htime : time ∈ times) : c.Departs s₁ times := by
  cases h with
  | mk opening rides seeds walks ending _ =>
    refine walks.departs (seeds.departs (rides.departs hs ?_) ?_) ?_
    · rintro l leg ⟨i, p, t, position, -, -, _, _, _, _, -, -, -, -, rfl⟩ horigin
      cases horigin
    · rintro l leg ⟨-, leg', -, rfl⟩ horigin
      exact departs_seeded htime horigin
    · rintro l leg ⟨_, _, _, _, -, -, -, -, -, -, -, -, rfl⟩ horigin
      cases horigin

theorem Rounds.departs {count : Nat} (h : c.Rounds course time s count s₁)
    (hs : c.Departs s times) (htime : time ∈ times) : c.Departs s₁ times := by
  induction h with
  | zero => exact hs
  | succ _ last ih => exact last.departs ih htime

/-- A search departs at its start times. -/
theorem Iterations.departs (h : c.Iterations course s times s₁) (hs : c.Departs s []) :
    c.Departs s₁ times := by
  induction h with
  | nil => exact hs
  | @snoc times time s₁ s₂ s₃ _ seeds rounds _ ih =>
    have hlast : time ∈ times ++ [time] := by simp
    have hbefore : c.Departs (Labels.start time s₁) (times ++ [time]) := by
      intro id label leg hlabel horigin
      obtain ⟨start, hstart, htime⟩ := ih hlabel horigin
      exact ⟨start, List.mem_append_left _ hstart, htime⟩
    refine rounds.departs (seeds.departs hbefore ?_) hlast
    rintro l leg ⟨leg', -, rfl⟩ horigin
    exact departs_seeded hlast horigin

theorem departs_new {stopCount : Nat} : c.Departs (.new stopCount maxRounds) [] := by
  intro id label leg hlabel
  simp [Labels.new] at hlabel

/-! ### Finishes -/

/-- What can follow a label can follow a leg of the request at a start time, after as many rides as
led to the label. -/
theorem Justified.exists_onward (hj : c.Justified course s)
    (hs : s.Sound c.direction c.stopCount maxRounds) (hnet : course.network.Sound)
    (hrules : c.rules = none) (hdeparts : c.Departs s times)
    (hwalks : ∀ leg ∈ course.access, leg.onBoard = false)
    (hbrief : c.Brief course.network)
    (hlabel : s.arena[id]? = some label)
    (honward : c.OnwardFrom course.network label rides duration cost ending) :
    ∃ leg ∈ course.access, leg.stop < c.stopCount ∧ ∃ start ∈ times, ∃ duration' cost',
      c.Onward course.network false leg.stop false (c.direction.shift start leg.duration)
        (label.round + rides) duration' cost' ending := by
  induction id using Nat.strong_induction_on generalizing label rides duration cost with
  | h id ih =>
    have hprevious : ∀ {previous : LabelId}, label.origin.previous? = some previous →
      previous < id :=
      hs.previous_lt hlabel
    have hlt := hs.stop_lt hlabel
    cases hderived : hj.label hlabel with
    | @access leg start iteration hleg =>
      obtain ⟨start', hstart, htime⟩ := hdeparts hlabel rfl
      have hwalk := hwalks leg hleg
      refine ⟨leg, hleg, hlt, start', hstart, duration, cost, ?_⟩
      have honBoard : (c.seeded leg start leg.onBoard.toNat iteration).onBoard = false := hwalk
      have hround : (c.seeded leg start leg.onBoard.toNat iteration).round = 0 := by
        rw [seeded, hwalk]
        rfl
      rw [OnwardFrom, htime, honBoard, hround] at honward
      rwa [hround, Nat.zero_add]
    | @ride i boardPosition position p t previous before stop e k hp ht hbefore hboardStop hboards
        hstop halights hprecedes hchoose =>
      have hride : c.RidesAfter course.network s previous before
          (c.alighted stop position (before.round + 1) before.iteration e) :=
        ⟨i, boardPosition, position, stop, p, t, e, k, hp, ht, hboardStop, hboards, hstop, halights,
          hprecedes, hchoose, rfl⟩
      obtain ⟨duration', cost', honward', -⟩ := hride.onward hnet hrules honward (hbrief honward)
      obtain ⟨_, _, hbest, rfl⟩ := bestTrip_of_choose hrules hchoose
      obtain ⟨leg, hleg, hstop, start, hstart, duration, cost, hfirst⟩ :=
        ih previous (hprevious rfl) hbefore honward'
      refine ⟨leg, hleg, hstop, start, hstart, duration, cost, ?_⟩
      have hsum : before.round + (rides + 1) = before.round + 1 + rides := by omega
      rw [hsum] at hfirst
      exact hfirst
    | walk hbefore honBoard hwalk hsource htarget =>
      have hfirst := ih _ (hprevious rfl) hbefore
        (honward.of_walked honBoard hwalk hsource htarget (hbrief honward))
      exact hfirst

/-- A finish can follow a leg of the request at a start time. -/
theorem Iterations.exists_onward (h : c.Iterations course s times s₁)
    (hs : s.Sound c.direction c.stopCount course.maxRounds) (hj : c.Justified course s)
    (hdeparts : c.Departs s []) (hnet : course.network.Sound) (hc : c.Of course.network)
    (hrules : c.rules = none) (haccess : ∀ leg ∈ course.access, leg.onBoard = false)
    (hegress : ∀ leg ∈ c.egress, leg.onBoard = false)
    (hbrief : c.Brief course.network) {e : Finish × JourneyCriteria}
    (he : e ∈ s₁.finishes.entries) :
    ∃ leg ∈ course.access, leg.stop < c.stopCount ∧ ∃ start ∈ times, ∃ rides duration cost,
      c.Onward course.network false leg.stop false (c.direction.shift start leg.duration) rides
        duration cost e.2.time ∧ rides ≤ course.maxRounds ∧ e.2.transfers = min rides 255 - 1 := by
  have hsound := h.sound hs
  have hjustified := h.justified hs hj
  obtain ⟨label, hlabel, hleg, hstop, hrides, hcriteria⟩ := hjustified.finish he
  have hwalks := hegress _ hleg
  have honBoard : label.onBoard = true := by simpa [hwalks] using hrides
  have hlt : e.1.leg.stop < course.network.stopCount := by
    rw [hstop, ← hc.stopCount_eq]
    exact hsound.stop_lt hlabel
  obtain ⟨leg, hleg, hstop, start, hstart, duration, cost, honward⟩ :=
    hjustified.exists_onward hsound hnet hrules (h.departs hdeparts) haccess hbrief hlabel
    (onwardFrom_finish honBoard hleg hstop hwalks hlt)
  refine ⟨leg, hleg, hstop, start, hstart, label.round, duration, cost, ?_,
    hsound.label_round_le hlabel, ?_⟩
  · rw [hcriteria]
    exact honward
  · rw [hcriteria, finishCriteria, hwalks]
    rfl

end LabelScene

end JourneyPlanner
