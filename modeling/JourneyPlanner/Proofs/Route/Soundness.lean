import JourneyPlanner.Proofs.Itinerary.Times
import JourneyPlanner.Proofs.Route.Answers
import JourneyPlanner.Proofs.Route.Changes

/-!
# Soundness of routes

Every itinerary of a route is one that a traveller can make, in both directions and whatever the
rules are, as long as a least transfer time does not stand for all slacks.

* `LabelScene.Traces.realizes_reverse`, `LabelScene.Traces.realizes_delayed`: the parts of a trail
  in the order of the traveller.
* `LabelScene.isReal_of_itinerary`: the itinerary of a finish is real.
* `route_isReal`: all itineraries of a route are real.
-/

namespace JourneyPlanner

namespace LabelScene

variable {c : LabelScene} {course : Course} {request : Request} {s : Labels} {maxRounds : Nat}
  {id : LabelId} {label : Label} {access egress : Connector} {time : Time} {legs : List Leg}

namespace Traces

/-- The parts of a trail, with a leg after them, do not have two walks in a row. -/
theorem alternates_cons (h : c.Traces s access time id legs) (hj : c.Justified course s)
    (hlabel : s.arena[id]? = some label) (hrides : egress.onBoard = true ∨ label.onBoard = true) :
    (egress.onBoard :: (legs.map Leg.isRide ++ [access.onBoard])).IsChain
      fun rides rides' => rides = true ∨ rides' = true := by
  rw [List.isChain_cons]
  refine ⟨fun rides hhead => ?_, h.alternates hj⟩
  rw [h.onBoard_eq hlabel] at hrides
  cases legs with
  | nil | cons =>
    obtain rfl := Option.some.inj hhead
    exact hrides

/-- The parts of a trail of a search that follows the clock, the last one at the end. -/
theorem realizes_reverse (h : c.Traces s access time id legs) (hj : c.Justified course s)
    (hnet : course.network.Sound) (hfor : c.For course request)
    (hd : c.direction = .forward) (hdefinitive : c.rules = none ∨ c.definitive = false)
    (hlabel : s.arena[id]? = some label) (hegress : egress ∈ c.egress)
    (hstop : egress.stop = label.stop) (hrides : egress.onBoard = true ∨ label.onBoard = true) :
    course.network.Realizes request access legs.reverse egress where
  access_mem := by
    have := h.access_mem hj
    rwa [hfor.access_eq, Request.searchAccess, ← hfor.direction_eq, hd] at this
  egress_mem := by
    rwa [hfor.egress_eq, Request.searchEgress, ← hfor.direction_eq, hd] at hegress
  joined := by
    have := h.leads hj hnet hlabel
    rwa [Leads, hd, ← hstop] at this
  offers := fun r hr => (h.offers hj hnet hfor.services_eq r (List.mem_reverse.mp hr)).1
  declared := fun w hw => h.declared hj w (List.mem_reverse.mp hw)
  change := by
    intro before first between second after hlegs hwalks
    obtain rfl : legs = after.reverse ++
        .ride second :: (between.reverse ++ .ride first :: before.reverse) := by
      rw [← List.reverse_reverse legs, hlegs]
      simp
    obtain ⟨id', hsuffix⟩ := h.suffix
    have hchange := hsuffix.changes (fun leg hleg => hwalks leg (List.mem_reverse.mp hleg)) hj hnet
      hfor.services_eq hdefinitive
    rw [Changes, hd, hfor.slacks_eq] at hchange
    rcases hchange with ⟨hbetween, hchange⟩ | ⟨w, hbetween, hchange⟩
    · exact .inl ⟨List.reverse_eq_nil_iff.mp hbetween, hchange⟩
    · exact .inr ⟨w, by simpa using congrArg List.reverse hbetween, hchange⟩
  alternates := by
    have := (h.alternates_cons hj hlabel hrides).imp fun _ _ => Or.symm
    rw [← List.isChain_reverse] at this
    simpa using this

/-- The parts of a trail of a search that goes back in time, with the constraints where they
belong. -/
theorem realizes_delayed (h : c.Traces s access time id legs) (hj : c.Justified course s)
    (hnet : course.network.Sound) (hfor : c.For course request)
    (hd : c.direction = .reverse) (hdefinitive : c.rules = none ∨ c.definitive = false)
    (hlabel : s.arena[id]? = some label) (hegress : egress ∈ c.egress)
    (hstop : egress.stop = label.stop) (hrides : egress.onBoard = true ∨ label.onBoard = true)
    {found : Constraint} :
    course.network.Realizes request egress (delayConstraints found legs) access where
  access_mem := by
    rwa [hfor.egress_eq, Request.searchEgress, ← hfor.direction_eq, hd] at hegress
  egress_mem := by
    have := h.access_mem hj
    rwa [hfor.access_eq, Request.searchAccess, ← hfor.direction_eq, hd] at this
  joined := by
    have := h.leads hj hnet hlabel
    rw [Leads, hd, ← hstop] at this
    exact this.congr delayConstraints_map_source delayConstraints_map_target
  offers := by
    intro r hr
    obtain ⟨r', constraint, hmem, rfl⟩ := exists_of_mem_delayConstraints hr
    exact (h.offers hj hnet hfor.services_eq r' hmem).1
  declared := fun w hw => h.declared hj w (mem_delayConstraints_walk.mp hw)
  change := by
    intro before first between second after hlegs hwalks
    obtain ⟨before', first', second', constraint, after', rfl, rfl, rfl⟩ :=
      delayConstraints_decompose hlegs hwalks
    obtain ⟨id', hsuffix⟩ := h.suffix
    have hchange := hsuffix.changes hwalks hj hnet hfor.services_eq hdefinitive
    rw [Changes, hd, hfor.slacks_eq] at hchange
    exact hchange.withConstraint constraint
  alternates := by
    rw [delayConstraints_map_isRide]
    exact h.alternates_cons hj hlabel hrides

end Traces

/-- The itinerary of a finish is real, unless rules apply of which a least transfer time stands for
all slacks. -/
theorem isReal_of_rules {it : Itinerary} {e : Finish × JourneyCriteria}
    (h : c.itinerary? s e.1 = .ok (some it)) (he : e ∈ s.finishes.entries)
    (hj : c.Justified course s) (hnet : course.network.Sound) (hfor : c.For course request)
    (hdefinitive : c.rules = none ∨ c.definitive = false) : it.IsReal course.network request := by
  obtain ⟨label, hlabel, hegress, hstop, hrides, -⟩ := hj.finish he
  cases assembles_of_itinerary h with
  | forward hd htraces hnew =>
    obtain ⟨haccess, hleg, hlegs, -⟩ := Itinerary.new_eq_ok hnew
    rw [Itinerary.IsReal, haccess, hleg]
    exact (htraces.realizes_reverse hj hnet hfor hd hdefinitive hlabel hegress hstop hrides).congr
      hlegs
  | reverse hd htraces _ hnew =>
    obtain ⟨haccess, hleg, hlegs, -⟩ := Itinerary.new_eq_ok hnew
    rw [Itinerary.IsReal, haccess, hleg]
    exact (htraces.realizes_delayed hj hnet hfor hd hdefinitive hlabel hegress hstop hrides).congr
      hlegs

/-- The itinerary of a finish is real. -/
theorem isReal_of_itinerary {it : Itinerary} {e : Finish × JourneyCriteria}
    (h : c.itinerary? s e.1 = .ok (some it)) (he : e ∈ s.finishes.entries)
    (hj : c.Justified course s) (hnet : course.network.Sound) (hfor : c.For course request)
    (hdefinitive : request.definitive = false) : it.IsReal course.network request :=
  isReal_of_rules h he hj hnet hfor (.inr (hfor.definitive_eq.trans hdefinitive))

end LabelScene

/-- Every itinerary of a route is one that a traveller can make: trips that run, ridden between
positions where one may board and alight, that meet at a stop or are joined by one declared walk,
with enough time for every change. -/
theorem route_isReal {draft : Draft} {net : Network} {request : Request} {result : RouteResult}
    {it : Itinerary} (hbuild : draft.build = .ok net) (hdefinitive : request.definitive = false)
    (hroute : net.route request = .ok result) (hit : it ∈ result.itineraries) :
    it.IsReal net request := by
  have hnet := Draft.build_sound hbuild
  obtain ⟨tariff, bounds, times, progress, e, hrun, he, hitinerary⟩ :=
    Network.exists_finish_of_mem_route hroute hit
  have hjustified := (Network.yields_justified hnet).of_ok hrun
  exact LabelScene.isReal_of_itinerary hitinerary he hjustified hnet Network.labelScene_for
    hdefinitive

/-- Found back in time, the blue trip that waits for the red one is labelled as guaranteed. -/
theorem route_isReal_guaranteed : ∃ net result it, twoLines.build = .ok net ∧
    (fromAToD .reverse true).definitive = false ∧
    net.route (fromAToD .reverse true) = .ok result ∧ it ∈ result.itineraries ∧
    it.rides.map (·.constraint) = [.regular, .guaranteed] ∧
    it.IsReal net (fromAToD .reverse true) := by
  have hfinds : twoLines.finds (fromAToD .reverse true)
      (fun _ it => it.rides.map (·.constraint) == [.regular, .guaranteed]) = true := by
    decide +kernel
  obtain ⟨net, result, it, hbuild, hroute, hit, hguaranteed⟩ := Draft.exists_of_finds hfinds
  exact ⟨net, result, it, hbuild, rfl, hroute, hit, by simpa using hguaranteed,
    route_isReal hbuild rfl hroute hit⟩

end JourneyPlanner
