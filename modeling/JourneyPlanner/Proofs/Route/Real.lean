import Mathlib.Data.List.Chain
import JourneyPlanner.Proofs.Itinerary.Building
import JourneyPlanner.Proofs.Route.Trails

/-!
# Real itineraries

What makes an itinerary one that a traveller can make, and which of it the parts of a trail have one
by one, in whichever direction the search went.

* `Network.Offers`: a ride that a network offers on a date.
* `Joined`: parts that lead from one stop to another.
* `Slacks.Timely`: a change that leaves enough time.
* `Network.Realizes`, `Itinerary.IsReal`: parts, and an itinerary, that a traveller can make.
* `LabelScene.Traces.offers`, `LabelScene.Traces.declared`: the parts of a trail.
* `LabelScene.Traces.leads`, `LabelScene.Traces.alternates`: how they follow each other.
-/

namespace JourneyPlanner

/-! ### What is asked of an itinerary -/

/-- A ride that a network offers on a date: its trip runs, boarding is allowed where it starts and
alighting where it ends, and its stops are those of the pattern. -/
def Network.Offers (net : Network) (date : Date) (r : Ride) : Prop :=
  ∃ p t, net.patterns[r.trip.pattern]? = some p ∧ net.timetables[r.trip.pattern]? = some t ∧
    r.trip ∈ t.trips ∧ net.RunsOn date r.trip ∧ r.boardPosition < r.alightPosition ∧
    p.canBoard r.boardPosition = .ok true ∧ p.canAlight r.alightPosition = .ok true ∧
    p.stops[r.boardPosition]? = some r.boardStop ∧ p.stops[r.alightPosition]? = some r.alightStop

/-- Parts that lead from one stop to another, each starting where the one before it ends. -/
def Joined (start : StopId) : List Leg → StopId → Prop
  | [], stop => start = stop
  | leg :: rest, stop => leg.source = start ∧ Joined leg.target rest stop

/-- The second ride is boarded late enough after the first one: the walk suffices before a trip that
waits or in which the traveller stays seated, and all slacks count otherwise. -/
def Slacks.Timely (slacks : Slacks) (first : Ride) (walk : Span) (second : Ride) : Prop :=
  ∃ arrival departure, first.alightTime = .ok arrival ∧ second.boardTime = .ok departure ∧
    if second.constraint.isFacilitated then arrival + walk ≤ departure
    else arrival + slacks.alight + walk + slacks.transfer + slacks.board ≤ departure

/-- Two rides that follow each other meet at a stop, or one declared walk leads from the first to
the second, and there is enough time. -/
def Network.IsChange (net : Network) (slacks : Slacks) (first : Ride) (between : List Leg)
    (second : Ride) : Prop :=
  (between = [] ∧ first.alightStop = second.boardStop ∧ slacks.Timely first 0 second) ∨
  ∃ w, between = [.walk w] ∧ w.source = first.alightStop ∧ w.target = second.boardStop ∧
    w.source ≠ w.target ∧ net.HasWalk ⟨w.source, w.target, w.duration⟩ ∧
    slacks.Timely first w.duration second

/-- Parts that a traveller can make between a leg from the origin and a leg to the destination. Of
two of them that follow each other one is on board of a vehicle, these legs being parts too. -/
structure Network.Realizes (net : Network) (request : Request) (access : Connector)
    (legs : List Leg) (egress : Connector) : Prop where
  access_mem : access ∈ request.access
  egress_mem : egress ∈ request.egress
  joined : Joined access.stop legs egress.stop
  offers : ∀ r, .ride r ∈ legs → net.Offers request.date r
  declared : ∀ w, .walk w ∈ legs →
    w.source ≠ w.target ∧ net.HasWalk ⟨w.source, w.target, w.duration⟩
  change : ∀ before first between second after,
    legs = before ++ .ride first :: (between ++ .ride second :: after) →
    (∀ leg ∈ between, leg.isRide = false) →
    net.IsChange request.slacks first between second
  alternates : (access.onBoard :: (legs.map Leg.isRide ++ [egress.onBoard])).IsChain
    fun rides rides' => rides = true ∨ rides' = true

/-- An itinerary that a traveller can make. -/
def Itinerary.IsReal (net : Network) (request : Request) (it : Itinerary) : Prop :=
  net.Realizes request it.access.leg it.legs it.egress.leg

/-! ### Joined parts -/

variable {start stop : StopId} {legs : List Leg} {leg : Leg}

theorem joined_append {parts : List Leg} :
    Joined start (parts ++ legs) stop ↔
      ∃ middle, Joined start parts middle ∧ Joined middle legs stop := by
  induction parts generalizing start with
  | nil => simp [Joined]
  | cons part parts ih => simp only [List.cons_append, Joined, ih, and_assoc, exists_and_left]

theorem joined_snoc :
    Joined start (legs ++ [leg]) stop ↔ Joined start legs leg.source ∧ leg.target = stop := by
  rw [joined_append]
  simp only [Joined]
  exact ⟨fun ⟨_, h, h', h''⟩ => ⟨h' ▸ h, h''⟩, fun ⟨h, h'⟩ => ⟨_, h, rfl, h'⟩⟩

/-- Parts that differ only in times and constraints are joined alike. -/
theorem Joined.congr {others : List Leg} (h : Joined start legs stop)
    (hsource : others.map Leg.source = legs.map Leg.source)
    (htarget : others.map Leg.target = legs.map Leg.target) : Joined start others stop := by
  induction legs generalizing start others with
  | nil =>
    obtain rfl := List.map_eq_nil_iff.mp hsource
    exact h
  | cons leg rest ih =>
    cases others with
    | nil => cases hsource
    | cons other others =>
      simp only [List.map_cons, List.cons.injEq] at hsource htarget
      refine ⟨hsource.1.trans h.1, ?_⟩
      rw [htarget.1]
      exact ih h.2 hsource.2 htarget.2

/-! ### Times of walks -/

/-- A change does not depend on when the walk starts. -/
theorem Network.IsChange.congr {net : Network} {slacks : Slacks} {first second : Ride}
    {between others : List Leg} (h : net.IsChange slacks first between second)
    (heq : others.map Leg.untimed = between.map Leg.untimed) :
    net.IsChange slacks first others second := by
  rcases h with ⟨rfl, h⟩ | ⟨w, rfl, h⟩
  · exact .inl ⟨List.map_eq_nil_iff.mp heq, h⟩
  · obtain ⟨other, rfl, hother⟩ := List.map_eq_singleton_iff.mp heq
    cases other with
    | ride r => cases hother
    | walk w' =>
      obtain ⟨hsource, htarget, hduration⟩ :
          w'.source = w.source ∧ w'.target = w.target ∧ w'.duration = w.duration := by
        simpa [Leg.untimed, Stroll.untimed] using hother
      refine .inr ⟨w', rfl, ?_⟩
      rwa [hsource, htarget, hduration]

/-- Whether parts can be made does not depend on when their walks start. -/
theorem Network.Realizes.congr {net : Network} {request : Request} {access egress : Connector}
    {others : List Leg} (h : net.Realizes request access legs egress)
    (heq : others.map Leg.untimed = legs.map Leg.untimed) :
    net.Realizes request access others egress where
  access_mem := h.access_mem
  egress_mem := h.egress_mem
  joined := by
    refine h.joined.congr ?_ ?_
    · simpa [Function.comp_def, source_untimed] using congrArg (List.map Leg.source) heq
    · simpa [Function.comp_def, target_untimed] using congrArg (List.map Leg.target) heq
  offers := by
    intro r hr
    have hmem : Leg.ride r ∈ legs.map Leg.untimed := heq ▸ List.mem_map.mpr ⟨_, hr, rfl⟩
    obtain ⟨leg, hleg, hride⟩ := List.mem_map.mp hmem
    cases leg with
    | ride r' => exact h.offers r (Leg.ride.inj hride ▸ hleg)
    | walk stroll => cases hride
  declared := by
    intro w hw
    have hmem : (Leg.walk w).untimed ∈ legs.map Leg.untimed := heq ▸ List.mem_map.mpr ⟨_, hw, rfl⟩
    obtain ⟨leg, hleg, hwalk⟩ := List.mem_map.mp hmem
    cases leg with
    | ride r => cases hwalk
    | walk w' =>
      obtain ⟨hsource, htarget, hduration⟩ :
          w'.source = w.source ∧ w'.target = w.target ∧ w'.duration = w.duration := by
        simpa [Leg.untimed, Stroll.untimed] using hwalk
      rw [← hsource, ← htarget, ← hduration]
      exact h.declared w' hleg
  change := by
    intro before first between second after hlegs hwalks
    obtain ⟨before', between', after', hlegs', hbetween, hwalks'⟩ :=
      exists_of_untimed heq hlegs hwalks
    exact (h.change before' first between' second after' hlegs' hwalks').congr hbetween
  alternates := by
    have hrides : others.map Leg.isRide = legs.map Leg.isRide := by
      simpa [Function.comp_def, isRide_untimed] using congrArg (List.map Leg.isRide) heq
    rw [hrides]
    exact h.alternates

namespace LabelScene

variable {c : LabelScene} {course : Course} {s : Labels} {id previous : LabelId} {label : Label}
  {access : Connector} {time : Time} {ride : SearchRide} {date : Date}

/-! ### The parts of a trail -/

theorem runsOn_of_runs {net : Network} (hservices : c.services = net.servicesOn date) {trip : Trip}
    (hruns : c.runs trip = true) : net.RunsOn date trip := by
  rw [runs, hservices, List.contains_iff_mem, Network.servicesOn, List.mem_map] at hruns
  obtain ⟨⟨service, i⟩, hmem, hi⟩ := hruns
  obtain ⟨hmem, hdate⟩ := List.mem_filter.mp hmem
  have hget := List.mem_zipIdx_iff_getElem?.mp hmem
  simp only [Array.getElem?_toList] at hget
  dsimp only at hi
  subst hi
  exact ⟨service, hget, by simpa using hdate⟩

/-- The ride at a label is one that the network offers. -/
theorem Derived.offers (h : c.Derived course s label) (horigin : label.origin = .ride ride previous)
    (hnet : course.network.Sound) (hservices : c.services = course.network.servicesOn date) :
    course.network.Offers date (c.realRide ride label.stop) ∧
      (c.realRide ride label.stop).Timed := by
  obtain ⟨i, p, t, before, e, k, hp, ht, -, hboardStop, hboards, hstop, halights, hprecedes, -,
    hchosen, hride, -⟩ := h.ride_inv horigin hnet
  have htrip := hchosen.trip
  have hpattern := hnet.trip_pattern ht htrip
  have hfits := (hnet.timetable_sound hp ht).fits e.trip (Array.mem_of_getElem? htrip)
  have hboard_lt : ride.boardPosition < p.length := (Array.getElem?_eq_some_iff.mp hboardStop).1
  have halight_lt : ride.alightPosition < p.length := (Array.getElem?_eq_some_iff.mp hstop).1
  have heq : ride.trip = e.trip ∧ ride.boardStop = before.stop := by
    rw [hride]
    exact ⟨rfl, hchosen.stop⟩
  have hruns := runsOn_of_runs hservices hchosen.runs
  have hmem := Array.mem_of_getElem? htrip
  rw [← heq.1] at hpattern hfits hruns hmem
  rw [← heq.2] at hboardStop
  unfold realRide
  cases hd : c.direction with
  | forward =>
    rw [hd] at hboards halights hprecedes
    refine ⟨⟨p, t, by rw [hpattern]; exact hp, by rw [hpattern]; exact ht, hmem, hruns,
      by simpa [Direction.precedes] using hprecedes, hboards, halights, hboardStop, hstop⟩, ?_, ?_⟩
    · exact hfits.boardTime hboard_lt .forward
    · exact hfits.alightTime halight_lt .forward
  | reverse =>
    rw [hd] at hboards halights hprecedes
    refine ⟨⟨p, t, by rw [hpattern]; exact hp, by rw [hpattern]; exact ht, hmem, hruns,
      by simpa [Direction.precedes] using hprecedes, halights, hboards, hstop, hboardStop⟩, ?_, ?_⟩
    · exact hfits.alightTime halight_lt .reverse
    · exact hfits.boardTime hboard_lt .reverse

/-- What is known of a label at the end of a walk. -/
theorem Derived.walk_inv {source : StopId} {duration : Span} (h : c.Derived course s label)
    (horigin : label.origin = .walk source duration previous) :
    label.onBoard = false ∧ ∃ before, s.arena[previous]? = some before ∧ before.onBoard = true ∧
      before.stop = source ∧ source ≠ label.stop ∧
      course.network.HasWalk (match c.direction with
        | .forward => ⟨source, label.stop, duration⟩
        | .reverse => ⟨label.stop, source, duration⟩) := by
  cases h with
  | access | ride => cases horigin
  | @walk id before w hbefore honBoard hwalk hsource htarget =>
    obtain ⟨rfl, rfl, rfl⟩ := Origin.walk.inj horigin
    refine ⟨rfl, before, hbefore, honBoard, rfl, htarget.symm, ?_⟩
    rw [← hsource]
    cases hd : c.direction <;> simpa [walked, hd, Direction.walkSource,
      Direction.walkTarget] using hwalk

theorem realWalk_source_ne {source target : StopId} {duration : Span} (h : source ≠ target) :
    (c.realWalk source target duration).source ≠ (c.realWalk source target duration).target := by
  unfold realWalk
  cases c.direction with
  | forward => exact h
  | reverse => exact h.symm

/-- Parts, the last one in the sense of the search in front, lead from one stop to another in that
sense. -/
def Leads (c : LabelScene) (start : StopId) (legs : List Leg) (stop : StopId) : Prop :=
  match c.direction with
  | .forward => Joined start legs.reverse stop
  | .reverse => Joined stop legs start

theorem leads_nil : c.Leads start [] start := by
  unfold Leads
  cases c.direction <;> rfl

theorem Leads.cons {middle : StopId} (h : c.Leads start legs middle)
    (hends : match c.direction with
      | .forward => leg.source = middle ∧ leg.target = stop
      | .reverse => leg.target = middle ∧ leg.source = stop) :
      c.Leads start (leg :: legs) stop := by
  unfold Leads at h ⊢
  cases hd : c.direction with
  | forward =>
    simp only [hd] at hends h ⊢
    rw [List.reverse_cons, joined_snoc, hends.1]
    exact ⟨h, hends.2⟩
  | reverse =>
    simp only [hd] at hends h ⊢
    refine ⟨hends.2, ?_⟩
    rwa [hends.1]

namespace Traces

/-- A trail starts with a leg of the request. -/
theorem access_mem (h : c.Traces s access time id legs) (hj : c.Justified course s) :
    access ∈ course.access := by
  obtain ⟨_, label, hlabel, horigin, -⟩ := h.exists_origin
  cases hj.label hlabel with
  | access hleg =>
    obtain rfl := Origin.access.inj horigin
    exact hleg
  | ride | walk => cases horigin

theorem offers (h : c.Traces s access time id legs) (hj : c.Justified course s)
    (hnet : course.network.Sound) (hservices : c.services = course.network.servicesOn date) :
    ∀ r, .ride r ∈ legs → course.network.Offers date r ∧ r.Timed := by
  induction h with
  | access => simp
  | ride hlabel horigin _ ih =>
    intro r hr
    rcases List.mem_cons.mp hr with heq | hr
    · obtain rfl := Leg.ride.inj heq
      exact (hj.label hlabel).offers horigin hnet hservices
    · exact ih r hr
  | walk _ _ _ ih =>
    intro r hr
    rcases List.mem_cons.mp hr with heq | hr
    · cases heq
    · exact ih r hr

theorem declared (h : c.Traces s access time id legs) (hj : c.Justified course s) :
    ∀ w, .walk w ∈ legs →
      w.source ≠ w.target ∧ course.network.HasWalk ⟨w.source, w.target, w.duration⟩ := by
  induction h with
  | access => simp
  | ride _ _ _ ih =>
    intro w hw
    rcases List.mem_cons.mp hw with heq | hw
    · cases heq
    · exact ih w hw
  | walk hlabel horigin _ ih =>
    intro w hw
    rcases List.mem_cons.mp hw with heq | hw
    · obtain rfl := Leg.walk.inj heq
      obtain ⟨-, before, -, -, -, hne, hwalk⟩ := (hj.label hlabel).walk_inv horigin
      refine ⟨realWalk_source_ne hne, ?_⟩
      unfold realWalk
      cases hd : c.direction <;> simpa [hd, Stroll.untimed] using hwalk
    · exact ih w hw

/-- A label is on board if its trail ends with a ride. -/
theorem onBoard_eq (h : c.Traces s access time id legs) (hlabel : s.arena[id]? = some label) :
    label.onBoard = match legs with
      | [] => access.onBoard
      | leg :: _ => leg.isRide := by
  cases h with
  | access hlabel' horigin | ride hlabel' horigin | walk hlabel' horigin =>
    obtain rfl := Option.some.inj (hlabel.symm.trans hlabel')
    rw [Label.onBoard, horigin]
    rfl

/-- Walks do not follow each other in a trail, nor a leg that walks to its start. -/
theorem alternates (h : c.Traces s access time id legs) (hj : c.Justified course s) :
    (legs.map Leg.isRide ++ [access.onBoard]).IsChain
      fun rides rides' => rides = true ∨ rides' = true := by
  induction h with
  | access => exact .singleton _
  | ride _ _ _ ih =>
    rw [List.map_cons, List.cons_append, List.isChain_cons]
    exact ⟨fun _ _ => .inl rfl, ih⟩
  | @walk _ _ _ _ _ legs hlabel horigin before ih =>
    rw [List.map_cons, List.cons_append, List.isChain_cons]
    refine ⟨fun rides hrides => .inr ?_, ih⟩
    obtain ⟨-, label, hbefore, honBoard, -⟩ := (hj.label hlabel).walk_inv horigin
    rw [before.onBoard_eq hbefore] at honBoard
    cases legs with
    | nil =>
      obtain rfl := Option.some.inj hrides
      exact honBoard
    | cons leg legs =>
      obtain rfl := Option.some.inj hrides
      exact honBoard

/-- The parts of a trail lead from its first leg to its label. -/
theorem leads (h : c.Traces s access time id legs) (hj : c.Justified course s)
    (hnet : course.network.Sound) (hlabel : s.arena[id]? = some label) :
    c.Leads access.stop legs label.stop := by
  induction h generalizing label with
  | access hlabel' horigin =>
    obtain rfl := Option.some.inj (hlabel.symm.trans hlabel')
    cases hj.label hlabel with
    | access hleg =>
      obtain rfl := Origin.access.inj horigin
      exact leads_nil
    | ride | walk => cases horigin
  | ride hlabel' horigin _ ih =>
    obtain rfl := Option.some.inj (hlabel.symm.trans hlabel')
    obtain ⟨_, _, _, before, e, _, -, -, hbefore, -, -, -, -, -, -, hchosen, hride, -⟩ :=
      (hj.label hlabel).ride_inv horigin hnet
    refine (ih hbefore).cons ?_
    have hboardStop := congrArg SearchRide.boardStop hride
    rw [show (c.rideOf _ e).boardStop = before.stop from hchosen.stop] at hboardStop
    unfold realRide
    cases c.direction with
    | forward => exact ⟨hboardStop, rfl⟩
    | reverse => exact ⟨hboardStop, rfl⟩
  | walk hlabel' horigin _ ih =>
    obtain rfl := Option.some.inj (hlabel.symm.trans hlabel')
    obtain ⟨-, before, hbefore, -, rfl, -⟩ := (hj.label hlabel).walk_inv horigin
    refine (ih hbefore).cons ?_
    unfold realWalk
    cases c.direction with
    | forward => exact ⟨rfl, rfl⟩
    | reverse => exact ⟨rfl, rfl⟩

end Traces

end LabelScene

end JourneyPlanner
