import Mathlib.Algebra.Group.Prod
import JourneyPlanner.Proofs.Refinement.Ends

/-!
# Scores as numbers of any size

What the transfers of a journey cost is added up transfer by transfer, and so is the score of a
tail: a ride and a connection in front of a tail add the same to its score wherever the rides of the
tail are left. The boarding of the head, which a tail does not pay for, is made up for when the head
is reached.

* `transferPrices`: the priority and the cost of waits of transfers.
* `Pricing.tailScore`: the score of the legs of a tail.
* `Pricing.changeScore`, `Pricing.startScore`: what a change to a tail, and the way to its head, add.
* `Pricing.tailScore_prepend`, `Pricing.score_eq_ok`: they add up.
-/

namespace JourneyPlanner

open Itinerary (CostState spans)

/-! ### Transfers -/

/-- The cost of the wait in a transfer to a ride under a constraint, if waits count. -/
def waitPrice (penalty : Option WaitPenalty) (constraint : Constraint) (wait : Span) : Cost :=
  match penalty, constraint with
  | none, _ => 0
  | some _, .staySeated => WaitPenalty.staySeatedCost
  | some _, .guaranteed => WaitPenalty.guaranteedCost
  | some penalty, _ =>
    match penalty.cost wait with
    | .ok seconds => Cost.ofFloat seconds
    | .error _ => 0

/-- The priority and the cost of waits of the transfers among some parts, once the last ride ended,
if there was one, and some seconds were walked since. -/
def transferPrices (penalty : Option WaitPenalty) : Option Time → Span → List Leg → Cost × Cost
  | _, _, [] => 0
  | alighting, walked, .walk stroll :: rest =>
    transferPrices penalty alighting (walked + stroll.duration) rest
  | none, _, .ride r :: rest => transferPrices penalty (some r.arrives) 0 rest
  | some alighting, walked, .ride r :: rest =>
    (r.constraint.priorityCost, waitPrice penalty r.constraint (r.departs - alighting - walked)) +
      transferPrices penalty (some r.arrives) 0 rest

section

variable {penalty : Option WaitPenalty} {legs others between : List Leg} {alighting : Option Time}
  {walked : Span} {r : Ride}

theorem transferPrices_untimed : transferPrices penalty alighting walked (legs.map Leg.untimed) =
    transferPrices penalty alighting walked legs := by
  induction legs generalizing alighting walked with
  | nil => rfl
  | cons leg rest ih =>
    cases leg with
    | walk stroll => exact ih
    | ride r =>
      cases alighting with
      | none => exact ih
      | some alighting => exact congrArg (_ + ·) ih

/-- The transfers have the same price whenever the walks are made. -/
theorem transferPrices_congr (h : others.map Leg.untimed = legs.map Leg.untimed) :
    transferPrices penalty alighting walked others =
      transferPrices penalty alighting walked legs := by
  rw [← transferPrices_untimed, h, transferPrices_untimed]

/-- Walks only move the next ride further from the last one. -/
theorem transferPrices_walks (hwalks : ∀ leg ∈ between, leg.isRide = false) :
    transferPrices penalty alighting walked (between ++ legs) =
      transferPrices penalty alighting (walked + spans between) legs := by
  induction between generalizing walked with
  | nil => simp
  | cons leg rest ih =>
    cases leg with
    | ride r => exact absurd (hwalks (.ride r) List.mem_cons_self) (by simp [Leg.isRide])
    | walk stroll =>
      rw [List.cons_append, transferPrices,
        ih fun leg hleg => hwalks leg (List.mem_cons_of_mem _ hleg), Itinerary.spans_cons,
        ← Int.add_assoc]
      rfl

/-- The cost of a wait is its price in numbers of any size. -/
theorem waitCost_eq_ok {penalty : WaitPenalty} {alighting : Time} {cost : Cost}
    (h : waitCost penalty r alighting walked = .ok cost) :
    cost = waitPrice (some penalty) r.constraint (r.departs - alighting - walked) := by
  have hregular : ∀ {cost}, (do
      let between ← word ((← r.boardTime) - alighting)
      let wait ← word (between - walked)
      return Cost.ofFloat (← penalty.cost wait)) = .ok cost →
      ∃ seconds, penalty.cost (r.departs - alighting - walked) = .ok seconds ∧
        cost = Cost.ofFloat seconds := by
    intro cost h
    obtain ⟨boardTime, hboard, h⟩ := bind_eq_ok.mp h
    obtain ⟨between, hbetween, h⟩ := bind_eq_ok.mp h
    obtain ⟨wait, hwait, h⟩ := bind_eq_ok.mp h
    obtain ⟨seconds, hseconds, h⟩ := bind_eq_ok.mp h
    cases h
    rw [← (word_eq_ok.mp hwait).2, ← (word_eq_ok.mp hbetween).2,
      Ride.boardTime_eq_ok hboard] at hseconds
    exact ⟨seconds, hseconds, rfl⟩
  unfold waitCost at h
  cases hconstraint : r.constraint with
  | staySeated | guaranteed =>
    rw [hconstraint] at h
    cases h
    rfl
  | regular | minTime | notAllowed =>
    rw [hconstraint] at h
    obtain ⟨seconds, hseconds, rfl⟩ := hregular h
    simp only [waitPrice, hseconds]

/-- The costs of transfers after some parts are those before, and the prices of the parts. -/
theorem addTransferCosts_eq_ok {state ending : TransferState}
    (h : legs.foldlM (addTransferCost penalty) state = .ok ending) :
    (ending.priority, ending.waiting) = (state.priority, state.waiting) +
      transferPrices penalty state.alighting state.walked legs := by
  induction legs generalizing state with
  | nil =>
    cases h
    rw [transferPrices, add_zero]
  | cons leg rest ih =>
    rw [List.foldlM_cons] at h
    obtain ⟨between, hleg, h⟩ := bind_eq_ok.mp h
    rw [ih h]
    cases leg with
    | walk stroll =>
      obtain ⟨walked, hwalked, hleg⟩ := bind_eq_ok.mp hleg
      cases hleg
      rw [transferPrices, (word_eq_ok.mp hwalked).2]
    | ride r =>
      have hafter : ∀ {priority waiting : Cost}, (do
          return (⟨priority, waiting, some (← r.alightTime), 0⟩ : TransferState)) = .ok between →
          between = ⟨priority, waiting, some r.arrives, 0⟩ := by
        intro priority waiting hafter
        obtain ⟨alightTime, halight, hafter⟩ := bind_eq_ok.mp hafter
        cases hafter
        rw [Ride.alightTime_eq_ok halight]
      rw [addTransferCost] at hleg
      cases halighting : state.alighting with
      | none =>
        rw [halighting] at hleg
        obtain rfl := hafter hleg
        rw [transferPrices]
      | some alighting =>
        rw [halighting] at hleg
        rw [transferPrices, ← add_assoc]
        obtain ⟨priority, hpriority, hleg⟩ := bind_eq_ok.mp hleg
        cases penalty with
        | none =>
          obtain rfl := hafter hleg
          rw [← (word_eq_ok.mp hpriority).2]
          exact congrArg (· + _) (Prod.ext rfl (add_zero state.waiting).symm)
        | some penalty =>
          obtain ⟨cost, hcost, hleg⟩ := bind_eq_ok.mp hleg
          obtain ⟨waiting, hwaiting, hleg⟩ := bind_eq_ok.mp hleg
          obtain rfl := hafter hleg
          rw [← (word_eq_ok.mp hpriority).2, ← (word_eq_ok.mp hwaiting).2, waitCost_eq_ok hcost]
          rfl

/-- The costs of the transfers between the rides of a journey. -/
theorem transferCosts_eq_ok {costs : Cost × Cost} (h : transferCosts penalty legs = .ok costs) :
    costs = transferPrices penalty none 0 legs := by
  obtain ⟨state, hstate, h⟩ := bind_eq_ok.mp h
  cases h
  exact (addTransferCosts_eq_ok hstate).trans (zero_add (transferPrices penalty none 0 legs))

end

/-! ### Scores -/

namespace TransferScore

instance : Add TransferScore where
  add score other := ⟨score.generalized + other.generalized, score.priority + other.priority,
    score.waiting + other.waiting⟩

/-- The score of a generalized cost and the costs of transfers. -/
def ofCosts (generalized : Cost) (costs : Cost × Cost) : TransferScore :=
  ⟨generalized, costs.1, generalized + costs.2⟩

/-- Scores add up part by part. -/
theorem ofCosts_add {generalized generalized' : Cost} {costs costs' : Cost × Cost} :
    ofCosts (generalized + generalized') (costs + costs') =
      ofCosts generalized costs + ofCosts generalized' costs' :=
  congrArg (TransferScore.mk _ _) (add_add_add_comm _ _ _ _)

end TransferScore

/-- The score of legs is their generalized cost with the prices of their transfers. -/
theorem scoreOf_eq_ok {penalty : Option WaitPenalty} {legs : List Leg} {generalized : Cost}
    {score : TransferScore} (h : scoreOf penalty legs generalized = .ok score) :
    score = .ofCosts generalized (transferPrices penalty none 0 legs) := by
  obtain ⟨costs, hcosts, h⟩ := bind_eq_ok.mp h
  obtain ⟨waiting, hwaiting, h⟩ := bind_eq_ok.mp h
  cases h
  rw [← transferCosts_eq_ok hcosts, ← (word_eq_ok.mp hwaiting).2]
  rfl

/-- The score of the legs of a tail, in numbers of any size. -/
def Pricing.tailScore (pricing : Pricing) (egress : Connector) : List Leg → TransferScore
  | .ride head :: rest =>
    .ofCosts
      (pricing.tariff.ridingPrice pricing.slacks.alight (head.arrives - head.departs) head.trip
          head.alightStop +
        ((CostState.afterRide pricing.slacks head).addAll pricing.tariff pricing.slacks rest).cost +
        egress.cost)
      (transferPrices pricing.penalty (some head.arrives) 0 rest)
  | _ => .ofCosts egress.cost 0

namespace Tail

variable {pricing : Pricing} {egress : Connector} {legs rest : List Leg} {head : Ride} {tail : Tail}

/-- The cost of a tail after a ride, given that up to its boarding. -/
theorem addRide_eq_ok {boarded : Cost} {state : CostState} (h : (do
      let riding ← pricing.tariff.ridingCost 0 pricing.slacks.alight (← head.duration) head.trip
        head.alightStop
      let cost ← word (boarded + riding)
      let alighting ← head.alightTime
      return (⟨cost, some (← word (alighting + pricing.slacks.alight)), alighting⟩ : CostState)) =
        .ok state) :
    state = ⟨boarded + pricing.tariff.ridingPrice pricing.slacks.alight
        (head.arrives - head.departs) head.trip head.alightStop,
      some (head.arrives + pricing.slacks.alight), head.arrives⟩ := by
  obtain ⟨duration, hduration, h⟩ := bind_eq_ok.mp h
  obtain ⟨riding, hriding, h⟩ := bind_eq_ok.mp h
  obtain ⟨cost, hcost, h⟩ := bind_eq_ok.mp h
  obtain ⟨alighting, halighting, h⟩ := bind_eq_ok.mp h
  obtain ⟨arrival, harrival, h⟩ := bind_eq_ok.mp h
  cases h
  have hspan : duration = head.arrives - head.departs := by
    obtain ⟨alightTime, halight, hduration⟩ := bind_eq_ok.mp hduration
    obtain ⟨boardTime, hboard, hduration⟩ := bind_eq_ok.mp hduration
    rw [← (word_eq_ok.mp hduration).2, Ride.alightTime_eq_ok halight, Ride.boardTime_eq_ok hboard]
  rw [← (word_eq_ok.mp hcost).2, ← (word_eq_ok.mp harrival).2,
    Tariff.yields_ridingCost.of_ok hriding, zero_add, hspan, Ride.alightTime_eq_ok halighting]

/-- After its head a tail adds up its cost like an itinerary. -/
theorem addLegCosts_eq_ok {state : Itinerary.CostState} {ending : CostState}
    (hfirst : state.first = false) (h : legs.foldlM (addLegCost pricing)
      ⟨state.cost, some state.arrival, state.alighting⟩ = .ok ending) :
    ending.cost = (state.addAll pricing.tariff pricing.slacks legs).cost := by
  induction legs generalizing state with
  | nil =>
    cases h
    rfl
  | cons leg rest ih =>
    rw [List.foldlM_cons] at h
    obtain ⟨between, hleg, h⟩ := bind_eq_ok.mp h
    rw [Itinerary.CostState.addAll_cons]
    cases leg with
    | walk stroll =>
      obtain ⟨price, hprice, hleg⟩ := bind_eq_ok.mp hleg
      obtain ⟨cost, hcost, hleg⟩ := bind_eq_ok.mp hleg
      obtain ⟨arrival, harrival, hleg⟩ := bind_eq_ok.mp hleg
      cases hleg
      apply ih (by exact hfirst)
      rw [← h, ← (word_eq_ok.mp hcost).2, ← (word_eq_ok.mp harrival).2,
        Tariff.yields_walkCost.of_ok hprice]
      rfl
    | ride r =>
      obtain ⟨boardTime, hboard, hleg⟩ := bind_eq_ok.mp hleg
      obtain ⟨boarding, hboarding, hleg⟩ := bind_eq_ok.mp hleg
      obtain ⟨boarded, hboarded, hleg⟩ := bind_eq_ok.mp hleg
      rw [← (word_eq_ok.mp hboarded).2, Tariff.yields_boardingCost.of_ok hboarding,
        Ride.boardTime_eq_ok hboard] at hleg
      obtain rfl := addRide_eq_ok hleg
      apply ih rfl
      rw [← h]
      simp only [Itinerary.CostState.add, Itinerary.CostState.since, hfirst, Bool.false_eq_true,
        if_false]

/-- The cost of a tail, given that of its head. -/
theorem addRest_eq_ok {spent : Cost} {ending : CostState} (h : rest.foldlM (addLegCost pricing)
      ⟨spent, some (head.arrives + pricing.slacks.alight), head.arrives⟩ = .ok ending) :
    ending.cost = spent +
      ((CostState.afterRide pricing.slacks head).addAll pricing.tariff pricing.slacks rest).cost := by
  let state : Itinerary.CostState := { CostState.afterRide pricing.slacks head with
    cost := spent + (CostState.afterRide pricing.slacks head).cost }
  have hspent : state.cost = spent := Int.add_zero spent
  have hcost : ending.cost = (state.addAll pricing.tariff pricing.slacks rest).cost := by
    apply addLegCosts_eq_ok rfl
    rw [hspent]
    exact h
  rw [hcost, Itinerary.CostState.addAll_spent]

/-- The tail of legs that start with a ride, with its score. -/
theorem ofLegs_ride_eq_ok (h : ofLegs pricing (.ride head :: rest) egress = .ok tail) :
    tail = ⟨.ride head :: rest, egress, pricing.tailScore egress (.ride head :: rest)⟩ := by
  obtain ⟨ending, hending, h⟩ := bind_eq_ok.mp h
  obtain ⟨generalized, hgeneralized, h⟩ := bind_eq_ok.mp h
  obtain ⟨score, hscore, h⟩ := bind_eq_ok.mp h
  cases h
  rw [List.foldlM_cons] at hending
  obtain ⟨between, hbetween, hending⟩ := bind_eq_ok.mp hending
  obtain rfl := addRide_eq_ok hbetween
  rw [scoreOf_eq_ok hscore, ← (word_eq_ok.mp hgeneralized).2, addRest_eq_ok hending, zero_add]
  rfl

end Tail

/-! ### Changes -/

def Ride.leftAt (r : Ride) (call : TripCall) : Ride :=
  { r with alightPosition := call.position, alightStop := call.stop }

/-- A ride that is boarded where a connection ends. -/
def Ride.boardedBy (r : Ride) (connection : Connection) : Ride :=
  { r with
    boardPosition := connection.target.position
    boardStop := connection.target.stop
    constraint := connection.constraint }

section

variable {r : Ride} {connection : Connection} {slacks : Slacks}

@[simp] theorem Ride.leftAt_trip {call : TripCall} : (r.leftAt call).trip = r.trip := rfl

@[simp] theorem Ride.leftAt_alightStop {call : TripCall} :
    (r.leftAt call).alightStop = call.stop := rfl

@[simp] theorem Ride.leftAt_departs {call : TripCall} :
    (r.leftAt call).departs = r.departs := rfl

@[simp] theorem Ride.boardedBy_trip : (r.boardedBy connection).trip = r.trip := rfl

@[simp] theorem Ride.boardedBy_boardStop :
    (r.boardedBy connection).boardStop = connection.target.stop := rfl

@[simp] theorem Ride.boardedBy_alightStop :
    (r.boardedBy connection).alightStop = r.alightStop := rfl

@[simp] theorem Ride.boardedBy_arrives : (r.boardedBy connection).arrives = r.arrives := rfl

@[simp] theorem afterRide_boardedBy :
    CostState.afterRide slacks (r.boardedBy connection) = CostState.afterRide slacks r := rfl

end

def Connection.walkLegs (connection : Connection) : List Leg :=
  match connection.walk with
  | some walk => [.walk (.untimed walk.source walk.target walk.duration)]
  | none => []

namespace Connection

variable {connection : Connection}

theorem walkLegs_walks : ∀ leg ∈ connection.walkLegs, leg.isRide = false := by
  unfold walkLegs
  cases connection.walk <;> simp [Leg.isRide]

theorem spans_walkLegs : spans connection.walkLegs = connection.walkDuration := by
  unfold walkLegs walkDuration
  cases connection.walk with
  | none => rfl
  | some walk => exact Int.add_zero _

end Connection

namespace Pricing

variable {pricing : Pricing} {egress : Connector} {ride next : Ride} {connection : Connection}
  {rest : List Leg}

/-- What a ride and the connection from it to the next ride add to the score of a tail. The next
ride counts from where it is boarded, not from where it was in the itinerary. -/
def changeScore (pricing : Pricing) (ride : Ride) (connection : Connection) (next : Ride) :
    TransferScore :=
  let left := ride.leftAt connection.source
  let boarded := next.boardedBy connection
  let ready := if boarded.constraint.isFacilitated then left.arrives
    else left.arrives + pricing.slacks.alight + connection.walkDuration
  .ofCosts
    (pricing.tariff.ridingPrice pricing.slacks.alight (left.arrives - left.departs) left.trip
        left.alightStop +
      pricing.tariff.walk * connection.walkDuration +
      pricing.tariff.boardingPrice false (boarded.departs - ready) boarded.boardStop boarded.trip
        boarded.constraint +
      pricing.tariff.transitFactor next.trip.reluctance * (next.departs - boarded.departs))
    (boarded.constraint.priorityCost, waitPrice pricing.penalty boarded.constraint
      (boarded.departs - left.arrives - connection.walkDuration))

/-- A ride in front of a tail adds the same to its score wherever the head of the tail is left. -/
theorem tailScore_prepend (call : TripCall) :
    pricing.tailScore egress (.ride (ride.leftAt connection.source) ::
      (connection.walkLegs ++ .ride ((next.leftAt call).boardedBy connection) :: rest)) =
    pricing.changeScore ride connection next +
      pricing.tailScore egress (.ride (next.leftAt call) :: rest) := by
  have hdeparts : ((next.leftAt call).boardedBy connection).departs =
      (next.boardedBy connection).departs := rfl
  have hconstraint : ((next.leftAt call).boardedBy connection).constraint =
      (next.boardedBy connection).constraint := rfl
  -- the head is charged for the time from where it is boarded now
  have hriding : pricing.tariff.ridingPrice pricing.slacks.alight
        ((next.leftAt call).arrives - (next.boardedBy connection).departs) next.trip call.stop =
      pricing.tariff.transitFactor next.trip.reluctance *
          (next.departs - (next.boardedBy connection).departs) +
        pricing.tariff.ridingPrice pricing.slacks.alight
          ((next.leftAt call).arrives - next.departs) next.trip call.stop := by
    rw [Tariff.ridingPrice, Tariff.ridingPrice]
    ring
  rw [tailScore, tailScore, changeScore, ← TransferScore.ofCosts_add]
  congr 1
  · rw [CostState.addAll_next_cost Connection.walkLegs_walks, Connection.spans_walkLegs, hdeparts,
      hconstraint]
    simp only [Ride.boardedBy_trip, Ride.boardedBy_boardStop, Ride.boardedBy_alightStop,
      Ride.boardedBy_arrives, afterRide_boardedBy, Ride.leftAt_trip, Ride.leftAt_alightStop,
      Ride.leftAt_departs]
    rw [hriding]
    ring
  · rw [transferPrices_walks Connection.walkLegs_walks, transferPrices, Connection.spans_walkLegs,
      zero_add, hdeparts, hconstraint, Ride.boardedBy_arrives]

/-- What the way to the first ride of an itinerary adds to the score of a tail. -/
def startScore (pricing : Pricing) (access : Connector) (walks : List Leg) (first : Ride) :
    TransferScore :=
  let ready := (CostState.start pricing.slacks access (spans walks) first).addAll pricing.tariff
    pricing.slacks walks
  .ofCosts
    (ready.cost + pricing.tariff.boardingPrice ready.first
      (first.departs - ready.since pricing.slacks first) first.boardStop first.trip
      first.constraint) 0

/-- The score of an itinerary is that of the tail which starts with its first ride, and what the way
to this ride adds. -/
theorem score_eq_ok {access : Connector} {walks : List Leg} {first : Ride} {departure : Time}
    {it : Itinerary} {scored : ScoredItinerary} (hwalks : ∀ leg ∈ walks, leg.isRide = false)
    (hnew : Itinerary.new access (walks ++ .ride first :: rest) egress pricing.slacks pricing.tariff
      departure = .ok it) (hscored : ScoredItinerary.new pricing.penalty it = .ok scored) :
    scored.score = pricing.startScore access walks first +
      pricing.tailScore egress (.ride first :: rest) := by
  obtain ⟨-, -, huntimed, htimed, -⟩ := Itinerary.new_eq_ok hnew
  have hrest : Itinerary.AllTimed (.ride first :: rest) := fun r hr =>
    htimed r (List.mem_append_right _ hr)
  obtain ⟨-, -, -, -, -, hcost⟩ := (Itinerary.yields_new_walks hwalks hrest).of_ok hnew
  obtain ⟨score, hscore, hscored⟩ := bind_eq_ok.mp hscored
  cases hscored
  rw [scoreOf_eq_ok hscore, transferPrices_congr huntimed, transferPrices_walks hwalks,
    transferPrices, startScore, tailScore, ← TransferScore.ofCosts_add, hcost, zero_add,
    CostState.addAll_append, CostState.addAll_ride_cost]
  refine congrArg (TransferScore.ofCosts · _) ?_
  rw [CostState.add]
  ring

end Pricing

end JourneyPlanner
