import Mathlib.Algebra.Order.Group.Int
import Mathlib.Algebra.Order.Monoid.Prod
import Mathlib.Data.List.Chain
import Mathlib.Data.List.DropRight
import JourneyPlanner.Proofs.Refinement.Inside
import JourneyPlanner.Proofs.Refinement.Scores

/-!
# The best choice of transfers

An itinerary is rebuilt ride by ride from its end, and only one tail is kept for every connection to
its head. No choice is lost by this. A connection adds the same to the scores of all tails that it
can lead to, so the best of them stays the best, and whether it can be led to only depends on the
connection from its head.

* `IsChoice`, `Itinerary.rebuild`: a choice of connections, and the itinerary with these transfers.
* `RefinementScene.rank`: what is compared between choices.
* `RefinementScene.KeepsBest`: the tails that are kept stand for all choices.
* `RefinementScene.refine_best`: the refined itinerary is the best among all choices.
-/

namespace JourneyPlanner

/-! ### Choices of connections -/

/-- One connection from each list, so that every ride is boarded before it is left. -/
structure IsChoice (alternatives : List (List Connection)) (choice : List Connection) : Prop where
  mem : List.Forall₂ (· ∈ ·) choice alternatives
  inOrder : choice.IsChain fun connection next => connection.target.position < next.source.position

/-- The parts from a ride on, through the rides after it by the connections of a choice, and then to
the end. -/
def through (after : List Leg) : Ride → List Ride → List Connection → List Leg
  | ride, next :: rest, connection :: choice =>
    .ride (ride.leftAt connection.source) ::
      (connection.walkLegs ++ through after (next.boardedBy connection) rest choice)
  | ride, _, _ => .ride ride :: after

namespace Itinerary

def walksFirst (it : Itinerary) : List Leg := it.legs.takeWhile fun leg => !leg.isRide

def walksLast (it : Itinerary) : List Leg := it.legs.rtakeWhile fun leg => !leg.isRide

theorem isRide_walksLast {it : Itinerary} : ∀ leg ∈ it.walksLast, leg.isRide = false := by
  intro leg hleg
  simpa using List.mem_rtakeWhile_imp hleg

/-- An itinerary with the transfers of a choice. It has the same ends: the walks and the boarding of
the first ride, the alighting of the last ride and the walks after it. -/
def rebuild (pricing : Pricing) (it : Itinerary) (choice : List Connection) :
    Checked ScoredItinerary := do
  match it.rides with
  | [] => ScoredItinerary.new pricing.penalty it
  | first :: rest =>
    let legs := it.walksFirst ++ through it.walksLast first rest choice
    let rebuilt ← Itinerary.new it.access.leg legs it.egress.leg pricing.slacks pricing.tariff
      it.startTime
    ScoredItinerary.new pricing.penalty rebuilt

/-- An itinerary can be rebuilt when all rides that the choice leads through have times. -/
theorem yields_rebuild_of_timed {pricing : Pricing} {it : Itinerary} {choice : List Connection}
    {first : Ride} {rest : List Ride} (hrides : it.rides = first :: rest)
    (hpenalty : Pricing.Safe pricing.penalty)
    (hthrough : AllTimed (through it.walksLast first rest choice)) :
    Yields (it.rebuild pricing choice) fun _ => True := by
  have htimed : AllTimed (it.walksFirst ++ through it.walksLast first rest choice) :=
    allTimed_append.mpr ⟨.of_walks isRide_takeWhile, hthrough⟩
  rw [rebuild, hrides]
  apply (yields_new htimed).bind
  intro rebuilt _ hrebuilt
  obtain ⟨-, -, huntimed⟩ := hrebuilt
  apply (ScoredItinerary.yields_new hpenalty (htimed.of_untimed huntimed)).mono
  intro _ _ _
  trivial

end Itinerary

/-- A choice takes a connection from every list, so none of them is empty. -/
theorem IsChoice.ne_nil {alternatives : List (List Connection)}
    {choice connections : List Connection}
    (h : IsChoice alternatives choice) (hmem : connections ∈ alternatives) : connections ≠ [] := by
  obtain ⟨hchoice, -⟩ := h
  induction hchoice with
  | nil => cases hmem
  | cons hconnection _ ih =>
    rcases List.mem_cons.mp hmem with rfl | hmem
    · exact List.ne_nil_of_mem hconnection
    · exact ih hmem

section

variable {after : List Leg} {ride next : Ride} {rest : List Ride} {choice : List Connection}
  {connection : Connection}

/-- The parts from a ride on start with it, wherever it is boarded. -/
theorem exists_through (after : List Leg) (ride : Ride) (rest : List Ride)
    (choice : List Connection) :
    ∃ call parts, through after ride rest choice = .ride (ride.leftAt call) :: parts ∧
      ∀ connection, through after (ride.boardedBy connection) rest choice =
        .ride ((ride.leftAt call).boardedBy connection) :: parts := by
  cases rest with
  | nil => exact ⟨⟨ride.trip, ride.alightPosition, ride.alightStop, 0⟩, after, rfl, fun _ => rfl⟩
  | cons next rest =>
    cases choice with
    | nil => exact ⟨⟨ride.trip, ride.alightPosition, ride.alightStop, 0⟩, after, rfl, fun _ => rfl⟩
    | cons connection choice => exact ⟨connection.source, _, rfl, fun _ => rfl⟩

/-- A ride in front of the parts that a choice leads through, with one more connection. -/
theorem prependLegs_through : Tail.prependLegs ride connection (through after next rest choice) =
    through after ride (next :: rest) (connection :: choice) := by
  obtain ⟨call, parts, hparts, hboarded⟩ := exists_through after next rest choice
  rw [through, hboarded, hparts]
  rfl

theorem boardHead_through : Tail.boardHead ride.boardPosition ride.boardStop ride.constraint
    (through after ride rest choice) = through after ride rest choice := by
  obtain ⟨call, parts, hparts, -⟩ := exists_through after ride rest choice
  rw [hparts]
  rfl

/-- A connection adds the same to the scores of all tails that it leads to. -/
theorem Pricing.tailScore_through {pricing : Pricing} {egress : Connector} :
    pricing.tailScore egress (through after ride (next :: rest) (connection :: choice)) =
      pricing.changeScore ride connection next +
        pricing.tailScore egress (through after next rest choice) := by
  obtain ⟨call, parts, hparts, hboarded⟩ := exists_through after next rest choice
  rw [through, hboarded, hparts]
  exact Pricing.tailScore_prepend call

end

namespace ConnectionScene

variable {s : ConnectionScene} {source : TripCall} {stop : StopId} {walk : Option Walk}
  {p : Pattern} {trip : Trip} {ride next : Ride} {position boardPosition : Nat}
  {connection : Connection} {found : List Connection}

/-- A connection ends where it is asked for. -/
theorem target_of_connectionAt?
    (h : s.connectionAt? source stop walk p trip position = .ok (some connection)) :
    connection.target.position = position := by
  obtain ⟨stopThere, -, h⟩ := bind_eq_ok.mp h
  dsimp only at h
  split at h
  · cases h
  obtain ⟨boards, -, h⟩ := bind_eq_ok.mp h
  split at h
  · cases h
  obtain ⟨target, htarget, h⟩ := bind_eq_ok.mp h
  obtain ⟨feasible, -, h⟩ := bind_eq_ok.mp h
  split at h
  · cases h
    obtain ⟨time, -, htarget⟩ := bind_eq_ok.mp htarget
    cases htarget
    rfl
  · cases h

/-- Connections to a ride end before it is left. -/
theorem target_of_mem_connectionsTo (h : s.connectionsTo source stop walk next = .ok found)
    (hmem : connection ∈ found) : connection.target.position < next.alightPosition := by
  obtain ⟨p, -, h⟩ := bind_eq_ok.mp h
  obtain ⟨results, hresults, h⟩ := bind_eq_ok.mp h
  cases h
  obtain ⟨_, hresult, rfl⟩ := List.mem_filterMap.mp hmem
  obtain ⟨position, hposition, hconnection⟩ := exists_of_mem_mapM hresults hresult
  rw [target_of_connectionAt? hconnection]
  exact List.mem_range.mp hposition

theorem target_of_mem_connectionsFrom (h : s.connectionsFrom ride next p position = .ok found)
    (hmem : connection ∈ found) : connection.target.position < next.alightPosition := by
  obtain ⟨alights, -, h⟩ := bind_eq_ok.mp h
  split at h
  · cases h
    cases hmem
  obtain ⟨stop, -, h⟩ := bind_eq_ok.mp h
  obtain ⟨source, -, h⟩ := bind_eq_ok.mp h
  obtain ⟨there, hthere, h⟩ := bind_eq_ok.mp h
  obtain ⟨walks, -, h⟩ := bind_eq_ok.mp h
  obtain ⟨byWalk, hbyWalk, h⟩ := bind_eq_ok.mp h
  cases h
  rcases List.mem_append.mp hmem with hmem | hmem
  · exact target_of_mem_connectionsTo hthere hmem
  · obtain ⟨part, hpart, hmem⟩ := List.mem_flatten.mp hmem
    obtain ⟨walk, -, hfound⟩ := exists_of_mem_mapM hbyWalk hpart
    exact target_of_mem_connectionsTo hfound hmem

/-- Every connection boards the next ride before the position where that ride is left. -/
theorem target_of_mem_connections (h : s.connections ride boardPosition next = .ok found)
    (hmem : connection ∈ found) : connection.target.position < next.alightPosition := by
  obtain ⟨p, -, h⟩ := bind_eq_ok.mp h
  obtain ⟨parts, hparts, h⟩ := bind_eq_ok.mp h
  cases h
  obtain ⟨part, hpart, hmem⟩ := List.mem_flatten.mp hmem
  obtain ⟨position, -, hfound⟩ := exists_of_mem_mapM hparts hpart
  exact target_of_mem_connectionsFrom hfound hmem

/-- There is one list of connections to each ride but the first one, all of which end before this
ride is left. -/
theorem forall₂_alternativesFrom {rest : List Ride} {alternatives : List (List Connection)}
    (h : s.alternativesFrom boardPosition ride rest = .ok alternatives) :
    List.Forall₂ (fun next connections => ∀ connection ∈ connections,
      connection.target.position < next.alightPosition) rest alternatives := by
  induction rest generalizing boardPosition ride alternatives with
  | nil =>
    cases h
    exact .nil
  | cons next rest ih =>
    obtain ⟨found, hfound, h⟩ := bind_eq_ok.mp h
    obtain ⟨others, hothers, h⟩ := bind_eq_ok.mp h
    cases h
    refine .cons ?_ (ih hothers)
    intro connection hmem
    exact target_of_mem_connections hfound hmem

end ConnectionScene

namespace RefinementScene

variable {α : Type} {c : RefinementScene} {pricing : Pricing} {after : List Leg}
  {egress : Connector} {ride next : Ride} {rest : List Ride} {connections : List Connection}
  {alternatives : List (List Connection)} {tails : List Tail} {it : Itinerary}

/-! ### Comparing scores -/

/-- What choices of transfers are compared by: the priority of the transfers, then the cost with
waits if they count, then the generalized cost. -/
def rank (c : RefinementScene) (score : TransferScore) : ℤ ×ₗ ℤ ×ₗ ℤ :=
  toLex (score.priority, toLex (if c.options.weighWaits then score.waiting else 0,
    score.generalized))

/-- Ranks add up like scores. -/
theorem rank_add {score other : TransferScore} :
    c.rank (score + other) = c.rank score + c.rank other := by
  unfold rank
  split
  · rfl
  · rfl

/-- What is added to two scores does not matter to their order. -/
theorem rank_add_le_iff {added score other : TransferScore} :
    c.rank (added + score) ≤ c.rank (added + other) ↔ c.rank score ≤ c.rank other := by
  rw [rank_add, rank_add]
  exact add_le_add_iff_left _

/-- What is kept are the elements with the least cost. -/
theorem mem_keepLeast {cost : α → Cost} {xs : List α} {x : α} :
    x ∈ keepLeast cost xs ↔ x ∈ xs ∧ ∀ y ∈ xs, cost x ≤ cost y := by
  unfold keepLeast
  cases hmin : (xs.map cost).min? with
  | none =>
    obtain rfl : xs = [] := by simpa using hmin
    simp
  | some least =>
    obtain ⟨hmem, hleast⟩ := List.min?_eq_some_iff.mp hmin
    rw [List.mem_filter, beq_iff_eq]
    refine and_congr_right fun hx => ?_
    constructor
    · rintro rfl y hy
      exact hleast _ (List.mem_map_of_mem hy)
    · intro hx'
      obtain ⟨y, hy, rfl⟩ := List.mem_map.mp hmem
      exact le_antisymm (hx' y hy) (hleast _ (List.mem_map_of_mem hx))

/-- An element costs more than one whose cost is least, or its cost is least, too. -/
theorem lt_or_mem_keepLeast {cost : α → Cost} {xs : List α} {x y : α} (hx : x ∈ keepLeast cost xs)
    (hy : y ∈ xs) : cost x < cost y ∨ (cost x = cost y ∧ y ∈ keepLeast cost xs) := by
  have hleast := (mem_keepLeast.mp hx).2
  rcases (hleast y hy).lt_or_eq with hlt | heq
  · exact .inl hlt
  · exact .inr ⟨heq, mem_keepLeast.mpr ⟨hy, fun z hz => heq ▸ hleast z hz⟩⟩

theorem keepLeast_eq_nil_iff {cost : α → Cost} {xs : List α} :
    keepLeast cost xs = [] ↔ xs = [] := by
  constructor
  · intro h
    cases hmin : (xs.map cost).min? with
    | none => simpa using hmin
    | some least =>
      obtain ⟨hmem, hleast⟩ := List.min?_eq_some_iff.mp hmin
      obtain ⟨x, hx, rfl⟩ := List.mem_map.mp hmem
      have hkept : x ∈ keepLeast cost xs :=
        mem_keepLeast.mpr ⟨hx, fun y hy => hleast _ (List.mem_map_of_mem hy)⟩
      rw [h] at hkept
      cases hkept
  · rintro rfl
    rfl

/-- The best candidate is at least as good as all. -/
theorem rank_best?_le {score : α → TransferScore} {xs : List α} {x : α}
    (h : c.best? score xs = some x) : ∀ y ∈ xs, c.rank (score x) ≤ c.rank (score y) := by
  have hx : x ∈ c.keepBest score xs := List.mem_of_head? h
  intro y hy
  unfold keepBest at hx
  unfold rank
  rw [Prod.Lex.toLex_le_toLex, Prod.Lex.toLex_le_toLex]
  dsimp only at hx ⊢
  obtain ⟨hkept, hleast⟩ := mem_keepLeast.mp hx
  -- candidates that are as good in one respect are compared in the next
  split at hkept
  case isTrue hweighs =>
    rw [if_pos hweighs] at hleast
    rw [if_pos hweighs, if_pos hweighs]
    rcases lt_or_mem_keepLeast (mem_keepLeast.mp hkept).1 hy with hlt | ⟨hpriority, hy⟩
    · exact .inl hlt
    rcases lt_or_mem_keepLeast hkept hy with hlt | ⟨hwaiting, hy⟩
    · exact .inr ⟨hpriority, .inl hlt⟩
    exact .inr ⟨hpriority, .inr ⟨hwaiting, hleast y hy⟩⟩
  case isFalse hweighs =>
    rw [if_neg hweighs] at hleast
    rw [if_neg hweighs, if_neg hweighs]
    rcases lt_or_mem_keepLeast hkept hy with hlt | ⟨hpriority, hy⟩
    · exact .inl hlt
    exact .inr ⟨hpriority, .inr ⟨rfl, hleast y hy⟩⟩

/-- There is a best candidate unless there are none. -/
theorem best?_eq_none_iff {score : α → TransferScore} {xs : List α} :
    c.best? score xs = none ↔ xs = [] := by
  rw [best?, List.head?_eq_none_iff, keepBest, keepLeast_eq_nil_iff]
  split
  · rw [keepLeast_eq_nil_iff, keepLeast_eq_nil_iff]
  · rw [keepLeast_eq_nil_iff]

/-! ### Tails that stand for all choices -/

/-- The tail that starts with a ride and goes on by the connections of a choice. -/
def tailOf (pricing : Pricing) (after : List Leg) (egress : Connector) (ride : Ride)
    (rest : List Ride) (choice : List Connection) : Tail :=
  let legs := through after ride rest choice
  ⟨legs, egress, pricing.tailScore egress legs⟩

/-- Where the head of a tail is left: where the first connection of the choice starts. -/
def leavesAt (ride : Ride) (choice : List Connection) : Nat :=
  match choice.head? with
  | some connection => connection.source.position
  | none => ride.alightPosition

/-- All tails come from choices, and for every choice there is a tail that is at least as good and
whose head is left by the same connection. -/
structure KeepsBest (c : RefinementScene) (pricing : Pricing) (after : List Leg)
    (egress : Connector) (ride : Ride) (rest : List Ride) (alternatives : List (List Connection))
    (tails : List Tail) : Prop where
  chosen : ∀ tail ∈ tails, ∃ choice, IsChoice alternatives choice ∧
    tail = tailOf pricing after egress ride rest choice
  best : ∀ choice, IsChoice alternatives choice → ∃ other, IsChoice alternatives other ∧
    other.head? = choice.head? ∧ tailOf pricing after egress ride rest other ∈ tails ∧
    c.rank (tailOf pricing after egress ride rest other).score ≤
      c.rank (tailOf pricing after egress ride rest choice).score

/-- The head may be boarded at the positions before the one where the choice leaves it. -/
theorem canBoardAt_tailOf {choice : List Connection} {position : Nat}
    (hlength : choice.length = rest.length) :
    (tailOf pricing after egress ride rest choice).canBoardAt position = true ↔
      position < leavesAt ride choice := by
  cases rest with
  | nil =>
    obtain rfl := List.length_eq_zero_iff.mp hlength
    exact decide_eq_true_iff
  | cons next rest =>
    cases choice with
    | nil => cases hlength
    | cons connection choice => exact decide_eq_true_iff

/-- The tail of the last ride stands for the choice of nothing. -/
theorem keepsBest_last :
    c.KeepsBest pricing after egress ride [] [] [tailOf pricing after egress ride [] []] where
  chosen := by
    intro tail htail
    exact ⟨[], ⟨.nil, .nil⟩, List.mem_singleton.mp htail⟩
  best := by
    rintro choice ⟨hmem, -⟩
    cases hmem
    exact ⟨[], ⟨.nil, .nil⟩, rfl, List.mem_singleton_self _, le_rfl⟩

/-- A connection that ends before the head of a choice is left may be put in front of it. -/
theorem isChoice_cons_iff {choice : List Connection} {connection : Connection}
    (hbefore : connection ∈ connections → connection.target.position < next.alightPosition) :
    IsChoice (connections :: alternatives) (connection :: choice) ↔
      connection ∈ connections ∧ connection.target.position < leavesAt next choice ∧
        IsChoice alternatives choice := by
  have hhead : connection ∈ connections → (connection.target.position < leavesAt next choice ↔
      ∀ first ∈ choice.head?, connection.target.position < first.source.position) := by
    intro hmem
    unfold leavesAt
    cases choice.head? with
    | none => simpa using hbefore hmem
    | some first => simp
  constructor
  · rintro ⟨hmem, hinOrder⟩
    obtain ⟨hmem, hrest⟩ := List.forall₂_cons.mp hmem
    obtain ⟨hfirst, hinOrder⟩ := List.isChain_cons.mp hinOrder
    exact ⟨hmem, (hhead hmem).mpr hfirst, hrest, hinOrder⟩
  · rintro ⟨hmem, hleaves, hchoice⟩
    exact ⟨.cons hmem hchoice.mem, List.isChain_cons.mpr ⟨(hhead hmem).mp hleaves, hchoice.inOrder⟩⟩

/-- A ride in front of the tail of a choice makes the tail of a longer choice, with the same score
as if it had been built from scratch. -/
theorem prepend_tailOf {choice : List Connection} {connection : Connection} {tail : Tail}
    (h : (tailOf pricing after egress next rest choice).prepend pricing ride connection = .ok tail) :
    tail = tailOf pricing after egress ride (next :: rest) (connection :: choice) := by
  rw [Tail.prepend, tailOf, prependLegs_through, through] at h
  exact Tail.ofLegs_ride_eq_ok h

/-- With one more ride, a tail is kept for every connection, the best one that can follow. It stands
for all choices that start with this connection. -/
theorem KeepsBest.extend {tails' : List Tail}
    (h : c.KeepsBest pricing after egress next rest alternatives tails)
    (hlength : alternatives.length = rest.length)
    (hbefore : ∀ connection ∈ connections, connection.target.position < next.alightPosition)
    (hextend : c.extend pricing tails (ride, connections) = .ok tails') :
    c.KeepsBest pricing after egress ride (next :: rest) (connections :: alternatives) tails' := by
  obtain ⟨hfrom, hevery⟩ := extend_eq_ok hextend
  have hcount : ∀ {choice}, IsChoice alternatives choice → choice.length = rest.length :=
    fun hchoice => hchoice.mem.length_eq.trans hlength
  have hstarts : ∀ {connection choice}, connection ∈ connections → IsChoice alternatives choice →
      (tailOf pricing after egress next rest choice).canBoardAt connection.target.position = true →
      IsChoice (connections :: alternatives) (connection :: choice) :=
    fun hconnection hchoice hboards => (isChoice_cons_iff (hbefore _)).mpr
      ⟨hconnection, (canBoardAt_tailOf (hcount hchoice)).mp hboards, hchoice⟩
  constructor
  · intro tail htail
    obtain ⟨connection, hconnection, head, hbest, hprepend⟩ := hfrom tail htail
    obtain ⟨hhead, hboards⟩ := List.mem_filter.mp (mem_of_best? hbest)
    obtain ⟨choice, hchoice, rfl⟩ := h.chosen head hhead
    exact ⟨connection :: choice, hstarts hconnection hchoice hboards, prepend_tailOf hprepend⟩
  · intro choice hchoice
    cases choice with
    | nil => cases hchoice.mem
    | cons connection choice =>
      obtain ⟨hconnection, hleaves, hchoice⟩ :=
        (isChoice_cons_iff (hbefore connection)).mp hchoice
      obtain ⟨other, hother, hsame, hmem, hle⟩ := h.best choice hchoice
      have hfollows : tailOf pricing after egress next rest other ∈
          tails.filter (·.canBoardAt connection.target.position) := by
        apply List.mem_filter.mpr
        refine ⟨hmem, (canBoardAt_tailOf (hcount hother)).mpr ?_⟩
        rwa [leavesAt, hsame]
      cases hbest : c.best? Tail.score
          (tails.filter (·.canBoardAt connection.target.position)) with
      | none =>
        rw [best?_eq_none_iff.mp hbest] at hfollows
        cases hfollows
      | some head =>
        obtain ⟨hhead, hboards⟩ := List.mem_filter.mp (mem_of_best? hbest)
        obtain ⟨choice', hchoice', rfl⟩ := h.chosen head hhead
        obtain ⟨tail, htail, hprepend⟩ := hevery connection hconnection _ hbest
        rw [prepend_tailOf hprepend] at htail
        refine ⟨connection :: choice', hstarts hconnection hchoice' hboards, rfl, htail, ?_⟩
        -- the connection adds the same to both tails
        rw [tailOf, tailOf, Pricing.tailScore_through, Pricing.tailScore_through, rank_add_le_iff]
        exact (rank_best?_le hbest _ hfollows).trans hle

/-- However many rides are put in front of the last one, the tails that are kept stand for all
choices. -/
theorem keepsBest_foldrM {last : Ride} (hlast : (ride :: rest).getLast? = some last)
    (halternatives : List.Forall₂ (fun next connections => ∀ connection ∈ connections,
      connection.target.position < next.alightPosition) rest alternatives)
    (h : ((ride :: rest).zip alternatives).foldrM (fun step tails => c.extend pricing tails step)
      [tailOf pricing after egress last [] []] = .ok tails) :
    c.KeepsBest pricing after egress ride rest alternatives tails := by
  induction halternatives generalizing ride tails with
  | nil =>
    cases hlast
    cases h
    exact keepsBest_last
  | @cons next connections rest alternatives hbefore hrest ih =>
    rw [List.getLast?_cons_cons] at hlast
    rw [List.zip_cons_cons, List.foldrM_cons] at h
    obtain ⟨between, hbetween, h⟩ := bind_eq_ok.mp h
    exact (ih hlast hbetween).extend hrest.length_eq.symm hbefore h

/-! ### Itineraries -/

/-- A tail that comes from a choice is completed to the itinerary with these transfers. -/
theorem complete_tailOf {choice : List Connection} (hrides : it.rides = ride :: rest) :
    (tailOf pricing it.walksLast it.egress.leg ride rest choice).complete pricing it =
      it.rebuild pricing choice := by
  rw [Tail.complete, Itinerary.rebuild, hrides, List.head?_cons]
  dsimp only [tailOf]
  rw [boardHead_through]
  rfl

/-- The way to the first ride adds the same to the scores of all choices. -/
theorem score_of_rebuild {choice : List Connection} {scored : ScoredItinerary}
    (hrides : it.rides = ride :: rest) (h : it.rebuild pricing choice = .ok scored) :
    scored.score = pricing.startScore it.access.leg it.walksFirst ride +
      (tailOf pricing it.walksLast it.egress.leg ride rest choice).score := by
  rw [Itinerary.rebuild, hrides] at h
  obtain ⟨rebuilt, hrebuilt, h⟩ := bind_eq_ok.mp h
  obtain ⟨call, parts, hparts, -⟩ := exists_through it.walksLast ride rest choice
  rw [hparts] at hrebuilt
  dsimp only [tailOf]
  rw [hparts]
  exact Pricing.score_eq_ok Itinerary.isRide_takeWhile hrebuilt h

/-- The tail that starts with the last ride of an itinerary goes on with the walks after it. -/
theorem tail_of_ofItinerary? {found : Option Tail} (hrides : it.rides = ride :: rest)
    (h : Tail.ofItinerary? pricing it = .ok found) : ∃ last, (ride :: rest).getLast? = some last ∧
      found = some (tailOf pricing it.walksLast it.egress.leg last [] []) := by
  rw [← hrides]
  rw [Tail.ofItinerary?] at h
  cases hparts : Tail.fromLastRide? it.legs with
  | none =>
    have hnone : it.rides = [] := Itinerary.rides_of_walks (Tail.fromLastRide?_eq_none hparts)
    rw [hrides] at hnone
    cases hnone
  | some parts =>
    rw [hparts] at h
    obtain ⟨before, last, after, rfl, hlegs, hwalks⟩ := Tail.fromLastRide?_eq_some hparts
    have hnone : after.filterMap Leg.ride? = [] := Itinerary.rides_of_walks hwalks
    have hafter : it.walksLast = after := by
      have hpass : ∀ leg ∈ after.reverse, (!leg.isRide) = true := fun leg hleg => by
        simp [hwalks leg (List.mem_reverse.mp hleg)]
      rw [Itinerary.walksLast, hlegs, List.rtakeWhile, List.reverse_append, List.reverse_cons,
        List.append_assoc, List.takeWhile_append_of_pos hpass]
      simp [Leg.isRide]
    obtain ⟨tail, htail, rfl⟩ := map_eq_ok.mp h
    refine ⟨last, ?_, ?_⟩
    · rw [Itinerary.rides, hlegs, List.filterMap_append, List.filterMap_cons, hnone]
      simp [Leg.ride?]
    · rw [hafter]
      exact congrArg some (Tail.ofLegs_ride_eq_ok htail)

/-- The tails that are left for an itinerary stand for all choices of transfers. -/
theorem HasTails.keepsBest {start : Tail} (h : c.HasTails it alternatives start tails)
    (hrides : it.rides = ride :: rest) :
    c.KeepsBest (c.pricingOf it) it.walksLast it.egress.leg ride rest alternatives tails := by
  obtain ⟨-, halternatives, hstart, htails⟩ := h
  obtain ⟨last, hlast, hstart⟩ := tail_of_ofItinerary? hrides hstart
  cases hstart
  rw [hrides] at halternatives htails
  exact keepsBest_foldrM hlast (ConnectionScene.forall₂_alternativesFrom halternatives) htails

/-- A refined itinerary is the best one among all choices of transfers, or the one that was given if
there is none. -/
theorem refine_best_of_ok {scored : ScoredItinerary} (hmoves : c.options.moveTransfers = true)
    (hrides : 2 ≤ it.rides.length)
    (halternatives : c.connections.alternatives it.rides = .ok alternatives)
    (h : c.refine it = .ok scored) :
    (∃ choice, IsChoice alternatives choice ∧ it.rebuild (c.pricingOf it) choice = .ok scored ∧
      ∀ choice other, IsChoice alternatives choice →
        it.rebuild (c.pricingOf it) choice = .ok other → c.rank scored.score ≤ c.rank other.score) ∨
    ((¬∃ choice, IsChoice alternatives choice) ∧
      ScoredItinerary.new (c.penalty it.rides.length) it = .ok scored) := by
  obtain ⟨first, rest, hfirst⟩ := List.exists_cons_of_length_pos (by omega : 0 < it.rides.length)
  rcases refine_eq_ok h with ⟨hkept, hfixed | hfew | ⟨_, hsame, hempty⟩ | hnone⟩ |
    ⟨_, start, tails, completed, htails, hcompleted, hresult⟩
  · rw [hmoves] at hfixed
    cases hfixed
  · omega
  · cases halternatives.symm.trans hsame
    refine .inr ⟨?_, hkept⟩
    rintro ⟨choice, hchoice⟩
    exact hchoice.ne_nil hempty rfl
  · obtain ⟨last, -, hstart⟩ := tail_of_ofItinerary? hfirst hnone
    cases hstart
  cases halternatives.symm.trans htails.found
  have hkeeps := htails.keepsBest hfirst
  have hcomplete : ∀ {choice scored}, (tailOf (c.pricingOf it) it.walksLast it.egress.leg first rest
      choice).complete (c.pricingOf it) it = .ok scored →
      it.rebuild (c.pricingOf it) choice = .ok scored :=
    fun h => (complete_tailOf hfirst).symm.trans h
  rcases hresult with hbest | ⟨hnone, hkept⟩
  · obtain ⟨tail, htail, hscored⟩ := exists_of_mem_mapM hcompleted (mem_of_best? hbest)
    obtain ⟨choice, hchoice, rfl⟩ := hkeeps.chosen tail htail
    refine .inl ⟨choice, hchoice, hcomplete hscored, ?_⟩
    intro choice' other hchoice' hother
    obtain ⟨kept, -, -, hmem, hle⟩ := hkeeps.best choice' hchoice'
    obtain ⟨result, hresult, hkept⟩ := exists_mem_of_mapM hcompleted hmem
    refine (rank_best?_le hbest result hresult).trans ?_
    rw [score_of_rebuild hfirst (hcomplete hkept), score_of_rebuild hfirst hother, rank_add_le_iff]
    exact hle
  · refine .inr ⟨?_, hkept⟩
    rintro ⟨choice, hchoice⟩
    obtain ⟨other, -, -, hmem, -⟩ := hkeeps.best choice hchoice
    obtain ⟨result, hresult, -⟩ := exists_mem_of_mapM hcompleted hmem
    rw [best?_eq_none_iff.mp hnone] at hresult
    cases hresult

/-- The rides of an itinerary with other transfers are between positions of their trips. -/
theorem inside_through {choice : List Connection} (hafter : ∀ leg ∈ after, leg.isRide = false)
    (hride : ride.Inside) (hrest : ∀ r ∈ rest, r.Inside)
    (hmem : List.Forall₂ (· ∈ ·) choice alternatives)
    (hsource : ∀ step ∈ (ride :: rest).zip alternatives, ∀ connection ∈ step.2,
      connection.source.position < step.1.trip.arrivals.size)
    (htarget : List.Forall₂ (fun next connections => ∀ connection ∈ connections,
      connection.target.position < next.alightPosition) rest alternatives) :
    ∀ r, .ride r ∈ through after ride rest choice → r.Inside := by
  induction htarget generalizing ride choice with
  | nil =>
    intro r hr
    rcases List.mem_cons.mp hr with heq | hr
    · obtain rfl := Leg.ride.inj heq
      exact hride
    · exact absurd (hafter _ hr) (by simp [Leg.isRide])
  | @cons next connections rest alternatives hbefore _ ih =>
    cases hmem with
    | @cons connection choice _ _ hconnection hmem =>
      rw [List.forall_mem_cons] at hrest
      rw [List.zip_cons_cons, List.forall_mem_cons] at hsource
      obtain ⟨hnext, hrest⟩ := hrest
      have hboarded : (next.boardedBy connection).Inside := by
        have hlt := (hbefore connection hconnection).trans hnext.alight
        exact ⟨hnext.size_eq, hnext.size_eq ▸ hlt, hnext.alight⟩
      have hlater : ∀ step ∈ (next.boardedBy connection :: rest).zip alternatives,
          ∀ connection ∈ step.2, connection.source.position < step.1.trip.arrivals.size := by
        cases alternatives with
        | nil => simp
        | cons connections alternatives => simpa using hsource.2
      intro r hr
      rcases List.mem_cons.mp hr with heq | hr
      · obtain rfl := Leg.ride.inj heq
        exact ⟨hride.size_eq, hride.board, hsource.1 connection hconnection⟩
      rcases List.mem_append.mp hr with hwalk | hr
      · exact absurd (connection.walkLegs_walks _ hwalk) (by simp [Leg.isRide])
      · exact ih hboarded hrest hmem hlater r hr

/-- An itinerary can be rebuilt with the transfers of any choice. -/
theorem yields_rebuild {choice : List Connection} (hnet : c.connections.network.Sound)
    (hplaces : ∀ r, .ride r ∈ it.legs → c.connections.network.Places r)
    (halternatives : c.connections.alternatives it.rides = .ok alternatives)
    (hchoice : IsChoice alternatives choice) :
    Yields (it.rebuild (c.pricingOf it) choice) fun _ => True := by
  have hinside : ∀ r ∈ it.rides, r.Inside := fun r hr =>
    (hplaces r (Itinerary.mem_rides.mp hr)).inside
  have hpenalty := c.safe_penalty it.rides.length
  cases hrides : it.rides with
  | nil =>
    have htimed : Itinerary.AllTimed it.legs := fun r hr => (hplaces r hr).inside.timed
    rw [Itinerary.rebuild, hrides]
    exact (ScoredItinerary.yields_new hpenalty htimed).mono fun _ _ _ => trivial
  | cons first rest =>
    have hsource := (ConnectionScene.yields_alternatives hnet fun r hr =>
      hplaces r (Itinerary.mem_rides.mp hr)).of_ok halternatives
    rw [hrides] at halternatives hsource hinside
    obtain ⟨hfirst, hrest⟩ := List.forall_mem_cons.mp hinside
    have hthrough : Itinerary.AllTimed (through it.walksLast first rest choice) := fun r hr =>
      (inside_through Itinerary.isRide_walksLast hfirst hrest hchoice.mem hsource
        (ConnectionScene.forall₂_alternativesFrom halternatives) r hr).timed
    exact Itinerary.yields_rebuild_of_timed hrides hpenalty hthrough

/-- The choice of transfers of an itinerary with two rides or more has the best result that there
is, as far as no number overflows. It has the connections of one choice, and no choice makes an
itinerary whose score is less: by its priority first, then by the cost with waits if they count,
then by the generalized cost. Where there is no choice, the itinerary is kept as it is. -/
theorem refine_best (hnet : c.connections.network.Sound)
    (hplaces : ∀ r, .ride r ∈ it.legs → c.connections.network.Places r)
    (hmoves : c.options.moveTransfers = true) (hrides : 2 ≤ it.rides.length)
    (halternatives : c.connections.alternatives it.rides = .ok alternatives) :
    Yields (c.refine it) fun scored =>
      (∃ choice, IsChoice alternatives choice ∧ it.rebuild (c.pricingOf it) choice = .ok scored ∧
        ∀ choice, IsChoice alternatives choice → Yields (it.rebuild (c.pricingOf it) choice)
          fun other => c.rank scored.score ≤ c.rank other.score) ∨
      ((¬∃ choice, IsChoice alternatives choice) ∧
        ScoredItinerary.new (c.penalty it.rides.length) it = .ok scored) := by
  apply (yields_refine hnet hplaces).mono
  intro scored hscored _
  rcases refine_best_of_ok hmoves hrides halternatives hscored with
    ⟨choice, hchoice, hrebuild, hbest⟩ | hnone
  · refine .inl ⟨choice, hchoice, hrebuild, ?_⟩
    intro choice' hchoice'
    apply (yields_rebuild hnet hplaces halternatives hchoice').mono
    intro other hother _
    exact hbest choice' other hchoice' hother
  · exact .inr hnone

/-- A red line through A, B and C, and a blue line through B, C and D, which is the same vehicle
from C on. -/
def crossingLines : Draft :=
  { Draft.new Draft.defaultDate with
    routes := #[⟨"red", 0⟩, ⟨"blue", 0⟩]
    trips := #[
      ⟨"red 1", 0, Draft.defaultCalendar,
        [⟨"A", 36000, 36000, .boardAndAlight⟩, ⟨"B", 36600, 36600, .boardAndAlight⟩,
          ⟨"C", 37200, 37200, .boardAndAlight⟩]⟩,
      ⟨"blue 1", 1, Draft.defaultCalendar,
        [⟨"B", 36900, 36900, .boardAndAlight⟩, ⟨"C", 37500, 37500, .boardAndAlight⟩,
          ⟨"D", 38100, 38100, .boardAndAlight⟩]⟩]
    rules := [⟨.tripStop "red 1" 2, .tripStop "blue 1" 1, .staySeated⟩] }

/-- The itinerary from A to D that changes at B. -/
def changingAtB (net : Network) : Option Itinerary := do
  let red ← net.trip? "red 1"
  let blue ← net.trip? "blue 1"
  (Itinerary.new ⟨0, 0, 0, false⟩
    [.ride ⟨red, 0, 1, 0, 1, .regular⟩, .ride ⟨blue, 0, 2, 1, 3, .regular⟩] ⟨3, 0, 0, false⟩ {}
    plainTariff 35000).toOption

/-- What the choice of transfers depends on where waits do not count. -/
def withoutWaits (net : Network) : RefinementScene :=
  ⟨⟨net, {}, net.rules, false⟩, plainTariff, {}, { weighWaits := false }⟩

/-- The traveller could change at B or at C, and stays seated at C. -/
theorem refine_best_staySeated : ∃ net it alternatives scored,
    crossingLines.build = .ok net ∧ changingAtB net = some it ∧ net.Sound ∧
    (∀ r, .ride r ∈ it.legs → net.Places r) ∧ (withoutWaits net).options.moveTransfers = true ∧
    2 ≤ it.rides.length ∧
    (withoutWaits net).connections.alternatives it.rides = .ok alternatives ∧
    alternatives.map (·.map (·.constraint)) = [[.regular, .staySeated]] ∧
    (withoutWaits net).refine it = .ok scored ∧
    scored.itinerary.rides.map (·.constraint) = [.regular, .staySeated] ∧
    ∃ choice, IsChoice alternatives choice ∧
      it.rebuild ((withoutWaits net).pricingOf it) choice = .ok scored ∧
      ∀ choice, IsChoice alternatives choice →
        Yields (it.rebuild ((withoutWaits net).pricingOf it) choice) fun other =>
          (withoutWaits net).rank scored.score ≤ (withoutWaits net).rank other.score := by
  have hbuilds : crossingLines.builds (fun net => decide (∃ it ∈ changingAtB net,
      (∀ r ∈ it.rides, ∃ p ∈ net.patterns[r.trip.pattern]?, r.trip.departures.size = p.length ∧
        r.trip.arrivals.size = p.length ∧ r.boardPosition < p.length ∧
        r.alightPosition < p.length) ∧
      2 ≤ it.rides.length ∧ it.rides.map (·.constraint) = [.regular, .regular] ∧
      ((withoutWaits net).connections.alternatives it.rides).map
        (·.map (·.map (·.constraint))) = .ok [[.regular, .staySeated]] ∧
      ((withoutWaits net).refine it).map (·.itinerary.rides.map (·.constraint)) =
        .ok [.regular, .staySeated])) = true := by
    decide +kernel
  obtain ⟨net, hbuild, hfacts⟩ := Draft.exists_of_builds hbuilds
  obtain ⟨it, hit, hplaced, hrides, hregular, hconnections, hconstraints⟩ :=
    of_decide_eq_true hfacts
  have hplaces : ∀ r, .ride r ∈ it.legs → net.Places r := by
    intro r hr
    obtain ⟨p, hp, hdepartures, harrivals, hboard, halight⟩ := hplaced r (Itinerary.mem_rides.mpr hr)
    exact ⟨p, hp, ⟨hdepartures, harrivals⟩, hboard, halight⟩
  obtain ⟨alternatives, halternatives, hconnections⟩ := map_eq_ok.mp hconnections
  obtain ⟨scored, hscored, hconstraints⟩ := map_eq_ok.mp hconstraints
  have hnet := Draft.build_sound hbuild
  refine ⟨net, it, alternatives, scored, hbuild, hit, hnet, hplaces, rfl, hrides, halternatives,
    hconnections, hscored, hconstraints, ?_⟩
  rcases (refine_best hnet hplaces rfl hrides halternatives).of_ok hscored with hbest | ⟨-, hkept⟩
  · exact hbest
  · rw [ScoredItinerary.itinerary_eq hkept, hregular] at hconstraints
    cases hconstraints

end RefinementScene

end JourneyPlanner
