import JourneyPlanner.Proofs.Checked
import JourneyPlanner.Refinement.Choice

/-!
# Time budgets

A search looks at its time budget again and again, and the budget may be spent at any of these
moments. What such a search computes is what it would compute without a budget, unless the budget
is spent at one of the moments; then it is the timeout of the stage of that moment.

* `Deadline.Cuts`: this relation between two computations. It passes through sequences and loops.
* `cuts_run`: the iterations of a search with a budget.
* `RefinementScene.cuts_refineAll`: the choice of transfers with a budget.
-/

namespace JourneyPlanner

/-- The first computation is the second one, cut short if the budget is spent at one of some
moments. -/
def Deadline.Cuts {α : Type} (deadline : Deadline) (polls : Poll → Prop) (x y : Checked α) : Prop :=
  x = y ∨ ∃ poll, polls poll ∧ deadline.spent poll = true ∧ x = .error (.timeout poll.phase)

section

variable {α β σ : Type} {deadline : Deadline} {polls polls' : Poll → Prop} {x y : Checked α}

namespace Deadline

theorem cuts_check {poll : Poll} (hpoll : polls poll) :
    deadline.Cuts polls (deadline.check poll) (unlimited.check poll) := by
  cases hspent : deadline.spent poll with
  | true => exact .inr ⟨poll, hpoll, hspent, if_pos hspent⟩
  | false => exact .inl (if_neg (hspent ▸ Bool.false_ne_true))

namespace Cuts

theorem refl (x : Checked α) : deadline.Cuts polls x x := .inl rfl

theorem mono (h : deadline.Cuts polls x y) (hle : ∀ poll, polls poll → polls' poll) :
    deadline.Cuts polls' x y :=
  h.imp_right fun ⟨poll, hpoll, hspent⟩ => ⟨poll, hle poll hpoll, hspent⟩

/-- A computation that has a result was not cut short. -/
theorem of_ok (h : deadline.Cuts polls x y) {a : α} (hx : x = .ok a) : y = .ok a := by
  obtain rfl | ⟨poll, -, -, hcut⟩ := h
  · exact hx
  · cases hx.symm.trans hcut

/-- A budget that is spent at none of the moments cuts nothing short. -/
theorem eq_of_lasting (h : deadline.Cuts polls x y)
    (hlasts : ∀ poll, polls poll → deadline.spent poll = false) : x = y := by
  obtain heq | ⟨poll, hpoll, hspent, -⟩ := h
  · exact heq
  · exact absurd ((hlasts poll hpoll).symm.trans hspent) Bool.false_ne_true

/-- What is cut short by its first part is cut short as a whole. -/
theorem bind {f g : α → Checked β} (h : deadline.Cuts polls x y)
    (hf : ∀ a, y = .ok a → deadline.Cuts polls (f a) (g a)) :
    deadline.Cuts polls (x >>= f) (y >>= g) := by
  obtain rfl | ⟨poll, hpoll, hspent, rfl⟩ := h
  · cases x with
    | ok a => exact hf a rfl
    | error fault => exact .inl rfl
  · exact .inr ⟨poll, hpoll, hspent, rfl⟩

theorem foldlM {f g : σ → β → Checked σ} {bs : List β} {s : σ}
    (hf : ∀ s, ∀ b ∈ bs, deadline.Cuts polls (f s b) (g s b)) :
    deadline.Cuts polls (bs.foldlM f s) (bs.foldlM g s) := by
  induction bs generalizing s with
  | nil => exact refl _
  | cons b bs ih =>
    rw [List.foldlM_cons, List.foldlM_cons]
    exact (hf s b List.mem_cons_self).bind fun s' _ =>
      ih fun s b hb => hf s b (List.mem_cons_of_mem _ hb)

theorem mapM {f g : β → Checked α} {bs : List β}
    (hf : ∀ b ∈ bs, deadline.Cuts polls (f b) (g b)) :
    deadline.Cuts polls (bs.mapM f) (bs.mapM g) := by
  induction bs with
  | nil => exact refl _
  | cons b bs ih =>
    rw [List.mapM_cons, List.mapM_cons]
    refine (hf b List.mem_cons_self).bind fun a _ => ?_
    exact (ih fun b hb => hf b (List.mem_cons_of_mem _ hb)).bind fun as _ => refl _

end Cuts

end Deadline

/-! ### Iterations -/

/-- A run looks at its budget before the iteration from each of its start times. -/
theorem cuts_run {κ ι : Type} {scheme : Scheme σ κ ι} {course : Course} {progress : Progress σ}
    {times : List Time} (hpolls : ∀ time ∈ times, polls (.iteration time)) :
    deadline.Cuts polls (run scheme course deadline progress times)
      (run scheme course .unlimited progress times) :=
  .foldlM fun _ time htime => (Deadline.cuts_check (hpolls time htime)).bind fun _ _ => .refl _

end

/-! ### Choice of transfers -/

namespace RefinementScene

variable {c : RefinementScene} {deadline : Deadline} {its : List Itinerary}

/-- The choice of transfers looks at its budget before each itinerary. -/
theorem cuts_refineAll :
    deadline.Cuts (fun poll => ∃ place < its.length, poll = .itinerary place)
      (c.refineAll deadline its) (c.refineAll .unlimited its) := by
  refine .bind (.mapM ?_) fun _ _ => .refl _
  rintro ⟨it, place⟩ hplace
  have hlt : place < its.length :=
    (List.getElem?_eq_some_iff.mp (List.mem_zipIdx_iff_getElem?.mp hplace)).1
  exact (Deadline.cuts_check ⟨place, hlt, rfl⟩).bind fun _ _ => .refl _

/-- Without a budget the places of the itineraries are of no importance. -/
theorem refineAll_unlimited : c.refineAll .unlimited its = (do
    let refined ← its.mapM c.refine
    let labelled ← refined.mapM fun scored => do return (scored, ← scored.itinerary.toText)
    return distinctBy [] labelled) := by
  have hrefine : its.zipIdx.mapM (c.refine ∘ Prod.fst) = its.mapM c.refine := by
    rw [← List.mapM_map, List.zipIdx_map_fst]
  rw [← hrefine]
  rfl

theorem refineAll_of_lasting
    (hdeadline : ∀ place < its.length, deadline.spent (.itinerary place) = false) :
    c.refineAll deadline its = c.refineAll .unlimited its :=
  cuts_refineAll.eq_of_lasting fun _ ⟨place, hplace, hpoll⟩ => hpoll ▸ hdeadline place hplace

end RefinementScene

end JourneyPlanner
