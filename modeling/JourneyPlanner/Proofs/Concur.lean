import JourneyPlanner.Proofs.Checked

/-!
# Pairs of checked computations

Two computations that make the same steps on related data. A number and its opposite need not leave
their width together, so an overflow on either side ends the comparison.

* `Concur R x y`: both computations give values related by `R`, or meet the same fault, unless one
  of them overflows.
* `Concur.bind`, `Concur.foldlM`, `Concur.mapM`, `Concur.anyM`: sequences and loops, step by step.
* `Concur.of_yields`: two computations whose values are known.
* `Concur.exists_ok`: without overflow both computations give values.
-/

namespace JourneyPlanner

/-- Two computations give related values or meet the same fault, unless one of them overflows. -/
inductive Concur {α β : Type} (R : α → β → Prop) : Checked α → Checked β → Prop
  | values {a : α} {b : β} (h : R a b) : Concur R (.ok a) (.ok b)
  | fault (fault : Fault) : Concur R (.error fault) (.error fault)
  | left (y : Checked β) : Concur R (.error .overflow) y
  | right (x : Checked α) : Concur R x (.error .overflow)

namespace Concur

variable {α β α' β' σ τ : Type} {R : α → β → Prop} {R' : α' → β' → Prop} {S : σ → τ → Prop}
  {x : Checked α} {y : Checked β}

theorem pure {a : α} {b : β} (h : R a b) :
    Concur R (Pure.pure a : Checked α) (Pure.pure b : Checked β) := .values h

/-- A computation concurs with itself. -/
theorem refl {R : α → α → Prop} (h : ∀ a, x = .ok a → R a a) : Concur R x x := by
  cases x with
  | ok a => exact .values (h a rfl)
  | error fault => exact .fault fault

theorem bind {f : α → Checked α'} {g : β → Checked β'} (h : Concur R x y)
    (hfg : ∀ a b, R a b → Concur R' (f a) (g b)) : Concur R' (x >>= f) (y >>= g) := by
  cases h with
  | values h => exact hfg _ _ h
  | fault fault => exact .fault fault
  | left => exact .left _
  | right => exact .right _

/-- A step that both computations share. -/
theorem bind_same {f : α → Checked α'} {g : α → Checked β'}
    (hfg : ∀ a, x = .ok a → Concur R' (f a) (g a)) : Concur R' (x >>= f) (x >>= g) := by
  cases x with
  | ok a => exact hfg a rfl
  | error fault => exact .fault fault

theorem map {f : α → α'} {g : β → β'} (h : Concur R x y) (hfg : ∀ a b, R a b → R' (f a) (g b)) :
    Concur R' (f <$> x) (g <$> y) := by
  cases h with
  | values h => exact .values (hfg _ _ h)
  | fault fault => exact .fault fault
  | left => exact .left _
  | right => exact .right _

theorem ite {c : Prop} [Decidable c] {x' : Checked α} {y' : Checked β}
    (hyes : c → Concur R x y) (hno : ¬c → Concur R x' y') :
    Concur R (if c then x else x') (if c then y else y') := by
  split
  · exact hyes ‹_›
  · exact hno ‹_›

/-- Two computations of which neither meets another fault than an overflow. -/
theorem of_yields {P : α → Prop} {Q : β → Prop} (hx : Yields x P) (hy : Yields y Q)
    (h : ∀ a b, P a → Q b → R a b) : Concur R x y := by
  cases x with
  | error fault =>
    obtain rfl : fault = .overflow := hx
    exact .left _
  | ok a =>
    cases y with
    | error fault =>
      obtain rfl : fault = .overflow := hy
      exact .right _
    | ok b => exact .values (h a b hx hy)

/-- Without overflow both computations give values. -/
theorem exists_ok {P : α → Prop} (h : Concur R x y) (hyields : Yields x P)
    (hx : x ≠ .error .overflow) (hy : y ≠ .error .overflow) :
    ∃ a b, x = .ok a ∧ y = .ok b ∧ R a b := by
  obtain ⟨a, rfl, -⟩ := hyields.exists_ok hx
  cases h with
  | values h => exact ⟨a, _, rfl, rfl, h⟩
  | right => exact absurd rfl hy

/-! ### Loops -/

/-- A relation that every pair of turns keeps holds after a pair of loops. -/
theorem foldlM {T : α → β → Prop} {f : σ → α → Checked σ} {g : τ → β → Checked τ} {xs : List α}
    {ys : List β} {s : σ} {t : τ} (hs : S s t) (hxy : List.Forall₂ T xs ys)
    (hfg : ∀ s t a b, T a b → S s t → Concur S (f s a) (g t b)) :
    Concur S (xs.foldlM f s) (ys.foldlM g t) := by
  induction hxy generalizing s t with
  | nil => exact .values hs
  | cons hab _ ih =>
    rw [List.foldlM_cons, List.foldlM_cons]
    exact (hfg _ _ _ _ hab hs).bind fun _ _ hs' => ih hs'

/-- The same for loops over the same elements. -/
theorem foldlM_same {f : σ → α → Checked σ} {g : τ → α → Checked τ} {xs : List α} {s : σ} {t : τ}
    (hs : S s t) (hfg : ∀ s t, ∀ a ∈ xs, S s t → Concur S (f s a) (g t a)) :
    Concur S (xs.foldlM f s) (xs.foldlM g t) :=
  foldlM (T := fun a b => a ∈ xs ∧ b = a) hs
    (List.forall₂_same.mpr fun _ ha => ⟨ha, rfl⟩)
    (by rintro s t a _ ⟨ha, rfl⟩ hst; exact hfg s t _ ha hst)

/-- The same for loops over elements of which the second ones are computed from the first ones. -/
theorem foldlM_map {f : σ → α → Checked σ} {g : τ → β → Checked τ} {h : α → β} {xs : List α}
    {s : σ} {t : τ} (hs : S s t) (hfg : ∀ s t, ∀ a ∈ xs, S s t → Concur S (f s a) (g t (h a))) :
    Concur S (xs.foldlM f s) ((xs.map h).foldlM g t) :=
  foldlM (T := fun a b => a ∈ xs ∧ b = h a) hs
    (List.forall₂_map_right_iff.mpr (List.forall₂_same.mpr fun _ ha => ⟨ha, rfl⟩))
    (by rintro s t a _ ⟨ha, rfl⟩ hst; exact hfg s t _ ha hst)

/-- The values of two loops are related in pairs. -/
theorem mapM {f : σ → Checked α} {g : σ → Checked β} {xs : List σ}
    (hfg : ∀ s ∈ xs, Concur R (f s) (g s)) :
    Concur (List.Forall₂ R) (xs.mapM f) (xs.mapM g) := by
  induction xs with
  | nil => exact .values .nil
  | cons s xs ih =>
    rw [List.mapM_cons, List.mapM_cons]
    refine (hfg s (by simp)).bind fun a b hab => ?_
    refine (ih fun s hs => hfg s (by simp [hs])).bind fun as bs has => ?_
    exact .values (.cons hab has)

/-- Two searches for an element with the same answer for each of them. -/
theorem anyM {f g : σ → Checked Bool} {xs : List σ}
    (hfg : ∀ s ∈ xs, Concur (fun found found' => found' = found) (f s) (g s)) :
    Concur (fun found found' => found' = found) (xs.anyM f) (xs.anyM g) := by
  induction xs with
  | nil => exact .values rfl
  | cons s xs ih =>
    rw [List.anyM, List.anyM]
    refine (hfg s (by simp)).bind ?_
    rintro _ found rfl
    cases found with
    | true => exact .values rfl
    | false => exact ih fun s hs => hfg s (by simp [hs])

end Concur

end JourneyPlanner
