import Mathlib.Data.List.Pairwise
import JourneyPlanner.Front

/-!
# What fronts keep

Whatever has been added to a front is covered by it for ever, and no alternative of a front is at
least as good as another one. Where two alternatives that are as good as each other have the same
criteria, these two facts determine the criteria of a front.

* `Front.covers_merge`: nothing that was added is lost.
* `Front.Gained`: a front has gained the alternatives of a kind.
* `Front.Clean`: no alternative is at least as good as another one.
* `Front.exists_criteria`: of two clean fronts that cover the same, each has the criteria of the
  other.
-/

namespace JourneyPlanner

/-- Every alternative is at least as good as itself, and what is at least as good as something
good enough is good enough too. -/
structure Dominance.IsPreorder {κ : Type} (dom : Dominance κ) : Prop where
  refl : ∀ a, dom a a = true
  trans : ∀ {a b c}, dom a b = true → dom b c = true → dom a c = true

/-- Alternatives that are as good as each other have the same criteria. -/
structure Dominance.IsOrder {κ : Type} (dom : Dominance κ) : Prop extends dom.IsPreorder where
  antisymm : ∀ {a b}, dom a b = true → dom b a = true → a = b

namespace Front

variable {α κ : Type} {dom : Dominance κ} {front other : Front α κ} {x : α} {k : κ}
  {e e' : α × κ}

/-- A front covers criteria if one of its alternatives is at least as good. -/
theorem covers_iff : front.covers dom k = true ↔ ∃ e ∈ front.entries, dom e.2 k = true := by
  simp [covers]

theorem covers_of_mem (h : e ∈ front.entries) (hk : dom e.2 k = true) :
    front.covers dom k = true :=
  covers_iff.mpr ⟨e, h, hk⟩

/-- If criteria are covered, so are those that they are at least as good as. -/
theorem covers_trans (hdom : dom.IsPreorder) {k' : κ} (h : front.covers dom k = true)
    (hk : dom k k' = true) : front.covers dom k' = true := by
  obtain ⟨e, he, hek⟩ := covers_iff.mp h
  exact covers_of_mem he (hdom.trans hek hk)

@[simp] theorem entries_empty : (empty : Front α κ).entries = [] := rfl

/-- A replacement keeps the alternatives that it is not at least as good as. -/
theorem mem_replace :
    e ∈ (front.replace dom x k).entries ↔
      (e ∈ front.entries ∧ dom k e.2 = false) ∨ e = (x, k) := by
  simp [replace, push, prune]

theorem covers_replace_self (hdom : dom.IsPreorder) :
    (front.replace dom x k).covers dom k = true :=
  covers_of_mem (mem_replace.mpr (.inr rfl)) (hdom.refl k)

/-- A replacement goes on covering what was covered: it is at least as good as what it removes. -/
theorem covers_replace (hdom : dom.IsPreorder) {k' : κ} (h : front.covers dom k' = true) :
    (front.replace dom x k).covers dom k' = true := by
  obtain ⟨e, he, hek⟩ := covers_iff.mp h
  cases hke : dom k e.2 with
  | false => exact covers_of_mem (mem_replace.mpr (.inl ⟨he, hke⟩)) hek
  | true => exact covers_trans hdom (covers_replace_self hdom) (hdom.trans hke hek)

theorem mem_add (h : e ∈ (front.add dom x k).entries) : e ∈ front.entries ∨ e = (x, k) := by
  unfold add at h
  split at h
  · exact .inl h
  · exact (mem_replace.mp h).imp And.left id

/-- An alternative that was added or turned down is covered. -/
theorem covers_add_self (hdom : dom.IsPreorder) : (front.add dom x k).covers dom k = true := by
  unfold add
  split
  · assumption
  · exact covers_replace_self hdom

/-- What was covered is covered after an addition. -/
theorem covers_add (hdom : dom.IsPreorder) {k' : κ} (h : front.covers dom k' = true) :
    (front.add dom x k).covers dom k' = true := by
  unfold add
  split
  · exact h
  · exact covers_replace hdom h

/-! ### Clean fronts -/

/-- No alternative of the front is at least as good as another one. -/
def Clean (dom : Dominance κ) (front : Front α κ) : Prop :=
  front.entries.Pairwise fun a b => dom a.2 b.2 = false ∧ dom b.2 a.2 = false

theorem clean_empty : (empty : Front α κ).Clean dom := List.Pairwise.nil

/-- In a clean front only an alternative itself is at least as good as it. -/
theorem Clean.eq_of_dom (h : front.Clean dom) (he : e ∈ front.entries)
    (he' : e' ∈ front.entries) (hdom : dom e.2 e'.2 = true) : e = e' := by
  by_contra hne
  have hsymm : Std.Symm fun a b : α × κ => dom a.2 b.2 = false ∧ dom b.2 a.2 = false :=
    ⟨fun _ _ h => h.symm⟩
  have := (List.Pairwise.forall h) he he' hne
  simp [hdom] at this

theorem Clean.replace (h : front.Clean dom) (hk : front.covers dom k = false) :
    (front.replace dom x k).Clean dom := by
  simp only [Front.replace, push, prune, Clean, List.pairwise_append, List.pairwise_singleton,
    List.mem_filter, List.mem_singleton]
  refine ⟨h.filter _, trivial, ?_⟩
  rintro a ⟨ha, hka⟩ b rfl
  refine ⟨?_, by simpa using hka⟩
  cases hak : dom a.2 k with
  | false => rfl
  | true => simp [covers_of_mem ha hak] at hk

/-- An addition keeps a front clean, whether the alternative is taken or not. -/
theorem Clean.add (h : front.Clean dom) : (front.add dom x k).Clean dom := by
  unfold Front.add
  split
  case isTrue => exact h
  case isFalse hk => exact h.replace (Bool.eq_false_iff.mpr hk)

/-! ### Merging -/

theorem Clean.merge (h : front.Clean dom) : (front.merge dom other).Clean dom := by
  obtain ⟨entries⟩ := other
  simp only [Front.merge]
  induction entries generalizing front with
  | nil => exact h
  | cons a rest ih => exact ih h.add

/-- Adding alternatives one by one leaves none that is as good as another one. -/
theorem clean_ofList {entries : List (α × κ)} : (ofList dom entries).Clean dom := clean_empty.merge

theorem mem_merge (h : e ∈ (front.merge dom other).entries) :
    e ∈ front.entries ∨ e ∈ other.entries := by
  obtain ⟨entries⟩ := other
  simp only [merge] at h ⊢
  induction entries generalizing front with
  | nil => exact .inl h
  | cons a rest ih =>
    rcases ih h with h | h
    · rcases mem_add h with h | rfl
      · exact .inl h
      · exact .inr (by simp)
    · exact .inr (by simp [h])

/-- What was covered is covered after a merge. -/
theorem covers_merge_left (hdom : dom.IsPreorder) (h : front.covers dom k = true) :
    (front.merge dom other).covers dom k = true := by
  obtain ⟨entries⟩ := other
  simp only [merge]
  induction entries generalizing front with
  | nil => exact h
  | cons a rest ih => exact ih (covers_add hdom h)

/-- What was added to a front stays covered. -/
theorem covers_merge (hdom : dom.IsPreorder) (h : other.covers dom k = true) :
    (front.merge dom other).covers dom k = true := by
  obtain ⟨entries⟩ := other
  obtain ⟨e, he, hek⟩ := covers_iff.mp h
  refine covers_trans hdom ?_ hek
  simp only [merge] at he ⊢
  induction entries generalizing front with
  | nil => simp at he
  | cons a rest ih =>
    rcases List.mem_cons.mp he with rfl | he
    · show ((front.add dom e.1 e.2).merge dom ⟨rest⟩).covers dom e.2 = true
      exact covers_merge_left hdom (covers_add_self hdom)
    · exact ih (covers_of_mem he hek) he

/-- A clean front is what adding its alternatives builds. -/
theorem Clean.ofList_eq (h : front.Clean dom) : ofList dom front.entries = front := by
  have hmerge : ∀ (rest done : List (α × κ)),
      Clean dom ⟨done ++ rest⟩ → (⟨done⟩ : Front α κ).merge dom ⟨rest⟩ = ⟨done ++ rest⟩ := by
    intro rest
    induction rest with
    | nil => simp [Front.merge]
    | cons e rest ih =>
      intro done hclean
      have happart : ∀ a ∈ done, dom a.2 e.2 = false ∧ dom e.2 a.2 = false := fun a ha =>
        (List.pairwise_append.mp hclean).2.2 a ha e List.mem_cons_self
      have hcovers : (⟨done⟩ : Front α κ).covers dom e.2 = false := by
        rw [Bool.eq_false_iff]
        intro hcovers
        obtain ⟨a, ha, hdom⟩ := covers_iff.mp hcovers
        rw [(happart a ha).1] at hdom
        cases hdom
      have hprune : done.filter (fun a => !dom e.2 a.2) = done :=
        List.filter_eq_self.mpr fun a ha => by rw [(happart a ha).2]; rfl
      have hadd : (⟨done⟩ : Front α κ).add dom e.1 e.2 = ⟨done ++ [e]⟩ := by
        rw [Front.add, hcovers, if_neg Bool.false_ne_true, Front.replace, prune, hprune, push]
      have hall := ih (done ++ [e]) (by rwa [List.append_assoc])
      rw [List.append_assoc, ← hadd] at hall
      exact hall
  exact hmerge front.entries [] h

theorem mem_ofList {entries : List (α × κ)} (h : e ∈ (ofList dom entries).entries) :
    e ∈ entries :=
  (mem_merge h).elim (fun h => by simp at h) id

/-- A front covers all alternatives that it was built from. -/
theorem covers_ofList (hdom : dom.IsPreorder) {entries : List (α × κ)} (h : e ∈ entries) :
    (ofList dom entries).covers dom e.2 = true :=
  covers_merge hdom (covers_of_mem h (hdom.refl _))

/-! ### Gains -/

/-- A front has gained the alternatives of a kind: those that it has got are of this kind, and it
covers all of them. -/
structure Gained (dom : Dominance κ) (kind : α × κ → Prop) (front front' : Front α κ) : Prop where
  entry : ∀ {e}, e ∈ front'.entries → e ∈ front.entries ∨ kind e
  covers : ∀ {e}, kind e → front'.covers dom e.2 = true
  kept : ∀ {k}, front.covers dom k = true → front'.covers dom k = true
  clean : front.Clean dom → front'.Clean dom

namespace Gained

variable {kind kind' : α × κ → Prop} {front' front'' : Front α κ}

theorem none (hkind : ∀ e, ¬kind e) : Gained dom kind front front where
  entry := .inl
  covers he := absurd he (hkind _)
  kept := id
  clean := id

/-- An addition gains the alternative that is added. -/
theorem one (hdom : dom.IsPreorder) : Gained dom (· = (x, k)) front (front.add dom x k) where
  entry := mem_add
  covers := by
    rintro _ rfl
    exact covers_add_self hdom
  kept := covers_add hdom
  clean := Clean.add

/-- One gain after the other gains the alternatives of both kinds. -/
theorem trans (h : Gained dom kind front front') (h' : Gained dom kind' front' front'') :
    Gained dom (fun e => kind e ∨ kind' e) front front'' where
  entry he := by
    rcases h'.entry he with he | he
    · exact (h.entry he).imp_right .inl
    · exact .inr (.inr he)
  covers he := he.elim (fun he => h'.kept (h.covers he)) h'.covers
  kept hk := h'.kept (h.kept hk)
  clean hclean := h'.clean (h.clean hclean)

theorem congr (h : Gained dom kind front front') (hkind : ∀ e, kind e ↔ kind' e) :
    Gained dom kind' front front' := by
  obtain rfl : kind = kind' := funext fun e => propext (hkind e)
  exact h

end Gained

/-! ### The criteria of a front -/

/-- Of two clean fronts that cover the same criteria, each has alternatives as good as those of the
other. -/
theorem exists_asGood (hdom : dom.IsPreorder) {β : Type} {other : Front β κ}
    (hclean : front.Clean dom) (hcover : ∀ k, front.covers dom k = true → other.covers dom k = true)
    (hback : ∀ k, other.covers dom k = true → front.covers dom k = true) (he : e ∈ front.entries) :
    ∃ e' ∈ other.entries, dom e'.2 e.2 = true ∧ dom e.2 e'.2 = true := by
  obtain ⟨o, ho, hoe⟩ := covers_iff.mp (hcover e.2 (covers_of_mem he (hdom.refl e.2)))
  obtain ⟨f, hf, hfo⟩ := covers_iff.mp (hback o.2 (covers_of_mem ho (hdom.refl o.2)))
  have hfe : f = e := hclean.eq_of_dom hf he (hdom.trans hfo hoe)
  subst hfe
  exact ⟨o, ho, hoe, hfo⟩

/-- Of two clean fronts that cover the same criteria, each has the criteria of the other. -/
theorem exists_criteria (hdom : dom.IsOrder) {β : Type} {other : Front β κ}
    (hclean : front.Clean dom) (hcover : ∀ k, front.covers dom k = true → other.covers dom k = true)
    (hback : ∀ k, other.covers dom k = true → front.covers dom k = true) (he : e ∈ front.entries) :
    ∃ e' ∈ other.entries, e'.2 = e.2 := by
  obtain ⟨o, ho, hoe, heo⟩ := exists_asGood hdom.toIsPreorder hclean hcover hback he
  exact ⟨o, ho, hdom.antisymm hoe heo⟩

end Front

end JourneyPlanner
