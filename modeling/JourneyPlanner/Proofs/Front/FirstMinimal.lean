import Mathlib.Data.List.Induction
import JourneyPlanner.Proofs.Front
import JourneyPlanner.Proofs.Search.Dominance

/-!
# What a front holds after a sequence of additions

Alternatives enter a front, are refused and are dropped for later ones. What is left can be said of
the sequence alone: an alternative is kept when no earlier one is at least as good, and every later
one that is at least as good is only as good.

* `Front.entries_ofList`: the alternatives of a front are the first minimal ones, in order.
* `Front.merge_ofList`: adding a sequence to a front and adding the front of the sequence to it
  come to the same.
* `Front.Clean.perform`: no operation on fronts leaves one alternative at least as good as another.
-/

namespace JourneyPlanner

namespace Front

variable {α κ : Type} {dom : Dominance κ} {front : Front α κ} {seq : List (α × κ)}
  {e x : α × κ} {i : Nat} {k : κ}

/-! ### The first minimal alternatives -/

/-- An alternative with given criteria at index `i` of a sequence is a first minimal one: no earlier
alternative is at least as good, and every later one that is at least as good is only as good. -/
def FirstMinimal (dom : Dominance κ) (seq : List (α × κ)) (i : Nat) (k : κ) : Prop :=
  (∀ e ∈ seq.take i, dom e.2 k = false) ∧
    ∀ e ∈ seq.drop (i + 1), dom e.2 k = true → dom k e.2 = true

instance : Decidable (FirstMinimal dom seq i k) := inferInstanceAs (Decidable (_ ∧ _))

/-- The first minimal alternatives of a sequence, in their order. -/
def firstMinimals (dom : Dominance κ) (seq : List (α × κ)) : List (α × κ) :=
  (seq.zipIdx.filter fun entry => FirstMinimal dom seq entry.2 entry.1.2).map (·.1)

/-- One more alternative leaves those before it first minimal that it is not better than. -/
theorem firstMinimal_append (hi : i < seq.length) :
    FirstMinimal dom (seq ++ [e]) i k ↔
      FirstMinimal dom seq i k ∧ (dom e.2 k = true → dom k e.2 = true) := by
  have htake : (seq ++ [e]).take i = seq.take i := List.take_append_of_le_length hi.le
  have hdrop : (seq ++ [e]).drop (i + 1) = seq.drop (i + 1) ++ [e] :=
    List.drop_append_of_le_length hi
  simp only [FirstMinimal, htake, hdrop, List.forall_mem_append, List.forall_mem_singleton,
    and_assoc]

/-- The last alternative of a sequence is a first minimal one when no other is as good. -/
theorem firstMinimal_last :
    FirstMinimal dom (seq ++ [e]) seq.length e.2 ↔ ∀ a ∈ seq, dom a.2 e.2 = false := by
  simp [FirstMinimal]

/-- The first minimal alternatives after one more. -/
theorem firstMinimals_append :
    firstMinimals dom (seq ++ [e]) =
      (firstMinimals dom seq).filter (fun a => dom e.2 a.2 = true → dom a.2 e.2 = true) ++
        if ∀ a ∈ seq, dom a.2 e.2 = false then [e] else [] := by
  have hold : ∀ entry ∈ seq.zipIdx,
      decide (FirstMinimal dom (seq ++ [e]) entry.2 entry.1.2) =
        (decide (dom e.2 entry.1.2 = true → dom entry.1.2 e.2 = true) &&
          decide (FirstMinimal dom seq entry.2 entry.1.2)) := by
    intro entry hentry
    rw [← Bool.decide_and, decide_eq_decide, and_comm]
    exact firstMinimal_append (by simpa using List.snd_lt_of_mem_zipIdx hentry)
  rw [firstMinimals, firstMinimals, List.zipIdx_append, List.filter_append,
    List.filter_congr hold, ← List.filter_filter, List.map_append, List.filter_map]
  congr 1
  simp only [List.zipIdx_singleton, List.filter_singleton, Nat.zero_add, firstMinimal_last,
    Bool.cond_decide]
  split <;> rfl

/-! ### What is kept -/

theorem ofList_append : ofList dom (seq ++ [e]) = (ofList dom seq).add dom e.1 e.2 := by
  simp [ofList, merge, List.foldl_append]

/-- A front covers what an alternative of the sequence is at least as good as. -/
theorem covers_ofList_iff (hdom : dom.IsPreorder) :
    (ofList dom seq).covers dom k = true ↔ ∃ e ∈ seq, dom e.2 k = true := by
  constructor
  · intro h
    obtain ⟨e, he, hek⟩ := covers_iff.mp h
    exact ⟨e, mem_ofList he, hek⟩
  · rintro ⟨e, he, hek⟩
    exact covers_trans hdom (covers_ofList hdom he) hek

/-- The alternatives of a front are the first minimal ones of those added. -/
theorem entries_ofList (hdom : dom.IsPreorder) :
    (ofList dom seq).entries = firstMinimals dom seq := by
  induction seq using List.reverseRecOn with
  | nil => rfl
  | append_singleton seq e ih =>
    have hcovers : (∀ a ∈ seq, dom a.2 e.2 = false) ↔ (ofList dom seq).covers dom e.2 ≠ true := by
      simp [covers_ofList_iff hdom]
    rw [ofList_append, add, firstMinimals_append, ← ih]
    by_cases hc : (ofList dom seq).covers dom e.2 = true
    · -- What is kept and covers `e` is the only kept one that `e` can be at least as good as.
      rw [if_pos hc, if_neg (by rw [hcovers]; exact not_not_intro hc), List.append_nil]
      obtain ⟨f, hf, hfe⟩ := covers_iff.mp hc
      refine (List.filter_eq_self.mpr fun a ha => decide_eq_true fun hea => ?_).symm
      obtain rfl : f = a := clean_ofList.eq_of_dom hf ha (hdom.trans hfe hea)
      exact hfe
    · rw [if_neg hc, if_pos (hcovers.mpr hc)]
      simp only [replace, prune, push]
      congr 1
      refine List.filter_congr fun a ha => ?_
      have hae : dom a.2 e.2 = false := hcovers.mpr hc a (mem_ofList ha)
      cases dom e.2 a.2 <;> simp [hae]

/-- The front of a sequence in another order has alternatives of the same class. -/
theorem exists_class (hdom : dom.IsPreorder) {other : List (α × κ)} (hperm : seq.Perm other)
    (h : ∃ e ∈ (ofList dom seq).entries, dom e.2 k = true ∧ dom k e.2 = true) :
    ∃ e ∈ (ofList dom other).entries, dom e.2 k = true ∧ dom k e.2 = true := by
  have hsame : ∀ k, (ofList dom seq).covers dom k = true ↔ (ofList dom other).covers dom k = true :=
    fun k => by simp only [covers_ofList_iff hdom, hperm.mem_iff]
  obtain ⟨e, he, hek, hke⟩ := h
  obtain ⟨e', he', hle, hge⟩ := exists_asGood hdom clean_ofList (fun k => (hsame k).mp)
    (fun k => (hsame k).mpr) he
  exact ⟨e', he', hdom.trans hle hek, hdom.trans hke hge⟩

/-! ### Merging fronts -/

theorem merge_append {rest : List (α × κ)} :
    front.merge dom ⟨seq ++ rest⟩ = (front.merge dom ⟨seq⟩).merge dom ⟨rest⟩ :=
  List.foldl_append

theorem covers_merge_iff (hdom : dom.IsPreorder) {other : Front α κ} :
    (front.merge dom other).covers dom k = true ↔
      front.covers dom k = true ∨ other.covers dom k = true := by
  constructor
  · intro h
    obtain ⟨e, he, hek⟩ := covers_iff.mp h
    exact (mem_merge he).imp (covers_of_mem · hek) (covers_of_mem · hek)
  · exact fun h => h.elim (covers_merge_left hdom) (covers_merge hdom)

theorem prune_prune : (front.prune dom k).prune dom k = front.prune dom k := by
  simp [prune, List.filter_filter]

/-- Alternatives that are dropped afterwards need not be added. -/
theorem prune_add (hdom : dom.IsPreorder) :
    (front.add dom x.1 x.2).prune dom k =
      if dom k x.2 then front.prune dom k else (front.prune dom k).add dom x.1 x.2 := by
  by_cases hkx : dom k x.2 = true
  · rw [if_pos hkx, add]
    split
    · rfl
    · have hfilter : front.entries.filter (fun a => !dom k a.2 && !dom x.2 a.2) =
          front.entries.filter fun a => !dom k a.2 := by
        refine List.filter_congr fun a _ => ?_
        cases hxa : dom x.2 a.2 with
        | false => simp
        | true => simp [hdom.trans hkx hxa]
      simp [replace, push, prune, List.filter_append, List.filter_filter, hkx, hfilter]
  · rw [if_neg hkx]
    have hcovers : (front.prune dom k).covers dom x.2 = front.covers dom x.2 := by
      rw [Bool.eq_iff_iff, covers_iff, covers_iff]
      simp only [prune, List.mem_filter, Bool.not_eq_true']
      constructor
      · rintro ⟨a, ⟨ha, -⟩, hax⟩
        exact ⟨a, ha, hax⟩
      · rintro ⟨a, ha, hax⟩
        refine ⟨a, ⟨ha, Bool.eq_false_iff.mpr fun hka => hkx (hdom.trans hka hax)⟩, hax⟩
    simp only [add, hcovers]
    split
    · rfl
    · simp [replace, push, prune, List.filter_append, List.filter_filter, hkx, Bool.and_comm]

theorem prune_merge (hdom : dom.IsPreorder) {other : Front α κ} :
    (front.merge dom other).prune dom k = (front.prune dom k).merge dom (other.prune dom k) := by
  obtain ⟨entries⟩ := other
  induction entries generalizing front with
  | nil => rfl
  | cons a rest ih =>
    have hrest : (front.merge dom ⟨a :: rest⟩).prune dom k =
        ((front.add dom a.1 a.2).prune dom k).merge dom ((⟨rest⟩ : Front α κ).prune dom k) := ih
    rw [hrest, prune_add hdom]
    cases hka : dom k a.2 <;> simp [merge, prune, hka]

/-- Where criteria are covered, alternatives that they are at least as good as are refused. -/
theorem merge_prune_of_covers (hdom : dom.IsPreorder) {other : Front α κ}
    (hk : front.covers dom k = true) :
    front.merge dom (other.prune dom k) = front.merge dom other := by
  obtain ⟨entries⟩ := other
  induction entries generalizing front with
  | nil => rfl
  | cons a rest ih =>
    cases hka : dom k a.2 with
    | false =>
      have hall := ih (covers_add (x := a.1) (k := a.2) hdom hk)
      simpa [merge, prune, hka] using hall
    | true =>
      have hrefused : front.add dom a.1 a.2 = front := if_pos (covers_trans hdom hk hka)
      have hall := ih hk
      simpa [merge, prune, hka, hrefused] using hall

/-- Before an alternative is added that another front does not cover, this front may be merged
without the alternatives that are dropped for it. -/
theorem add_merge_prune (hdom : dom.IsPreorder) {other : Front α κ}
    (hx : other.covers dom x.2 = false) :
    (front.merge dom (other.prune dom x.2)).add dom x.1 x.2 =
      (front.merge dom other).add dom x.1 x.2 := by
  by_cases hfront : front.covers dom x.2 = true
  · rw [merge_prune_of_covers hdom hfront]
  · have hother : (other.prune dom x.2).covers dom x.2 ≠ true := by
      intro h
      obtain ⟨a, ha, hax⟩ := covers_iff.mp h
      simp [covers_of_mem (List.mem_of_mem_filter ha) hax] at hx
    have hall : (front.merge dom other).covers dom x.2 ≠ true := by
      simp [covers_merge_iff hdom, hfront, hx]
    have hpruned : (front.merge dom (other.prune dom x.2)).covers dom x.2 ≠ true := by
      simp [covers_merge_iff hdom, hfront, hother]
    rw [add, if_neg hpruned, add, if_neg hall, replace, replace, prune_merge hdom,
      prune_merge hdom, prune_prune]

/-- Adding the front of a sequence comes to adding the sequence. -/
theorem merge_ofList (hdom : dom.IsPreorder) :
    front.merge dom (ofList dom seq) = front.merge dom ⟨seq⟩ := by
  induction seq using List.reverseRecOn with
  | nil => rfl
  | append_singleton seq e ih =>
    have hlast : front.merge dom ⟨seq ++ [e]⟩ = (front.merge dom ⟨seq⟩).add dom e.1 e.2 :=
      merge_append
    rw [ofList_append, hlast, ← ih]
    cases he : (ofList dom seq).covers dom e.2 with
    | true =>
      have hrefused : (ofList dom seq).add dom e.1 e.2 = ofList dom seq := if_pos he
      rw [hrefused, add, if_pos (covers_merge hdom he)]
    | false =>
      have hadded : (ofList dom seq).add dom e.1 e.2 = (ofList dom seq).replace dom e.1 e.2 :=
        if_neg (by simp [he])
      rw [hadded, ← add_merge_prune hdom he]
      exact merge_append

/-- The fronts of the parts of a sequence, merged, are the front of the sequence. -/
theorem merge_parts (hdom : dom.IsPreorder) (parts : List (List (α × κ))) :
    (parts.map (ofList dom)).foldl (merge dom) front = front.merge dom ⟨parts.flatten⟩ := by
  induction parts generalizing front with
  | nil => rfl
  | cons part rest ih => rw [List.map_cons, List.foldl_cons, ih, merge_ofList hdom,
      List.flatten_cons, merge_append]

/-! ### Operations on fronts -/

/-- What is done with a front. -/
inductive Operation (α κ : Type) where
  | add (element : α) (criteria : κ)
  | merge (other : Front α κ)
  | prune (criteria : κ)
  | drain
  | clear

/-- The front after an operation. -/
def perform (dom : Dominance κ) (front : Front α κ) : Operation α κ → Front α κ
  | .add element criteria => front.add dom element criteria
  | .merge other => front.merge dom other
  | .prune criteria => front.prune dom criteria
  | .drain => front.drain.2
  | .clear => front.clear

theorem Clean.perform (h : front.Clean dom) (operation : Operation α κ) :
    (front.perform dom operation).Clean dom := by
  cases operation with
  | add element criteria => exact h.add
  | merge other => exact h.merge
  | prune criteria => exact h.filter _
  | drain => exact clean_empty
  | clear => exact clean_empty

theorem Clean.performAll (h : front.Clean dom) (operations : List (Operation α κ)) :
    (operations.foldl (Front.perform dom) front).Clean dom := by
  induction operations generalizing front with
  | nil => exact h
  | cons operation rest ih => exact ih (h.perform operation)

/-- A front holds, in their order, the first minimal alternatives of those that were added. None of
them is at least as good as another one, and for each alternative that was added there is one at
least as good. What was added in another order leaves alternatives that are as good as these, and
fronts of consecutive parts, merged, are the same front. Whatever is done with a front in which no
alternative is at least as good as another one, none is afterwards. -/
theorem ofList_firstMinimals (hdom : dom.IsPreorder) (seq : List (α × κ)) :
    (ofList dom seq).entries = firstMinimals dom seq ∧
    (ofList dom seq).Clean dom ∧
    (∀ e ∈ seq, ∃ kept ∈ (ofList dom seq).entries, dom kept.2 e.2 = true) ∧
    (∀ other, other.Perm seq → ∀ k,
      (∃ e ∈ (ofList dom seq).entries, dom e.2 k = true ∧ dom k e.2 = true) ↔
        ∃ e ∈ (ofList dom other).entries, dom e.2 k = true ∧ dom k e.2 = true) ∧
    (∀ parts : List (List (α × κ)), parts.flatten = seq →
      (parts.map (ofList dom)).foldl (merge dom) empty = ofList dom seq) ∧
    ∀ (front : Front α κ) (operations : List (Operation α κ)), front.Clean dom →
      (operations.foldl (perform dom) front).Clean dom := by
  refine ⟨entries_ofList hdom, clean_ofList, fun e he => covers_iff.mp (covers_ofList hdom he),
    fun other hperm k => ?classes, fun parts hparts => ?parts,
    fun front operations h => h.performAll operations⟩
  case classes =>
    exact ⟨fun h => exists_class hdom hperm.symm h, fun h => exists_class hdom hperm h⟩
  case parts =>
    rw [merge_parts hdom, hparts]
    rfl

/-- The second of four journeys is refused, the third makes the front drop the first, and the
fourth, as good as the third, is refused. -/
theorem ofList_firstMinimals_fourJourneys :
    let journeys : List (String × JourneyCriteria) :=
      [("slow", ⟨600, 1, 90⟩), ("dear", ⟨600, 1, 95⟩), ("fast", ⟨540, 1, 90⟩),
        ("same", ⟨540, 1, 90⟩)]
    (ofList Direction.forward.dominatesJourney journeys).entries = [("fast", ⟨540, 1, 90⟩)] ∧
      (ofList Direction.forward.dominatesJourney journeys).Clean
        Direction.forward.dominatesJourney := by
  have hfront := ofList_firstMinimals Direction.forward.dominatesJourney_isOrder.toIsPreorder
    [("slow", ⟨600, 1, 90⟩), ("dear", ⟨600, 1, 95⟩), ("fast", ⟨540, 1, 90⟩), ("same", ⟨540, 1, 90⟩)]
  exact ⟨hfront.1.trans (by decide), hfront.2.1⟩

end Front

end JourneyPlanner
