import Mathlib.Data.List.Forall2
import JourneyPlanner.Checked

/-!
# Reasoning about checked computations

`Yields x Q` says that a computation either gives a value of which `Q` holds or ends with an
overflow. Every other fault is thus excluded, and a sequence of computations is proved step by
step, each with the statement that the steps before it left behind.

* `Yields.bind`: what a sequence yields.
* `Yields.foldlM`: what a loop yields, from an invariant that every turn keeps.
* `Yields.foldlM_done`: the same with an invariant about the elements that are done.
-/

namespace JourneyPlanner

/-- A value with a property, or an overflow. -/
def Yields {α : Type} (x : Checked α) (Q : α → Prop) : Prop :=
  match x with
  | .ok a => Q a
  | .error fault => fault = .overflow

section

variable {α β σ : Type} {x : Checked α} {P Q : α → Prop}

@[simp] theorem yields_ok {a : α} : Yields (.ok a) Q ↔ Q a := Iff.rfl

@[simp] theorem yields_pure {a : α} : Yields (pure a) Q ↔ Q a := Iff.rfl

@[simp] theorem yields_error {fault : Fault} :
    Yields (.error fault : Checked α) Q ↔ fault = .overflow := Iff.rfl

theorem Yields.of_ok (h : Yields x Q) {a : α} (hx : x = .ok a) : Q a := by
  subst hx
  exact h

theorem Yields.of_error (h : Yields x Q) {fault : Fault} (hx : x = .error fault) :
    fault = .overflow := by
  subst hx
  exact h

/-- A computation that does not overflow gives a value. -/
theorem Yields.exists_ok (h : Yields x Q) (hx : x ≠ .error .overflow) : ∃ a, x = .ok a ∧ Q a := by
  cases x with
  | ok a => exact ⟨a, rfl, h⟩
  | error fault =>
    have : fault = .overflow := h
    exact absurd (by rw [this]) hx

theorem Yields.mono (h : Yields x P) (hPQ : ∀ a, x = .ok a → P a → Q a) : Yields x Q := by
  cases x with
  | ok a => exact hPQ a rfl h
  | error fault => exact h

theorem Yields.and (hP : Yields x P) (hQ : Yields x Q) : Yields x fun a => P a ∧ Q a := by
  cases x with
  | ok a => exact ⟨hP, hQ⟩
  | error fault => exact hP

theorem Yields.bind {f : α → Checked β} {R : β → Prop} (h : Yields x P)
    (hf : ∀ a, x = .ok a → P a → Yields (f a) R) : Yields (x >>= f) R := by
  cases x with
  | ok a => exact hf a rfl h
  | error fault => exact h

theorem Yields.map {f : α → β} {R : β → Prop} (h : Yields x P) (hf : ∀ a, P a → R (f a)) :
    Yields (f <$> x) R := by
  cases x with
  | ok a => exact hf a h
  | error fault => exact h

theorem Yields.ite {c : Prop} [Decidable c] {y : Checked α} (hx : c → Yields x Q)
    (hy : ¬c → Yields y Q) : Yields (if c then x else y) Q := by
  split
  · exact hx ‹_›
  · exact hy ‹_›

theorem map_eq_ok {f : α → β} {b : β} : f <$> x = .ok b ↔ ∃ a, x = .ok a ∧ f a = b := by
  cases x <;> simp [Functor.map, Except.map]

theorem map_eq_error {f : α → β} {fault : Fault} : f <$> x = .error fault ↔ x = .error fault := by
  cases x <;> simp [Functor.map, Except.map]

theorem some_map_eq_ok {x : Checked α} {a : α}
    (h : (some <$> x : Checked (Option α)) = .ok (some a)) : x = .ok a := by
  obtain ⟨b, hb, heq⟩ := map_eq_ok.mp h
  rwa [← Option.some.inj heq]

theorem toOption_eq_some {a : α} : x.toOption = some a ↔ x = .ok a := by
  cases x <;> simp [Except.toOption]

/-! ### Words and tables -/

theorem yields_word (x : Int) : Yields (word x) fun y => y = x ∧ IsWord x := by
  unfold word
  split <;> simp_all

theorem yields_byte (x : Nat) : Yields (byte x) fun y => y = x ∧ x < 256 := by
  unfold byte
  split <;> simp_all

theorem yields_magnitude (x : Int) : Yields (magnitude x) fun y => y = x.natAbs :=
  (yields_word _).mono fun _ _ h => h.1

theorem yields_fetch {table : Array α} {position : Nat} (h : position < table.size) :
    Yields (fetch table position) fun element => table[position]? = some element := by
  simp [fetch, h]

theorem fetch_of_getElem? {table : Array α} {position : Nat} {element : α}
    (h : table[position]? = some element) : fetch table position = .ok element :=
  fetch_eq_ok.mpr h

/-! ### Computations without overflow -/

theorem pure_ne_overflow {a : α} : (pure a : Checked α) ≠ .error .overflow := by
  simp [pure, Except.pure]

theorem fetch_ne_overflow {table : Array α} {position : Nat} :
    fetch table position ≠ .error .overflow := by
  unfold fetch
  split <;> simp

theorem bind_ne_overflow {f : α → Checked β} (hx : x ≠ .error .overflow)
    (hf : ∀ a, f a ≠ .error .overflow) : x >>= f ≠ .error .overflow := by
  cases x with
  | ok a => exact hf a
  | error fault => exact fun h => hx (congrArg Except.error (Except.error.inj h))

/-! ### Loops -/

/-- An invariant that every turn keeps holds after a loop. -/
theorem Yields.foldlM {I : σ → Prop} {f : σ → β → Checked σ} {xs : List β} {s : σ} (hs : I s)
    (hf : ∀ s, ∀ b ∈ xs, I s → Yields (f s b) I) : Yields (xs.foldlM f s) I := by
  induction xs generalizing s with
  | nil => simpa using hs
  | cons b xs ih =>
    rw [List.foldlM_cons]
    refine (hf s b (by simp) hs).bind fun s' _ hs' => ?_
    exact ih hs' fun s b hb => hf s b (by simp [hb])

/-- An invariant about the elements that are done holds of all of them after a loop. -/
theorem Yields.foldlM_done {I : List β → σ → Prop} {f : σ → β → Checked σ} {xs : List β} {s : σ}
    (hs : I [] s)
    (hf : ∀ done b s, (∃ rest, xs = done ++ b :: rest) → I done s →
      Yields (f s b) (I (done ++ [b]))) :
    Yields (xs.foldlM f s) (I xs) := by
  suffices ∀ rest done s, xs = done ++ rest → I done s → Yields (rest.foldlM f s) (I xs) from
    this xs [] s rfl hs
  intro rest
  induction rest with
  | nil =>
    intro done s hxs hI
    simpa [hxs] using hI
  | cons b rest ih =>
    intro done s hxs hI
    rw [List.foldlM_cons]
    refine (hf done b s ⟨rest, hxs⟩ hI).bind fun s' _ hs' => ?_
    exact ih (done ++ [b]) s' (by simp [hxs]) hs'

theorem Yields.mapM {f : β → Checked α} {xs : List β} {R : β → α → Prop}
    (hf : ∀ b ∈ xs, Yields (f b) (R b)) : Yields (xs.mapM f) (List.Forall₂ R xs) := by
  induction xs with
  | nil => simp
  | cons b xs ih =>
    rw [List.mapM_cons]
    refine (hf b (by simp)).bind fun a _ ha => ?_
    refine (ih fun b hb => hf b (by simp [hb])).bind fun as _ has => ?_
    exact List.Forall₂.cons ha has

/-- The elements of a list and the values computed from them correspond to each other. -/
theorem Yields.mapM_mem {f : β → Checked α} {xs : List β} {R : β → α → Prop}
    (hf : ∀ b ∈ xs, Yields (f b) (R b)) :
    Yields (xs.mapM f) fun as => (∀ b ∈ xs, ∃ a ∈ as, R b a) ∧ ∀ a ∈ as, ∃ b ∈ xs, R b a := by
  refine (Yields.mapM hf).mono fun as hx h => ?_
  clear hf hx
  induction h with
  | nil => simp
  | cons hab _ ih =>
    obtain ⟨ihl, ihr⟩ := ih
    constructor
    · intro b hb
      rcases List.mem_cons.mp hb with rfl | hb
      · exact ⟨_, by simp, hab⟩
      · obtain ⟨a, ha, hba⟩ := ihl b hb
        exact ⟨a, by simp [ha], hba⟩
    · intro a ha
      rcases List.mem_cons.mp ha with rfl | ha
      · exact ⟨_, by simp, hab⟩
      · obtain ⟨b, hb, hba⟩ := ihr a ha
        exact ⟨b, by simp [hb], hba⟩

/-- The values of a loop come from its elements. -/
theorem exists_of_mem_mapM {ε : Type} {f : β → Except ε α} {xs : List β} {as : List α}
    (h : xs.mapM f = .ok as) {a : α} (ha : a ∈ as) : ∃ b ∈ xs, f b = .ok a := by
  induction xs generalizing as with
  | nil =>
    cases h
    cases ha
  | cons b xs ih =>
    rw [List.mapM_cons] at h
    obtain ⟨a', hb, h⟩ := bind_eq_ok.mp h
    obtain ⟨as', has, h⟩ := bind_eq_ok.mp h
    cases h
    rcases List.mem_cons.mp ha with rfl | ha
    · exact ⟨b, by simp, hb⟩
    · obtain ⟨b', hmem, hb'⟩ := ih has ha
      exact ⟨b', List.mem_cons_of_mem _ hmem, hb'⟩

/-- Every element of a loop has its value. -/
theorem exists_mem_of_mapM {ε : Type} {f : β → Except ε α} {xs : List β} {as : List α}
    (h : xs.mapM f = .ok as) {b : β} (hb : b ∈ xs) : ∃ a ∈ as, f b = .ok a := by
  induction xs generalizing as with
  | nil => cases hb
  | cons b' xs ih =>
    rw [List.mapM_cons] at h
    obtain ⟨a, ha, h⟩ := bind_eq_ok.mp h
    obtain ⟨as', has, h⟩ := bind_eq_ok.mp h
    cases h
    rcases List.mem_cons.mp hb with rfl | hb
    · exact ⟨a, List.mem_cons_self, ha⟩
    · obtain ⟨a', hmem, ha'⟩ := ih has hb
      exact ⟨a', List.mem_cons_of_mem _ hmem, ha'⟩

/-- A loop has a list of values if they are those of its elements. -/
theorem mapM_eq_ok_iff {f : β → Checked α} {xs : List β} {as : List α} :
    xs.mapM f = .ok as ↔ List.Forall₂ (fun b a => f b = .ok a) xs as := by
  constructor
  · intro h
    induction xs generalizing as with
    | nil =>
      cases h
      exact .nil
    | cons b xs ih =>
      rw [List.mapM_cons] at h
      obtain ⟨a, ha, h⟩ := bind_eq_ok.mp h
      obtain ⟨as', has, h⟩ := bind_eq_ok.mp h
      cases h
      exact .cons ha (ih has)
  · intro h
    induction h with
    | nil => rfl
    | cons ha _ ih =>
      rw [List.mapM_cons, ha]
      exact bind_eq_ok.mpr ⟨_, rfl, bind_eq_ok.mpr ⟨_, ih, rfl⟩⟩

/-- A loop has values if each of its elements has one. -/
theorem exists_mapM_iff {f : β → Checked α} {xs : List β} :
    (∃ as, xs.mapM f = .ok as) ↔ ∀ b ∈ xs, ∃ a, f b = .ok a := by
  constructor
  · rintro ⟨as, h⟩ b hb
    obtain ⟨a, -, ha⟩ := exists_mem_of_mapM h hb
    exact ⟨a, ha⟩
  · intro h
    induction xs with
    | nil => exact ⟨[], rfl⟩
    | cons b xs ih =>
      obtain ⟨a, ha⟩ := h b List.mem_cons_self
      obtain ⟨as, has⟩ := ih fun b hb => h b (List.mem_cons_of_mem _ hb)
      exact ⟨a :: as, mapM_eq_ok_iff.mpr (.cons ha (mapM_eq_ok_iff.mp has))⟩

theorem yields_anyM {f : β → Checked Bool} {xs : List β} {g : β → Bool}
    (hf : ∀ b ∈ xs, f b = .ok (g b)) : xs.anyM f = .ok (xs.any g) := by
  induction xs with
  | nil => rfl
  | cons b xs ih =>
    have hb := hf b (by simp)
    have ih := ih fun b hb => hf b (by simp [hb])
    rw [List.anyM, hb, List.any_cons]
    cases g b with
    | true => rfl
    | false => exact ih

end

end JourneyPlanner
