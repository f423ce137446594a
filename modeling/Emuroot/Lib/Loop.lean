import Mathlib.Tactic.TypeStar

/-!
# Loops that end

A `Loop` is the body of a `for (;;)` loop, either going round again or leaving with a result,
together with a measure that every further round decreases. `Loop.run` is its result: it is total,
it is computed by structural recursion on the measure, and it satisfies the loop's equations
(`run_again`, `run_leave`). `Loop.run_spec` is the invariant rule, `Loop.run_map` the one for a loop
that carries more than another.
-/

/-- A loop body with its measure. -/
structure Loop (σ β : Type*) where
  step : σ → σ ⊕ β
  measure : σ → Nat
  decreases : ∀ {s s'}, step s = .inl s' → measure s' < measure s

namespace Loop

variable {σ β : Type*} (L : Loop σ β)

/-- At most `n` rounds. -/
def rounds : Nat → σ → Option β
  | 0, _ => none
  | n + 1, s =>
    match L.step s with
    | .inl s' => rounds n s'
    | .inr b => some b

theorem rounds_isSome {n : Nat} {s : σ} (h : L.measure s < n) : (L.rounds n s).isSome := by
  induction n generalizing s with
  | zero => exact absurd h (Nat.not_lt_zero _)
  | succ n ih =>
    unfold rounds
    split
    · rename_i s' hs
      exact ih (Nat.lt_of_lt_of_le (L.decreases hs) (Nat.le_of_lt_succ h))
    · rfl

/-- The result of the loop entered in state `s`. -/
def run (s : σ) : β := (L.rounds (L.measure s + 1) s).get (L.rounds_isSome (Nat.lt_succ_self _))

/-- More rounds than needed change nothing. -/
theorem rounds_eq_run {n : Nat} {s : σ} (h : L.measure s < n) : L.rounds n s = some (L.run s) := by
  induction n using Nat.strongRecOn generalizing s with
  | ind n ih =>
    obtain ⟨m, rfl⟩ : ∃ m, n = m + 1 := ⟨n - 1, by omega⟩
    have hr : L.rounds (L.measure s + 1) s = some (L.run s) := by simp [run]
    rw [← hr]
    unfold rounds
    split
    · rename_i s' hs
      have hd := L.decreases hs
      rw [ih m (by omega) (s := s') (by omega)]
      by_cases hm : L.measure s = m
      · rw [hm, ih m (by omega) (by omega)]
      · rw [ih (L.measure s) (by omega) hd]
    · rfl

theorem run_again {s s' : σ} (h : L.step s = .inl s') : L.run s = L.run s' := by
  have h1 := L.rounds_eq_run (Nat.lt_succ_self (L.measure s))
  rw [rounds, h] at h1
  exact (Option.some.inj ((L.rounds_eq_run (L.decreases h)).symm.trans h1)).symm

theorem run_leave {s : σ} {b : β} (h : L.step s = .inr b) : L.run s = b := by
  have h1 := L.rounds_eq_run (Nat.lt_succ_self (L.measure s))
  rw [rounds, h] at h1
  exact (Option.some.inj h1).symm

/-- States whose next rounds are the same. -/
theorem run_congr {s t : σ} (h : L.step s = L.step t) : L.run s = L.run t := by
  cases ht : L.step t with
  | inl t' => rw [L.run_again (h.trans ht), L.run_again ht]
  | inr b => rw [L.run_leave (h.trans ht), L.run_leave ht]

/-- A loop that goes round as another does, on less of the state. -/
theorem run_map {τ γ : Type*} {L : Loop σ β} {L' : Loop τ γ} {f : τ → σ} {g : γ → β}
    (h : ∀ t, L.step (f t) = Sum.map f g (L'.step t)) (t : τ) : L.run (f t) = g (L'.run t) := by
  induction hn : L'.measure t using Nat.strongRecOn generalizing t with
  | ind n ih =>
    have ht := h t
    cases hs : L'.step t with
    | inl t' =>
      rw [hs] at ht
      have hd := L'.decreases hs
      rw [L.run_again ht, L'.run_again hs]
      exact ih _ (by omega) t' rfl
    | inr c =>
      rw [hs] at ht
      rw [L.run_leave ht, L'.run_leave hs]

/-- The invariant rule: an invariant of the rounds holds in the state the loop leaves from. -/
theorem run_spec {I : σ → Prop} (hI : ∀ s s', I s → L.step s = .inl s' → I s') {s : σ} (h : I s) :
    ∃ e, I e ∧ L.step e = .inr (L.run s) := by
  induction hn : L.measure s using Nat.strongRecOn generalizing s with
  | ind n ih =>
    cases hs : L.step s with
    | inl s' =>
      have hd := L.decreases hs
      obtain ⟨e, he, hr⟩ := ih _ (by omega) (hI _ _ h hs) rfl
      exact ⟨e, he, by rw [hr, L.run_again hs]⟩
    | inr b => exact ⟨s, h, by rw [hs, L.run_leave hs]⟩

end Loop
