import Mathlib.Logic.Relation

/-!
# Stepping until a result

A function that goes on to another state or ends with a result. `Reaches` says which states it comes
by, and `Ends` with what it ends; `Ends.unique`: there is one result at most. `ends_of_lead` and
`reaches_of_after` find them by running, and `of_always` checks all states on the way.
-/

namespace Steps

open Relation

variable {σ β : Type*} {step : σ → σ ⊕ β} {s s' : σ}

/-- It comes from the one state to the other. -/
def Reaches (step : σ → σ ⊕ β) : σ → σ → Prop := ReflTransGen fun s s' => step s = .inl s'

/-- It ends with the result. -/
def Ends (step : σ → σ ⊕ β) (s : σ) (b : β) : Prop := ∃ e, Reaches step s e ∧ step e = .inr b

theorem Ends.unique {a b : β} (ha : Ends step s a) (hb : Ends step s b) : a = b := by
  -- neither of the two ends goes on to the other
  have hend : ∀ {e e' : σ} {c}, step e = .inr c → Reaches step e e' → e' = e := by
    intro e e' c he hr
    obtain rfl | ⟨m, hm, -⟩ := ReflTransGen.cases_head hr
    · rfl
    · cases he.symm.trans hm
  obtain ⟨e, he, hea⟩ := ha
  obtain ⟨e', he', heb⟩ := hb
  have hfun : Relator.RightUnique fun s s' => step s = Sum.inl s' := fun _ _ _ h h' =>
    Sum.inl.inj (h.symm.trans h')
  obtain h | h := ReflTransGen.total_of_right_unique hfun he he'
  · rw [hend hea h, hea] at heb
    exact Sum.inr.inj heb
  · rw [hend heb h, heb] at hea
    exact (Sum.inr.inj hea).symm

/-- The result, if it comes within `n` steps. -/
def lead (step : σ → σ ⊕ β) : Nat → σ → Option β
  | 0, _ => none
  | n + 1, s =>
    match step s with
    | .inl s' => lead step n s'
    | .inr b => some b

theorem ends_of_lead {n : Nat} {b : β} (h : lead step n s = some b) : Ends step s b := by
  induction n generalizing s with
  | zero => cases h
  | succ n ih =>
    rw [lead] at h
    split at h
    · rename_i s' hs
      obtain ⟨e, hr, he⟩ := ih h
      exact ⟨e, .head hs hr, he⟩
    · rename_i c hs
      cases h
      exact ⟨s, .refl, hs⟩

/-- Where it is after `n` steps. -/
def after (step : σ → σ ⊕ β) : Nat → σ → Option σ
  | 0, s => some s
  | n + 1, s =>
    match step s with
    | .inl s' => after step n s'
    | .inr _ => none

theorem reaches_of_after {n : Nat} (h : after step n s = some s') : Reaches step s s' := by
  induction n generalizing s with
  | zero =>
    cases h
    exact .refl
  | succ n ih =>
    rw [after] at h
    split at h
    · rename_i m hm
      exact .head hm (ih h)
    · cases h

/-- It ends within `n` steps, and each state on the way has the property. -/
def always (step : σ → σ ⊕ β) (p : σ → Bool) : Nat → σ → Bool
  | 0, _ => false
  | n + 1, s =>
    p s &&
      match step s with
      | .inl s' => always step p n s'
      | .inr _ => true

theorem of_always {p : σ → Bool} {n : Nat} (h : always step p n s = true)
    (hr : Reaches step s s') : p s' = true := by
  induction hr using ReflTransGen.head_induction_on generalizing n with
  | refl =>
    cases n with
    | zero => cases h
    | succ n => exact (Bool.and_eq_true_iff.1 h).1
  | head hs _ ih =>
    cases n with
    | zero => cases h
    | succ n =>
      rw [always, hs] at h
      exact ih (Bool.and_eq_true_iff.1 h).2

end Steps
