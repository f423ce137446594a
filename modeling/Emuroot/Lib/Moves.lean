import Mathlib.Logic.Function.Basic
import Mathlib.Data.List.Basic

/-!
# Assignments one after another, and at once

A list of moves `(destination, source)` carried out in order (`Moves.seq`), or all of them from the
values at the start (`Moves.par`). With distinct destinations the two agree exactly when no move
reads a source that an earlier one has changed (`seq_eq_par_iff`).
-/

namespace Moves

variable {κ β : Type*} [DecidableEq κ] {ms : List (κ × κ)} {env : κ → β}

/-- One move after another. -/
def seq : List (κ × κ) → (κ → β) → κ → β
  | [], env => env
  | m :: ms, env => seq ms (Function.update env m.1 (env m.2))

/-- All moves at once. -/
def par (ms : List (κ × κ)) (env : κ → β) (k : κ) : β :=
  match ms.find? fun m => m.1 = k with
  | some m => env m.2
  | none => env k

theorem seq_append (ms ns : List (κ × κ)) (env : κ → β) :
    seq (ms ++ ns) env = seq ns (seq ms env) := by
  induction ms generalizing env with
  | nil => rfl
  | cons m ms ih => exact ih _

/-- What is no destination keeps its value. -/
theorem seq_of_not_mem {k : κ} (h : k ∉ ms.map Prod.fst) : seq ms env k = env k := by
  induction ms generalizing env with
  | nil => rfl
  | cons m ms ih =>
    rw [List.map_cons, List.mem_cons, not_or] at h
    rw [seq, ih h.2, Function.update_of_ne h.1]

theorem par_of_not_mem {k : κ} (h : k ∉ ms.map Prod.fst) : par ms env k = env k := by
  have hnone : (ms.find? fun m => m.1 = k) = none := by
    rw [List.find?_eq_none]
    intro m hm
    simpa using fun he : m.1 = k => h (List.mem_map.2 ⟨m, hm, he⟩)
  rw [par, hnone]

/-- The value a destination gets, at its turn. -/
theorem seq_dest {pre post : List (κ × κ)} {d s : κ}
    (hn : ((pre ++ (d, s) :: post).map Prod.fst).Nodup) :
    seq (pre ++ (d, s) :: post) env d = seq pre env s := by
  rw [List.map_append, List.map_cons] at hn
  have hpost : d ∉ post.map Prod.fst := (List.nodup_cons.1 (List.nodup_append.1 hn).2.1).1
  rw [seq_append, seq, seq_of_not_mem hpost]
  exact Function.update_self ..

theorem par_dest {pre post : List (κ × κ)} {d s : κ}
    (hn : ((pre ++ (d, s) :: post).map Prod.fst).Nodup) :
    par (pre ++ (d, s) :: post) env d = env s := by
  rw [List.map_append, List.map_cons] at hn
  have hnone : (pre.find? fun m => m.1 = d) = none := by
    rw [List.find?_eq_none]
    intro m hm
    have hne := (List.nodup_append.1 hn).2.2 m.1 (List.mem_map_of_mem hm) d List.mem_cons_self
    simpa using hne
  rw [par, List.find?_append, hnone, Option.none_or, List.find?_cons_of_pos (by simp)]

/-- **When moves in order are moves at once**: each reads what was there at the start. -/
theorem seq_eq_par_iff (hn : (ms.map Prod.fst).Nodup) :
    seq ms env = par ms env ↔
      ∀ pre d s post, ms = pre ++ (d, s) :: post → seq pre env s = env s := by
  constructor
  · rintro h pre d s post rfl
    rw [← seq_dest hn, h, par_dest hn]
  · intro h
    funext k
    by_cases hk : k ∈ ms.map Prod.fst
    · obtain ⟨⟨d, s⟩, hm, rfl⟩ := List.mem_map.1 hk
      obtain ⟨pre, post, rfl⟩ := List.append_of_mem hm
      rw [seq_dest hn, par_dest hn, h pre d s post rfl]
    · rw [seq_of_not_mem hk, par_of_not_mem hk]

end Moves
