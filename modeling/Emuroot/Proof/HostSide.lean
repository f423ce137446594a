import Emuroot.Proof.Sockaddr

/-!
# Where a host path leads

`LeadsInside`: with all its symlinks followed in the real root, as open, stat and chmod of the
tracer do, a path leads to the root or to the host side of a binding, or to a place below.
-/

namespace Emuroot

open Words
open Resolver (Resolves)

variable {E : WalkEnv} {path top : CStr}

/-- The path leads to these components. -/
def LeadsTo (rl : CStr → Option CStr) (path : CStr) (cs : List CStr) : Prop :=
  ∃ b, Resolves (hostSpace rl) (Resolver.start (hostSpace rl) path) (cs, b)

theorem LeadsTo.unique {rl : CStr → Option CStr} {cs ds : List CStr} (h : LeadsTo rl path cs)
    (h' : LeadsTo rl path ds) : cs = ds := by
  obtain ⟨b, hb⟩ := h
  obtain ⟨c, hc⟩ := h'
  exact (Prod.ext_iff.1 (hb.unique hc)).1

theorem leadsTo_of_lead {rl : CStr → Option CStr} (n : Nat) {cs : List CStr}
    (h : (Steps.lead (Resolver.step (hostSpace rl)) n (Resolver.start (hostSpace rl) path)).map
      Prod.fst = some cs) : LeadsTo rl path cs := by
  obtain ⟨⟨ds, b⟩, hd, rfl⟩ := Option.map_eq_some_iff.1 h
  exact ⟨b, Steps.ends_of_lead hd⟩

/-- The host's side of the guest's name space: the root (without one, the host's own) and the
bindings. -/
def WalkEnv.tops (E : WalkEnv) : List CStr := orSlash E.root :: E.ctx.bindings.map (·.host)

/-- The path leads to the root or a binding's host directory, or below. -/
def LeadsInside (E : WalkEnv) (path : CStr) : Prop :=
  ∃ top ∈ E.tops, ∃ ds cs, LeadsTo E.rl top ds ∧ LeadsTo E.rl path cs ∧ ds <+: cs

/-- Without a link on the way, a path leads where it says. -/
theorem leadsTo_of_linkless {rl : CStr → Option CStr}
    (hn : ∀ c ∈ words slash path, c ≠ dot ∧ c ≠ dotdot)
    (hl : ∀ k < (words slash path).length, rl (pathStr ((words slash path).take (k + 1))) = none) :
    LeadsTo rl path (words slash path) := by
  have hitems : ∀ c ∈ path.splitOn slash, c ≠ dot ∧ c ≠ dotdot := by
    intro c hc
    by_cases h0 : c = []
    · rw [h0]
      decide
    · exact hn c (List.mem_filter.2 ⟨hc, by simpa using h0⟩)
  exact Resolver.resolves_linkless rfl hitems hl

end Emuroot
