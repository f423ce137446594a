import Emuroot.Lib.Steps
import Emuroot.Lib.Words

/-!
# Resolving a path by its components

The textbook resolver. A path is cut at its separators; empty items and `here` are skipped, `up`
takes the last component back and stays at the root, and any other item is looked up behind the
components so far: a link's items are read in its place, from the root if its text begins with a
separator, else from the directory of the link. `Resolves.unique`: it leads to one place at most.
-/

namespace Resolver

open Words

variable {α : Type*} [DecidableEq α]

/-- How paths are spelled, and the text of the link at a path, if there is one. -/
structure Space (α : Type*) where
  sep : α
  here : List α
  up : List α
  link : List (List α) → Option (List α)
  followLast : Bool

/-- The components so far, the items still to read, how many links were followed, and whether the
item read last is empty. -/
structure Reading (α : Type*) where
  dir : List (List α)
  items : List (List α)
  links : Nat
  slash : Bool

/-- Where reading the path starts. -/
def start (S : Space α) (path : List α) : Reading α := ⟨[], path.splitOn S.sep, 0, false⟩

/-- One item; `inr` is where the path leads, and whether a separator is left behind it. -/
def step (S : Space α) (r : Reading α) : Reading α ⊕ (List (List α) × Bool) :=
  match r.items with
  | [] => .inr (r.dir, r.slash)
  | c :: rest =>
    if c = [] then .inl { r with items := rest, slash := true }
    else if c = S.here then .inl { r with items := rest, slash := false }
    else if c = S.up then .inl { r with dir := r.dir.dropLast, items := rest, slash := false }
    else if rest = [] ∧ S.followLast = false then .inr (r.dir ++ [c], false)
    else
      match S.link (r.dir ++ [c]) with
      | none => .inl { r with dir := r.dir ++ [c], items := rest, slash := false }
      | some target =>
        .inl
          { dir := if target.head? = some S.sep then [] else r.dir
            items := target.splitOn S.sep ++ rest
            links := r.links + 1
            slash := false }

/-- Reading goes on from `r` to `r'`. -/
def Reaches (S : Space α) : Reading α → Reading α → Prop := Steps.Reaches (step S)

/-- Reading from `r` on leads there. -/
def Resolves (S : Space α) (r : Reading α) (goal : List (List α) × Bool) : Prop :=
  Steps.Ends (step S) r goal

variable {S : Space α} {r r' : Reading α}

/-- It leads to one place at most. -/
theorem Resolves.unique {a b : List (List α) × Bool} (ha : Resolves S r a) (hb : Resolves S r b) :
    a = b := Steps.Ends.unique ha hb

/-- Where none of the directories on the way is a link, items lead to their own names. -/
theorem resolves_linkless (hf : S.followLast = true) {dir items : List (List α)} {n : Nat} {b : Bool}
    (hi : ∀ c ∈ items, c ≠ S.here ∧ c ≠ S.up)
    (hl : ∀ k < (items.filter (· ≠ [])).length,
      S.link (dir ++ (items.filter (· ≠ [])).take (k + 1)) = none) :
    ∃ b', Resolves S ⟨dir, items, n, b⟩ (dir ++ items.filter (· ≠ []), b') := by
  induction items generalizing dir b with
  | nil => exact ⟨b, _, .refl, by rw [step, List.filter_nil, List.append_nil]⟩
  | cons c items ih =>
    obtain ⟨hhere, hup⟩ := hi c List.mem_cons_self
    have hi' : ∀ c ∈ items, c ≠ S.here ∧ c ≠ S.up := fun d hd => hi d (List.mem_cons_of_mem _ hd)
    by_cases hc : c = []
    · have hfilter : (c :: items).filter (· ≠ []) = items.filter (· ≠ []) :=
        List.filter_cons_of_neg (by simp [hc])
      rw [hfilter] at hl ⊢
      obtain ⟨b', e, hr, he⟩ := ih (b := true) hi' hl
      exact ⟨b', e, .head (if_pos hc) hr, he⟩
    · have hfilter : (c :: items).filter (· ≠ []) = c :: items.filter (· ≠ []) :=
        List.filter_cons_of_pos (by simp [hc])
      rw [hfilter] at hl ⊢
      have hstep : step S ⟨dir, c :: items, n, b⟩ = .inl ⟨dir ++ [c], items, n, false⟩ := by
        have hlink : S.link (dir ++ [c]) = none := hl 0 (Nat.succ_pos _)
        unfold step
        dsimp only
        rw [if_neg hc, if_neg hhere, if_neg hup, if_neg (by simp [hf]), hlink]
      have hrest : ∀ k < (items.filter (· ≠ [])).length,
          S.link (dir ++ [c] ++ (items.filter (· ≠ [])).take (k + 1)) = none := by
        intro k hk
        rw [List.append_assoc]
        exact hl (k + 1) (Nat.succ_lt_succ hk)
      obtain ⟨b', e, hr, he⟩ := ih (b := false) hi' hrest
      rw [List.append_assoc] at he
      exact ⟨b', e, .head hstep hr, he⟩

/-! ## A separator at the end -/

/-- The last of all the items is empty. -/
def Reading.ends (r : Reading α) : Bool := (r.items.getLast?.map List.isEmpty).getD r.slash

omit [DecidableEq α] in
/-- Reading an item keeps this. -/
theorem ends_cons (dir dir' : List (List α)) (c : List α) (rest : List (List α)) (n n' : Nat)
    (b : Bool) :
    Reading.ends ⟨dir, c :: rest, n, b⟩ = Reading.ends ⟨dir', rest, n', c.isEmpty⟩ := by
  cases rest with
  | nil => rfl
  | cons d rest =>
    obtain ⟨w, hw⟩ := Option.ne_none_iff_exists'.1
      (mt List.getLast?_eq_none_iff.1 (List.cons_ne_nil d rest))
    rw [Reading.ends, Reading.ends, List.getLast?_cons_cons, hw]
    rfl

omit [DecidableEq α] in
theorem ends_congr {items : List (List α)} (hne : items ≠ []) (dir dir' : List (List α)) (n n' : Nat)
    (b b' : Bool) : Reading.ends ⟨dir, items, n, b⟩ = Reading.ends ⟨dir', items, n', b'⟩ := by
  obtain ⟨c, rest, rfl⟩ := List.exists_cons_of_ne_nil hne
  rw [ends_cons dir dir c rest n n b, ends_cons dir' dir c rest n' n b']

/-! ## Skipping empty items -/

/-- Reading goes on behind the empty items. -/
theorem reaches_skip (S : Space α) (r : Reading α) :
    ∃ r', Reaches S r r' ∧ r'.dir = r.dir ∧ r'.links = r.links ∧ r'.ends = r.ends ∧
      r'.items = r.items.dropWhile (· = []) := by
  obtain ⟨dir, items, links, b⟩ := r
  induction items generalizing b with
  | nil => exact ⟨_, .refl, rfl, rfl, rfl, rfl⟩
  | cons c items ih =>
    by_cases hc : c = []
    · subst hc
      obtain ⟨r', hr, hdir, hlinks, hends, hitems⟩ := ih true
      have hread : Reading.ends ⟨dir, [] :: items, links, b⟩ = _ :=
        ends_cons dir dir [] items links links b
      exact ⟨r', .head rfl hr, hdir, hlinks, hends.trans hread.symm, hitems⟩
    · exact ⟨_, .refl, rfl, rfl, rfl, by simp [hc]⟩

end Resolver
