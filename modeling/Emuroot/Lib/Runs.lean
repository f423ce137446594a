import Mathlib.Order.Defs.Unbundled
import Mathlib.Tactic.TypeStar

/-!
# Runs of a labelled step relation

`Run step s as s'`: from `s` the labels `as`, each a step, lead to `s'`. `Run.inv` is the induction
for invariants, `Run.rel` the one for a preorder that every step respects, `Run.sim` the one for
two systems that take the labels together.
-/

variable {σ τ α : Type*}

inductive Run (step : σ → α → σ → Prop) : σ → List α → σ → Prop
  | nil (s : σ) : Run step s [] s
  | cons {s s' s'' : σ} {a : α} {as : List α} :
      step s a s' → Run step s' as s'' → Run step s (a :: as) s''

namespace Run

variable {step : σ → α → σ → Prop} {s s' : σ} {as : List α}

/-- What every step keeps holds after the run. -/
theorem inv {I : σ → Prop} (hI : ∀ s a s', I s → step s a s' → I s') (h : Run step s as s')
    (h0 : I s) : I s' := by
  induction h with
  | nil => exact h0
  | cons hs _ ih => exact ih (hI _ _ _ h0 hs)

/-- A preorder that every step respects relates the ends of the run. -/
theorem rel {R : σ → σ → Prop} [IsPreorder σ R] (hR : ∀ s a s', step s a s' → R s s')
    (h : Run step s as s') : R s s' := by
  induction h with
  | nil s => exact refl_of R s
  | cons hs _ ih => exact trans_of R (hR _ _ _ hs) ih

theorem snoc {s'' : σ} {a : α} (h : Run step s as s') (hs : step s' a s'') :
    Run step s (as ++ [a]) s'' := by
  induction h with
  | nil => exact .cons hs (.nil _)
  | cons h1 _ ih => exact .cons h1 (ih hs)

theorem append {s'' : σ} {bs : List α} (h : Run step s as s') (hs : Run step s' bs s'') :
    Run step s (as ++ bs) s'' := by
  induction h with
  | nil => exact hs
  | cons h1 _ ih => exact .cons h1 (ih hs)

/-- A run up to a label, its step, and the rest. -/
theorem split {a : α} {bs : List α} (h : Run step s (as ++ a :: bs) s') :
    ∃ s1 s2, Run step s as s1 ∧ step s1 a s2 ∧ Run step s2 bs s' := by
  induction as generalizing s with
  | nil =>
    cases h with
    | cons hs ht => exact ⟨s, _, .nil s, hs, ht⟩
  | cons a' as ih =>
    cases h with
    | cons hs ht =>
      obtain ⟨s1, s2, h1, h2, h3⟩ := ih ht
      exact ⟨s1, s2, .cons hs h1, h2, h3⟩

/-- The steps of a run under a weaker relation. -/
theorem mono {step' : σ → α → σ → Prop} (hm : ∀ s a s', step s a s' → step' s a s')
    (h : Run step s as s') : Run step' s as s' := by
  induction h with
  | nil => exact .nil _
  | cons hs _ ih => exact .cons (hm _ _ _ hs) ih

/-- Two systems that take each label together stay related. -/
theorem sim {step' : τ → α → τ → Prop} {R : σ → τ → Prop}
    (hR : ∀ s a s' t, R s t → step s a s' → ∃ t', step' t a t' ∧ R s' t')
    (h : Run step s as s') {t : τ} (ht : R s t) : ∃ t', Run step' t as t' ∧ R s' t' := by
  induction h generalizing t with
  | nil => exact ⟨t, .nil t, ht⟩
  | cons hs _ ih =>
    obtain ⟨t1, h1, hr1⟩ := hR _ _ _ _ ht hs
    obtain ⟨t2, h2, hr2⟩ := ih hr1
    exact ⟨t2, .cons h1 h2, hr2⟩

/-- Where the good steps are those of which `post` holds, and these keep an invariant, the runs of
good steps are the runs with `post` at every step. -/
theorem iff_of_post {I : σ → Prop} {post : σ → α → σ → Prop} {good : σ → α → Prop}
    (hI : ∀ s a s', I s → step s a s' → (post s a s' ↔ good s a))
    (hpost : ∀ s a s', post s a s' → I s') (h0 : I s) :
    Run (fun s a s' => step s a s' ∧ post s a s') s as s' ↔
      Run (fun s a s' => step s a s' ∧ good s a) s as s' := by
  constructor
  · intro h
    induction h with
    | nil s => exact .nil s
    | cons hs _ ih => exact .cons ⟨hs.1, (hI _ _ _ h0 hs.1).1 hs.2⟩ (ih (hpost _ _ _ hs.2))
  · intro h
    induction h with
    | nil s => exact .nil s
    | cons hs _ ih =>
      have hkeep := (hI _ _ _ h0 hs.1).2 hs.2
      exact .cons ⟨hs.1, hkeep⟩ (ih (hpost _ _ _ hkeep))

/-- Where the good steps are those that keep an invariant, the runs of good steps are the runs that
have it in every state. -/
theorem iff_of_keeps {I : σ → Prop} {good : σ → α → Prop}
    (hI : ∀ s a s', I s → step s a s' → (I s' ↔ good s a)) (h0 : I s) :
    Run (fun s a s' => step s a s' ∧ I s') s as s' ↔
      Run (fun s a s' => step s a s' ∧ good s a) s as s' :=
  iff_of_post hI (fun _ _ _ h => h) h0

/-- A run of a function is a fold. -/
theorem eq_foldl {f : σ → α → σ} (h : Run (fun s a s' => s' = f s a) s as s') :
    s' = as.foldl f s := by
  induction h with
  | nil => rfl
  | cons hs _ ih => rw [ih, hs, List.foldl_cons]

end Run
