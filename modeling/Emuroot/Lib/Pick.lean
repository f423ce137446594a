import Mathlib.Data.List.MinMax

/-!
# Picking the best of a list

`Pick.pick f ok l`: one pass over `l` that keeps an element satisfying `ok` and replaces it by a
later one only when that has a greater `f`. It is `List.argmax` of the elements that satisfy `ok`
(`pick_eq_argmax`), so it picks the first of the greatest (`pick_eq_some_iff`). `pick_of_imp`: the
pick stays the same under a stronger test that it passes itself. `pick_insert`: one more element
changes the pick only by being picked. `pick_reorder`: the order matters only among elements that
are alike.
-/

namespace Pick

variable {α : Type*} {f : α → Nat} {ok ok' : α → Bool} {l : List α}

/-- `b` is better than the best so far. -/
def beats (f : α → Nat) (b : α) : Option α → Bool
  | none => true
  | some c => f c < f b

/-- Keep the first element with the greatest `f` among those satisfying `ok`. -/
def pick (f : α → Nat) (ok : α → Bool) (l : List α) : Option α :=
  l.foldl (fun best b => if ok b && beats f b best then some b else best) none

theorem pick_concat (f : α → Nat) (ok : α → Bool) (l : List α) (b : α) :
    pick f ok (l ++ [b]) = if ok b && beats f b (pick f ok l) then some b else pick f ok l := by
  rw [pick, List.foldl_concat]; rfl

theorem pick_eq_argmax (f : α → Nat) (ok : α → Bool) (l : List α) :
    pick f ok l = (l.filter ok).argmax f := by
  induction l using List.reverseRecOn with
  | nil => rfl
  | append_singleton l b ih =>
    rw [pick_concat, ih, List.filter_append]
    by_cases hb : ok b = true
    · rw [List.filter_cons_of_pos hb, List.filter_nil, List.argmax_concat]
      cases (l.filter ok).argmax f with
      | none => simp [hb, beats]
      | some c => simp [hb, beats]
    · simp [hb]

theorem pick_eq_none : pick f ok l = none ↔ ∀ b ∈ l, ok b = false := by
  simp [pick_eq_argmax, List.filter_eq_nil_iff]

/-- Tests that agree on the list pick the same. -/
theorem pick_congr (h : ∀ b ∈ l, ok' b = ok b) : pick f ok' l = pick f ok l := by
  rw [pick_eq_argmax, pick_eq_argmax, List.filter_congr h]

theorem pick_mem {b : α} (h : pick f ok l = some b) : b ∈ l ∧ ok b = true := by
  rw [pick_eq_argmax] at h
  simpa using List.argmax_mem h

theorem le_of_pick {b c : α} (h : pick f ok l = some b) (hc : c ∈ l) (hok : ok c = true) :
    f c ≤ f b := by
  rw [pick_eq_argmax] at h
  exact List.le_of_mem_argmax (by simp [hc, hok]) h

/-- A stronger test that the pick passes picks the same. -/
theorem pick_of_imp {b : α} (h : pick f ok l = some b)
    (himp : ∀ c ∈ l, ok' c = true → ok c = true) (hb : ok' b = true) : pick f ok' l = some b := by
  induction l using List.reverseRecOn with
  | nil => simp [pick] at h
  | append_singleton l c ih =>
    have himp' : ∀ d ∈ l, ok' d = true → ok d = true := fun d hd => himp d (by simp [hd])
    rw [pick_concat] at h ⊢
    by_cases hc : (ok c && beats f c (pick f ok l)) = true
    · -- `c` is the pick: it beats everything before it under `ok`, hence under `ok'`
      rw [if_pos hc] at h
      obtain rfl : c = b := Option.some.inj h
      rw [if_pos]
      simp only [Bool.and_eq_true] at hc ⊢
      refine ⟨hb, ?_⟩
      cases hp' : pick f ok' l with
      | none => rfl
      | some d =>
        obtain ⟨hd, hokd⟩ := pick_mem hp'
        cases hp : pick f ok l with
        | none => exact absurd (pick_eq_none.1 hp d hd) (by simp [himp' d hd hokd])
        | some e =>
          have hlt : f e < f c := by simpa [hp, beats] using hc.2
          simpa [beats] using lt_of_le_of_lt (le_of_pick hp hd (himp' d hd hokd)) hlt
    · rw [if_neg hc] at h
      have hbc : ¬ (ok' c && beats f c (some b)) = true := by
        rw [h] at hc
        simp only [Bool.and_eq_true, not_and] at hc ⊢
        exact fun hc' => hc (himp c (by simp) hc')
      rw [ih h himp', if_neg hbc]

/-- An element is picked that is greater than those in front of it and not less than those behind. -/
theorem pick_of_split {before after : List α} {b : α} (hb : ok b = true)
    (hlt : ∀ c ∈ before, ok c = true → f c < f b) (hle : ∀ c ∈ after, ok c = true → f c ≤ f b) :
    pick f ok (before ++ b :: after) = some b := by
  induction after using List.reverseRecOn with
  | nil =>
    rw [pick_concat, if_pos]
    rw [hb, Bool.true_and]
    cases hp : pick f ok before with
    | none => rfl
    | some c =>
      obtain ⟨hc, hok⟩ := pick_mem hp
      exact decide_eq_true (hlt c hc hok)
  | append_singleton after c ih =>
    rw [← List.cons_append, ← List.append_assoc, pick_concat,
      ih fun d hd => hle d (by simp [hd]), if_neg]
    intro hc
    simp only [Bool.and_eq_true, beats, decide_eq_true_eq] at hc
    exact Nat.not_lt.2 (hle c (by simp) hc.1) hc.2

/-- The first element is picked where it is as great as the others. -/
theorem pick_cons_self {b : α} (hb : ok b = true) (hle : ∀ c ∈ l, ok c = true → f c ≤ f b) :
    pick f ok (b :: l) = some b := by
  rw [← List.nil_append (b :: l)]
  exact pick_of_split hb (fun _ hc => absurd hc List.not_mem_nil) hle

/-- **The pick is the first of the greatest.** -/
theorem pick_eq_some_iff {b : α} :
    pick f ok l = some b ↔ ok b = true ∧ ∃ before after, l = before ++ b :: after ∧
      (∀ c ∈ before, ok c = true → f c < f b) ∧ ∀ c ∈ after, ok c = true → f c ≤ f b := by
  constructor
  · intro h
    refine ⟨(pick_mem h).2, ?_⟩
    induction l using List.reverseRecOn with
    | nil => simp [pick] at h
    | append_singleton l c ih =>
      rw [pick_concat] at h
      by_cases hc : (ok c && beats f c (pick f ok l)) = true
      · rw [if_pos hc] at h
        obtain rfl := Option.some.inj h
        rw [Bool.and_eq_true] at hc
        refine ⟨l, [], rfl, fun d hd hok => ?_, by simp⟩
        cases hp : pick f ok l with
        | none => exact absurd (pick_eq_none.1 hp d hd) (by simp [hok])
        | some e =>
          have hlt : f e < f c := by simpa [hp, beats] using hc.2
          exact Nat.lt_of_le_of_lt (le_of_pick hp hd hok) hlt
      · rw [if_neg hc] at h
        obtain ⟨before, after, rfl, hlt, hle⟩ := ih h
        refine ⟨before, after ++ [c], by simp, hlt, fun d hd hok => ?_⟩
        obtain hd | hd := List.mem_append.1 hd
        · exact hle d hd hok
        · rw [List.mem_singleton.1 hd] at hok ⊢
          rw [h, hok, Bool.true_and] at hc
          exact Nat.not_lt.1 fun hlt => hc (decide_eq_true hlt)
  · rintro ⟨hb, before, after, rfl, hlt, hle⟩
    exact pick_of_split hb hlt hle

section
variable {κ : Type*} [DecidableEq κ] (key : α → κ) {l' : List α}

/-- Of the elements with its key the pick is the first, where these are alike. -/
theorem head?_of_pick {b : α} (h : pick f ok l = some b)
    (halike : ∀ c ∈ l, key c = key b → ok c = true ∧ f c = f b) :
    (l.filter fun c => key c = key b).head? = some b := by
  obtain ⟨-, before, after, rfl, hlt, -⟩ := pick_eq_some_iff.1 h
  have hnone : (before.filter fun c => key c = key b) = [] := by
    refine List.filter_eq_nil_iff.2 fun c hc hk => ?_
    obtain ⟨hok, hf⟩ := halike c (by simp [hc]) (by simpa using hk)
    exact Nat.lt_irrefl _ (hf ▸ hlt c hc hok)
  rw [List.filter_append, hnone, List.nil_append, List.filter_cons_of_pos (by simp)]
  rfl

/-- **Another order picks the same**, where elements with one key are alike and stay in their order,
and elements that satisfy `ok` with one value of `f` have one key. -/
theorem pick_reorder
    (halike : ∀ c ∈ l, ∀ d ∈ l, key c = key d → (ok c = true → ok d = true) ∧ f c = f d)
    (hkey : ∀ c ∈ l, ∀ d ∈ l, ok c = true → ok d = true → f c = f d → key c = key d)
    (horder : ∀ k, l'.filter (fun c => key c = k) = l.filter fun c => key c = k) :
    pick f ok l' = pick f ok l := by
  have hmem : ∀ {c}, c ∈ l' ↔ c ∈ l := by
    intro c
    have hc := congrArg (c ∈ ·) (horder (key c))
    simpa using hc
  cases hp : pick f ok l with
  | none => exact pick_eq_none.2 fun c hc => pick_eq_none.1 hp c (hmem.1 hc)
  | some b =>
    obtain ⟨hb, hok⟩ := pick_mem hp
    cases hp' : pick f ok l' with
    | none => exact absurd (pick_eq_none.1 hp' b (hmem.2 hb)) (by simp [hok])
    | some c =>
      obtain ⟨hc', hokc⟩ := pick_mem hp'
      have hc := hmem.1 hc'
      have hf : f c = f b := Nat.le_antisymm (le_of_pick hp hc hokc) (le_of_pick hp' (hmem.2 hb) hok)
      have hk := hkey c hc b hb hokc hok hf
      have hfirst := head?_of_pick key hp fun d hd hkd =>
        ⟨(halike b hb d hd hkd.symm).1 hok, (halike d hd b hb hkd).2⟩
      have hfirst' := head?_of_pick key hp' fun d hd hkd =>
        ⟨(halike c hc d (hmem.1 hd) hkd.symm).1 hokc, (halike d (hmem.1 hd) c hc hkd).2⟩
      rw [hk, horder, hfirst] at hfirst'
      exact hfirst'.symm

end

/-- With one more element either that is picked, or what is picked without it. -/
theorem pick_insert (f : α → Nat) (ok : α → Bool) (l l' : List α) (b : α) :
    pick f ok (l ++ b :: l') = some b ∨ pick f ok (l ++ b :: l') = pick f ok (l ++ l') := by
  -- while `b` is the pick, what is picked without it is no better
  suffices h : pick f ok (l ++ b :: l') = pick f ok (l ++ l') ∨
      pick f ok (l ++ b :: l') = some b ∧ ∀ c ∈ pick f ok (l ++ l'), f c ≤ f b from
    h.symm.imp_left And.left
  induction l' using List.reverseRecOn with
  | nil =>
    rw [List.append_nil, pick_concat]
    by_cases hb : (ok b && beats f b (pick f ok l)) = true
    · rw [if_pos hb]
      refine .inr ⟨rfl, fun c hc => ?_⟩
      rw [Option.mem_def.1 hc, Bool.and_eq_true] at hb
      exact Nat.le_of_lt (by simpa [beats] using hb.2)
    · rw [if_neg hb]
      exact .inl rfl
  | append_singleton l' c ih =>
    rw [← List.cons_append, ← List.append_assoc, ← List.append_assoc, pick_concat, pick_concat]
    obtain ih | ⟨ih, hle⟩ := ih
    · rw [ih]
      exact .inl rfl
    · rw [ih]
      by_cases hc : (ok c && beats f c (some b)) = true
      · have hbeats : beats f c (pick f ok (l ++ l')) = true := by
          rw [Bool.and_eq_true] at hc
          cases hp : pick f ok (l ++ l') with
          | none => rfl
          | some d =>
            have hlt : f b < f c := by simpa [beats] using hc.2
            simpa [beats] using Nat.lt_of_le_of_lt (hle d hp) hlt
        rw [Bool.and_eq_true] at hc
        rw [if_pos (by simp [hc]), if_pos (by simp [hc.1, hbeats])]
        exact .inl rfl
      · rw [if_neg hc]
        refine .inr ⟨rfl, fun d hd => ?_⟩
        split at hd
        · rename_i hd'
          obtain rfl := Option.some.inj (Option.mem_def.1 hd)
          simp only [Bool.and_eq_true] at hd' hc
          simpa [hd'.1, beats] using hc
        · exact hle d hd

end Pick
