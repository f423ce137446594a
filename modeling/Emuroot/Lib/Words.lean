import Mathlib.Data.List.Induction
import Mathlib.Data.List.TakeWhile
import Mathlib.Order.Basic

/-!
# Lists cut into words by a separator

`Words.words sep l`: the non-empty runs of `l` between separators (runs of separators count as
one). `Words.glue sep ws` puts a separator before each word; it is inverted by `words`
(`words_glue`). `Words.Stem sep q l`: `q` is an initial part of `l` that ends where a word ends.
The stems of a glued list are the glued initial parts of its words (`stem_glue`), the stems of a
list cut short are its own stems and the whole of what is left (`stem_take`).
-/

namespace Words

variable {α : Type*} {sep : α}

/-- The non-empty runs between separators. -/
def words [DecidableEq α] (sep : α) (l : List α) : List (List α) := (l.splitOn sep).filter (· ≠ [])

/-- A separator before each word. -/
def glue (sep : α) (ws : List (List α)) : List α := ws.flatMap (sep :: ·)

/-- A non-empty list without separators. -/
structure IsWord (sep : α) (w : List α) : Prop where
  ne_nil : w ≠ []
  sep_not_mem : sep ∉ w

/-- `q` is an initial part of `l` that ends at a separator or at the end of `l`. -/
def Stem (sep : α) (q l : List α) : Prop := ∃ r, l = q ++ r ∧ ∀ a ∈ r.head?, a = sep

/-! ## Words -/

section
variable [DecidableEq α]

@[simp] theorem words_nil : words sep ([] : List α) = [] := by simp [words]

@[simp] theorem words_sep_cons (l : List α) : words sep (sep :: l) = words sep l := by
  simp [words, List.splitOn_cons_eq_if_modifyHead]

/-- Cutting at a separator. -/
theorem words_append_sep (l r : List α) :
    words sep (l ++ sep :: r) = words sep l ++ words sep r := by
  rw [words, List.splitOn_eq_splitOnP, List.splitOnP_append_cons l r (p := (· == sep)) (by simp),
    List.filter_append]; rfl

theorem words_append_of_head {l r : List α} (h : ∀ a ∈ r.head?, a = sep) :
    words sep (l ++ r) = words sep l ++ words sep r := by
  cases r with
  | nil => simp
  | cons a r =>
    obtain rfl : a = sep := h a rfl
    rw [words_append_sep, words_sep_cons]

/-- A word stands for itself. -/
theorem words_of_isWord {w : List α} (h : IsWord sep w) : words sep w = [w] := by
  have h1 : ∀ x ∈ w, (x == sep) = false := fun x hx =>
    beq_eq_false_iff_ne.2 fun he => h.sep_not_mem (he ▸ hx)
  simp [words, List.splitOn_eq_splitOnP, List.splitOnP_eq_singleton h1, h.ne_nil]

theorem words_append_sep_end (l : List α) : words sep (l ++ [sep]) = words sep l := by
  rw [words_append_sep, words_nil, List.append_nil]

theorem words_dropWhile (l : List α) : words sep (l.dropWhile (· == sep)) = words sep l := by
  induction l with
  | nil => rfl
  | cons a l ih =>
    by_cases h : a = sep
    · subst h; simp [ih]
    · simp [h]

/-- The first word of a list and what follows it. -/
theorem words_eq_cons {l : List α} (h : IsWord sep (l.takeWhile (· != sep))) :
    words sep l = l.takeWhile (· != sep) :: words sep (l.dropWhile (· != sep)) := by
  have hd : ∀ a ∈ (l.dropWhile (· != sep)).head?, a = sep := by
    intro a ha
    have := List.head?_dropWhile_not (· != sep) l
    rw [Option.mem_def.1 ha] at this
    simpa using this
  conv_lhs => rw [← List.takeWhile_append_dropWhile (p := (· != sep)) (l := l)]
  rw [words_append_of_head hd, words_of_isWord h, List.singleton_append]

theorem isWord_takeWhile {l : List α} (hne : l ≠ []) (hs : ∀ a ∈ l.head?, a ≠ sep) :
    IsWord sep (l.takeWhile (· != sep)) := by
  refine ⟨?_, fun h => by simpa using List.mem_takeWhile_imp h⟩
  cases l with
  | nil => exact absurd rfl hne
  | cons a l => simp [hs a rfl]

/-- A list without words is separators. -/
theorem eq_sep_of_words_eq_nil {l : List α} (h : words sep l = []) : ∀ a ∈ l, a = sep := by
  have hd : l.dropWhile (· == sep) = [] := by
    by_contra hne
    have hhead : ∀ a ∈ (l.dropWhile (· == sep)).head?, a ≠ sep := by
      intro a ha
      have := List.head?_dropWhile_not (· == sep) l
      rw [Option.mem_def.1 ha] at this
      simpa using this
    rw [← words_dropWhile, words_eq_cons (isWord_takeWhile hne hhead)] at h
    cases h
  exact fun a ha => by simpa using List.dropWhile_eq_nil_iff.1 hd a ha

end

section
variable [DecidableEq α]

/-- The words of a list are made of its elements. -/
theorem mem_of_mem_words {l w : List α} {a : α} (h : w ∈ words sep l) (ha : a ∈ w) : a ∈ l := by
  induction hn : l.length using Nat.strongRecOn generalizing l with
  | ind n ih =>
    subst hn
    cases l with
    | nil => simp at h
    | cons b l =>
      by_cases hb : b = sep
      · subst hb
        rw [words_sep_cons] at h
        exact List.mem_cons_of_mem _ (ih l.length (by simp) h rfl)
      · rw [words_eq_cons (isWord_takeWhile (by simp) (by simpa using hb))] at h
        obtain rfl | h := List.mem_cons.1 h
        · exact (List.takeWhile_sublist _).subset ha
        · refine (List.dropWhile_sublist _).subset (ih _ ?_ h rfl)
          rw [List.dropWhile_cons, if_pos (by simpa using hb)]
          exact Nat.lt_succ_of_le (List.dropWhile_sublist _).length_le

/-- An element is the separator or in a word. -/
theorem exists_word {l : List α} {a : α} (ha : a ∈ l) (hne : a ≠ sep) :
    ∃ w ∈ words sep l, a ∈ w := by
  induction hn : l.length using Nat.strongRecOn generalizing l with
  | ind n ih =>
    subst hn
    cases l with
    | nil => cases ha
    | cons b l =>
      by_cases hb : b = sep
      · subst hb
        rw [words_sep_cons]
        exact ih l.length (by simp) ((List.mem_cons.1 ha).resolve_left hne) rfl
      · rw [words_eq_cons (isWord_takeWhile (by simp) (by simpa using hb))]
        rw [← List.takeWhile_append_dropWhile (p := (· != sep)) (l := b :: l)] at ha
        obtain ha | ha := List.mem_append.1 ha
        · exact ⟨_, List.mem_cons_self, ha⟩
        · obtain ⟨w, hw, haw⟩ := ih _ (by
            rw [List.dropWhile_cons, if_pos (by simpa using hb)]
            exact Nat.lt_succ_of_le (List.dropWhile_sublist _).length_le) ha rfl
          exact ⟨w, List.mem_cons_of_mem _ hw, haw⟩

/-- A list up to its last separator, and the run behind it. -/
theorem exists_last_run (sep : α) (l : List α) :
    ∃ u v, l = u ++ v ∧ sep ∉ v ∧ (u = [] ∨ ∃ u', u = u' ++ [sep]) := by
  induction l using List.reverseRecOn with
  | nil => exact ⟨[], [], rfl, by simp, .inl rfl⟩
  | append_singleton l a ih =>
    by_cases ha : a = sep
    · exact ⟨l ++ [a], [], by simp, by simp, .inr ⟨l, by rw [ha]⟩⟩
    · obtain ⟨u, v, rfl, hv, hu⟩ := ih
      exact ⟨u, v ++ [a], by simp, by simp [hv, Ne.symm ha], hu⟩

/-- The words of a list cut short are its own but for the last one, which may be cut. -/
theorem mem_words_take {l w : List α} {n : Nat} (h : w ∈ words sep (l.take n)) :
    w ∈ words sep l ∨ (sep :: w) <:+ l.take n ∨ w = l.take n := by
  obtain ⟨u, v, he, hv, hu⟩ := exists_last_run sep (l.take n)
  have hl : l = u ++ (v ++ l.drop n) := by
    rw [← List.append_assoc, ← he, List.take_append_drop]
  have hword : ∀ {x}, x ∈ words sep v → x = v := by
    intro x hx
    by_cases hv0 : v = []
    · simp [hv0] at hx
    · rw [words_of_isWord ⟨hv0, hv⟩] at hx
      exact List.mem_singleton.1 hx
  obtain rfl | ⟨u', rfl⟩ := hu
  · rw [he] at h
    exact .inr (.inr (he ▸ hword h))
  · rw [he, List.append_assoc, List.singleton_append, words_append_sep, List.mem_append] at h
    obtain h | h := h
    · left
      rw [hl, List.append_assoc, List.singleton_append, words_append_sep]
      exact List.mem_append_left _ h
    · right
      left
      rw [he, hword h]
      exact ⟨u', by simp⟩

/-- What follows a stem has words of the whole only. -/
theorem words_drop_subset {q r : List α} (h : ∀ a ∈ r.head?, a = sep) :
    words sep r ⊆ words sep (q ++ r) := by
  rw [words_append_of_head h]
  exact List.subset_append_right _ _

end

/-! ## Glueing -/

@[simp] theorem glue_nil : glue sep ([] : List (List α)) = [] := rfl

@[simp] theorem glue_cons (w : List α) (ws : List (List α)) :
    glue sep (w :: ws) = sep :: w ++ glue sep ws := by simp [glue]

@[simp] theorem glue_append (vs ws : List (List α)) :
    glue sep (vs ++ ws) = glue sep vs ++ glue sep ws := by simp [glue]

theorem head?_glue (ws : List (List α)) : ∀ a ∈ (glue sep ws).head?, a = sep := by
  cases ws with
  | nil => simp
  | cons w ws => simp

theorem glue_eq_nil {ws : List (List α)} : glue sep ws = [] ↔ ws = [] := by
  cases ws <;> simp

theorem words_append_glue [DecidableEq α] {ws : List (List α)} (h : ∀ w ∈ ws, IsWord sep w)
    (l : List α) :
    words sep (l ++ glue sep ws) = words sep l ++ ws := by
  induction ws generalizing l with
  | nil => simp
  | cons w ws ih =>
    have h1 := ih (fun v hv => h v (List.mem_cons_of_mem _ hv)) (l ++ sep :: w)
    rw [glue_cons, ← List.append_assoc, h1, words_append_sep,
      words_of_isWord (h w List.mem_cons_self), List.append_assoc, List.singleton_append]

theorem words_glue [DecidableEq α] {ws : List (List α)} (h : ∀ w ∈ ws, IsWord sep w) :
    words sep (glue sep ws) = ws := by
  simpa using words_append_glue h []

/-- The last word of a glued list ends it. -/
theorem getLast?_glue_ne {ws : List (List α)} (h : ∀ w ∈ ws, IsWord sep w) :
    (glue sep ws).getLast? ≠ some sep := by
  induction ws using List.reverseRecOn with
  | nil => simp
  | append_singleton ws w _ =>
    have hw := h w (by simp)
    obtain ⟨v, b, rfl⟩ := List.eq_nil_or_concat w |>.resolve_left hw.ne_nil
    intro he
    simp only [glue_append, glue_cons, glue_nil, List.append_nil, List.concat_eq_append,
      List.getLast?_append, List.getLast?_cons] at he
    simp at he
    exact hw.sep_not_mem (by simp [he])

/-! ## Stems -/

theorem Stem.refl (l : List α) : Stem sep l l := ⟨[], by simp, by simp⟩

theorem Stem.isPrefix {q l : List α} (h : Stem sep q l) : q <+: l := by
  obtain ⟨r, rfl, -⟩ := h; exact List.prefix_append q r

theorem Stem.trans {p q l : List α} (h1 : Stem sep p q) (h2 : Stem sep q l) : Stem sep p l := by
  obtain ⟨r, rfl, hr⟩ := h1
  obtain ⟨s, rfl, hs⟩ := h2
  refine ⟨r ++ s, by simp, fun a ha => ?_⟩
  cases r with
  | nil => exact hs a (by simpa using ha)
  | cons b r => exact hr a (by simpa using ha)

/-- A stem is a stem of every initial part that reaches as far. -/
theorem Stem.of_prefix {p q l : List α} (h : Stem sep p l) (hq : q <+: l)
    (hle : p.length ≤ q.length) : Stem sep p q := by
  obtain ⟨r, hr, hsep⟩ := h
  obtain ⟨s, hs⟩ := hq
  obtain ⟨u, rfl⟩ : p <+: q :=
    List.prefix_of_prefix_length_le (hr ▸ List.prefix_append p r) (hs ▸ List.prefix_append q s) hle
  refine ⟨u, rfl, fun a ha => hsep a ?_⟩
  have : r = u ++ s := by
    rw [hr, List.append_assoc] at hs; exact List.append_cancel_left hs.symm
  rw [this, Option.mem_def, List.head?_append, Option.mem_def.1 ha]; rfl

/-- A list of one element has itself and nothing as stems. -/
theorem Stem.of_singleton {q : List α} {a : α} (h : Stem sep q [a]) : q = [] ∨ q = [a] := by
  obtain ⟨r, hr, -⟩ := h
  exact (List.append_eq_singleton_iff.1 hr.symm).imp And.left And.left

theorem Stem.append_left {q l : List α} (h : Stem sep q l) (p : List α) :
    Stem sep (p ++ q) (p ++ l) := by
  obtain ⟨r, rfl, hr⟩ := h
  exact ⟨r, by simp, hr⟩

/-- A stem that reaches beyond the front part. -/
theorem Stem.of_append {q p l : List α} (h : Stem sep q (p ++ l)) (hle : p.length ≤ q.length) :
    ∃ v, q = p ++ v ∧ Stem sep v l := by
  obtain ⟨r, hr, hsep⟩ := h
  obtain ⟨v, rfl⟩ : p <+: q :=
    List.prefix_of_prefix_length_le (List.prefix_append p l) (hr ▸ List.prefix_append q r) hle
  refine ⟨v, rfl, r, ?_, hsep⟩
  rw [List.append_assoc] at hr
  exact List.append_cancel_left hr

theorem Stem.head?_eq {q l : List α} (h : Stem sep q l) (hne : q ≠ []) : q.head? = l.head? := by
  obtain ⟨r, rfl, -⟩ := h
  cases q with
  | nil => exact absurd rfl hne
  | cons a q => rfl

theorem Stem.append_glue {q l : List α} (h : Stem sep q l) (ws : List (List α)) :
    Stem sep q (l ++ glue sep ws) :=
  h.trans ⟨glue sep ws, rfl, head?_glue ws⟩

theorem stem_glue_take (ws : List (List α)) (k : Nat) :
    Stem sep (glue sep (ws.take k)) (glue sep ws) :=
  ⟨glue sep (ws.drop k), by rw [← glue_append, List.take_append_drop], head?_glue _⟩

/-- The stems of a glued list glue an initial part of its words. -/
theorem stem_glue {ws : List (List α)} (hw : ∀ w ∈ ws, IsWord sep w) {q : List α}
    (h : Stem sep q (glue sep ws)) : ∃ k ≤ ws.length, q = glue sep (ws.take k) := by
  induction ws generalizing q with
  | nil =>
    obtain ⟨r, hr, -⟩ := h
    exact ⟨0, le_rfl, by simp at hr; simp [hr.1]⟩
  | cons w ws ih =>
    obtain ⟨r, hr, hsep⟩ := h
    cases q with
    | nil => exact ⟨0, by simp, rfl⟩
    | cons a q =>
      simp only [glue_cons, List.cons_append, List.cons.injEq] at hr
      obtain ⟨rfl, hr⟩ := hr
      have hword := hw w List.mem_cons_self
      -- `q` cannot end inside the word `w`, which holds no separator
      rcases List.append_eq_append_iff.1 hr with ⟨u, hq, hu⟩ | ⟨u, hq, hu⟩
      · obtain ⟨k, hk, he⟩ := ih (fun v hv => hw v (List.mem_cons_of_mem _ hv)) (q := u)
          ⟨r, hu, hsep⟩
        exact ⟨k + 1, by simpa using hk, by simp [hq, he]⟩
      · cases u with
        | nil => exact ⟨1, by simp, by simpa using hq.symm⟩
        | cons b u =>
          have : b = sep := hsep b (by simp [hu])
          exact absurd (hq ▸ (by simp [this])) hword.sep_not_mem

theorem Stem.take {q l : List α} {n : Nat} (h : Stem sep q l) (hle : q.length ≤ n) :
    Stem sep q (l.take n) := by
  have hlen := h.isPrefix.length_le
  exact h.of_prefix (List.take_prefix n l) (by rw [List.length_take]; omega)

/-- The stems of a cut list are stems of the whole, or all that is left. -/
theorem stem_take {q l : List α} {n : Nat} (h : Stem sep q (l.take n)) :
    Stem sep q l ∨ q = l.take n := by
  obtain ⟨r, hr, hsep⟩ := h
  cases r with
  | nil => exact .inr (by simpa using hr.symm)
  | cons a r =>
    refine .inl ⟨(a :: r) ++ l.drop n, ?_, fun b hb => hsep b (by simpa using hb)⟩
    rw [← List.append_assoc, ← hr, List.take_append_drop]

/-! ## Items between separators -/

section
variable [DecidableEq α]

theorem glue_splitOn (sep : α) (l : List α) : glue sep (l.splitOn sep) = sep :: l := by
  induction l with
  | nil => rfl
  | cons a l ih =>
    rw [List.splitOn_cons_eq_if_modifyHead]
    split
    · rename_i h
      rw [glue_cons, ih, beq_iff_eq.1 h]
      rfl
    · obtain ⟨w, ws, hw⟩ := List.exists_cons_of_ne_nil (List.splitOn_ne_nil sep l)
      rw [hw, glue_cons, List.cons_append, List.cons.injEq] at ih
      rw [hw, List.modifyHead_cons, glue_cons, List.cons_append, List.cons_append, ih.2]

theorem sep_not_mem_splitOn {l w : List α} (h : w ∈ l.splitOn sep) : sep ∉ w := by
  induction l generalizing w with
  | nil =>
    rw [List.splitOn_nil, List.mem_singleton] at h
    exact h ▸ List.not_mem_nil
  | cons a l ih =>
    rw [List.splitOn_cons_eq_if_modifyHead] at h
    split at h
    · obtain rfl | h := List.mem_cons.1 h
      · exact List.not_mem_nil
      · exact ih h
    · rename_i ha
      obtain ⟨v, vs, hv⟩ := List.exists_cons_of_ne_nil (List.splitOn_ne_nil sep l)
      rw [hv] at h ih
      rw [List.modifyHead_cons] at h
      obtain rfl | h := List.mem_cons.1 h
      · have hsep : sep ≠ a := fun h' => ha (beq_iff_eq.2 h'.symm)
        exact fun hm => (List.mem_cons.1 hm).elim hsep (ih List.mem_cons_self)
      · exact ih (List.mem_cons_of_mem _ h)

theorem splitOn_append_glue (l : List α) {ws : List (List α)} (h : ∀ w ∈ ws, sep ∉ w) :
    (l ++ glue sep ws).splitOn sep = l.splitOn sep ++ ws := by
  induction ws generalizing l with
  | nil => simp
  | cons w ws ih =>
    obtain ⟨hw, hws⟩ := List.forall_mem_cons.1 h
    have hsplit : w.splitOn sep = [w] :=
      List.splitOnP_eq_singleton fun x hx => beq_eq_false_iff_ne.2 fun he => hw (he ▸ hx)
    rw [glue_cons, List.cons_append, List.splitOn_eq_splitOnP,
      List.splitOnP_append_cons l _ (p := (· == sep)) (by simp), ← List.splitOn_eq_splitOnP,
      ← List.splitOn_eq_splitOnP, ih w hws, hsplit, List.singleton_append]

/-- The last item of a list is empty exactly if a separator ends the list. -/
theorem getLast?_splitOn (sep : α) {l : List α} (hne : l ≠ []) :
    (l.splitOn sep).getLast? = some [] ↔ l.getLast? = some sep := by
  rw [List.getLast?_eq_some_iff, List.getLast?_eq_some_iff]
  constructor
  · rintro ⟨ws, hws⟩
    have hglue := glue_splitOn sep l
    rw [hws, glue_append, glue_cons, glue_nil, List.append_nil] at hglue
    cases hg : glue sep ws with
    | nil =>
      rw [hg] at hglue
      exact absurd (List.cons.inj hglue).2.symm hne
    | cons a t =>
      rw [hg, List.cons_append] at hglue
      exact ⟨t, (List.cons.inj hglue).2.symm⟩
  · rintro ⟨t, rfl⟩
    refine ⟨t.splitOn sep, ?_⟩
    rw [List.splitOn_eq_splitOnP, List.splitOnP_append_cons t [] (p := (· == sep)) (by simp)]
    rfl

end

end Words
