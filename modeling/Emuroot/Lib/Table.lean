import Mathlib.Data.List.Forall2
import Mathlib.Data.List.Nodup
import Mathlib.Data.List.Perm.Basic

/-!
# Tables keyed by a field

A table is a list of records with a `key`; records are looked up, changed in place and removed,
where the last record takes the place of the removed one. `find_put`, `find_append` and
`find_remove` say what is found afterwards; `forall₂_find`, `forall₂_put` and `forall₂_remove` keep
two tables related record by record.
-/

namespace Table

variable {α β κ : Type*} [DecidableEq κ] (key : α → κ) (l : List α)

/-- The first record with the key. -/
def find (k : κ) : Option α := l.find? fun u => key u == k

/-- The record with the key of `t` replaced by `t`. -/
def put (t : α) : List α := l.map fun u => if key u = key t then t else u

/-- The record with the key dropped; the last one takes its place. -/
def remove (k : κ) : List α :=
  match l.findIdx? fun u => key u == k, l.getLast? with
  | some i, some last => (l.set i last).dropLast
  | _, _ => l

variable {key l} {k : κ} {t : α}

theorem mem_of_find (h : find key l k = some t) : t ∈ l := List.mem_of_find?_eq_some h

theorem key_of_find (h : find key l k = some t) : key t = k := by
  simpa using List.find?_some h

theorem find_eq_none : find key l k = none ↔ ∀ u ∈ l, key u ≠ k := by simp [find]

theorem find_iff (hn : (l.map key).Nodup) : find key l k = some t ↔ t ∈ l ∧ key t = k := by
  constructor
  · exact fun h => ⟨mem_of_find h, key_of_find h⟩
  · rintro ⟨ht, hk⟩
    cases h : find key l k with
    | none => exact absurd hk (find_eq_none.1 h t ht)
    | some u =>
      exact congrArg some
        (List.inj_on_of_nodup_map hn (mem_of_find h) ht ((key_of_find h).trans hk.symm))

theorem find_append (t : α) :
    find key (l ++ [t]) k = (find key l k).or (if key t = k then some t else none) := by
  rw [find, List.find?_append, List.find?_singleton]
  simp [find]

theorem find_put (t : α) :
    find key (put key l t) k = if k = key t then (find key l k).map fun _ => t else find key l k := by
  induction l with
  | nil => simp [find, put]
  | cons u l ih =>
    simp only [find, put, List.map_cons, List.find?_cons] at ih ⊢
    by_cases hu : key u = key t
    · rw [if_pos hu]
      by_cases hk : key t = k
      · simp [hu, hk]
      · have hk' : (key t == k) = false := by simpa using hk
        simpa [hu, hk'] using ih
    · rw [if_neg hu]
      by_cases hk : key u = k
      · subst hk
        simp [hu]
      · have hk' : (key u == k) = false := by simpa using hk
        simpa [hk'] using ih

theorem map_key_put (t : α) : (put key l t).map key = l.map key := by
  simp only [put, List.map_map]
  refine List.map_congr_left fun u _ => ?_
  by_cases hu : key u = key t <;> simp [hu]

theorem put_self (hn : (l.map key).Nodup) (h : find key l k = some t) : put key l t = l := by
  refine (List.map_congr_left fun u hu => ?_).trans (List.map_id l)
  split
  · rename_i hk
    exact List.inj_on_of_nodup_map hn (mem_of_find h) hu hk.symm
  · rfl

theorem nodup_append (hn : (l.map key).Nodup) (h : find key l (key t) = none) :
    ((l ++ [t]).map key).Nodup := by
  rw [List.map_append, List.nodup_append_comm]
  refine List.nodup_cons.2 ⟨fun hm => ?_, by simpa using hn⟩
  obtain ⟨u, hu, hk⟩ := List.mem_map.1 hm
  exact find_eq_none.1 h u hu hk

/-! ## Removing -/

theorem remove_cases (key : α → κ) (l : List α) (k : κ) :
    (find key l k = none ∧ remove key l k = l) ∨
    ∃ t l1 l2, key t = k ∧ l = l1 ++ t :: l2 ∧
      (l2 = [] ∧ remove key l k = l1 ∨
        ∃ l3 last, l2 = l3 ++ [last] ∧ remove key l k = l1 ++ last :: l3) := by
  unfold remove
  cases hi : l.findIdx? fun u => key u == k with
  | none =>
    refine .inl ⟨?_, rfl⟩
    rw [find_eq_none]
    simpa using List.findIdx?_eq_none_iff.1 hi
  | some i =>
    obtain ⟨hlt, hk, -⟩ := List.findIdx?_eq_some_iff_getElem.1 hi
    have hl : l = l.take i ++ l[i] :: l.drop (i + 1) := by simp
    refine .inr ⟨l[i], l.take i, l.drop (i + 1), by simpa using hk, hl, ?_⟩
    have hlen : (l.take i).length = i := by simp; omega
    generalize l[i] = t, l.take i = l1, l.drop (i + 1) = l2 at hl hlen
    subst hl hlen
    obtain rfl | ⟨l3, last, rfl⟩ := List.eq_nil_or_concat' l2
    · exact .inl ⟨rfl, by simp⟩
    · refine .inr ⟨l3, last, rfl, ?_⟩
      rw [show l1 ++ t :: (l3 ++ [last]) = (l1 ++ t :: l3) ++ [last] by simp,
        List.getLast?_concat]
      have hset : ((l1 ++ t :: l3) ++ [last]).set l1.length last = (l1 ++ last :: l3) ++ [last] := by
        simp
      exact (congrArg List.dropLast hset).trans List.dropLast_concat

/-- The removed record, and the others in some order. -/
theorem remove_perm (key : α → κ) (l : List α) (k : κ) :
    (find key l k = none ∧ remove key l k = l) ∨
    ∃ t, key t = k ∧ l.Perm (t :: remove key l k) := by
  obtain h | ⟨t, l1, l2, hk, rfl, ⟨rfl, h⟩ | ⟨l3, last, rfl, h⟩⟩ := remove_cases key l k
  · exact .inl h
  · refine .inr ⟨t, hk, ?_⟩
    rw [h]
    exact List.perm_append_singleton t l1
  · refine .inr ⟨t, hk, ?_⟩
    rw [h]
    refine List.perm_middle.trans (.cons t ?_)
    exact List.Perm.append_left l1 (List.perm_append_singleton last l3)

theorem nodup_remove (hn : (l.map key).Nodup) (k : κ) : ((remove key l k).map key).Nodup := by
  obtain ⟨-, h⟩ | ⟨t, -, h⟩ := remove_perm key l k
  · rwa [h]
  · exact (List.nodup_cons.1 ((h.map key).nodup_iff.1 hn)).2

theorem find_remove (hn : (l.map key).Nodup) (k q : κ) :
    find key (remove key l k) q = if q = k then none else find key l q := by
  have hn' := nodup_remove hn k
  obtain ⟨hf, h⟩ | ⟨t, hk, h⟩ := remove_perm key l k
  · rw [h]
    split
    · rename_i hq
      rw [hq, hf]
    · rfl
  · have hnot := (List.nodup_cons.1 ((h.map key).nodup_iff.1 hn)).1
    refine Option.ext fun u => ?_
    rw [find_iff hn']
    split
    · rename_i hq
      simp only [reduceCtorEq, iff_false, not_and]
      rintro hu rfl
      exact hnot (hk.trans hq.symm ▸ List.mem_map_of_mem hu)
    · rename_i hq
      rw [find_iff hn, h.mem_iff, List.mem_cons]
      constructor
      · exact fun ⟨hu, hkey⟩ => ⟨.inr hu, hkey⟩
      · rintro ⟨rfl | hu, hkey⟩
        · exact absurd (hkey.symm.trans hk) hq
        · exact ⟨hu, hkey⟩

/-! ## Two tables, record by record -/

theorem forall₂_set {R : α → β → Prop} {l' : List β} (h : List.Forall₂ R l l') (i : Nat) {a : α}
    {b : β} (hab : R a b) : List.Forall₂ R (l.set i a) (l'.set i b) := by
  induction h generalizing i with
  | nil => exact .nil
  | cons h1 h2 ih =>
    cases i with
    | zero => exact .cons hab h2
    | succ i => exact .cons h1 (ih i)

section
variable {key' : β → κ} {R : α → β → Prop} {l' : List β} (hkey : ∀ a b, R a b → key a = key' b)
include hkey

theorem forall₂_find (h : List.Forall₂ R l l') (k : κ) :
    Option.Rel R (find key l k) (find key' l' k) := by
  unfold find
  induction h with
  | nil => exact .none
  | @cons a b l l' hab _ ih =>
    rw [List.find?_cons, List.find?_cons, hkey a b hab]
    cases key' b == k
    · exact ih
    · exact .some hab

theorem forall₂_put (h : List.Forall₂ R l l') {t : α} {t' : β} (ht : R t t') :
    List.Forall₂ R (put key l t) (put key' l' t') := by
  unfold put
  rw [List.forall₂_map_left_iff, List.forall₂_map_right_iff]
  refine h.imp fun a b hab => ?_
  rw [hkey a b hab, hkey t t' ht]
  split
  · exact ht
  · exact hab

theorem forall₂_remove (h : List.Forall₂ R l l') (k : κ) :
    List.Forall₂ R (remove key l k) (remove key' l' k) := by
  have hidx : (l.findIdx? fun u => key u == k) = l'.findIdx? fun u => key' u == k := by
    induction h with
    | nil => rfl
    | @cons a b l l' hab _ ih => rw [List.findIdx?_cons, List.findIdx?_cons, hkey a b hab, ih]
  have hlast : Option.Rel R l.getLast? l'.getLast? := by
    rw [← List.head?_reverse, ← List.head?_reverse]
    have hr := List.forall₂_reverse_iff.2 h
    generalize l.reverse = r, l'.reverse = r' at hr
    cases hr with
    | nil => exact .none
    | cons hab _ => exact .some hab
  unfold remove
  rw [hidx]
  cases l'.findIdx? fun u => key' u == k with
  | none => exact h
  | some i =>
    generalize l.getLast? = last, l'.getLast? = last' at hlast
    cases hlast with
    | none => exact h
    | some hab =>
      have hset := forall₂_set h i hab
      dsimp only
      rw [List.dropLast_eq_take, List.dropLast_eq_take, hset.length_eq]
      exact List.forall₂_take _ hset

end

end Table
