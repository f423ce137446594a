import Mathlib.Data.Nat.Digits.Lemmas

/-!
# Decimal numbers as text

`text n` writes `n` in ASCII digits without leading zeros, and `value` reads a run of digits back:
`value_text`.
-/

namespace Decimal

def isDigit (c : UInt8) : Bool := 48 ≤ c && c ≤ 57

/-- The digits of `n`, the most significant first. -/
def text (n : Nat) : List UInt8 :=
  if n = 0 then [48] else (Nat.digits 10 n).reverse.map fun d => 48 + UInt8.ofNat d

/-- The number that a run of digits stands for. -/
def value (ds : List UInt8) : Nat := ds.foldl (fun n d => n * 10 + (d.toNat - 48)) 0

theorem toNat_digit {d : Nat} (h : d < 10) : (48 + UInt8.ofNat d).toNat = 48 + d := by
  have h48 : (48 : UInt8).toNat = 48 := rfl
  rw [UInt8.toNat_add, h48, UInt8.toNat_ofNat']
  omega

theorem isDigit_digit {d : Nat} (h : d < 10) : isDigit (48 + UInt8.ofNat d) := by
  have hd := toNat_digit h
  simp only [isDigit, UInt8.le_iff_toNat_le, hd, Bool.and_eq_true, decide_eq_true_eq]
  exact ⟨by simp, by simp; omega⟩

theorem text_ne_nil (n : Nat) : text n ≠ [] := by
  unfold text
  split
  · exact List.cons_ne_nil _ _
  · rename_i h
    simpa [Nat.digits_eq_nil_iff_eq_zero] using h

theorem isDigit_text {n : Nat} {c : UInt8} (h : c ∈ text n) : isDigit c := by
  unfold text at h
  split at h
  · rw [List.mem_singleton.1 h]
    rfl
  · obtain ⟨d, hd, rfl⟩ := List.mem_map.1 h
    exact isDigit_digit (Nat.digits_lt_base (by omega) (List.mem_reverse.1 hd))

/-- A number below a power of ten has no more digits than that. -/
theorem length_text {n k : Nat} (h : n < 10 ^ k) (hk : 0 < k) : (text n).length ≤ k := by
  unfold text
  split
  · exact hk
  · rw [List.length_map, List.length_reverse]
    exact (Nat.digits_length_le_iff (by decide) n).2 h

theorem value_map_reverse {ds : List Nat} (h : ∀ d ∈ ds, d < 10) :
    value (ds.reverse.map fun d => 48 + UInt8.ofNat d) = Nat.ofDigits 10 ds := by
  induction ds with
  | nil => rfl
  | cons d ds ih =>
    obtain ⟨hd, hds⟩ := List.forall_mem_cons.1 h
    have hv : value (ds.reverse.map fun d => 48 + UInt8.ofNat d) = _ := ih hds
    rw [value] at hv ⊢
    rw [List.reverse_cons, List.map_append, List.foldl_append, hv, List.map_singleton,
      List.foldl_cons, List.foldl_nil, toNat_digit hd, Nat.ofDigits_cons]
    omega

/-- Reading back what was written. -/
theorem value_text (n : Nat) : value (text n) = n := by
  unfold text
  split
  · rename_i h
    rw [h]
    rfl
  · rw [value_map_reverse fun d hd => Nat.digits_lt_base (by omega) hd, Nat.ofDigits_digits]

end Decimal
