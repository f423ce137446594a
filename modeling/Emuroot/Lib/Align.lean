import Mathlib.Algebra.Group.Nat.Defs
import Mathlib.Data.Nat.Init
import Mathlib.Tactic.TypeStar

/-!
# Addresses rounded down

An address without its last `k` bits is the multiple of `2 ^ k` at or below it (`toNat_down`), and
the bits are what is behind that (`toNat_low`). `carve k top len` is where an aligned block of `len`
bytes lies below `top`: it ends at or below `top` (`carve_add_le`), with less than `2 ^ k` bytes
between (`lt_carve_add`), and where there is no room for it the subtraction wraps, to above `top`
(`lt_carve`).
-/

namespace Align

variable {w k : Nat}

/-- The last `k` bits. -/
def mask (w k : Nat) : BitVec w := BitVec.ofNat w (2 ^ k - 1)

/-- The address without its last `k` bits. -/
def down (k : Nat) (x : BitVec w) : BitVec w := x &&& ~~~mask w k

/-- An aligned block of `len` bytes below `top`. -/
def carve (k : Nat) (top : BitVec w) (len : Nat) : BitVec w := down k (top - BitVec.ofNat w len)

theorem sub_and_not (x m : BitVec w) : x - (x &&& ~~~m) = x &&& m := by
  have hdisj : (x &&& m) &&& (x &&& ~~~m) = 0#w := by
    ext i hi
    cases h : m[i] <;> simp [h]
  have hall : (x &&& m) ||| (x &&& ~~~m) = x := by
    ext i hi
    cases h : m[i] <;> simp [h]
  have hadd : (x &&& m) + (x &&& ~~~m) = x := by
    rw [BitVec.add_eq_or_of_and_eq_zero _ _ hdisj, hall]
  exact BitVec.sub_eq_iff_eq_add.2 hadd.symm

theorem toNat_low (hk : k ≤ w) (x : BitVec w) : (x &&& mask w k).toNat = x.toNat % 2 ^ k := by
  have hle : 2 ^ k ≤ 2 ^ w := Nat.pow_le_pow_right (by decide) hk
  have hpos : 0 < 2 ^ k := Nat.two_pow_pos k
  rw [mask, BitVec.toNat_and, BitVec.toNat_ofNat, Nat.mod_eq_of_lt (by omega),
    Nat.and_two_pow_sub_one_eq_mod]

theorem low_lt (k : Nat) (x : BitVec w) : (x &&& mask w k).toNat < 2 ^ k := by
  have hpos : 0 < 2 ^ k := Nat.two_pow_pos k
  have hmask : (mask w k).toNat ≤ 2 ^ k - 1 := by
    rw [mask, BitVec.toNat_ofNat]
    exact Nat.mod_le _ _
  have hle : (x &&& mask w k).toNat ≤ (mask w k).toNat := by
    rw [BitVec.toNat_and]
    exact Nat.and_le_right
  omega

theorem down_add_low (k : Nat) (x : BitVec w) : down k x + (x &&& mask w k) = x := by
  rw [← sub_and_not, BitVec.add_comm]
  exact BitVec.sub_add_cancel _ _

theorem down_le (k : Nat) (x : BitVec w) : (down k x).toNat ≤ x.toNat := by
  rw [down, BitVec.toNat_and]
  exact Nat.and_le_left

theorem lt_down_add (k : Nat) (x : BitVec w) : x.toNat < (down k x).toNat + 2 ^ k := by
  have hle := down_le k x
  have hlow : (x - down k x).toNat < 2 ^ k := by
    rw [down, sub_and_not]
    exact low_lt k x
  rw [BitVec.toNat_sub_of_le (BitVec.le_def.2 hle)] at hlow
  omega

theorem toNat_down (hk : k ≤ w) (x : BitVec w) : (down k x).toNat = 2 ^ k * (x.toNat / 2 ^ k) := by
  have hle := down_le k x
  have hsub : (x - down k x).toNat = x.toNat % 2 ^ k := by
    rw [down, sub_and_not, toNat_low hk]
  rw [BitVec.toNat_sub_of_le (BitVec.le_def.2 hle)] at hsub
  have hdiv := Nat.div_add_mod x.toNat (2 ^ k)
  omega

theorem down_mod (hk : k ≤ w) (x : BitVec w) : (down k x).toNat % 2 ^ k = 0 := by
  rw [toNat_down hk, Nat.mul_mod_right]

/-! ## Blocks -/

section
variable {top : BitVec w} {len : Nat}

theorem toNat_sub_len (h : len ≤ top.toNat) :
    (top - BitVec.ofNat w len).toNat = top.toNat - len := by
  have htop := top.isLt
  have hlen : (BitVec.ofNat w len).toNat = len := by
    rw [BitVec.toNat_ofNat, Nat.mod_eq_of_lt (by omega)]
  rw [BitVec.toNat_sub_of_le (by rw [BitVec.le_def, hlen]; exact h), hlen]

/-- Where there is room for it, the block ends at or below `top`. -/
theorem carve_add_le (h : len ≤ top.toNat) : (carve k top len).toNat + len ≤ top.toNat := by
  have hle := down_le k (top - BitVec.ofNat w len)
  rw [toNat_sub_len h] at hle
  rw [carve]
  omega

theorem lt_carve_add (h : len ≤ top.toNat) : top.toNat < (carve k top len).toNat + len + 2 ^ k := by
  have hlt := lt_down_add k (top - BitVec.ofNat w len)
  rw [toNat_sub_len h] at hlt
  rw [carve]
  omega

/-- Where there is none, and not nearly all addresses are asked for, the subtraction wraps to above
`top`. -/
theorem lt_carve (h : top.toNat < len) (hlen : len + 2 ^ k ≤ 2 ^ w) :
    top.toNat < (carve k top len).toNat := by
  have hpos : 0 < 2 ^ k := Nat.two_pow_pos k
  have hsub : (top - BitVec.ofNat w len).toNat = 2 ^ w - len + top.toNat := by
    rw [BitVec.toNat_sub, BitVec.toNat_ofNat, Nat.mod_eq_of_lt (a := len) (by omega),
      Nat.mod_eq_of_lt (by omega)]
  have hlt := lt_down_add k (top - BitVec.ofNat w len)
  rw [hsub] at hlt
  rw [carve]
  omega

end

end Align
