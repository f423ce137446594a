import Emuroot.Lib.MemoryParts
import Mathlib.Data.Set.Basic

/-!
# What a computation may change of memory

`Memory.SameBut S m m'`: between `m` and `m'` only bytes in `S` are changed. `Memory.range a n` are
the `n` addresses from `a` on, round the end of the address space.
-/

namespace Memory

variable {w : Nat}

/-- The addresses of a range. -/
def range (a : BitVec w) (n : Nat) : Set (BitVec w) := {x | (x - a).toNat < n}

/-- Only bytes in `S` are changed. -/
structure SameBut (S : Set (BitVec w)) (m m' : Memory w) : Prop where
  byte : ∀ x, x ∉ S → m'.byte x = m.byte x
  writable : m'.writable = m.writable

theorem mem_range {a x : BitVec w} {n : Nat} : x ∈ range a n ↔ (x - a).toNat < n := Iff.rfl

theorem add_mem_range {a : BitVec w} {i n : Nat} (hi : i < n) : a + BitVec.ofNat w i ∈ range a n := by
  rw [mem_range, BitVec.add_comm, BitVec.add_sub_cancel, BitVec.toNat_ofNat]
  exact Nat.lt_of_le_of_lt (Nat.mod_le _ _) hi

theorem range_mono {a : BitVec w} {k n : Nat} (h : k ≤ n) : range a k ⊆ range a n :=
  fun _ hx => Nat.lt_of_lt_of_le hx h

/-- A range that does not go round. -/
theorem range_between {a x : BitVec w} {n : Nat} (h : a.toNat + n ≤ 2 ^ w) (hx : x ∈ range a n) :
    a.toNat ≤ x.toNat ∧ x.toNat < a.toNat + n := by
  have hlt := a.isLt
  have hxlt := x.isLt
  rw [mem_range, BitVec.toNat_sub] at hx
  obtain hle | hgt := Nat.lt_or_ge x.toNat a.toNat
  · rw [Nat.mod_eq_of_lt (by omega)] at hx
    omega
  · rw [show 2 ^ w - a.toNat + x.toNat = x.toNat - a.toNat + 2 ^ w by omega, Nat.add_mod_right,
      Nat.mod_eq_of_lt (by omega)] at hx
    omega

namespace SameBut

variable {S T : Set (BitVec w)} {m m' m'' : Memory w}

theorem refl (S : Set (BitVec w)) (m : Memory w) : SameBut S m m := ⟨fun _ _ => rfl, rfl⟩

theorem trans (h : SameBut S m m') (h' : SameBut S m' m'') : SameBut S m m'' :=
  ⟨fun x hx => (h'.byte x hx).trans (h.byte x hx), h'.writable.trans h.writable⟩

theorem mono (h : SameBut S m m') (hST : S ⊆ T) : SameBut T m m' :=
  ⟨fun x hx => h.byte x fun hs => hx (hST hs), h.writable⟩

theorem write (m : Memory w) {a : BitVec w} {bs : List UInt8} (h : range a bs.length ⊆ S) :
    SameBut S m (m.write a bs) where
  byte _ hx := write_byte_other fun _ hi he => hx (h (he ▸ add_mem_range hi))
  writable := write_writable m a bs

end SameBut

end Memory
