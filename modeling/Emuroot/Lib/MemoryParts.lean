import Emuroot.Lib.Align
import Emuroot.Lib.Memory

/-!
# Memory in parts

A write in two parts is one write (`write_append`). A part of a range that is read, put back with
some of its bytes changed, is a write of these bytes only (`write_splice`). The bytes of a number
are what they were (`toBytes_ofBytes`). The addresses of an aligned word round down to one
(`down_add`).
-/

/-- The list with the elements from `i` on replaced. -/
def List.splice {α : Type*} (l : List α) (i : Nat) (src : List α) : List α :=
  l.take i ++ src ++ l.drop (i + src.length)

theorem List.length_splice {α : Type*} {l src : List α} {i : Nat} (h : i + src.length ≤ l.length) :
    (l.splice i src).length = l.length := by
  rw [List.splice, List.length_append, List.length_append, List.length_take, List.length_drop]
  omega

/-- Replaced is what lies in the part. -/
theorem List.getElem?_splice {α : Type*} {l src : List α} {i j : Nat} (h : i ≤ l.length) :
    (l.splice i src)[j]? = if i ≤ j ∧ j < i + src.length then src[j - i]? else l[j]? := by
  have hlen : (l.take i).length = i := List.length_take_of_le h
  rw [List.splice, List.append_assoc]
  by_cases hi : j < i
  · rw [if_neg (by omega), List.getElem?_append_left (by omega), List.getElem?_take_of_lt hi]
  rw [List.getElem?_append_right (by omega), hlen]
  by_cases hj : j < i + src.length
  · rw [if_pos (by omega), List.getElem?_append_left (by omega)]
  · rw [if_neg (by omega), List.getElem?_append_right (by omega), List.getElem?_drop]
    congr 1
    omega

namespace Memory

variable {w : Nat} {m m' : Memory w} {a : BitVec w}

theorem ext_byte (hb : ∀ x, m.byte x = m'.byte x) (hw : m.writable = m'.writable) : m = m' := by
  obtain ⟨byte, writable⟩ := m
  obtain ⟨byte', writable'⟩ := m'
  obtain rfl : byte = byte' := funext hb
  obtain rfl : writable = writable' := hw
  rfl

theorem add_add (a : BitVec w) (i j : Nat) :
    a + BitVec.ofNat w i + BitVec.ofNat w j = a + BitVec.ofNat w (i + j) := by
  rw [BitVec.ofNat_add, BitVec.add_assoc]

/-- All of a range is read when every byte of it can be. -/
theorem length_read_eq_iff {n : Nat} :
    (m.read a n).length = n ↔ ∀ i < n, (m.byte (a + BitVec.ofNat w i)).isSome := by
  induction n generalizing a with
  | zero => simp [read]
  | succ n ih =>
    rw [read]
    constructor
    · intro h i hi
      cases hb : m.byte a with
      | none => simp [hb] at h
      | some b =>
        rw [hb, List.length_cons, Nat.succ_inj] at h
        cases i with
        | zero => simp [hb]
        | succ i =>
          rw [← succ_add]
          exact ih.1 h i (Nat.lt_of_succ_lt_succ hi)
    · intro h
      obtain ⟨b, hb⟩ := Option.isSome_iff_exists.1 (h 0 (Nat.succ_pos n))
      rw [show a + BitVec.ofNat w 0 = a by simp] at hb
      rw [hb, List.length_cons, Nat.succ_inj]
      refine ih.2 fun i hi => ?_
      rw [succ_add]
      exact h (i + 1) (Nat.succ_lt_succ hi)

/-- The bytes of a range that is read. -/
theorem getElem?_read {n i : Nat} (h : (m.read a n).length = n) (hi : i < n) :
    (m.read a n)[i]? = m.byte (a + BitVec.ofNat w i) := by
  induction n generalizing a i with
  | zero => omega
  | succ n ih =>
    cases hb : m.byte a with
    | none => simp [read, hb] at h
    | some b =>
      simp only [read, hb, List.length_cons, Nat.succ_inj] at h ⊢
      cases i with
      | zero => simp [hb]
      | succ i =>
        rw [List.getElem?_cons_succ, ih h (Nat.lt_of_succ_lt_succ hi), succ_add]

/-- A read in two parts, the first of which can be read. -/
theorem read_split {k : Nat} (h : (m.read a k).length = k) (n : Nat) :
    m.read a (k + n) = m.read a k ++ m.read (a + BitVec.ofNat w k) n := by
  have hadd : m.read a ((m.read a k).length + n) = _ := read_add (by rw [h]) n
  rwa [h] at hadd

/-- The rest of a range that is read. -/
theorem read_drop {k n : Nat} (h : (m.read a n).length = n) (hk : k ≤ n) :
    (m.read a n).drop k = m.read (a + BitVec.ofNat w k) (n - k) := by
  have hfront := read_take (m := m) (a := a) hk
  have hlen : (m.read a k).length = k := by
    rw [← hfront, List.length_take, h, Nat.min_eq_left hk]
  have hall := read_split hlen (n - k)
  rw [Nat.add_sub_cancel' hk] at hall
  rw [hall, List.drop_left' hlen]

/-- What can be read still can be after a write. -/
theorem isSome_write {bs : List UInt8} (x : BitVec w) (h : (m.byte x).isSome) :
    ((m.write a bs).byte x).isSome := by
  induction bs generalizing m a with
  | nil => exact h
  | cons b bs ih =>
    rw [write]
    split
    · refine ih ?_
      dsimp only
      rw [Function.update_apply]
      split
      · rfl
      · exact h
    · exact h

/-- A write in two parts. -/
theorem write_append {xs ys : List UInt8} (h : m.canWrite a xs.length) :
    m.write a (xs ++ ys) = (m.write a xs).write (a + BitVec.ofNat w xs.length) ys := by
  induction xs generalizing m a with
  | nil => simp [write]
  | cons x xs ih =>
    rw [List.length_cons, canWrite, Bool.and_eq_true] at h
    rw [List.cons_append, write, if_pos h.1, write, if_pos h.1, List.length_cons, ← succ_add]
    exact ih (by rw [canWrite_bytes]; exact h.2)

/-- A write ends at a byte that cannot be written. -/
theorem write_take {bs : List UInt8} {k : Nat} (hk : k ≤ bs.length) (h : m.canWrite a k = true)
    (hstop : k < bs.length → m.writable (a + BitVec.ofNat w k) = false) :
    m.write a (bs.take k) = m.write a bs := by
  have hlen : (bs.take k).length = k := List.length_take_of_le hk
  have happend : m.write a (bs.take k ++ bs.drop k) = _ := write_append (by rwa [hlen])
  rw [List.take_append_drop, hlen] at happend
  rw [happend]
  cases hrest : bs.drop k with
  | nil => rfl
  | cons b rest =>
    have hlt : k < bs.length := by
      by_contra hge
      rw [List.drop_of_length_le (by omega)] at hrest
      cases hrest
    rw [write, write_writable, if_neg (by simp [hstop hlt])]

/-- **A part of a range is replaced** when the range is read and written back with the part
changed. -/
theorem write_splice {n i : Nat} {src : List UInt8} (hr : (m.read a n).length = n)
    (hw : m.canWrite a n = true) (hn : n ≤ 2 ^ w) (hi : i + src.length ≤ n) :
    m.write a ((m.read a n).splice i src) = m.write (a + BitVec.ofNat w i) src := by
  have hlen : ((m.read a n).splice i src).length = n := by
    rw [List.length_splice (by omega), hr]
  refine ext_byte (fun x => ?_) (by rw [write_writable, write_writable])
  by_cases hx : ∃ j < n, x = a + BitVec.ofNat w j
  · obtain ⟨j, hj, rfl⟩ := hx
    rw [write_byte_self (canWrite_le hw hj) (by omega) (by omega), ← List.getElem?_eq_getElem, List.getElem?_splice (by omega)]
    by_cases hpart : i ≤ j ∧ j < i + src.length
    · obtain ⟨t, rfl⟩ : ∃ t, j = i + t := ⟨j - i, by omega⟩
      have ht : t < src.length := by omega
      rw [if_pos hpart, Nat.add_sub_cancel_left, ← add_add, write_byte_self _ (by omega) ht,
        List.getElem?_eq_getElem ht]
      refine canWrite_iff.2 fun l hl => ?_
      rw [add_add]
      exact canWrite_iff.1 hw _ (by omega)
    · rw [if_neg hpart, getElem?_read hr hj, write_byte_other]
      intro t ht
      rw [add_add]
      exact add_ofNat_ne (by omega) (by omega) (by omega)
  · rw [write_byte_other, write_byte_other]
    · intro t ht he
      rw [add_add] at he
      exact hx ⟨i + t, by omega, he⟩
    · exact fun j hj he => hx ⟨j, by omega, he⟩

end Memory

/-! ## Words -/

/-- The bytes that a number is made of, the lowest first. -/
theorem range_foldr_bytes (bs : List UInt8) :
    bs.foldr (fun b n => b.toNat + 256 * n) 0 < 256 ^ bs.length ∧
      (List.range bs.length).map (fun i => UInt8.ofNat
        (bs.foldr (fun b n => b.toNat + 256 * n) 0 / 256 ^ i)) = bs := by
  induction bs with
  | nil => simp
  | cons b bs ih =>
    obtain ⟨hlt, hbs⟩ := ih
    rw [List.foldr_cons, List.length_cons]
    generalize bs.foldr (fun b n => b.toNat + 256 * n) 0 = n at hlt hbs ⊢
    have hb : b.toNat < 256 := b.toNat_lt
    have hdiv : ∀ i, (b.toNat + 256 * n) / 256 ^ (i + 1) = n / 256 ^ i := by
      intro i
      rw [Nat.pow_succ', ← Nat.div_div_eq_div_mul]
      congr 1
      omega
    refine ⟨by rw [Nat.pow_succ']; omega, ?_⟩
    rw [List.range_succ_eq_map, List.map_cons, List.map_map]
    refine List.cons_eq_cons.2 ⟨?_, ?_⟩
    · refine UInt8.toNat_inj.1 ?_
      rw [UInt8.toNat_ofNat']
      omega
    · refine Eq.trans (List.map_congr_left fun i _ => ?_) hbs
      exact congrArg UInt8.ofNat (hdiv i)

theorem ofBytes_lt (big : Bool) (bs : List UInt8) : ofBytes big bs < 256 ^ bs.length := by
  cases big
  · exact (range_foldr_bytes bs).1
  · have h := (range_foldr_bytes bs.reverse).1
    rwa [List.length_reverse] at h

/-- The bytes of a number made of bytes are these. -/
theorem toBytes_ofBytes (big : Bool) (bs : List UInt8) :
    toBytes big bs.length (ofBytes big bs) = bs := by
  cases big
  · exact (range_foldr_bytes bs).2
  · have h := (range_foldr_bytes bs.reverse).2
    rw [List.length_reverse] at h
    exact (congrArg List.reverse h).trans (List.reverse_reverse bs)

namespace Align

variable {w k : Nat}

/-- The addresses of a word round down to one. -/
theorem down_add (hk : k ≤ w) {x : BitVec w} {t : Nat} (h : x.toNat % 2 ^ k + t < 2 ^ k) :
    down k (x + BitVec.ofNat w t) = down k x := by
  have hpow : 2 ^ w = 2 ^ k * 2 ^ (w - k) := by rw [← Nat.pow_add, Nat.add_sub_cancel' hk]
  have hdiv := Nat.div_add_mod x.toNat (2 ^ k)
  have hquot : x.toNat / 2 ^ k + 1 ≤ 2 ^ (w - k) := by
    refine Nat.succ_le_of_lt (Nat.div_lt_of_lt_mul ?_)
    rw [← hpow]
    exact x.isLt
  have hmul : 2 ^ k * (x.toNat / 2 ^ k) + 2 ^ k ≤ 2 ^ w := by
    rw [hpow, ← Nat.mul_succ]
    exact Nat.mul_le_mul_left _ hquot
  have hsum : (x + BitVec.ofNat w t).toNat = x.toNat + t := by
    rw [BitVec.toNat_add, BitVec.toNat_ofNat, Nat.mod_eq_of_lt (a := t) (by omega),
      Nat.mod_eq_of_lt (by omega)]
  apply BitVec.eq_of_toNat_eq
  rw [toNat_down hk, toNat_down hk, hsum, ← hdiv, Nat.add_assoc,
    Nat.mul_add_div (Nat.two_pow_pos k), Nat.div_eq_of_lt h, Nat.add_zero,
    Nat.mul_add_div (Nat.two_pow_pos k), Nat.mod_div_self, Nat.add_zero]

end Align
