import Mathlib.Algebra.Group.Nat.Defs
import Mathlib.Logic.Function.Basic

/-!
# Byte memory with holes

Memory of `w`-bit addresses in which some bytes can be read and some can be written. A transfer
moves the longest prefix that is accessible. `read_write_self` and `read_write_other`: what is read
after a write; `write_byte_other` is the frame. `ofBytes` and `toBytes` are numbers in either byte
order.
-/

/-- Memory of `w`-bit addresses. -/
structure Memory (w : Nat) where
  /-- the readable bytes -/
  byte : BitVec w → Option UInt8
  writable : BitVec w → Bool

namespace Memory

variable {w : Nat}

/-- The longest readable prefix of `n` bytes from `addr` on. -/
def read (m : Memory w) (addr : BitVec w) : Nat → List UInt8
  | 0 => []
  | n + 1 =>
    match m.byte addr with
    | none => []
    | some b => b :: read m (addr + 1) n

/-- The longest writable prefix of the bytes is written at `addr`. -/
def write (m : Memory w) (addr : BitVec w) : List UInt8 → Memory w
  | [] => m
  | b :: bs =>
    if m.writable addr then
      write { m with byte := Function.update m.byte addr (some b) } (addr + 1) bs
    else m

/-- All of `n` bytes from `addr` on can be written. -/
def canWrite (m : Memory w) (addr : BitVec w) : Nat → Bool
  | 0 => true
  | n + 1 => m.writable addr && canWrite m (addr + 1) n

theorem succ_add (a : BitVec w) (i : Nat) :
    a + 1 + BitVec.ofNat w i = a + BitVec.ofNat w (i + 1) := by
  rw [BitVec.ofNat_add, BitVec.add_assoc]
  exact congrArg (a + ·) (BitVec.add_comm _ _)

/-! ## Reading -/

theorem length_read_le (m : Memory w) (a : BitVec w) (n : Nat) : (m.read a n).length ≤ n := by
  induction n generalizing a with
  | zero => exact Nat.le_refl 0
  | succ n ih =>
    simp only [read]
    split
    · exact Nat.zero_le _
    · exact Nat.succ_le_succ (ih _)

theorem head_read {m : Memory w} {a : BitVec w} {n : Nat} (h : m.read a n ≠ []) :
    (m.read a n).head? = m.byte a := by
  cases n with
  | zero => exact (h rfl).elim
  | succ n =>
    unfold read at h ⊢
    split at h
    · exact (h rfl).elim
    · rename_i b hb
      rw [hb]
      rfl

theorem read_congr {m m' : Memory w} {a : BitVec w} {n : Nat}
    (h : ∀ i < n, m.byte (a + BitVec.ofNat w i) = m'.byte (a + BitVec.ofNat w i)) :
    m.read a n = m'.read a n := by
  induction n generalizing a with
  | zero => rfl
  | succ n ih =>
    have h0 : m.byte a = m'.byte a := by simpa using h 0 (Nat.succ_pos n)
    have hn : m.read (a + 1) n = m'.read (a + 1) n := by
      apply ih
      intro i hi
      rw [succ_add]
      exact h (i + 1) (Nat.succ_lt_succ hi)
    simp only [read, h0, hn]

/-- A readable range. -/
theorem read_eq {m : Memory w} {a : BitVec w} {bs : List UInt8}
    (h : ∀ i (hi : i < bs.length), m.byte (a + BitVec.ofNat w i) = some bs[i]) :
    m.read a bs.length = bs := by
  induction bs generalizing a with
  | nil => rfl
  | cons b bs ih =>
    have h0 : m.byte a = some b := by simpa using h 0 (Nat.succ_pos _)
    have hn : m.read (a + 1) bs.length = bs := by
      apply ih
      intro i hi
      rw [succ_add]
      exact h (i + 1) (Nat.succ_lt_succ hi)
    simp only [List.length_cons, read, h0, hn]

/-! ## Writing -/

@[simp] theorem write_writable (m : Memory w) (a : BitVec w) (bs : List UInt8) :
    (m.write a bs).writable = m.writable := by
  induction bs generalizing m a with
  | nil => rfl
  | cons b bs ih =>
    simp only [write]
    split
    · rw [ih]
    · rfl

/-- A write changes no byte outside its range. -/
theorem write_byte_other {m : Memory w} {a x : BitVec w} {bs : List UInt8}
    (h : ∀ i < bs.length, x ≠ a + BitVec.ofNat w i) : (m.write a bs).byte x = m.byte x := by
  induction bs generalizing m a with
  | nil => rfl
  | cons b bs ih =>
    simp only [write]
    split
    · rw [ih]
      · exact Function.update_of_ne (by simpa using h 0 (Nat.succ_pos _)) _ _
      · intro i hi
        rw [succ_add]
        exact h (i + 1) (Nat.succ_lt_succ hi)
    · rfl

theorem canWrite_congr {m m' : Memory w} (h : m'.writable = m.writable) (a : BitVec w) (n : Nat) :
    m'.canWrite a n = m.canWrite a n := by
  induction n generalizing a with
  | zero => rfl
  | succ n ih => rw [canWrite, canWrite, h, ih]

theorem canWrite_bytes (m : Memory w) (f : BitVec w → Option UInt8) (a : BitVec w) (n : Nat) :
    canWrite { m with byte := f } a n = m.canWrite a n :=
  @canWrite_congr _ m { m with byte := f } rfl a n

@[simp] theorem write_canWrite (m : Memory w) (a b : BitVec w) (bs : List UInt8) (n : Nat) :
    (m.write b bs).canWrite a n = m.canWrite a n := canWrite_congr (write_writable ..) a n

theorem canWrite_iff {m : Memory w} {a : BitVec w} {n : Nat} :
    m.canWrite a n = true ↔ ∀ i < n, m.writable (a + BitVec.ofNat w i) = true := by
  induction n generalizing a with
  | zero => simp [canWrite]
  | succ n ih =>
    rw [canWrite, Bool.and_eq_true, ih]
    constructor
    · rintro ⟨h0, h⟩ i hi
      cases i with
      | zero => simpa using h0
      | succ i =>
        rw [← succ_add]
        exact h i (Nat.lt_of_succ_lt_succ hi)
    · intro h
      refine ⟨by simpa using h 0 (Nat.succ_pos n), fun i hi => ?_⟩
      rw [succ_add]
      exact h (i + 1) (Nat.succ_lt_succ hi)

theorem canWrite_le {m : Memory w} {a : BitVec w} {k n : Nat} (h : m.canWrite a n = true)
    (hk : k ≤ n) : m.canWrite a k = true :=
  canWrite_iff.2 fun i hi => canWrite_iff.1 h i (Nat.lt_of_lt_of_le hi hk)

theorem add_ofNat_ne {a : BitVec w} {i j : Nat} (hi : i < 2 ^ w) (hj : j < 2 ^ w) (h : i ≠ j) :
    a + BitVec.ofNat w i ≠ a + BitVec.ofNat w j := by
  intro he
  have := congrArg BitVec.toNat ((BitVec.add_right_inj a).1 he)
  rw [BitVec.toNat_ofNat, BitVec.toNat_ofNat, Nat.mod_eq_of_lt hi, Nat.mod_eq_of_lt hj] at this
  exact h this

/-- The writable part of what is written. -/
theorem write_byte_self {m : Memory w} {a : BitVec w} {bs : List UInt8} {i : Nat}
    (hw : m.canWrite a (i + 1)) (hl : bs.length ≤ 2 ^ w) (hi : i < bs.length) :
    (m.write a bs).byte (a + BitVec.ofNat w i) = some bs[i] := by
  induction bs generalizing m a i with
  | nil => exact absurd hi (Nat.not_lt_zero i)
  | cons b bs ih =>
    simp only [List.length_cons] at hl hi
    simp only [canWrite, Bool.and_eq_true] at hw
    rw [write, if_pos hw.1]
    cases i with
    | zero =>
      have hb : a + BitVec.ofNat w 0 = a := by simp
      rw [hb, write_byte_other]
      · exact Function.update_self ..
      · intro j hj
        have hne := add_ofNat_ne (a := a) (i := 0) (j := j + 1) (by omega) (by omega) (by omega)
        rwa [hb, ← succ_add] at hne
    | succ i =>
      rw [← succ_add]
      have hc := (canWrite_bytes m (Function.update m.byte a (some b)) _ _).trans hw.2
      exact ih hc (by omega) (by omega)

/-- What was written is read back as far as it could be written. -/
theorem read_write_front {m : Memory w} {a : BitVec w} {bs : List UInt8} {k : Nat}
    (hw : m.canWrite a k) (hk : k ≤ bs.length) (hl : bs.length ≤ 2 ^ w) :
    (m.write a bs).read a k = bs.take k := by
  have hlen : (bs.take k).length = k := List.length_take_of_le hk
  have h : (m.write a bs).read a (bs.take k).length = bs.take k := by
    apply read_eq
    intro i hi
    rw [List.getElem_take]
    exact write_byte_self (canWrite_le hw (by omega)) hl (by omega)
  rwa [hlen] at h

/-- What was written is read back. -/
theorem read_write_self {m : Memory w} {a : BitVec w} {bs : List UInt8}
    (hw : m.canWrite a bs.length) (hl : bs.length ≤ 2 ^ w) :
    (m.write a bs).read a bs.length = bs := by
  rw [read_write_front hw (Nat.le_refl _) hl, List.take_length]

/-- A write elsewhere does not show. -/
theorem read_write_other {m : Memory w} {a b : BitVec w} {n : Nat} {bs : List UInt8}
    (h : ∀ i < n, ∀ j < bs.length, a + BitVec.ofNat w i ≠ b + BitVec.ofNat w j) :
    (m.write b bs).read a n = m.read a n :=
  read_congr fun i hi => write_byte_other fun j hj => h i hi j hj

/-! ## Strings -/

theorem read_take {m : Memory w} {a : BitVec w} {k n : Nat} (h : k ≤ n) :
    (m.read a n).take k = m.read a k := by
  induction k generalizing a n with
  | zero => rfl
  | succ k ih =>
    obtain ⟨n, rfl⟩ : ∃ l, n = l + 1 := ⟨n - 1, by omega⟩
    simp only [read]
    cases m.byte a with
    | none => rfl
    | some b => rw [List.take_succ_cons, ih (by omega)]

/-- A readable range and what is read behind it. -/
theorem read_add {m : Memory w} {a : BitVec w} {bs : List UInt8} (h : m.read a bs.length = bs)
    (n : Nat) : m.read a (bs.length + n) = bs ++ m.read (a + BitVec.ofNat w bs.length) n := by
  induction bs generalizing a with
  | nil => simp
  | cons b bs ih =>
    rw [List.length_cons, read] at h
    rw [List.length_cons, Nat.add_right_comm, read, ← succ_add]
    cases hb : m.byte a with
    | none => rw [hb] at h; cases h
    | some c =>
      rw [hb] at h
      obtain ⟨rfl, htail⟩ := List.cons.inj h
      exact congrArg (c :: ·) (ih htail)

/-- A range that ends at a byte that cannot be read. -/
theorem read_stop {m : Memory w} {a : BitVec w} {k n : Nat} (h : (m.read a k).length < k)
    (hn : k ≤ n) : m.read a n = m.read a k := by
  induction k generalizing a n with
  | zero => exact absurd h (Nat.not_lt_zero _)
  | succ k ih =>
    obtain ⟨n, rfl⟩ : ∃ l, n = l + 1 := ⟨n - 1, by omega⟩
    simp only [read] at h ⊢
    cases hb : m.byte a with
    | none => rfl
    | some b =>
      simp only [hb, List.length_cons] at h
      exact congrArg (b :: ·) (ih (by omega) (by omega))

theorem read_eq_nil {m : Memory w} {a : BitVec w} {n : Nat} (hn : 0 < n) :
    m.read a n = [] ↔ m.byte a = none := by
  obtain ⟨n, rfl⟩ : ∃ l, n = l + 1 := ⟨n - 1, by omega⟩
  simp only [read]
  cases m.byte a <;> simp

/-- A string and its NUL are at the address. -/
def HoldsString (m : Memory w) (a : BitVec w) (s : List UInt8) : Prop :=
  0 ∉ s ∧ m.read a (s.length + 1) = s ++ [0]

theorem HoldsString.unique {m : Memory w} {a : BitVec w} {s t : List UInt8}
    (hs : m.HoldsString a s) (ht : m.HoldsString a t) : s = t := by
  have hcut : ∀ {s t : List UInt8}, m.HoldsString a s → m.HoldsString a t → t.length ≤ s.length := by
    intro s t hs ht
    by_contra hlt
    have hr := read_take (m := m) (a := a) (k := s.length + 1) (n := t.length + 1) (by omega)
    rw [hs.2, ht.2, List.take_append_of_le_length (by omega)] at hr
    exact ht.1 (List.mem_of_mem_take (hr ▸ by simp : (0 : UInt8) ∈ t.take (s.length + 1)))
  have hlen : s.length = t.length := Nat.le_antisymm (hcut ht hs) (hcut hs ht)
  have h := hs.2.symm.trans ((congrArg (fun n => m.read a (n + 1)) hlen).trans ht.2)
  exact (List.append_inj h hlen).1

theorem takeWhile_noNul {s : List UInt8} (h : 0 ∉ s) (r : List UInt8) :
    (s ++ 0 :: r).takeWhile (· != 0) = s := by
  have hall : ∀ b ∈ s, (b != 0) = true := fun b hb => by
    simpa using fun h0 : b = 0 => h (h0 ▸ hb)
  rw [List.takeWhile_append_of_pos hall]
  simp

/-- A string and its NUL lie in a range when a NUL can be read there, and it is the first one. -/
theorem holdsString_iff {m : Memory w} {a : BitVec w} {n : Nat} {s : List UInt8} :
    m.HoldsString a s ∧ s.length < n ↔
      (0 : UInt8) ∈ m.read a n ∧ s = (m.read a n).takeWhile (· != 0) := by
  constructor
  · rintro ⟨h, hn⟩
    have hr := read_take (m := m) (a := a) (k := s.length + 1) (n := n) hn
    have hsplit := List.take_append_drop (s.length + 1) (m.read a n)
    rw [hr, h.2, List.append_assoc, List.singleton_append] at hsplit
    rw [← hsplit, takeWhile_noNul h.1]
    simp
  · rintro ⟨h0, rfl⟩
    obtain ⟨x, r, hr, hx⟩ := List.eq_append_cons_of_mem h0
    have hlt : x.length < n := by
      have hlen := length_read_le m a n
      rw [hr, List.length_append, List.length_cons] at hlen
      omega
    rw [hr, takeWhile_noNul hx]
    have htake := read_take (m := m) (a := a) (k := x.length + 1) hlt
    rw [hr, List.take_length_add_append] at htake
    exact ⟨⟨hx, htake.symm⟩, hlt⟩

theorem holdsString_write {m : Memory w} {a : BitVec w} {s : List UInt8} (h0 : 0 ∉ s)
    (hw : m.canWrite a (s.length + 1)) (hl : s.length + 1 ≤ 2 ^ w) :
    (m.write a (s ++ [0])).HoldsString a s := by
  have hlen : (s ++ [0]).length = s.length + 1 := List.length_append
  exact ⟨h0, hlen ▸ read_write_self (hlen ▸ hw) (hlen ▸ hl)⟩

end Memory

/-! ## Numbers in memory -/

/-- The number that the bytes are, the last byte the lowest when `big`. -/
def ofBytes (big : Bool) (bs : List UInt8) : Nat :=
  (if big then bs.reverse else bs).foldr (fun b n => b.toNat + 256 * n) 0

/-- The `k` bytes of a number. -/
def toBytes (big : Bool) (k n : Nat) : List UInt8 :=
  let bs := (List.range k).map fun i => UInt8.ofNat (n / 256 ^ i)
  if big then bs.reverse else bs

@[simp] theorem length_toBytes (big : Bool) (k n : Nat) : (toBytes big k n).length = k := by
  cases big <;> simp [toBytes]

theorem foldr_bytes (k n : Nat) :
    ((List.range k).map fun i => UInt8.ofNat (n / 256 ^ i)).foldr
      (fun b n => b.toNat + 256 * n) 0 = n % 256 ^ k := by
  induction k generalizing n with
  | zero => simp [Nat.mod_one]
  | succ k ih =>
    have hd : ∀ i, n / 256 ^ (i + 1) = n / 256 / 256 ^ i := by
      intro i
      rw [Nat.pow_succ, Nat.mul_comm, Nat.div_div_eq_div_mul]
    rw [List.range_succ_eq_map, List.map_cons, List.map_map, List.foldr_cons]
    simp only [Function.comp_def, Nat.succ_eq_add_one, hd, ih]
    rw [Nat.pow_succ, Nat.mul_comm (256 ^ k) 256, Nat.mod_mul]
    simp

theorem ofBytes_toBytes (big : Bool) {k n : Nat} (h : n < 256 ^ k) :
    ofBytes big (toBytes big k n) = n := by
  cases big
  · rw [ofBytes, toBytes]
    exact (foldr_bytes k n).trans (Nat.mod_eq_of_lt h)
  · simp only [ofBytes, toBytes, if_true, List.reverse_reverse]
    exact (foldr_bytes k n).trans (Nat.mod_eq_of_lt h)
