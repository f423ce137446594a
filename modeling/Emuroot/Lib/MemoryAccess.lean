import Emuroot.Lib.MemoryParts

/-!
# Accesses that get past write protection

`writeLen` is how much of a write is transferred. `Memory.forced` is the memory for an access that
may write whatever can be read; on a range without read-only bytes it is written as the memory is
(`forced_write`).
-/

namespace Memory

variable {w : Nat}

/-- How many of `n` bytes from `addr` on a write transfers. -/
def writeLen (m : Memory w) (addr : BitVec w) : Nat → Nat
  | 0 => 0
  | n + 1 => if m.writable addr then writeLen m (addr + 1) n + 1 else 0

/-- What can be read can be written. -/
def forced (m : Memory w) : Memory w := { m with writable := fun x => (m.byte x).isSome }

/-- No byte of the range can be read and not be written, or the other way round. -/
def NoReadOnly (m : Memory w) (addr : BitVec w) (n : Nat) : Prop :=
  ∀ i < n, m.writable (addr + BitVec.ofNat w i) = (m.byte (addr + BitVec.ofNat w i)).isSome

variable {m m' : Memory w} {a : BitVec w} {k n : Nat} {bs : List UInt8}

theorem writeLen_eq (hk : k ≤ n) (h : m.canWrite a k = true)
    (hstop : k < n → m.writable (a + BitVec.ofNat w k) = false) : m.writeLen a n = k := by
  induction n generalizing k a with
  | zero =>
    obtain rfl : k = 0 := Nat.le_zero.1 hk
    rfl
  | succ n ih =>
    rw [writeLen]
    cases k with
    | zero =>
      have h0 : m.writable a = false := by simpa using hstop (Nat.succ_pos n)
      simp [h0]
    | succ k =>
      rw [canWrite, Bool.and_eq_true] at h
      rw [if_pos h.1, ih (Nat.le_of_succ_le_succ hk) h.2]
      intro hlt
      rw [succ_add]
      exact hstop (Nat.succ_lt_succ hlt)

/-- Where nothing is transferred nothing is changed. -/
theorem write_of_writeLen (h : m.writeLen a bs.length = 0) : m.write a bs = m := by
  cases bs with
  | nil => rfl
  | cons b bs =>
    rw [List.length_cons, writeLen] at h
    split at h
    · cases h
    · rename_i h0
      rw [write, if_neg h0]

/-- All is transferred where all can be written. -/
theorem writeLen_iff : m.writeLen a n = n ↔ m.canWrite a n = true := by
  induction n generalizing a with
  | zero => simp [writeLen, canWrite]
  | succ n ih =>
    rw [writeLen, canWrite, Bool.and_eq_true]
    split
    · rename_i h
      simp [h, ih]
    · rename_i h
      simp [h]

theorem writeLen_congr
    (h : ∀ i < n, m.writable (a + BitVec.ofNat w i) = m'.writable (a + BitVec.ofNat w i)) :
    m.writeLen a n = m'.writeLen a n := by
  induction n generalizing a with
  | zero => rfl
  | succ n ih =>
    have h0 : m.writable a = m'.writable a := by simpa using h 0 (Nat.succ_pos n)
    have hn : m.writeLen (a + 1) n = m'.writeLen (a + 1) n := by
      apply ih
      intro i hi
      rw [succ_add]
      exact h (i + 1) (Nat.succ_lt_succ hi)
    simp only [writeLen, h0, hn]

/-- A write goes by what can be written of its range. -/
theorem write_byte_congr (hb : m.byte = m'.byte)
    (h : ∀ i < bs.length, m.writable (a + BitVec.ofNat w i) = m'.writable (a + BitVec.ofNat w i)) :
    (m.write a bs).byte = (m'.write a bs).byte := by
  induction bs generalizing m m' a with
  | nil => exact hb
  | cons b bs ih =>
    have h0 : m.writable a = m'.writable a := by simpa using h 0 (Nat.succ_pos _)
    rw [write, write, h0]
    split
    · apply ih
      · exact congrArg (Function.update · a (some b)) hb
      · intro i hi
        rw [succ_add]
        exact h (i + 1) (Nat.succ_lt_succ hi)
    · exact hb

theorem forced_read : m.forced.read a n = m.read a n := read_congr fun _ _ => rfl

/-- **Without read-only bytes** a write that is forced is the write. -/
theorem forced_write (h : m.NoReadOnly a bs.length) :
    (m.forced.write a bs).byte = (m.write a bs).byte :=
  write_byte_congr rfl fun i hi => (h i hi).symm

theorem forced_writeLen (h : m.NoReadOnly a n) : m.forced.writeLen a n = m.writeLen a n :=
  writeLen_congr fun i hi => (h i hi).symm

end Memory
