import Emuroot.Lib.Loop
import Mathlib.Algebra.Group.Nat.Defs

/-!
# Classic BPF filters

The accumulator machine of socket and seccomp filters with the instructions that equality filters
are made of. Jumps only go forward, so a program ends (`machine` is a `Loop`); `none` is a program
that leaves its array, reads outside the data or meets an unknown code. `run_tests` is the rule for
a row of equality tests with one common target.
-/

namespace Bpf

/-- `struct sock_filter` -/
structure Insn where
  code : BitVec 16
  jt : BitVec 8
  jf : BitVec 8
  k : BitVec 32
  deriving DecidableEq, Repr

/-- `BPF_LD | BPF_W | BPF_ABS` -/
def ldWAbs : BitVec 16 := 0x00 ||| 0x00 ||| 0x20

/-- `BPF_JMP | BPF_JEQ | BPF_K` -/
def jmpJeqK : BitVec 16 := 0x05 ||| 0x10 ||| 0x00

/-- `BPF_RET | BPF_K` -/
def retK : BitVec 16 := 0x06 ||| 0x00

/-- `BPF_STMT` -/
def stmt (code : BitVec 16) (k : BitVec 32) : Insn := ⟨code, 0, 0, k⟩

/-- `BPF_JUMP` -/
def jump (code : BitVec 16) (k : BitVec 32) (jt jf : BitVec 8) : Insn := ⟨code, jt, jf, k⟩

structure State where
  pc : Nat
  acc : BitVec 32

variable (prog : List Insn) (data : Nat → Option (BitVec 32))

/-- One instruction; the data is read by its byte offset. -/
def step (s : State) : State ⊕ Option (BitVec 32) :=
  match prog[s.pc]? with
  | none => .inr none
  | some i =>
    if i.code = ldWAbs then
      match data i.k.toNat with
      | none => .inr none
      | some v => .inl ⟨s.pc + 1, v⟩
    else if i.code = jmpJeqK then
      .inl { s with pc := s.pc + 1 + (if s.acc = i.k then i.jt else i.jf).toNat }
    else if i.code = retK then .inr (some i.k)
    else .inr none

theorem step_pc {s s' : State} (h : step prog data s = .inl s') :
    s.pc < prog.length ∧ s.pc < s'.pc := by
  unfold step at h
  split at h
  · cases h
  · rename_i i hi
    rcases List.getElem?_eq_some_iff.1 hi with ⟨hlt, -⟩
    refine ⟨hlt, ?_⟩
    split at h
    · split at h
      · cases h
      · cases h
        apply Nat.lt_succ_self
    · split at h
      · cases h
        simp
        omega
      · split at h <;> cases h

/-- The program on the data. -/
def machine : Loop State (Option (BitVec 32)) where
  step := step prog data
  measure s := prog.length - s.pc
  decreases h := by
    have := step_pc prog data h
    omega

/-- What the filter returns. -/
def run : Option (BitVec 32) := (machine prog data).run ⟨0, 0⟩

section
variable {prog data} {pc : Nat} {a v k : BitVec 32}

theorem run_load (h : prog[pc]? = some (stmt ldWAbs k)) (hd : data k.toNat = some v) :
    (machine prog data).run ⟨pc, a⟩ = (machine prog data).run ⟨pc + 1, v⟩ := by
  apply Loop.run_again
  simp [machine, step, h, stmt, hd]

theorem run_jeq {jt jf : BitVec 8} (h : prog[pc]? = some (jump jmpJeqK k jt jf)) :
    (machine prog data).run ⟨pc, a⟩ =
      (machine prog data).run ⟨pc + 1 + (if a = k then jt else jf).toNat, a⟩ := by
  apply Loop.run_again
  simp [machine, step, h, jump, jmpJeqK, ldWAbs]

theorem run_ret (h : prog[pc]? = some (stmt retK k)) :
    (machine prog data).run ⟨pc, a⟩ = some k := by
  apply Loop.run_leave
  simp [machine, step, h, stmt, retK, jmpJeqK, ldWAbs]

/-- A row of tests of which each jumps, on a match, over the rest of the row and one instruction
more. -/
theorem run_tests {ks : List (BitVec 32)} (hl : ks.length < 2 ^ 8)
    (h : ∀ i (hi : i < ks.length),
      prog[pc + i]? = some (jump jmpJeqK ks[i] (BitVec.ofNat 8 (ks.length - i)) 0)) :
    (machine prog data).run ⟨pc, a⟩ =
      (machine prog data).run ⟨pc + ks.length + (if a ∈ ks then 1 else 0), a⟩ := by
  induction ks generalizing pc with
  | nil => rfl
  | cons k ks ih =>
    rw [List.length_cons] at hl
    have h0 := h 0 (Nat.zero_lt_succ _)
    simp only [Nat.add_zero, List.getElem_cons_zero, List.length_cons, Nat.sub_zero] at h0
    have hjt : (BitVec.ofNat 8 (ks.length + 1)).toNat = ks.length + 1 := by
      rw [BitVec.toNat_ofNat, Nat.mod_eq_of_lt hl]
    rw [run_jeq h0]
    by_cases ha : a = k
    · simp only [ha, if_true, hjt, List.mem_cons, true_or, List.length_cons]
      congr 2
      omega
    · have hrest : ∀ i (hi : i < ks.length), prog[pc + 1 + i]? =
          some (jump jmpJeqK ks[i] (BitVec.ofNat 8 (ks.length - i)) 0) := by
        intro i hi
        have := h (i + 1) (Nat.succ_lt_succ hi)
        simpa [Nat.add_assoc, Nat.add_comm 1 i] using this
      rw [if_neg ha, show (0 : BitVec 8).toNat = 0 from rfl, Nat.add_zero, ih (by omega) hrest]
      simp only [ha, List.mem_cons, false_or, List.length_cons]
      congr 2
      omega

end

end Bpf
