import Mathlib.Algebra.Group.Nat.Defs
import Mathlib.Logic.Function.Basic

/-!
# Register layouts (`arch.h`)

A register set is the kernel's struct as words by position; `Arch` says at which positions the
roles are that the engine uses.
-/

namespace Emuroot

/-- `unsigned long` of the traced process. -/
abbrev Word (w : Nat) := BitVec w

/-- `emuroot_regs_t` -/
abbrev Regs (w : Nat) := Nat → Word w

/-- The positions of `EMU_SYSNO`, `EMU_RET`, `EMU_ARG1` to `EMU_ARG6` and `EMU_SP`; no two arguments
share a register. -/
structure Arch (w : Nat) where
  sysno : Nat
  ret : Nat
  arg1 : Nat
  arg2 : Nat
  arg3 : Nat
  arg4 : Nat
  arg5 : Nat
  arg6 : Nat
  sp : Nat
  bigEndian : Bool
  bits : w = 32 ∨ w = 64
  apart : [arg1, arg2, arg3, arg4, arg5, arg6].Nodup

/-- There are at least 32 bits of addresses. -/
theorem Arch.two_pow_le {w k : Nat} (A : Arch w) (hk : k ≤ 32) : 2 ^ k ≤ 2 ^ w := by
  have hbits := A.bits
  exact Nat.pow_le_pow_right (by decide) (by omega)

/-- So a register holds a constant of 32 bits. -/
theorem Arch.toNat_const {w c : Nat} (A : Arch w) (hc : c < 2 ^ 32) : (BitVec.ofNat w c).toNat = c := by
  have hw : 2 ^ 32 ≤ 2 ^ w := A.two_pow_le (Nat.le_refl _)
  rw [BitVec.toNat_ofNat, Nat.mod_eq_of_lt (Nat.lt_of_lt_of_le hc hw)]

/-- `reg_arg` -/
def Arch.regArg {w : Nat} (A : Arch w) (n : Nat) : Nat :=
  match n with
  | 1 => A.arg1
  | 2 => A.arg2
  | 3 => A.arg3
  | 4 => A.arg4
  | 5 => A.arg5
  | _ => A.arg6

/-- The register with one position changed. -/
def Regs.put {w : Nat} (r : Regs w) (i : Nat) (v : Word w) : Regs w := Function.update r i v

@[simp] theorem Regs.put_self {w : Nat} (r : Regs w) (i : Nat) (v : Word w) : r.put i v i = v :=
  Function.update_self ..

theorem Regs.put_of_ne {w : Nat} (r : Regs w) {i j : Nat} (v : Word w) (h : j ≠ i) :
    r.put i v j = r j :=
  Function.update_of_ne h ..

/-! ## The supported architectures -/

/-- `r15 r14 r13 r12 rbp rbx r11 r10 r9 r8 rax rcx rdx rsi rdi orig_rax rip cs eflags rsp` -/
def x86_64 : Arch 64 where
  sysno := 15
  ret := 10
  arg1 := 14
  arg2 := 13
  arg3 := 12
  arg4 := 7
  arg5 := 9
  arg6 := 8
  sp := 19
  bigEndian := false
  bits := .inr rfl
  apart := by decide

/-- `regs[31] sp pc pstate` -/
def aarch64 : Arch 64 where
  sysno := 8
  ret := 0
  arg1 := 0
  arg2 := 1
  arg3 := 2
  arg4 := 3
  arg5 := 4
  arg6 := 5
  sp := 31
  bigEndian := false
  bits := .inr rfl
  apart := by decide

/-- `uregs[18]` -/
def arm : Arch 32 where
  sysno := 7
  ret := 0
  arg1 := 0
  arg2 := 1
  arg3 := 2
  arg4 := 3
  arg5 := 4
  arg6 := 5
  sp := 13
  bigEndian := false
  bits := .inl rfl
  apart := by decide

/-- `pc ra sp gp tp t0 t1 t2 s0 s1 a0 a1 a2 a3 a4 a5 a6 a7` -/
def riscv64 : Arch 64 where
  sysno := 17
  ret := 10
  arg1 := 10
  arg2 := 11
  arg3 := 12
  arg4 := 13
  arg5 := 14
  arg6 := 15
  sp := 2
  bigEndian := false
  bits := .inr rfl
  apart := by decide

/-- `regs[32] orig_a0` -/
def loongarch64 : Arch 64 where
  sysno := 11
  ret := 4
  arg1 := 4
  arg2 := 5
  arg3 := 6
  arg4 := 7
  arg5 := 8
  arg6 := 9
  sp := 3
  bigEndian := false
  bits := .inr rfl
  apart := by decide

/-- `gpr[16]` -/
def ppc64le : Arch 64 where
  sysno := 0
  ret := 3
  arg1 := 3
  arg2 := 4
  arg3 := 5
  arg4 := 6
  arg5 := 7
  arg6 := 8
  sp := 1
  bigEndian := false
  bits := .inr rfl
  apart := by decide

/-- `psw_mask psw_addr gprs[16]` -/
def s390x : Arch 64 where
  sysno := 3
  ret := 4
  arg1 := 4
  arg2 := 5
  arg3 := 6
  arg4 := 7
  arg5 := 8
  arg6 := 9
  sp := 17
  bigEndian := true
  bits := .inr rfl
  apart := by decide

end Emuroot
