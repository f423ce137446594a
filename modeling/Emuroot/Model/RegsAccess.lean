import Emuroot.Model.Arch
import Emuroot.Model.Transfer

/-!
# Register access for a stopped tracee (`regs.c`)

`emuroot_regs_t` is the first `size` words of the kernel's register struct. `PTRACE_GETREGSET` moves
these alone; `PTRACE_GETREGS` moves the whole struct, on which they are laid.
-/

namespace Emuroot

variable {w size : Nat}

def ENOSYS : Int := 38

/-- `KERNEL_REGS_MAX` -/
def kernelRegsMax : Nat := 1024

/-- `emuroot_regs_t` -/
abbrev RegsPrefix (w size : Nat) := Fin size → Word w

/-- `mode` -/
inductive RegsMode
  | undecided | regset | getregs
  deriving DecidableEq, Repr

/-- A kernel's register requests: the `errno` of `PTRACE_GETREGSET` where it has no register sets,
whether it has `PTRACE_GETREGS`, and the words of its struct, which fits the buffer of the engine. -/
structure RegsKernel (w : Nat) where
  noRegset : Option Int
  hasGetregs : Bool
  words : Nat
  fits : words * (w / 8) ≤ kernelRegsMax

def prefixOf (r : Regs w) : RegsPrefix w size := fun i => r i

/-- `memcpy(full, regs, sizeof *regs)` -/
def overlay (full : Regs w) (regs : RegsPrefix w size) : Regs w :=
  fun i => if h : i < size then regs ⟨i, h⟩ else full i

namespace RegsKernel

variable (K : RegsKernel w)

/-- `PTRACE_GETREGSET`; a task that is gone has no registers. -/
def getregset (task : Option (Regs w)) : Except Int (RegsPrefix w size) :=
  match task, K.noRegset with
  | none, _ => .error ESRCH
  | some _, some e => .error e
  | some r, none => .ok (prefixOf r)

/-- `PTRACE_SETREGSET`, with the task's registers afterwards. -/
def setregset (task : Option (Regs w)) (regs : RegsPrefix w size) : Option (Regs w) × Bool :=
  match task, K.noRegset with
  | some r, none => (some (overlay r regs), true)
  | task, _ => (task, false)

/-- `PTRACE_GETREGS` into a buffer that has `junk` in it. -/
def getregs (junk : Regs w) (task : Option (Regs w)) : Option (Regs w) :=
  if K.hasGetregs then task.map fun r i => if i < K.words then r i else junk i else none

/-- `PTRACE_SETREGS` -/
def setregs (task : Option (Regs w)) (full : Regs w) : Option (Regs w) :=
  task.map fun r i => if i < K.words then full i else r i

end RegsKernel

/-- `mode_now`; `forced` is `EMUROOT_REGS=getregs`. -/
def modeNow (forced : Bool) (mode : RegsMode) : RegsMode :=
  if mode = .undecided then if forced then .getregs else .regset else mode

section
variable (K : RegsKernel w) (forced : Bool) (junk : Regs w)

/-- `regs_get`, with the mode from then on; `none` is `-1`. -/
def regsGet (mode : RegsMode) (task : Option (Regs w)) : RegsMode × Option (RegsPrefix w size) :=
  let full := (K.getregs junk task).map prefixOf
  if modeNow forced mode = .regset then
    match K.getregset task with
    | .ok regs => (.regset, some regs)
    | .error e =>
      if e ≠ EIO ∧ e ≠ EINVAL ∧ e ≠ ENOSYS then (.regset, none)
      -- a kernel without regsets
      else (.getregs, full)
  else (modeNow forced mode, full)

/-- `regs_set`, with the task's registers afterwards and whether it returned 0. -/
def regsSet (mode : RegsMode) (task : Option (Regs w)) (regs : RegsPrefix w size) :
    RegsMode × Option (Regs w) × Bool :=
  if modeNow forced mode = .regset then (.regset, K.setregset task regs)
  else
    match K.getregs junk task with
    | none => (modeNow forced mode, task, false)
    | some full => (modeNow forced mode, K.setregs task (overlay full regs), true)

end

end Emuroot
