import Emuroot.Lib.Bpf

/-!
# The seccomp filter (`seccomp.c`)
-/

namespace Emuroot

open Bpf

/-- `MAX_FILTERED` -/
def maxFiltered : Nat := 250

def SECCOMP_RET_ALLOW : BitVec 32 := 0x7fff0000
def SECCOMP_RET_TRACE : BitVec 32 := 0x7ff00000

/-- The members of `struct seccomp_data` that the filter reads. -/
structure SeccompData where
  nr : BitVec 32
  arch : BitVec 32

/-- The members by their offsets. -/
def SeccompData.word (d : SeccompData) : Nat → Option (BitVec 32)
  | 0 => some d.nr
  | 4 => some d.arch
  | _ => none

/-- The array `prog`. -/
def filterArray (auditArch : BitVec 32) (nrs : List Int) : List Insn :=
  [ -- foreign ABI: not ours, let it run
   stmt ldWAbs 4,
   jump jmpJeqK auditArch 1 0,
   stmt retK SECCOMP_RET_ALLOW,
   stmt ldWAbs 0] ++
  -- a match jumps over the ALLOW to the TRACE return
  nrs.mapIdx (fun i nr => jump jmpJeqK (BitVec.ofInt 32 nr) (BitVec.ofNat 8 (nrs.length - i)) 0) ++
  [stmt retK SECCOMP_RET_ALLOW,
   stmt retK SECCOMP_RET_TRACE]

/-- `emuroot_seccomp_trace`: the `sock_fprog` that the kernel is handed, with its 16-bit length. -/
def seccompTrace (auditArch : BitVec 32) (nrs : List Int) : Option (List Insn) :=
  if nrs.length = 0 ∨ nrs.length > maxFiltered then none
  else
    let prog := filterArray auditArch nrs
    some (prog.take (prog.length % 2 ^ 16))

end Emuroot
