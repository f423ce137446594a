import Emuroot.Lib.MemoryAccess
import Emuroot.Model.PeekPoke

/-!
# The transfers of `guest.c`, with the method in use

`transfer` asks by one method and goes on to the next where that is not permitted. What is refused
may change from call to call, as it does when a program changes its domain.
-/

namespace Emuroot

variable {w : Nat}

/-- What the sandbox refuses, and with which `errno`: `process_vm_readv` and `process_vm_writev`,
and the opening of `/proc/PID/mem`. -/
structure Sandbox where
  processVm : Option Int
  procMem : Option Int

/-- What a transfer leaves: the guest's memory, the buffer and the `ssize_t`. -/
structure Transfer (w : Nat) where
  mem : Memory w
  buf : List Byte
  n : Int

/-- The variables that choose the first method. -/
structure MethodEnv where
  /-- `EMUROOT_GUEST_MEM` -/
  guestMem : Option CStr
  /-- `EMUROOT_NO_PROCESS_VM` is set -/
  noProcessVm : Bool

/-- `current`; `none` is the method that is not decided yet. -/
def current (env : MethodEnv) : Option Method → Method
  | some m => m
  | none =>
    let m := if env.noProcessVm ∨ env.guestMem = some (cstr "procmem") then .procMem else .processVm
    if env.guestMem = some (cstr "peek") then .peekPoke else m

/-- A transfer that the kernel makes, with the `errno` where there is nothing that it could. -/
def kernelTransfer (m : Memory w) (fault : Int) (addr : Word w) (buf : List Byte) (writeIt : Bool) :
    Transfer w × Int :=
  if writeIt then
    let n := m.writeLen addr buf.length
    if n = 0 ∧ buf.length > 0 then (⟨m, buf, -1⟩, fault) else (⟨m.write addr buf, buf, n⟩, 0)
  else
    let got := m.read addr buf.length
    if got = [] ∧ buf.length > 0 then (⟨m, buf, -1⟩, fault)
    else (⟨m, buf.splice 0 got, got.length⟩, 0)

/-- Memory that was accessed past its protection, which is as it was. -/
def Transfer.protect (m : Memory w) (t : Transfer w) : Transfer w :=
  { t with mem := { t.mem with writable := m.writable } }

/-- `emuroot_process_vm` -/
def emurootProcessVm (box : Sandbox) (m : Memory w) (addr : Word w) (buf : List Byte)
    (writeIt : Bool) : Transfer w × Int :=
  match box.processVm with
  | some e => (⟨m, buf, -1⟩, e)
  | none => kernelTransfer m EFAULT addr buf writeIt

/-- `proc_mem`; the file gives access to what is write-protected too. -/
def procMem (offBits : Nat) (box : Sandbox) (m : Memory w) (addr : Word w) (buf : List Byte) (writeIt : Bool) :
    Transfer w × Int :=
  match box.procMem with
  | some e => (⟨m, buf, -1⟩, e)
  | none =>
    match offT offBits addr.toNat with
    | none => (⟨m, buf, -1⟩, EINVAL)
    | some _ =>
      let (t, e) := kernelTransfer m.forced EIO addr buf writeIt
      (t.protect m, e)

section
variable (a : Arch w) (offBits : Nat)

/-- `peek_poke`, by which a tracer may write what is protected. -/
def peekPokeTransfer (m : Memory w) (addr : Word w) (buf : List Byte) (writeIt : Bool) :
    Transfer w × Int :=
  let (s, ret) := peekPoke a m.forced addr buf writeIt
  (Transfer.protect m ⟨s.mem, s.buf, ret.toInt⟩, EIO)

/-- The `switch` of `transfer`: the transfer, and `errno`. -/
def transferBy (method : Method) (box : Sandbox) (m : Memory w) (addr : Word w) (buf : List Byte)
    (writeIt : Bool) : Transfer w × Int :=
  match method with
  | .processVm => emurootProcessVm box m addr buf writeIt
  | .procMem => procMem offBits box m addr buf writeIt
  | .peekPoke => peekPokeTransfer a m addr buf writeIt

/-- `method = current() + 1` -/
def Method.next : Method → Method
  | .processVm => .procMem
  | _ => .peekPoke

/-- How many methods are tried before this one. -/
def Method.rank : Method → Nat
  | .processVm => 0
  | .procMem => 1
  | .peekPoke => 2

/-- A round of `transfer`. -/
def transferStep (box : Sandbox) (m : Memory w) (addr : Word w) (buf : List Byte) (writeIt : Bool)
    (method : Method) : Method ⊕ Method × Transfer w :=
  let (t, errno) := transferBy a offBits method box m addr buf writeIt
  if t.n ≥ 0 ∨ !denied errno ∨ method = .peekPoke then .inr (method, t) else .inl method.next

theorem transferStep_decreases {box : Sandbox} {m : Memory w} {addr : Word w} {buf : List Byte}
    {writeIt : Bool} {method method' : Method}
    (h : transferStep a offBits box m addr buf writeIt method = .inl method') :
    2 - method'.rank < 2 - method.rank := by
  unfold transferStep at h
  dsimp only at h
  split at h
  · cases h
  · rename_i hstop
    cases h
    cases method with
    | processVm | procMem => decide
    | peekPoke => exact absurd (.inr (.inr rfl)) hstop

/-- `transfer`, with the method from then on. -/
def transfer (env : MethodEnv) (method : Option Method) (box : Sandbox) (m : Memory w)
    (addr : Word w) (buf : List Byte) (writeIt : Bool) : Method × Transfer w :=
  Loop.run
    { step := transferStep a offBits box m addr buf writeIt
      measure := fun method => 2 - method.rank
      decreases := transferStep_decreases a offBits } (current env method)

end

end Emuroot
