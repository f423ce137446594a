import Emuroot.Lib.Table
import Emuroot.Model.Fake
import Emuroot.Model.Rewrite

/-!
# The event loop (`ptrace.c`)

`Engine` is the tracer's side: the table of tracees and the session context. `World` is what the
tracer sees of the guest: registers, memory and the host. A wait status is handled by `waitStep`.
-/

namespace Emuroot

variable {w : Nat} {σ : Type} (P : Platform w σ)

def SIGTRAP : Nat := 5
def SIGSTOP : Nat := 19
def PTRACE_EVENT_FORK : Nat := 1
def PTRACE_EVENT_VFORK : Nat := 2
def PTRACE_EVENT_CLONE : Nat := 3
def PTRACE_EVENT_SECCOMP : Nat := 7

/-- `tracee_t`: what the handlers see, and the flags of the event loop. -/
structure Traced (w : Nat) extends Tracee w where
  inSyscall : Bool
  awaitingExit : Bool
  fresh : Bool
  lastEntry : Int

/-- The tracer: the table of tracees, and the context they share. -/
structure Engine (w : Nat) where
  tab : List (Traced w)
  ctx : Ctx

/-- The guest, as the tracer reaches it. Threads share an address space (`space`); `regs` is `none`
for a process whose registers cannot be read. -/
structure World (w : Nat) (σ : Type) where
  regs : Nat → Option (Regs w)
  space : Nat → Nat
  mem : Nat → GuestMem w
  fs : σ

/-- A stop: its signal, its `PTRACE_EVENT_` number (or 0) and `PTRACE_GETEVENTMSG`. -/
structure Stop where
  sig : Nat
  event : Nat
  msg : Nat
  deriving DecidableEq, Repr

/-- The stop of `PTRACE_SYSCALL` at a call's entry or exit, and the one that the filter asks for. -/
def syscallStop : Stop := ⟨SIGTRAP ||| 0x80, 0, 0⟩
def seccompStop : Stop := ⟨SIGTRAP, PTRACE_EVENT_SECCOMP, 0⟩

/-- The status that `waitpid` reports. -/
inductive WaitStatus
  | exited (code : Nat)
  | signaled (sig : Nat)
  | stopped (stop : Stop)
  | continued
  deriving DecidableEq, Repr

/-! ## The table -/

/-- `tracee_find` -/
def traceeFind (tab : List (Traced w)) (pid : Nat) : Option (Traced w) :=
  Table.find (·.pid) tab pid

theorem traceeFind_pid {tab : List (Traced w)} {pid : Nat} {t : Traced w}
    (h : traceeFind tab pid = some t) : t.pid = pid := by
  have hk := Table.key_of_find h
  exact hk

/-- `tracee_inherit` -/
def traceeInherit (child parent : Traced w) : Traced w :=
  { child with creds := parent.creds, exe := parent.exe, root := parent.root }

/-- The record that `tracee_add` makes. -/
def traceeNew (ctx : Ctx) (pid : Nat) (parent : Option (Traced w)) : Traced w :=
  let t : Traced w :=
    { pid := pid
      root := snprintf pathLen ctx.root
      sysno := 0
      args := fun _ => 0
      creds := credsInit ctx.fakeUid ctx.fakeGid
      scratchTop := 0
      exe := []
      pendingExe := []
      chown := none
      created := []
      pendingRoot := []
      mountHandled := false
      procLink := false
      procLinkExe := false
      inSyscall := false
      awaitingExit := false
      fresh := true
      lastEntry := 0 }
  match parent with
  | some p => traceeInherit t p
  | none => t

/-- The record of a tracee changed in place. -/
def traceePut (tab : List (Traced w)) (t : Traced w) : List (Traced w) :=
  Table.put (·.pid) tab t

/-- `tracee_remove` -/
def traceeRemove (tab : List (Traced w)) (pid : Nat) : List (Traced w) :=
  Table.remove (·.pid) tab pid

/-! ## Stops -/

/-- What a handler is given for a tracee whose registers are `regs`. -/
def stopState (e : Engine w) (W : World w σ) (t : Tracee w) (regs : Regs w) : St w σ where
  t := t
  regs := regs
  mem := W.mem (W.space t.pid)
  ctx := e.ctx
  fs := W.fs
  log := []

/-- Run a handler on a tracee, if its registers can be read. -/
def withRegs (f : St w σ → St w σ) (e : Engine w) (W : World w σ) (t : Tracee w) :
    Tracee w × Ctx × World w σ :=
  match W.regs t.pid with
  | none => (t, e.ctx, W)
  | some regs =>
    let s := f (stopState e W t regs)
    (s.t, s.ctx,
      { W with
        regs := Function.update W.regs t.pid (some s.regs)
        mem := Function.update W.mem (W.space t.pid) s.mem
        fs := s.fs })

/-- A handler's result put back into the record. -/
def commit (e : Engine w) (t : Traced w) (r : Tracee w × Ctx × World w σ) : Engine w × World w σ :=
  ({ tab := traceePut e.tab { t with toTracee := r.1 }, ctx := r.2.1 }, r.2.2)

/-- `handle_stop`, with the signal to deliver. -/
def handleStop (seccomp : Bool) (e : Engine w) (W : World w σ) (t : Traced w) (st : Stop) :
    Engine w × World w σ × Nat :=
  if st.sig = SIGTRAP ||| 0x80 then
    if !seccomp then
      if t.inSyscall then
        let (e, W) := commit e { t with inSyscall := false } (withRegs (onExit P) e W t.toTracee)
        (e, W, 0)
      else
        let lastEntry :=
          match W.regs t.pid with
          | none => t.lastEntry
          | some regs => (regs P.arch.sysno).toInt
        let (e, W) := commit e { t with inSyscall := true, lastEntry := lastEntry }
          (withRegs (onEntry P) e W t.toTracee)
        (e, W, 0)
    else if t.awaitingExit then
      let (e, W) := commit e { t with awaitingExit := false } (withRegs (onExit P) e W t.toTracee)
      (e, W, 0)
    else (e, W, 0)
  else if st.event = PTRACE_EVENT_SECCOMP then
    let (e, W) := commit e { t with awaitingExit := true } (withRegs (onEntry P) e W t.toTracee)
    (e, W, 0)
  else if st.event = PTRACE_EVENT_FORK ∨ st.event = PTRACE_EVENT_VFORK ∨
      st.event = PTRACE_EVENT_CLONE then
    match traceeFind e.tab st.msg with
    | some c => ({ e with tab := traceePut e.tab (traceeInherit c t) }, W, 0)
    | none => ({ e with tab := e.tab ++ [traceeNew e.ctx st.msg (some t)] }, W, 0)
  else if st.sig = SIGSTOP ∧ t.fresh then
    ({ e with tab := traceePut e.tab { t with fresh := false } }, W, 0)
  else if st.sig ≠ SIGTRAP then (e, W, st.sig)
  else (e, W, 0)

/-- The record for a process that reports; one is added for a child seen before its parent's fork
event. -/
def findOrAdd (e : Engine w) (pid : Nat) : Engine w × Traced w :=
  match traceeFind e.tab pid with
  | some t => (e, t)
  | none => ({ e with tab := e.tab ++ [traceeNew e.ctx pid none] }, traceeNew e.ctx pid none)

/-- A round of the loop of `emuroot_run_ptrace` for a process other than the first one's end. -/
def waitStep (seccomp : Bool) (e : Engine w) (W : World w σ) (pid : Nat) (st : WaitStatus) :
    Engine w × World w σ × Nat :=
  let (e, t) := findOrAdd e pid
  match st with
  | .exited _ | .signaled _ => ({ e with tab := traceeRemove e.tab pid }, W, 0)
  | .stopped stop => handleStop P seccomp e W t stop
  | .continued => (e, W, 0)

/-- The filter of `emuroot_seccomp_trace`, which compares 32-bit numbers. -/
def seccompTraces (regs : Regs w) : Bool :=
  (tracedSyscalls P.nr (lp64 w)).any fun n =>
    BitVec.ofInt 32 n == (regs P.arch.sysno).setWidth 32

/-- How the loop resumes a stopped tracee: `PTRACE_SYSCALL` (true) or `PTRACE_CONT`. -/
def resumesToSyscall (seccomp : Bool) (t : Traced w) : Bool := !seccomp || t.awaitingExit

/-- The context as `emuroot_run_ptrace` makes it canonical. -/
def canonicalCtx (fs : σ) (ctx : Ctx) : Ctx :=
  let root := if ctx.root = [] then [] else (P.realpath fs ctx.root).getD ctx.root
  let root := if root = [slash] then [] else root
  { ctx with
    root := root
    bindings := ctx.bindings.map fun b =>
      { b with
        host := (P.realpath fs b.host).getD b.host
        mount := snprintf pathLen (root ++ unlessRoot b.guest) } }

/-- The engine when the guest starts. -/
def engineStart (ctx : Ctx) (rootPid : Nat) : Engine w where
  tab := [{ traceeNew ctx rootPid none with fresh := false }]
  ctx := ctx

end Emuroot
