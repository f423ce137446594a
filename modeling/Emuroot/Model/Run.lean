import Emuroot.Lib.WaitWord
import Emuroot.Model.Main

/-!
# A run to its end (`ptrace.c`, `envonly.c`, `emuroot.c`, `spawn.c`)

`emurootRun` is a run of the program. What the system calls of the run give is the `RunHost`:
whether a child can be traced, what the tracer waits for, what comes of the command without tracing.
-/

namespace Emuroot

open WaitWord

variable {w : Nat} {σ : Type} (P : Platform w σ)

def EMUROOT_ERR_UNSUPPORTED : Int := -3
def EMUROOT_ERR_SYSTEM : Int := -4

/-- The signals that `on_stop_signal` handles. -/
inductive StopSignal
  | hup
  | int
  | term
  deriving DecidableEq, Repr

def StopSignal.num : StopSignal → Nat
  | hup => 1
  | int => 2
  | term => 15

/-! ## The loop -/

/-- What `waitpid` gives: `EINTR`, another error, or the task with the word of its status; `msg` is
`PTRACE_GETEVENTMSG`. -/
inductive WaitResult
  | interrupted
  | fails
  | reports (pid : Nat) (ch : Change) (msg : Nat)

/-- A `waitpid` of the loop: the guest and the host by then, and `stop_signal` after it. -/
structure Waited (w : Nat) (σ : Type) where
  W : World w σ
  stopSignal : Option StopSignal
  got : WaitResult

def WaitStatus.ofWord (status msg : Nat) : WaitStatus :=
  match decode status with
  | .exited code => .exited code
  | .signaled sig => .signaled sig
  | .stopped sig event => .stopped ⟨sig, event, msg⟩
  | .continued => .continued

/-- `WIFEXITED(status) ? WEXITSTATUS(status) : 128 + WTERMSIG(status)`, of an end. -/
def WaitStatus.rc : WaitStatus → Option Int
  | .exited code => some code
  | .signaled sig => some (128 + sig)
  | _ => none

/-- A round of the loop of `emuroot_run_ptrace`; the loop is left with `rc`. -/
def ptraceRound (seccomp : Bool) (rootPid : Nat) (e : Engine w) (r : Waited w σ) :
    Engine w ⊕ Engine w × Int :=
  match r.stopSignal with
  | some sig => .inr (e, 128 + sig.num)
  | none =>
    match r.got with
    | .interrupted => .inl e
    | .fails => .inr (e, EMUROOT_ERR_SYSTEM)
    | .reports pid ch msg =>
      let st := WaitStatus.ofWord ch.word msg
      match if pid = rootPid then st.rc else none with
      | some rc => .inr ((findOrAdd e pid).1, rc)
      | none => .inl (waitStep P seccomp e r.W pid st).1

/-- The loop, for what its waits give; `none` if it has not been left by then. -/
def ptraceLoop (seccomp : Bool) (rootPid : Nat) (e : Engine w) :
    List (Waited w σ) → Option (Engine w × Int)
  | [] => none
  | r :: rs =>
    match ptraceRound P seccomp rootPid e r with
    | .inl e => ptraceLoop seccomp rootPid e rs
    | .inr res => some res

/-! ## Without tracing -/

def semicolon : Byte := 59

/-- The loop over the bindings of `emuroot_run_envonly`, with what the buffer holds and `pos`. -/
def exportBindings (size : Nat) : List Binding → CStr × Nat → CStr × Nat
  | [], s => s
  | b :: bs, (text, pos) =>
    if pos < size then
      let entry := (if pos = 0 then [] else [semicolon]) ++ b.host ++ colon :: b.guest
      exportBindings size bs (text ++ snprintf (size - pos) entry, pos + entry.length)
    else (text, pos)

/-- `setenv(name, value, 1)` -/
def setenv (env : CStr → Option CStr) (name value : CStr) : CStr → Option CStr :=
  Function.update env name (some value)

/-- The environment that `emuroot_run_envonly` makes. -/
def envonlyEnv (ctx : Ctx) (env : CStr → Option CStr) : CStr → Option CStr :=
  let (bindings, pos) := exportBindings (maxBindings * (2 * pathLen + 2)) ctx.bindings ([], 0)
  let env := if ctx.root = [] then env else setenv env (cstr "EMUROOT_ROOT") ctx.root
  let env := if pos = 0 then env else setenv env (cstr "EMUROOT_BINDINGS") bindings
  if !ctx.hasFakeIds then env
  else
    setenv env (cstr "EMUROOT_FAKE_IDS")
      (snprintf 32
        (Decimal.text ctx.fakeUid.toNat ++ colon :: Decimal.text ctx.fakeGid.toNat))

/-- What `emuroot_run_envonly` returns, for what becomes of the command; it is `none` if `fork`
fails. -/
def envonlyRc : Option Change → Int
  | none => EMUROOT_ERR_SYSTEM
  | some ch => (WaitStatus.ofWord ch.word 0).rc.getD EMUROOT_ERR_SYSTEM

/-! ## A run -/

/-- What comes of the tracing: a call before the loop fails, the kernel cannot follow forks, or the
loop waits. -/
inductive PtraceRun (w : Nat) (σ : Type)
  | cannotStart
  | cannotFollow
  | loops (waits : List (Waited w σ))

/-- What the system does in a run. `probed` is what becomes of the child that
`emuroot_probe_backend` forks, and `forced` that `EMUROOT_BACKEND` says `envonly`; `writable` is the
file of owners. -/
structure RunHost (w : Nat) (σ : Type) where
  fs : σ
  calloc : Nat → Nat → Bool
  writable : Bool
  forced : Bool
  probed : Option Change
  rootPid : Nat
  seccomp : Bool
  tracing : PtraceRun w σ
  envonly : Option Change

/-- `emuroot_backend_t`, without the one that is never selected. -/
inductive Backend
  | ptrace
  | envonly
  deriving DecidableEq, Repr

/-- `emuroot_probe_backend` -/
def probeBackend (forced : Bool) (probed : Option Change) : Backend :=
  if forced then .envonly
  else
    match probed with
    | none => .envonly
    | some ch =>
      match decode ch.word with
      | .stopped _ _ => .ptrace
      | _ => .envonly

/-- The context that `emuroot_run_envonly` is given: an attempt to trace has made it canonical. -/
def RunHost.envonlyCtx (H : RunHost w σ) (cfg : Config) : Ctx :=
  match probeBackend H.forced H.probed with
  | .envonly => cfg.ctx
  | .ptrace => canonicalCtx P H.fs cfg.ctx

/-- What a run leaves: its result, the tasks it has killed, and the file of owners. -/
structure RunEnd where
  rc : Int
  killed : List Nat
  idsFile : Option CStr

/-- The engine that the loop starts with. -/
def RunHost.start (H : RunHost w σ) (cfg : Config) (idsFile : Option CStr) : Engine w :=
  engineStart (sessionCtx P H.fs H.calloc idsFile cfg) H.rootPid

/-- `emuroot_run_ptrace`, where nobody else writes the file of owners meanwhile. -/
def emurootRunPtrace (H : RunHost w σ) (cfg : Config) (idsFile : Option CStr) : Option RunEnd :=
  match H.tracing with
  | .cannotStart => some ⟨EMUROOT_ERR_SYSTEM, [], idsFile⟩
  | .cannotFollow => some ⟨EMUROOT_ERR_UNSUPPORTED, [H.rootPid], idsFile⟩
  | .loops waits =>
    (ptraceLoop P H.seccomp H.rootPid (H.start P cfg idsFile) waits).map fun (e, rc) =>
      { rc := rc
        killed := e.tab.map (·.pid)
        idsFile :=
          if cfg.idsFile = [] then idsFile else ownersSave H.writable e.ctx.owners idsFile }

/-- `emuroot_run` -/
def emurootRun (H : RunHost w σ) (cfg : Config) (idsFile : Option CStr) : Option RunEnd :=
  match probeBackend H.forced H.probed with
  | .envonly => some ⟨envonlyRc H.envonly, [], idsFile⟩
  | .ptrace =>
    (emurootRunPtrace P H cfg idsFile).map fun r =>
      if r.rc ≠ EMUROOT_ERR_UNSUPPORTED then r else { r with rc := envonlyRc H.envonly }

/-- The end of `main`. -/
def mainEnds (rc : Int) : Change := .exits (if rc < 0 then 1 else rc.toNat)

/-- The end of the supervisor of `emuroot_spawn`. -/
def supervisorEnds (rc : Int) : Change := .exits (if rc < 0 then 127 else rc.toNat &&& 0xff)

/-- `emuroot_wait`, for what its waits give; an error is `EINTR` or not. -/
def emurootWait : List (Except Bool Change) → Option Int
  | [] => none
  | .error eintr :: ws => if eintr then emurootWait ws else some (-1)
  | .ok ch :: _ => some ((WaitStatus.ofWord ch.word 0).rc.getD (-1))

end Emuroot
