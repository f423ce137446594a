import Emuroot.Lib.Getopt
import Emuroot.Lib.Loop
import Emuroot.Model.Fake
import Emuroot.Model.OwnersFile
import Emuroot.Model.Ptrace

/-!
# The command line (`main.c`, the setters of `emuroot.c`)
-/

namespace Emuroot

open Getopt

/-- `struct emuroot_ctx`, with what only the start and the end of a session read. -/
structure Config where
  ctx : Ctx
  idsFile : CStr
  verbose : Bool

/-- `emuroot_create` -/
def Config.create : Config where
  ctx := .create
  idsFile := []
  verbose := false

/-- `emuroot_set_fake_ids` -/
def setFakeIds (ctx : Ctx) (uid gid : UInt32) : Ctx :=
  { ctx with hasFakeIds := true, fakeUid := uid, fakeGid := gid }

/-- `emuroot_set_fake_uname` -/
def setFakeUname (ctx : Ctx) (sysname release machine : CStr) : Ctx :=
  { ctx with
    hasFakeUname := true
    unameSysname := snprintf utsField sysname
    unameRelease := snprintf utsField release
    unameMachine := snprintf utsField machine }

/-- `emuroot_set_ids_file`; `none` is `EMUROOT_ERR_INVAL`. -/
def setIdsFile (cfg : Config) (path : CStr) : Option Config :=
  if path.length ≥ pathLen then none else some { cfg with idsFile := path }

/-- `sscanf(s, "%u:%u", ...)` when it returns 2, with the 64-bit `long`. -/
def scanIds (s : CStr) : Option (UInt32 × UInt32) := do
  let (uid, s) ← scanUnsigned s
  if s.head? = some colon then
    let (gid, _) ← scanUnsigned (s.drop 1)
    some (uid.toUInt32, gid.toUInt32)
  else none

/-- A conversion `%64[^:]` of `sscanf`. -/
def scanField (s : CStr) : Option (CStr × CStr) :=
  let field := (s.takeWhile (· != colon)).take 64
  if field = [] then none else some (field, s.drop field.length)

/-- `":%64[^:]"` -/
def scanNextField (s : CStr) : Option (CStr × CStr) :=
  if s.head? = some colon then scanField (s.drop 1) else none

/-- `sscanf(s, "%64[^:]:%64[^:]:%64[^:]", ...)` into three empty buffers. -/
def scanUname (s : CStr) : CStr × CStr × CStr :=
  match scanField s with
  | none => ([], [], [])
  | some (sysname, s) =>
    match scanNextField s with
    | none => (sysname, [], [])
    | some (release, s) =>
      match scanNextField s with
      | none => (sysname, release, [])
      | some (machine, _) => (sysname, release, machine)

/-- How `main` ends without a run: with a status, or with the report of `emuroot_diagnose`. -/
inductive MainExit
  | status (n : Nat)
  | diagnoses

/-- What `main` comes to. -/
inductive MainEnd
  | exits (e : MainExit)
  | runs (cfg : Config) (cmd : List CStr)

def dash : Byte := 45

/-- The options, of which those before a colon take an argument. -/
def mainOptions : Byte → Option Bool := optstring colon (cstr "r:b:u:n:s:vVhD")

/-- The `switch` of `main`, for an option with its argument. -/
def mainOption (cfg : Config) (o : Opt Byte) : Except MainExit Config :=
  let optarg := o.2.getD []
  if o.1 = 'r'.toUInt8 then .ok { cfg with ctx := (setRoot cfg.ctx optarg).getD cfg.ctx }
  else if o.1 = 'b'.toUInt8 then
    match optionBind cfg.ctx optarg with
    | none => .error (.status 2)
    | some ctx => .ok { cfg with ctx := ctx }
  else if o.1 = 'u'.toUInt8 then
    match scanIds optarg with
    | none => .error (.status 2)
    | some (uid, gid) => .ok { cfg with ctx := setFakeIds cfg.ctx uid gid }
  else if o.1 = 'n'.toUInt8 then
    let (sysname, release, machine) := scanUname optarg
    .ok { cfg with ctx := setFakeUname cfg.ctx sysname release machine }
  else if o.1 = 's'.toUInt8 then .ok ((setIdsFile cfg optarg).getD cfg)
  else if o.1 = 'D'.toUInt8 then .error .diagnoses
  else if o.1 = 'v'.toUInt8 then .ok { cfg with verbose := true }
  else if o.1 = 'V'.toUInt8 then .error (.status 0)
  else if o.1 = 'h'.toUInt8 then .error (.status 0)
  else .error (.status 2)

/-- A round of the loop of `main`, and what comes behind it. -/
def mainStep (s : Config × State Byte) : (Config × State Byte) ⊕ MainEnd :=
  match getopt dash mainOptions s.2 with
  | some (none, _) => .inr (.exits (.status 2))
  | some (some o, rest) =>
    match mainOption s.1 o with
    | .ok cfg => .inl (cfg, rest)
    | .error e => .inr (.exits e)
  | none =>
    match operands dash s.2.args with
    | [] => .inr (.exits (.status 2))
    | cmd => .inr (.runs s.1 cmd)

def mainLoop : Loop (Config × State Byte) MainEnd where
  step := mainStep
  measure s := s.2.size
  decreases {s s'} h := by
    unfold mainStep at h
    split at h
    · cases h
    · rename_i o rest ho
      split at h
      · cases h
        exact size_getopt ho
      · cases h
    · split at h <;> cases h

/-- `main`, for the elements of `argv` behind the first. -/
def emurootMain (args : List CStr) : MainEnd := mainLoop.run (.create, ⟨[], args⟩)

/-- The context that the event loop starts with. `-s` names the file of the owners, of which
`idsFile` is the content. -/
def sessionCtx {w : Nat} {σ : Type} (P : Platform w σ) (fs : σ) (calloc : Nat → Nat → Bool)
    (idsFile : Option CStr) (cfg : Config) : Ctx :=
  let ctx := canonicalCtx P fs cfg.ctx
  if cfg.idsFile = [] then ctx
  else { ctx with owners := ownersLoad calloc ctx.owners idsFile }

end Emuroot
