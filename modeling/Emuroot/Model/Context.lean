import Emuroot.Model.CString
import Emuroot.Model.Ownership

/-!
# The session context (`internal.h`, `emuroot.c`, `-b` of `main.c`)
-/

namespace Emuroot

/-- `MAX_BINDINGS` -/
def maxBindings : Nat := 128

/-- `binding_t`; `guest_len` and `mount_len` are the lengths. -/
structure Binding where
  host : CStr
  guest : CStr
  mount : CStr
  deriving DecidableEq, Repr

/-- `struct emuroot_ctx`, with the table of loaders that `loader_has_argv0` keeps. -/
structure Ctx where
  /-- empty: no root redirect -/
  root : CStr
  bindings : List Binding
  hasFakeIds : Bool
  fakeUid : UInt32
  fakeGid : UInt32
  hasFakeUname : Bool
  unameSysname : CStr
  unameRelease : CStr
  unameMachine : CStr
  owners : Option OwnerDb
  loaderCache : List (CStr × Bool)

/-- `emuroot_create` -/
def Ctx.create : Ctx where
  root := []
  bindings := []
  hasFakeIds := false
  fakeUid := 0
  fakeGid := 0
  hasFakeUname := false
  unameSysname := []
  unameRelease := []
  unameMachine := []
  owners := none
  loaderCache := []

/-- `emuroot_set_root`; `none` is `EMUROOT_ERR_INVAL`. -/
def setRoot (ctx : Ctx) (newRoot : CStr) : Option Ctx :=
  if newRoot.length ≥ pathLen then none
  else if newRoot.length > 1 ∧ newRoot.getLast? = some slash then
    some { ctx with root := newRoot.dropLast }
  else some { ctx with root := newRoot }

/-- `emuroot_bind`; `none` is an error. -/
def emurootBind (ctx : Ctx) (host guest : CStr) : Option Ctx :=
  if ctx.bindings.length ≥ maxBindings ∨ host.length ≥ pathLen ∨ guest.length ≥ pathLen then none
  else some { ctx with bindings := ctx.bindings ++ [⟨host, guest, []⟩] }

def colon : Byte := 58

/-- The option `-b` of `main`, which lets an error of `emuroot_bind` pass; `none` is the usage
error. -/
def optionBind (ctx : Ctx) (optarg : CStr) : Option Ctx :=
  if colon ∉ optarg then none
  else
    let host := optarg.takeWhile (· != colon)
    let guest := optarg.drop (host.length + 1)
    some ((emurootBind ctx host guest).getD ctx)

/-- `emuroot_unbind`: drop the latest binding of `guest`. -/
def emurootUnbind (ctx : Ctx) (guest : CStr) : Ctx :=
  { ctx with bindings := (ctx.bindings.reverse.eraseP fun b => b.guest == guest).reverse }

end Emuroot
