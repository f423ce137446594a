import Emuroot.Model.Creds
import Emuroot.Model.Guest
import Emuroot.Model.Path
import Emuroot.Model.Syscalls

/-!
# A traced process and its surroundings (`tracee.h`)

The handlers are functions on `St`: the tracee's record, its registers and memory, the session
context and the host. `Platform` is what they ask of the system: the register layout, the call
numbers and the kernel's answers about a host in state `σ`.
-/

namespace Emuroot

/-- The part of `struct stat` that is looked at. -/
structure Stat where
  dev : UInt64
  ino : UInt64
  uid : UInt32
  gid : UInt32
  mode : Nat
  deriving DecidableEq, Repr

def Stat.key (st : Stat) : FileKey := ⟨st.dev, st.ino⟩

/-- `struct stat_layout`; the two ids are separate fields of a struct. -/
structure StatLayout where
  uid : Nat
  gid : Nat
  dev : Nat
  ino : Nat
  statx : Bool
  apart : uid + 4 ≤ gid ∨ gid + 4 ≤ uid
  fits : uid + 4 ≤ 2 ^ 32 ∧ gid + 4 ≤ 2 ^ 32

/-- What the engine asks of the system it runs on. -/
structure Platform (w : Nat) (σ : Type) where
  arch : Arch w
  nr : Numbers
  /-- `stat_layout`: where `KSTAT` has the fields -/
  statLayout : StatLayout
  /-- `O_NOFOLLOW` -/
  oNofollow : Nat
  /-- the bits of `off_t` -/
  offBits : Nat
  /-- a link's text -/
  readlink : σ → CStr → Option CStr
  stat : σ → CStr → Option Stat
  lstat : σ → CStr → Option Stat
  realpath : σ → CStr → Option CStr
  /-- the bytes of a file that can be opened for reading -/
  content : σ → CStr → Option (List Byte)
  chmod : σ → CStr → Nat → σ
  geteuid : UInt32
  getegid : UInt32
  /-- whether `calloc` of so many elements succeeds -/
  calloc : σ → Nat → Bool

/-- A chown in progress: the file, its owner as the guest saw it, and the requested owner. -/
structure Chown where
  key : FileKey
  cur : Owner
  new : Owner
  deriving DecidableEq, Repr

/-- A call has arguments. -/
instance argsNeZero : @NeZero Nat Zero.ofOfNat0 6 := ⟨by decide⟩

/-- `tracee_t`, but for the fields that only the event loop uses; `chown` is `none` where
`chown_valid` is 0. -/
structure Tracee (w : Nat) where
  pid : Nat
  root : CStr
  sysno : Int
  args : Fin 6 → Word w
  creds : Creds
  scratchTop : Word w
  exe : CStr
  pendingExe : CStr
  chown : Option Chown
  created : CStr
  pendingRoot : CStr
  mountHandled : Bool
  procLink : Bool
  procLinkExe : Bool

/-- An access to the guest's memory. -/
inductive Access (w : Nat)
  | read (addr : Word w) (len : Nat)
  | readStr (addr : Word w) (size : Nat)
  | write (addr : Word w) (len : Nat)
  deriving DecidableEq

/-- The state a handler works on. `log` is not in the code: it notes the accesses made to the
guest's memory at the call's exit. -/
structure St (w : Nat) (σ : Type) where
  t : Tracee w
  regs : Regs w
  mem : GuestMem w
  ctx : Ctx
  fs : σ
  log : List (Access w)

variable {w : Nat} {σ : Type}

/-- `__LP64__` -/
def lp64 (w : Nat) : Bool := w == 64

/-- `sizeof(long)` -/
def wordBytes (w : Nat) : Nat := w / 8

/-- `*reg_arg(regs, n)` -/
def St.arg (P : Platform w σ) (s : St w σ) (n : Nat) : Word w := s.regs (P.arch.regArg n)

/-- `*reg_arg(regs, n) = v`, and `regs_set`. -/
def St.setArg (P : Platform w σ) (s : St w σ) (n : Nat) (v : Word w) : St w σ :=
  { s with regs := s.regs.put (P.arch.regArg n) v }

/-- `EMU_RET(*regs) = (unsigned long)v`, and `regs_set`. -/
def St.setRet (P : Platform w σ) (s : St w σ) (v : Int) : St w σ :=
  { s with regs := s.regs.put P.arch.ret (BitVec.ofInt w v) }

def Platform.actionOf (P : Platform w σ) (sysno : Int) : Option Action :=
  Emuroot.actionOf P.nr (lp64 w) sysno

/-- `readlink` into a buffer of `PATH_LEN`, with room for the NUL. -/
def Platform.readlinkBuf (P : Platform w σ) (fs : σ) (path : CStr) : Option CStr :=
  (P.readlink fs path).map (List.take (pathLen - 1))

/-- `v & mask` -/
def flag (v : Word w) (mask : Nat) : Bool := v.toNat &&& mask != 0

/-- The paths of this tracee, as they are looked up now. -/
def St.walkEnv (P : Platform w σ) (s : St w σ) (followLast : Bool) : WalkEnv where
  ctx := s.ctx
  root := s.t.root
  rl := P.readlink s.fs
  followLast := followLast

end Emuroot
