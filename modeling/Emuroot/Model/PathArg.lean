import Emuroot.Model.Tracee

/-!
# Path arguments (`rewrite.c`, the part shared by the entry handlers)
-/

namespace Emuroot

variable {w : Nat} {σ : Type} (P : Platform w σ)

def O_CREAT : Nat := 0o100
def O_EXCL : Nat := 0o200
def AT_SYMLINK_NOFOLLOW : Nat := 0x100
def AT_SYMLINK_FOLLOW : Nat := 0x400
def AT_FDCWD : Int := -100

/-- `emuroot_scratch`; 0 is no room. -/
def scratch (s : St w σ) (len : Nat) : Word w × St w σ :=
  let addr := (s.t.scratchTop - BitVec.ofNat w len) &&& ~~~(BitVec.ofNat w 0xF)
  if addr > s.t.scratchTop then (0, s)
  else (addr, { s with t := { s.t with scratchTop := addr } })

/-- `emuroot_follow_last` -/
def followLast (s : St w σ) (d : PathSyscall) : Bool :=
  let flags := if d.flagSlot ≠ 0 then s.arg P d.flagSlot else 0
  match d.mode with
  | .follow => true
  | .noFollow => false
  | .open => !flag flags P.oNofollow && flags.toNat &&& (O_CREAT ||| O_EXCL) != O_CREAT ||| O_EXCL
  | .at => !flag flags AT_SYMLINK_NOFOLLOW
  | .linkat => flag flags AT_SYMLINK_FOLLOW
  | .openat2 => readNat P.arch.bigEndian s.mem flags 8 &&& P.oNofollow == 0

/-- `dirfd_slot`: the slot of the directory of an *at() call's path in `slot`, or 0. -/
def dirfdSlot (N : Numbers) (sysno : Int) (slot : Nat) : Nat :=
  if slot < 2 then 0
  else if N.is .symlink sysno then 0
  else if N.is .inotify_add_watch sysno then 0
  else slot - 1

/-- The `/proc` link to the directory that relative paths start from. -/
def baseLink (pid : Nat) (fd : Int) : CStr :=
  if fd = AT_FDCWD then snprintf 64 (cstr "/proc/" ++ decimal pid ++ cstr "/cwd")
  else snprintf 64 (cstr "/proc/" ++ decimal pid ++ cstr "/fd/" ++ decimal fd)

/-- `absolute_guest_path`; `none` if the base lies outside the emulated name space. -/
def absoluteGuestPath (s : St w σ) (fdSlot : Nat) (path : CStr) (size : Nat) : Option CStr :=
  if path.head? = some slash then some (snprintf size path)
  else
    let fd := if fdSlot ≠ 0 then ((s.arg P fdSlot).setWidth 32).toInt else AT_FDCWD
    match P.readlinkBuf s.fs (baseLink s.t.pid fd) with
    | none => none
    | some base =>
      if base = [] then none
      else
        match hostToGuest s.ctx s.t.root base pathLen with
        | none => none
        | some guestBase => some (snprintf size (unlessRoot guestBase ++ slash :: path))

/-- `strict_openat2` -/
def strictOpenat2 (s : St w σ) (sysno : Int) (slot : Nat) : Bool :=
  P.nr.is .openat2 sysno && slot == 2 &&
    -- how[2], the third of three 64-bit words
    let got := guestRead s.mem (s.arg P 3) 24
    ofBytes P.arch.bigEndian ((got ++ List.replicate (24 - got.length) 0).drop 16) != 0

/-- `is_readlink` -/
def isReadlink (N : Numbers) (sysno : Int) : Bool := N.is .readlink sysno || N.is .readlinkat sysno

/-- The non-empty string that argument `slot` points to. -/
def givenPath (s : St w σ) (slot : Nat) : Option CStr :=
  if s.arg P slot = 0 then none
  else (guestReadStr s.mem (s.arg P slot) pathLen).filter (· ≠ [])

/-- `emuroot_host_path_arg` -/
def hostPathArg (s : St w σ) (sysno : Int) (slot : Nat) (follow : Bool) : Option CStr :=
  match givenPath P s slot with
  | none => none
  | some given =>
    match absoluteGuestPath P s (dirfdSlot P.nr sysno slot) given (2 * pathLen) with
    | none => some (snprintf pathLen given)
    | some guest => some (translatePath (s.walkEnv P follow) guest pathLen).out

/-- `emuroot_guest_path_arg`: the guest path with its symlinks resolved, and the host path. -/
def guestPathArg (s : St w σ) (sysno : Int) (slot : Nat) : Option (CStr × CStr) :=
  match givenPath P s slot with
  | none => none
  | some given =>
    match absoluteGuestPath P s (dirfdSlot P.nr sysno slot) given (2 * pathLen) with
    | none => none
    | some guest =>
      let r := translatePathEx (s.walkEnv P true) guest pathLen pathLen
      some (r.guestOut, r.out)

end Emuroot
