import Emuroot.Model.PathArg

/-!
# chroot, mount and umount of a fake root (`mounts.c`)
-/

namespace Emuroot

variable {w : Nat} {σ : Type} (P : Platform w σ)

def MS_REMOUNT : Nat := 32
def MS_BIND : Nat := 4096
def MS_MOVE : Nat := 8192

/-- `neutralize`: the kernel is handed a NULL or `"/"` argument. -/
def neutralize (s : St w σ) (slot : Nat) (toRoot : Bool) : St w σ :=
  if toRoot then
    let (addr, s) := scratch s 2
    if addr = 0 then s.setArg P slot 0
    else
      let (mem, ok) := guestWrite s.mem addr [slash, 0]
      { s with mem := mem }.setArg P slot (if ok then addr else 0)
  else s.setArg P slot 0

def S_IFMT : Nat := 0o170000
def S_IFDIR : Nat := 0o040000

/-- `S_ISDIR` -/
def isDir (mode : Nat) : Bool := mode &&& S_IFMT == S_IFDIR

/-- `guest_dir_exists` -/
def guestDirExists (s : St w σ) (host : CStr) : Bool := (P.stat s.fs host).any (isDir ·.mode)

/-- `realpath(host, canon) ? canon : host` -/
def canonical (s : St w σ) (host : CStr) : CStr := (P.realpath s.fs host).getD host

/-- `emulate_chroot` -/
def emulateChroot (s : St w σ) (sysno : Int) (d : Option PathSyscall) : St w σ :=
  match d with
  | none => s
  | some d =>
    match hostPathArg P s sysno d.slot1 true with
    | none => s
    | some host =>
      if !guestDirExists P s host then s
      else
        neutralize P { s with t := { s.t with pendingRoot := snprintf pathLen (canonical P s host) } }
          d.slot1 true

/-- What a mount with `flags` shows at its target, if it is one that becomes a binding. -/
def mountSource (s : St w σ) (sysno : Int) : Option CStr :=
  let flags := s.arg P 4
  if flag flags (MS_REMOUNT ||| MS_MOVE) then none
  else if flag flags MS_BIND then hostPathArg P s sysno 1 true
  else if s.arg P 3 = 0 then none
  else
    match guestReadStr s.mem (s.arg P 3) 64 with
    | none => none
    | some fstype =>
      if fstype = cstr "proc" then some (cstr "/proc")
      else if fstype = cstr "sysfs" then some (cstr "/sys")
      else if fstype = cstr "devtmpfs" then some (cstr "/dev")
      else if fstype = cstr "devpts" then some (cstr "/dev/pts")
      else none

/-- Bind `host` at the guest path, attached at the host path of the target. -/
def bindAt (ctx : Ctx) (host guestTarget hostTarget : CStr) : Ctx :=
  match emurootBind ctx host guestTarget with
  | none => ctx
  | some _ =>
    { ctx with bindings := ctx.bindings ++ [⟨host, guestTarget, snprintf pathLen hostTarget⟩] }

/-- `emulate_mount` -/
def emulateMount (s : St w σ) (sysno : Int) : St w σ :=
  match guestPathArg P s sysno 2 with
  | none => s
  | some (guestTarget, hostTarget) =>
    let ctx := match mountSource P s sysno with
      | none => s.ctx
      | some host => bindAt s.ctx (canonical P s host) guestTarget hostTarget
    neutralize P { s with ctx := ctx, t := { s.t with mountHandled := true } } 2 false

/-- `emulate_umount` -/
def emulateUmount (s : St w σ) (sysno : Int) : St w σ :=
  match guestPathArg P s sysno 1 with
  | none => s
  | some (guestTarget, _) =>
    neutralize P
      { s with ctx := emurootUnbind s.ctx guestTarget, t := { s.t with mountHandled := true } } 1 false

/-- `emuroot_emulate_mounts`, with whether the call was emulated. -/
def emulateMounts (s : St w σ) (sysno : Int) (a : Option Action) : St w σ × Bool :=
  -- only a root may do these
  if s.t.creds.uid.effective ≠ 0 then (s, false)
  else
    match a with
    | some .chroot =>
      let s := emulateChroot P s sysno (findPathSyscall P.nr sysno)
      (s, !s.t.pendingRoot.isEmpty)
    | some .mount => (emulateMount P s sysno, true)
    | some .umount => (emulateUmount P s sysno, true)
    | _ => (s, false)

end Emuroot
