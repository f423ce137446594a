import Emuroot.Model.PathArg

/-!
# Credential changes, chowns and file creations at entry (`identity.c`)
-/

namespace Emuroot

variable {w : Nat} {σ : Type} (P : Platform w σ)

/-- `neutralize_id_change` -/
def neutralizeIdChange (s : St w σ) (a : Option Action) : St w σ :=
  -- `const unsigned long none = (unsigned int)-1`
  let none : Word w := BitVec.ofNat w 0xffffffff
  match a with
  | some .setuid => s.setArg P 1 (BitVec.ofNat w P.geteuid.toNat)
  | some .setgid => s.setArg P 1 (BitVec.ofNat w P.getegid.toNat)
  | some .setreuid | some .setregid => (s.setArg P 2 none).setArg P 1 none
  | some .setresuid | some .setresgid => ((s.setArg P 3 none).setArg P 2 none).setArg P 1 none
  | some .setfsuid | some .setfsgid => s.setArg P 1 none
  | _ => s

/-- The low 32 bits of an argument. -/
def id32 (v : Word w) : UInt32 := UInt32.ofNat v.toNat

/-- The owner the guest saw before any chown. -/
def shownOwner (ctx : Ctx) (st : Stat) : Owner where
  uid := if st.uid = P.geteuid then ctx.fakeUid else st.uid
  gid := if st.gid = P.getegid then ctx.fakeGid else st.gid

/-- The `stat` that `note_chown` makes of the file the call names. -/
def chownStat (s : St w σ) (sysno : Int) (d : Option PathSyscall) : Option Stat :=
  let fdStat := P.stat s.fs
    (snprintf 64 (cstr "/proc/" ++ decimal s.t.pid ++ cstr "/fd/" ++
      decimal ((s.arg P 1).setWidth 32).toInt))
  match d with
  | none => fdStat
  | some d =>
    let follow := followLast P s d
    match hostPathArg P s sysno d.slot1 follow with
    | some host => if follow then P.stat s.fs host else P.lstat s.fs host
    -- fchownat(fd, "", ..., AT_EMPTY_PATH)
    | none => fdStat

/-- `note_chown` -/
def noteChown (s : St w σ) (sysno : Int) (d : Option PathSyscall) : St w σ :=
  let uidArg := if P.nr.is .fchownat sysno then 3 else 2
  match chownStat P s sysno d with
  | none => s
  | some st =>
    let note : Chown :=
      { key := st.key
        cur := (ownerLookup s.ctx.owners st.key).getD (shownOwner P s.ctx st)
        new := ⟨id32 (s.arg P uidArg), id32 (s.arg P (uidArg + 1))⟩ }
    { s with t := { s.t with chown := some note } }

/-- `creates_file` -/
def createsFile (s : St w σ) (sysno : Int) : Bool :=
  if P.nr.is .open sysno then flag (s.arg P 2) O_CREAT
  else if P.nr.is .openat sysno then flag (s.arg P 3) O_CREAT
  else [Sys.creat, .mkdir, .mkdirat, .mknod, .mknodat, .symlink, .symlinkat].any (P.nr.is · sysno)

/-- `emuroot_note_creation` -/
def noteCreation (s : St w σ) (sysno : Int) (d : PathSyscall) : St w σ :=
  if !s.ctx.hasFakeIds || (s.t.creds.fsuid == s.ctx.fakeUid && s.t.creds.fsgid == s.ctx.fakeGid) then s
  else if !createsFile P s sysno then s
  else
    match hostPathArg P s sysno d.slot1 false with
    | some host =>
      { s with t := { s.t with created := if (P.lstat s.fs host).isNone then host else [] } }
    | none => { s with t := { s.t with created := [] } }

/-- `emuroot_identity_entry` -/
def identityEntry (s : St w σ) (sysno : Int) (a : Option Action) : St w σ :=
  let s := neutralizeIdChange P s a
  if a = some .chown then noteChown P s sysno (findPathSyscall P.nr sysno) else s

end Emuroot
