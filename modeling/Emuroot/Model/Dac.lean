import Emuroot.Model.Mounts

/-!
# Owner permission bits for the fake root (`dac.c`)
-/

namespace Emuroot

variable {w : Nat} {σ : Type} (P : Platform w σ)

def O_ACCMODE : Nat := 3
def O_WRONLY : Nat := 1
def O_TRUNC : Nat := 0o1000

/-- `enum dac` -/
inductive Dac
  | none | parentW | read | rw
  deriving DecidableEq, Repr

/-- The label `open_like` of `dac_for`. -/
def openLike (flags : Word w) : Dac :=
  if flag flags O_CREAT then .parentW
  else if flags.toNat &&& O_ACCMODE != 0 || flag flags O_TRUNC then .rw
  else .read

/-- `dac_for` -/
def dacFor (s : St w σ) (sysno : Int) (which : Nat) : Dac :=
  let is (l : List Sys) : Bool := l.any (P.nr.is · sysno)
  if which = 0 then
    if is [.open] then openLike (s.arg P 2)
    else if is [.openat] then openLike (s.arg P 3)
    else if is [.openat2] then .read
    else if is [.creat] then .parentW
    else if is [.truncate, .truncate64] then .rw
    else if is [.mkdir, .mkdirat, .mknod, .mknodat, .symlink, .symlinkat, .unlink, .unlinkat,
        .rmdir, .rename, .renameat, .renameat2] then .parentW
    else .none
  else if is [.rename, .renameat, .renameat2, .link, .linkat] then .parentW
  else .none

/-- `grant_owner` -/
def grantOwner (fs : σ) (path : CStr) (bits : Nat) : σ :=
  match P.stat fs path with
  | none => fs
  | some st =>
    if st.uid ≠ P.geteuid then fs
    else if st.mode &&& bits ≠ bits then P.chmod fs path (st.mode ||| bits)
    else fs

/-- `ensure_dac` -/
def ensureDac (fs : σ) (host : CStr) (need : Dac) : σ :=
  if need = .none ∨ P.geteuid = 0 then fs
  else if need = .parentW then
    let dir := snprintf pathLen host
    match strrchr dir slash with
    | none => fs
    -- the parent must be writable and searchable
    | some i => grantOwner P fs (if i = 0 then dir.take 1 else dir.take i) 0o300
  else
    let bits := if need = .rw then 0o600 else 0o400
    let bits := if (P.stat fs host).any (isDir ·.mode) then bits ||| 0o100 else bits
    grantOwner P fs host bits

/-- `emuroot_grant_access` -/
def grantAccess (s : St w σ) (sysno : Int) (which : Nat) (host : CStr) : St w σ :=
  { s with fs := ensureDac P s.fs host (dacFor P s sysno which) }

end Emuroot
