import Emuroot.Model.Dac
import Emuroot.Model.Exec
import Emuroot.Model.Identity

/-!
# Syscall entry (`rewrite.c`)
-/

namespace Emuroot

variable {w : Nat} {σ : Type} (P : Platform w σ)

/-- `fail_closed` -/
def failClosed (s : St w σ) (slot : Nat) : St w σ := s.setArg P slot 0

/-- The `proc_link` fields for a readlink of a path under `/proc`. -/
def noteProcLink (t : Tracee w) (guest : CStr) : Tracee w :=
  { t with procLink := true, procLinkExe := (cstr "/exe").isSuffixOf guest }

/-- Put a copy of the host path in the guest and point the argument at it. -/
def repoint (s : St w σ) (slot : Nat) (host : CStr) : St w σ :=
  let (addr, s) := scratch s (host.length + 1)
  if addr = 0 then failClosed P s slot
  else
    let (mem, ok) := guestWrite s.mem addr (host ++ [0])
    let s := { s with mem := mem }
    if ok then s.setArg P slot addr else failClosed P s slot

/-- `rewrite_path_arg` -/
def rewritePathArg (s : St w σ) (sysno : Int) (slot : Nat) (follow : Bool) (which : Nat) : St w σ :=
  if slot = 0 ∨ unmapped s.ctx s.t.root ∨ s.arg P slot = 0 then s
  else
    match guestReadStr s.mem (s.arg P slot) pathLen with
    -- can't see the path: don't let it through; a bad pointer the kernel will report
    | none => if s.mem.errno ≠ EFAULT then failClosed P s slot else s
    | some given =>
      if given = [] then s
      else if given.head? ≠ some slash ∧ strictOpenat2 P s sysno slot then s
      else
        match absoluteGuestPath P s (dirfdSlot P.nr sysno slot) given (2 * pathLen) with
        | none => s
        | some guest =>
          let s :=
            if underProc guest && which == 0 && isReadlink P.nr sysno then
              { s with t := noteProcLink s.t guest }
            else s
          let r := translatePath (s.walkEnv P follow) guest pathLen
          let s :=
            if s.ctx.hasFakeIds ∧ s.t.creds.uid.effective = 0 then grantAccess P s sysno which r.out
            else s
          if r.differs then repoint P s slot r.out else s

/-- `sizeof(struct sockaddr_un)`, and where `sun_path` starts -/
def sizeofSun : Nat := 110
def sunPathAt : Nat := 2

/-- `AF_UNIX` -/
def AF_UNIX : Nat := 1

/-- `rewrite_sockaddr` -/
def rewriteSockaddr (s : St w σ) (addrSlot lenSlot : Nat) : St w σ :=
  let len := min (s.arg P lenSlot).toNat sizeofSun
  let got := guestRead s.mem (s.arg P addrSlot) len
  let sun := got ++ List.replicate (sizeofSun - len) 0
  let sunPath := sun.drop sunPathAt
  if s.arg P addrSlot = 0 ∨ len ≤ sunPathAt ∨ got.length ≠ len ∨
      ofBytes P.arch.bigEndian (sun.take sunPathAt) ≠ AF_UNIX ∨ sunPath.head? ≠ some slash then s
  else
    let guest := snprintf pathLen (cStrOf sunPath)
    let r := translatePath (s.walkEnv P true) guest pathLen
    if !r.differs ∨ r.out.length ≥ sizeofSun - sunPathAt then s
    else
      let sun := sun.take sunPathAt ++ r.out ++
        List.replicate (sizeofSun - sunPathAt - r.out.length) 0
      let (addr, s) := scratch s sizeofSun
      if addr = 0 then failClosed P s addrSlot
      else
        let (mem, ok) := guestWrite s.mem addr sun
        let s := { s with mem := mem }
        if ok then
          (s.setArg P addrSlot addr).setArg P lenSlot
            (BitVec.ofNat w (sunPathAt + r.out.length + 1))
        else failClosed P s addrSlot

/-- `SCRATCH_MARGIN` -/
def scratchMargin : Nat := 512

/-- The assignments at the start of `emuroot_on_entry`. -/
def resetCall (s : St w σ) : St w σ :=
  { s with
    t := { s.t with
      sysno := (s.regs P.arch.sysno).toInt
      scratchTop := (s.regs P.arch.sp - BitVec.ofNat w scratchMargin) &&& ~~~(BitVec.ofNat w 0xF)
      procLink := false
      procLinkExe := false
      pendingExe := []
      chown := none
      created := []
      pendingRoot := []
      mountHandled := false
      args := fun i => s.arg P (i + 1) } }

/-- The path arguments that the table lists for the call. -/
def rewriteTable (s : St w σ) (sysno : Int) (d : PathSyscall) : St w σ :=
  let s := noteCreation P s sysno d
  let s := rewritePathArg P s sysno d.slot1 (followLast P s d) 0
  rewritePathArg P s sysno d.slot2 false 1

/-- The path side of `emuroot_on_entry`, after execve. -/
def rewritePaths (s : St w σ) (sysno : Int) : St w σ :=
  if P.nr.is .bind sysno then rewriteSockaddr P s 2 3
  else if P.nr.is .connect sysno then rewriteSockaddr P s 2 3
  else if P.nr.is .sendto sysno then rewriteSockaddr P s 5 6
  else
    match findPathSyscall P.nr sysno with
    | some d => rewriteTable P s sysno d
    | none =>
      -- exec.c declined: plain path
      let s := if P.nr.is .execve sysno then rewritePathArg P s sysno 1 true 0 else s
      if P.nr.is .execveat sysno then rewritePathArg P s sysno 2 true 0 else s

/-- The identity side of `emuroot_on_entry`, with whether the call was emulated. -/
def emulateEntry (s : St w σ) (sysno : Int) : St w σ × Bool :=
  if s.ctx.hasFakeIds then
    emulateMounts P (identityEntry P s sysno (P.actionOf sysno)) sysno (P.actionOf sysno)
  else (s, false)

/-- `emuroot_on_entry` -/
def onEntry (s : St w σ) : St w σ :=
  let s := resetCall P s
  let sysno := s.t.sysno
  let (s, handled) := emulateEntry P s sysno
  if handled then s
  else
    let (s, r) := if P.nr.is .execve sysno then rewriteExec P s 1 2 else (s, 0)
    if r ≠ 0 then s else rewritePaths P s sysno

end Emuroot
