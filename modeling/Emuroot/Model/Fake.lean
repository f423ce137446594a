import Emuroot.Model.PathArg

/-!
# Syscall exit (`fake.c`)

The handlers note in `St.log` which guest memory they access.
-/

namespace Emuroot

variable {w : Nat} {σ : Type} (P : Platform w σ)

def St.guestRead (s : St w σ) (addr : Word w) (len : Nat) : List Byte × St w σ :=
  (Emuroot.guestRead s.mem addr len, { s with log := s.log ++ [.read addr len] })

def St.guestReadStr (s : St w σ) (addr : Word w) (size : Nat) : Option CStr × St w σ :=
  (Emuroot.guestReadStr s.mem addr size, { s with log := s.log ++ [.readStr addr size] })

def St.guestWrite (s : St w σ) (addr : Word w) (data : List Byte) : Bool × St w σ :=
  let (mem, ok) := Emuroot.guestWrite s.mem addr data
  (ok, { s with mem := mem, log := s.log ++ [.write addr data.length] })

/-! ## File owners -/

/-- glibc's `makedev()` -/
def makedev (major minor : UInt32) : UInt64 :=
  ((major &&& ~~~0xfff).toUInt64 <<< 32) ||| ((major &&& 0xfff) <<< 8).toUInt64 |||
    ((minor &&& ~~~0xff).toUInt64 <<< 12) ||| (minor &&& 0xff).toUInt64

/-- `struct statx`: `stx_uid`, `stx_gid`, `stx_ino`, then `stx_dev_major` / `stx_dev_minor`. -/
def statxLayout : StatLayout where
  uid := 20
  gid := 24
  dev := 136
  ino := 32
  statx := true
  apart := by decide
  fits := by decide

/-- An offset into a buffer. -/
def offset (buf : Word w) (off : Nat) : Word w := buf + BitVec.ofNat w off

/-- A 32-bit field of a buffer; `none` if it cannot be read. -/
def readU32 (s : St w σ) (addr : Word w) : Option UInt32 × St w σ :=
  let (got, s) := s.guestRead addr 4
  (if got.length = 4 then some (UInt32.ofNat (ofBytes P.arch.bigEndian got)) else none, s)

def bytesU32 (v : UInt32) : List Byte := toBytes P.arch.bigEndian 4 v.toNat

/-- The device of the file, from where the layout has it. -/
def readDev (s : St w σ) (buf : Word w) (l : StatLayout) : Option UInt64 × St w σ :=
  if l.statx then
    let (major, s) := readU32 P s (offset buf l.dev)
    match major with
    | none => (none, s)
    | some major =>
      let (minor, s) := readU32 P s (offset buf (l.dev + 4))
      (minor.map (makedev major), s)
  else
    let (got, s) := s.guestRead (offset buf l.dev) 8
    (if got.length < 4 then none
      else some (UInt64.ofNat
        (ofBytes P.arch.bigEndian (got ++ List.replicate (8 - got.length) 0))), s)

/-- The writes of `fake_owner`, for a file with real owner `ids`. -/
def writeOwner (s : St w σ) (buf : Word w) (l : StatLayout) (ids : Owner) (key : FileKey) : St w σ :=
  match ownerLookup s.ctx.owners key with
  | some o =>
    let (_, s) := s.guestWrite (offset buf l.uid) (bytesU32 P o.uid)
    (s.guestWrite (offset buf l.gid) (bytesU32 P o.gid)).2
  | none =>
    let s :=
      if ids.uid = P.geteuid then (s.guestWrite (offset buf l.uid) (bytesU32 P s.ctx.fakeUid)).2
      else s
    if ids.gid = P.getegid then (s.guestWrite (offset buf l.gid) (bytesU32 P s.ctx.fakeGid)).2
    else s

/-- `fake_owner` -/
def fakeOwner (s : St w σ) (buf : Word w) (l : StatLayout) : St w σ :=
  if buf = 0 then s
  else
    let (uid, s) := readU32 P s (offset buf l.uid)
    match uid with
    | none => s
    | some uid =>
      let (gid, s) := readU32 P s (offset buf l.gid)
      match gid with
      | none => s
      | some gid =>
        let (ino, s) := s.guestRead (offset buf l.ino) 8
        if ino.length ≠ 8 then s
        else
          let (dev, s) := readDev P s buf l
          match dev with
          | none => s
          | some dev =>
            writeOwner P s buf l ⟨uid, gid⟩
              ⟨dev, UInt64.ofNat (ofBytes P.arch.bigEndian ino)⟩

/-! ## Paths reported to the guest -/

/-- `map_proc_link` -/
def mapProcLink (s : St w σ) (len : Nat) : St w σ :=
  -- readlinkat(dirfd, path, buf, size)
  let isAt := P.nr.is .readlinkat s.t.sysno
  let buf := s.t.args (if isAt then 2 else 1)
  let size := s.t.args (if isAt then 3 else 2)
  if len ≥ pathLen then s
  else
    let (got, s) := s.guestRead buf len
    if got.length ≠ len then s
    else
      let answer :=
        if s.t.procLinkExe ∧ s.t.exe ≠ [] then some s.t.exe
        else hostToGuest s.ctx s.t.root (cStrOf got) pathLen
      match answer with
      | none => s
      | some answer =>
        let n := min answer.length size.toNat
        let (ok, s) := s.guestWrite buf (answer.take n)
        if ok then s.setRet P n else s

/-- The exit of getcwd, with its buffer at `buf`. -/
def exitGetcwd (s : St w σ) (buf : Word w) (ret : Int) : St w σ :=
  if ret ≤ 0 then s
  else
    let (cwd, s) := s.guestReadStr buf pathLen
    match cwd with
    | none => s
    | some cwd =>
      match hostToGuest s.ctx s.t.root cwd pathLen with
      | none => s
      | some guest =>
        let (ok, s) := s.guestWrite buf (guest ++ [0])
        if ok then s.setRet P (guest.length + 1) else s

/-- The size of a field of `struct utsname`, and of the whole. -/
def utsField : Nat := 65
def sizeofUtsname : Nat := 6 * utsField

/-- `snprintf` into field `i` of a `struct utsname`. -/
def putUtsField (u : List Byte) (i : Nat) (s : CStr) : List Byte :=
  let text := snprintf utsField s ++ [0]
  u.take (i * utsField) ++ text ++ u.drop (i * utsField + text.length)

/-- The exit of uname, with its buffer at `buf`. -/
def exitUname (s : St w σ) (buf : Word w) (ret : Int) : St w σ :=
  if !s.ctx.hasFakeUname ∨ ret ≠ 0 then s
  else
    let (u, s) := s.guestRead buf sizeofUtsname
    if u.length ≠ sizeofUtsname then s
    else
      let u := putUtsField u 0 s.ctx.unameSysname
      let u := putUtsField u 2 s.ctx.unameRelease
      let u := putUtsField u 4 s.ctx.unameMachine
      (s.guestWrite buf u).2

/-! ## The fake credentials -/

/-- The ids written one by one to the buffers of getres*id. -/
def writeIds (s : St w σ) (ids : Ids) : St w σ :=
  let (_, s) := s.guestWrite (s.t.args 0) (bytesU32 P ids.real)
  let (_, s) := s.guestWrite (s.t.args 1) (bytesU32 P ids.effective)
  (s.guestWrite (s.t.args 2) (bytesU32 P ids.saved)).2

/-- A credential change, with its result. -/
def St.changeCreds (s : St w σ) (r : Creds × Int) : St w σ × Int :=
  ({ s with t := { s.t with creds := r.1 } }, r.2)

/-- The exit of getgroups. -/
def exitGetgroups (s : St w σ) : St w σ × Int :=
  let groups := s.t.creds.groups
  if s.t.args 0 ≠ 0 ∧ (s.t.args 0).toInt < groups.length then (s, -EINVAL)
  else if s.t.args 0 ≠ 0 then
    ((s.guestWrite (s.t.args 1) (groups.flatMap (bytesU32 P))).2, groups.length)
  else (s, groups.length)

/-- The 32-bit numbers that the bytes are. -/
def numbersU32 (big : Bool) (n : Nat) (bs : List Byte) : List UInt32 :=
  (List.range n).map fun i => UInt32.ofNat (ofBytes big ((bs.drop (4 * i)).take 4))

/-- The exit of setgroups. -/
def exitSetgroups (s : St w σ) : St w σ × Int :=
  let n := (s.t.args 0).toInt
  if n > 0 ∧ n ≤ credsMaxGroups then
    let (got, s) := s.guestRead (s.t.args 1) (n.toNat * 4)
    if got.length ≠ n.toNat * 4 then (s, -14)   -- EFAULT
    else s.changeCreds (credsSetgroups s.t.creds (numbersU32 P.arch.bigEndian n.toNat got) n)
  else s.changeCreds (credsSetgroups s.t.creds [] n)

/-- The exit of the chown family: "root" may give files away; remember to whom. -/
def exitChown (s : St w σ) (ret : Int) : St w σ × Int :=
  let refused := ret = -EPERM ∨ ret = -EINVAL
  let s :=
    match s.t.chown with
    | none => s
    | some c =>
      if ret = 0 ∨ refused then
        let o : Owner :=
          { uid := if c.new.uid ≠ noid then c.new.uid else c.cur.uid
            gid := if c.new.gid ≠ noid then c.new.gid else c.cur.gid }
        { s with ctx := { s.ctx with owners := ownerSet (P.calloc s.fs) s.ctx.owners c.key o } }
      else s
  (s, if refused then 0 else ret)

/-- The calls whose result is patched while there are fake ids, with what the guest will see. -/
def emulateResult (s : St w σ) (a : Action) (ret : Int) : St w σ × Int :=
  let c := s.t.creds
  let id (i : Fin 6) : UInt32 := UInt32.ofNat (s.t.args i).toNat
  match a with
  | .getuid => (s, c.uid.real.toNat)
  | .geteuid => (s, c.uid.effective.toNat)
  | .getgid => (s, c.gid.real.toNat)
  | .getegid => (s, c.gid.effective.toNat)
  | .getresuid => (writeIds P s c.uid, 0)
  | .getresgid => (writeIds P s c.gid, 0)
  | .getgroups => exitGetgroups P s
  | .setuid => s.changeCreds (credsSetuid c (id 0))
  | .setgid => s.changeCreds (credsSetgid c (id 0))
  | .setreuid => s.changeCreds (credsSetreuid c (id 0) (id 1))
  | .setregid => s.changeCreds (credsSetregid c (id 0) (id 1))
  | .setresuid => s.changeCreds (credsSetresuid c (id 0) (id 1) (id 2))
  | .setresgid => s.changeCreds (credsSetresgid c (id 0) (id 1) (id 2))
  | .setfsuid => s.changeCreds (credsSetfsuid c (id 0))
  | .setfsgid => s.changeCreds (credsSetfsgid c (id 0))
  | .setgroups => exitSetgroups P s
  | .chown => exitChown P s ret
  | .stat2 => (if ret = 0 then fakeOwner P s (s.t.args 1) P.statLayout else s, ret)
  | .stat3 => (if ret = 0 then fakeOwner P s (s.t.args 2) P.statLayout else s, ret)
  | .statx => (if ret = 0 then fakeOwner P s (s.t.args 4) statxLayout else s, ret)
  | _ => (s, ret)

/-! ## The exit of a call -/

/-- A file the call may just have made. -/
def commitCreated (s : St w σ) (ret : Int) : St w σ :=
  if s.t.created = [] then s
  else
    let owners :=
      match if ret ≥ 0 then P.lstat s.fs s.t.created else none with
      | some st =>
        ownerSet (P.calloc s.fs) s.ctx.owners st.key ⟨s.t.creds.fsuid, s.t.creds.fsgid⟩
      | none => s.ctx.owners
    { s with ctx := { s.ctx with owners := owners }, t := { s.t with created := [] } }

/-- What `emuroot_on_exit` does for an action; the buffer of getcwd and uname is at `buf`. -/
def exitAction (s : St w σ) (buf : Word w) (a : Action) (ret : Int) : St w σ :=
  if a = .getcwd then exitGetcwd P s buf ret
  else if a = .execve then
    -- the new image is running now
    if ret = 0 then { s with t := { s.t with exe := s.t.pendingExe } } else s
  else if a = .chroot ∧ s.t.pendingRoot ≠ [] then
    { s with t := { s.t with root := s.t.pendingRoot, pendingRoot := [] } }.setRet P 0
  else if (a = .mount ∨ a = .umount) ∧ s.t.mountHandled then s.setRet P 0
  else if a = .readlink then
    if !s.t.procLink ∨ ret ≤ 0 then s else mapProcLink P s ret.toNat
  else if a = .uname then exitUname s buf ret
  else if !s.ctx.hasFakeIds then s
  else
    let (s, result) := emulateResult P s a ret
    if result ≠ ret then s.setRet P result else s

/-- The body of `emuroot_on_exit`, with `buf` for the uses of `EMU_ARG1(*regs)`. -/
def onExitAt (s : St w σ) (buf : Word w) : St w σ :=
  let ret := (s.regs P.arch.ret).toInt
  let s := commitCreated P s ret
  match P.actionOf s.t.sysno with
  | none => s
  | some a => exitAction P s buf a ret

/-- `emuroot_on_exit` -/
def onExit (s : St w σ) : St w σ := onExitAt P s (s.arg P 1)

end Emuroot
