import Emuroot.Model.PathArg

/-!
# execve through the root's own loader (`exec.c`)

Scripts are expanded to their interpreters and dynamic programs to their loader; the new argument
vector is laid out below the guest's stack.
-/

namespace Emuroot

variable {w : Nat} {σ : Type} (P : Platform w σ)

/-- `MAX_EXEC_ARGS` -/
def maxExecArgs : Nat := 8192

/-- `MAX_SHEBANG_DEPTH` -/
def maxShebangDepth : Nat := 5

/-- `earg_t` -/
inductive EArg (w : Nat)
  | str (s : CStr)
  | ptr (p : Word w)
  deriving DecidableEq

/-- `replace_head`, which always drops one entry. -/
def replaceHead (args : List (EArg w)) (strs : List CStr) : List (EArg w) :=
  strs.map .str ++ args.drop 1

def isBlank (c : Byte) : Bool := c == 32 || c == 9

/-- `parse_shebang`: the interpreter and its optional argument. -/
def parseShebang (head : List Byte) : Option (CStr × Option CStr) :=
  if head.length < 3 ∨ head.take 2 ≠ cstr "#!" then none
  else
    let line := cStrOf (((head.drop 2).takeWhile (· != 10)).take 255)
    let p := line.dropWhile isBlank
    if p = [] then none
    else
      let interp := p.takeWhile (!isBlank ·)
      let rest := (p.dropWhile (!isBlank ·)).dropWhile isBlank
      let arg := (rest.reverse.dropWhile fun c => isBlank c || c == 13).reverse
      some (interp, if arg = [] then none else some arg)

/-- `pread` of exactly `len` bytes. -/
def preadExact (file : List Byte) (off len : Nat) : Option (List Byte) :=
  let got := (file.drop off).take len
  if got.length = len then some got else none

/-- The field of `len` bytes at `off` in a struct. -/
def field (big : Bool) (struct : List Byte) (off len : Nat) : Nat :=
  ofBytes big ((struct.drop off).take len)

/-- `pread` of exactly `len` bytes at `(off_t)at`. -/
def preadAt (offBits : Nat) (file : List Byte) (at_ len : Nat) : Option (List Byte) :=
  (offT offBits at_).bind fun off => preadExact file off len

/-- The program headers from number `i` on, `n` of them left, looked through for `PT_INTERP`. -/
def findInterp (offBits : Nat) (big is64 : Bool) (file : List Byte) (phoff phentsize size : Nat) :
    Nat → Nat → Option CStr
  | _, 0 => none
  | i, n + 1 =>
    let at_ := (phoff + i * phentsize) % 2 ^ 64
    match preadAt offBits file at_ (if is64 then 56 else 32) with
    | none => none
    | some ph =>
      let off := if is64 then field big ph 8 8 else field big ph 4 4
      let filesz := if is64 then field big ph 32 8 else field big ph 16 4
      if field big ph 0 4 = 3 then
        if filesz = 0 ∨ filesz ≥ size then none
        else (preadAt offBits file off filesz).map cStrOf
      else findInterp offBits big is64 file phoff phentsize size (i + 1) n

/-- `elf_interp` -/
def elfInterp (offBits : Nat) (big : Bool) (file : List Byte) (size : Nat) : Option CStr :=
  match preadExact file 0 16 with
  | none => none
  | some id =>
    if id.take 4 ≠ [0x7f, 0x45, 0x4c, 0x46] then none
    else if id.drop 5 |>.head? |>.any (· == if big then 2 else 1) then
      match id.drop 4 |>.head? with
      | some 2 =>
        (preadExact file 0 64).bind fun h =>
          findInterp offBits big true file (field big h 32 8) (field big h 54 2) size 0
            (field big h 56 2)
      | some 1 =>
        (preadExact file 0 52).bind fun h =>
          findInterp offBits big false file (field big h 28 4) (field big h 42 2) size 0
            (field big h 44 2)
      | _ => none
    else none

/-- `contains` -/
def contains (hay needle : List Byte) : Bool := hay.tails.any (needle.isPrefixOf ·)

/-- `loader_has_argv0`, with its cache. -/
def loaderHasArgv0 (fs : σ) (cache : List (CStr × Bool)) (hostPath : CStr) :
    Bool × List (CStr × Bool) :=
  match cache.lookup hostPath with
  | some ok => (ok, cache)
  | none =>
    let ok := (P.content fs hostPath).any fun file =>
      contains (file.take (4 * 2 ^ 20)) (cstr "--argv0")
    (ok, if cache.length < 8 then cache ++ [(snprintf pathLen hostPath, ok)] else cache)

/-- The guest's working directory on the host, empty if it cannot be read. -/
def realCwd (s : St w σ) : CStr := (P.readlinkBuf s.fs (baseLink s.t.pid AT_FDCWD)).getD []

/-- `host_path_of` -/
def hostPathOf (s : St w σ) (path : CStr) (size : Nat) : CStr :=
  if path.head? = some slash then (translatePath (s.walkEnv P true) path size).out
  else
    let cwd := realCwd P s
    if cwd.length + path.length + 2 > size then [] else cwd ++ slash :: path

/-- `guest_absolute`. Behind a directory's name of `size - 1` bytes the slash takes the place of the
NUL: all of `out` is then text. -/
def guestAbsolute (s : St w σ) (path : CStr) (size : Nat) : CStr :=
  if path.head? = some slash then snprintf size path
  else
    let cwd := realCwd P s
    let guestCwd :=
      if cwd = [] then [slash] else (hostToGuest s.ctx s.t.root cwd pathLen).getD [slash]
    let len := guestCwd.length
    let sep := if 1 < len ∧ len < size then [slash] else []
    let out := snprintf size guestCwd ++ sep
    if len + sep.length < size then out ++ snprintf (size - (len + sep.length)) path else out

/-- The argument vector as the guest has it. -/
def readArgv (m : GuestMem w) (big : Bool) (addr : Word w) : Nat → List (EArg w)
  | 0 => []
  | n + 1 =>
    let got := guestRead m addr (wordBytes w)
    let p := BitVec.ofNat w (ofBytes big got)
    if got.length ≠ wordBytes w ∨ p = 0 then []
    else .ptr p :: readArgv m big (addr + BitVec.ofNat w (wordBytes w)) n

/-- The variables of the expansion loop, with what it changes of the tracee and the cache. -/
structure ExecState (w : Nat) where
  execPath : CStr
  host : CStr
  args : List (EArg w)
  rewritten : Bool
  pendingExe : CStr
  cache : List (CStr × Bool)

/-- The kernel finds the loader as it is: the same file is at both paths. -/
def loaderAsIs (fs : σ) (interp loaderHost : CStr) : Bool :=
  match P.stat fs interp, P.stat fs loaderHost with
  | some asIs, some inRoot => asIs.key == inRoot.key
  | _, _ => false

/-- `argv[0]` for `--argv0`. -/
def argv0 (s : St w σ) (args : List (EArg w)) : CStr :=
  match args.head? with
  | some (.str a0) => snprintf pathLen a0
  | some (.ptr p) => (guestReadStr s.mem p pathLen).getD []
  | none => []

/-- The expansion loop, for at most so many programs. -/
def expandExec (s : St w σ) : Nat → ExecState w → ExecState w
  | 0, e => e
  | depth + 1, e =>
    let host := hostPathOf P s e.execPath pathLen
    let e := { e with host := host }
    match P.content s.fs host with
    | none => e
    | some file =>
      match parseShebang (file.take 256) with
      | some (interp, arg) =>
        expandExec s depth
          { e with
            args := replaceHead e.args (interp :: (arg.toList ++ [e.execPath]))
            execPath := snprintf pathLen interp
            rewritten := true }
      | none =>
        match elfInterp P.offBits P.arch.bigEndian file pathLen with
        | none => e
        | some interp =>
          let loaderHost := (translatePath (s.walkEnv P true) interp pathLen).out
          if loaderAsIs P s.fs interp loaderHost then e
          else
            let (hasArgv0, cache) := loaderHasArgv0 P s.fs e.cache loaderHost
            let lead := if hasArgv0 then [cstr "--argv0", argv0 s e.args] else []
            { execPath := snprintf pathLen interp
              host := snprintf pathLen loaderHost
              args := replaceHead e.args (interp :: (lead ++ [e.execPath]))
              rewritten := true
              pendingExe := guestAbsolute P s e.execPath pathLen
              cache := cache }

/-- A made-up string with its NUL. -/
def EArg.text : EArg w → List Byte
  | .str s => s ++ [0]
  | .ptr _ => []

/-- The pointers to the entries, with the next made-up string at `off` of the block at `base`. -/
def entryPtrs (base : Word w) : Nat → List (EArg w) → List (Word w)
  | _, [] => []
  | off, .ptr p :: args => p :: entryPtrs base off args
  | off, .str s :: args => (base + BitVec.ofNat w off) :: entryPtrs base (off + s.length + 1) args

/-- The bytes of the block `[path][strings]`, up to where the pointers start. -/
def blockText (host : CStr) (args : List (EArg w)) : List Byte :=
  let text := host ++ [0] ++ args.flatMap EArg.text
  text ++ List.replicate ((16 - text.length % 16) % 16) 0

/-- The block in guest memory at `base`. -/
def execBlock (big : Bool) (base : Word w) (host : CStr) (args : List (EArg w)) : List Byte :=
  blockText host args ++
    (entryPtrs base (host.length + 1) args ++ [0]).flatMap fun p : Word w =>
      toBytes big (wordBytes w) p.toNat

/-- The room asked for the block. -/
def blockRoom (host : CStr) (args : List (EArg w)) : Nat :=
  host.length + 1 + (args.length + 1) * wordBytes w + 32 + (args.flatMap EArg.text).length

/-- Write the block and point the call's path and argument vector at it. -/
def placeBlock (s : St w σ) (pathSlot argvSlot : Nat) (host : CStr) (args : List (EArg w)) :
    St w σ × Int :=
  let room := blockRoom host args
  let (base, s) :=
    if P.calloc s.fs room && P.calloc s.fs (args.length + 1) then scratch s room else (0, s)
  -- needed a rewrite and couldn't: don't run it unredirected
  if base = 0 then (s.setArg P pathSlot 0, -1)
  else
    let (mem, ok) := guestWrite s.mem base (execBlock P.arch.bigEndian base host args)
    let s := { s with mem := mem }
    if ok then
      ((s.setArg P pathSlot base).setArg P argvSlot
        (base + BitVec.ofNat w (blockText host args).length), 1)
    else (s.setArg P pathSlot 0, -1)

/-- `emuroot_rewrite_exec` -/
def rewriteExec (s : St w σ) (pathSlot argvSlot : Nat) : St w σ × Int :=
  if s.arg P pathSlot = 0 ∨ s.arg P argvSlot = 0 then (s, 0)
  else
    match guestReadStr s.mem (s.arg P pathSlot) pathLen with
    | none => (s, 0)
    | some execPath =>
      let args := readArgv s.mem P.arch.bigEndian (s.arg P argvSlot) maxExecArgs
      if !P.calloc s.fs (maxExecArgs + 16) ∨ args = [] then (s, 0)
      else
        let e := expandExec P s maxShebangDepth
          { execPath := execPath
            host := []
            args := args
            rewritten := false
            pendingExe := s.t.pendingExe
            cache := s.ctx.loaderCache }
        let s := { s with
          t := { s.t with pendingExe := e.pendingExe }
          ctx := { s.ctx with loaderCache := e.cache } }
        if e.rewritten then placeBlock P s pathSlot argvSlot e.host e.args else (s, 0)

end Emuroot
