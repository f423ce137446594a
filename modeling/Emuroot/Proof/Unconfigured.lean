import Emuroot.Model.Linux
import Emuroot.Proof.Lookups
import Emuroot.Proof.ScriptChain
import Emuroot.Proof.Session

/-!
# A session without options

`unconfigured_transparent`: where there is nothing to map and nothing to fake, no round of the event
loop changes a register, the guest's memory or the host, but at the execve of a script or of a
program whose loader is missing.
-/

namespace Emuroot

variable {w : Nat} {σ : Type}

/-- There is nothing to map and nothing to fake. -/
structure Ctx.Unconfigured (ctx : Ctx) : Prop where
  root : ctx.root = []
  bindings : ctx.bindings = []
  ids : ctx.hasFakeIds = false
  uname : ctx.hasFakeUname = false

/-- The record of a task of which no call is answered for the kernel. -/
structure Tracee.Unanswered (t : Tracee w) : Prop where
  root : t.root = []
  pendingRoot : t.pendingRoot = []
  mountHandled : t.mountHandled = false
  procLink : t.procLink = false

/-- The kernel runs the file as it is: it is no script, and its loader is there, if it has one. -/
def RunsAsIs (P : Platform w σ) (fs : σ) (host : CStr) : Prop :=
  ∀ file, P.content fs host = some file → parseShebang (file.take 256) = none ∧
    ∀ interp, elfInterp P.offBits P.arch.bigEndian file pathLen = some interp → (P.stat fs interp).isSome

/-- If the state is that of an execve, the program can be run as it is. -/
def ExecAsIs (P : Platform w σ) (s : St w σ) : Prop :=
  P.nr.is .execve (s.regs P.arch.sysno).toInt = true → ∀ path,
    guestReadStr s.mem (s.arg P 1) pathLen = some path → RunsAsIs P s.fs (hostPathOf P s path pathLen)

variable {P : Platform w σ} {s : St w σ} {E : WalkEnv}

/-! ## The entry of a call -/

theorem Ctx.Unconfigured.unmapped {ctx : Ctx} (h : ctx.Unconfigured) : unmapped ctx [] = true := by
  simp [Emuroot.unmapped, h.bindings]

theorem translatePath_unmapped (h : unmapped E.ctx E.root = true) (guest : CStr) (n : Nat) :
    translatePath E guest n = ⟨snprintf n guest, snprintf 0 guest, false⟩ :=
  if_pos (.inr h)

theorem rewritePathArg_unmapped (h : unmapped s.ctx s.t.root = true) (sysno : Int) (slot : Nat)
    (follow : Bool) (which : Nat) : rewritePathArg P s sysno slot follow which = s :=
  if_pos (.inr (.inl h))

theorem rewriteSockaddr_unmapped (h : unmapped s.ctx s.t.root = true) (addrSlot lenSlot : Nat) :
    rewriteSockaddr P s addrSlot lenSlot = s := by
  unfold rewriteSockaddr
  dsimp only
  split
  · rfl
  · apply if_pos
    rw [translatePath_unmapped h]
    simp

theorem noteCreation_unfaked (h : s.ctx.hasFakeIds = false) (sysno : Int) (d : PathSyscall) :
    noteCreation P s sysno d = s := by
  apply if_pos
  simp [h]

theorem rewritePaths_unconfigured (h : unmapped s.ctx s.t.root = true)
    (hid : s.ctx.hasFakeIds = false) (sysno : Int) : rewritePaths P s sysno = s := by
  unfold rewritePaths
  split
  · exact rewriteSockaddr_unmapped h ..
  split
  · exact rewriteSockaddr_unmapped h ..
  split
  · exact rewriteSockaddr_unmapped h ..
  split
  · unfold rewriteTable
    dsimp only
    rw [noteCreation_unfaked hid, rewritePathArg_unmapped h, rewritePathArg_unmapped h]
  · dsimp only
    rw [rewritePathArg_unmapped h, ite_self, rewritePathArg_unmapped h, ite_self]

/-- The loader is found as it is. -/
theorem loaderAsIs_unmapped (h : unmapped s.ctx s.t.root = true) {file : List Byte} {interp : CStr}
    (hi : elfInterp P.offBits P.arch.bigEndian file pathLen = some interp)
    (hthere : (P.stat s.fs interp).isSome) :
    loaderAsIs P s.fs interp (translatePath (s.walkEnv P true) interp pathLen).out = true := by
  obtain ⟨st, hst⟩ := Option.isSome_iff_exists.1 hthere
  rw [translatePath_unmapped h]
  dsimp only
  rw [snprintf_of_lt (elfInterp_proper hi).2]
  simp [loaderAsIs, hst]

/-- The expansion loop stops at its first program. -/
theorem expandExec_asIs (h : unmapped s.ctx s.t.root = true) {e : ExecState w}
    (hrun : RunsAsIs P s.fs (hostPathOf P s e.execPath pathLen)) (depth : Nat) :
    expandExec P s (depth + 1) e = { e with host := hostPathOf P s e.execPath pathLen } := by
  unfold expandExec
  dsimp only
  split
  · rfl
  · rename_i file hfile
    obtain ⟨hscript, hloader⟩ := hrun file hfile
    rw [hscript]
    dsimp only
    split
    · rfl
    · rename_i interp hi
      rw [loaderAsIs_unmapped h hi (hloader interp hi)]
      rfl

theorem rewriteExec_asIs (h : unmapped s.ctx s.t.root = true)
    (hrun : ∀ path, guestReadStr s.mem (s.arg P 1) pathLen = some path →
      RunsAsIs P s.fs (hostPathOf P s path pathLen)) : rewriteExec P s 1 2 = (s, 0) := by
  unfold rewriteExec
  split
  · rfl
  split
  · rfl
  · rename_i path hpath
    dsimp only
    split
    · rfl
    · rw [show maxShebangDepth = 4 + 1 from rfl, expandExec_asIs h (hrun path hpath)]
      rfl

/-- The entry of a call without fake ids. -/
theorem onEntry_unfaked (h : s.ctx.hasFakeIds = false) :
    onEntry P s =
      let r := if P.nr.is .execve (resetCall P s).t.sysno then rewriteExec P (resetCall P s) 1 2
        else (resetCall P s, 0)
      if r.2 ≠ 0 then r.1 else rewritePaths P r.1 (resetCall P s).t.sysno := by
  have hid : (resetCall P s).ctx.hasFakeIds = false := h
  have he : emulateEntry P (resetCall P s) (resetCall P s).t.sysno = (resetCall P s, false) :=
    if_neg (by simp [hid])
  unfold onEntry
  dsimp only
  rw [he]
  rfl

/-- **The entry changes nothing of the guest and the host**, but where an execve is expanded. -/
theorem onEntry_unconfigured (hc : s.ctx.Unconfigured) (ht : s.t.Unanswered)
    (hx : ExecAsIs P s) : onEntry P s = resetCall P s := by
  have hmap : unmapped (resetCall P s).ctx (resetCall P s).t.root = true := by
    show unmapped s.ctx s.t.root = true
    rw [ht.root]
    exact hc.unmapped
  have hid : (resetCall P s).ctx.hasFakeIds = false := hc.ids
  rw [onEntry_unfaked hc.ids]
  dsimp only
  split
  · rename_i hexec
    rw [rewriteExec_asIs hmap fun path hpath => hx hexec path hpath]
    dsimp only
    rw [if_neg (by simp), rewritePaths_unconfigured hmap hid]
  · rw [if_neg (by simp), rewritePaths_unconfigured hmap hid]

theorem placeBlock_unanswered (ht : s.t.Unanswered) (pathSlot argvSlot : Nat) (host : CStr)
    (args : List (EArg w)) : (placeBlock P s pathSlot argvSlot host args).1.t.Unanswered := by
  have hasked : ∀ ask : Bool, (if ask then scratch s (blockRoom host args)
      else (0, s)).2.t.Unanswered := by
    intro ask
    split
    · unfold scratch
      dsimp only
      split
      · exact ht
      · exact ⟨ht.root, ht.pendingRoot, ht.mountHandled, ht.procLink⟩
    · exact ht
  have ht1 := hasked (P.calloc s.fs (blockRoom host args) && P.calloc s.fs (args.length + 1))
  unfold placeBlock
  dsimp only
  generalize (if (P.calloc s.fs (blockRoom host args) && P.calloc s.fs (args.length + 1)) = true
    then scratch s (blockRoom host args) else (0, s)) = q at ht1 ⊢
  split
  · exact ht1
  split
  · exact ht1
  · exact ht1

/-- Also where it does, nothing is configured afterwards and nothing answered. -/
theorem onEntry_stays (hc : s.ctx.Unconfigured) (ht : s.t.Unanswered) :
    (onEntry P s).ctx.Unconfigured ∧ (onEntry P s).t.Unanswered := by
  have ht0 : (resetCall P s).t.Unanswered := ⟨ht.root, rfl, rfl, rfl⟩
  have hexec : ∀ r : St w σ × Int, r = (if P.nr.is .execve (resetCall P s).t.sysno then
      rewriteExec P (resetCall P s) 1 2 else (resetCall P s, 0)) →
      r.1.ctx.Unconfigured ∧ r.1.t.Unanswered := by
    rintro r rfl
    split
    · unfold rewriteExec
      split
      · exact ⟨hc, ht0⟩
      split
      · exact ⟨hc, ht0⟩
      dsimp only
      split
      · exact ⟨hc, ht0⟩
      -- the names of loaders are remembered, and the program for a loader noted
      split
      · refine ⟨?_, placeBlock_unanswered ?_ ..⟩
        · rw [(placeBlock_frame ..).ctx]
          exact ⟨hc.root, hc.bindings, hc.ids, hc.uname⟩
        · exact ⟨ht.root, rfl, rfl, rfl⟩
      · exact ⟨⟨hc.root, hc.bindings, hc.ids, hc.uname⟩, ⟨ht.root, rfl, rfl, rfl⟩⟩
    · exact ⟨hc, ht0⟩
  rw [onEntry_unfaked hc.ids]
  dsimp only
  generalize hr : (if P.nr.is .execve (resetCall P s).t.sysno then
    rewriteExec P (resetCall P s) 1 2 else (resetCall P s, 0)) = r
  obtain ⟨hctx, htr⟩ := hexec r hr.symm
  split
  · exact ⟨hctx, htr⟩
  · have hmap : unmapped r.1.ctx r.1.t.root = true := by
      rw [htr.root]
      exact hctx.unmapped
    rw [rewritePaths_unconfigured hmap hctx.ids]
    exact ⟨hctx, htr⟩

/-! ## The exit of a call -/

/-- The guest and the host are as they were. -/
structure SameWorld (s s' : St w σ) : Prop where
  regs : s'.regs = s.regs
  mem : s'.mem = s.mem
  fs : s'.fs = s.fs

theorem exitGetcwd_unmapped (h : unmapped s.ctx s.t.root = true) (buf : Word w) (ret : Int) :
    SameWorld s (exitGetcwd P s buf ret) := by
  unfold exitGetcwd
  split
  · exact ⟨rfl, rfl, rfl⟩
  dsimp only
  split
  · exact ⟨rfl, rfl, rfl⟩
  · have hguest : ∀ cwd, hostToGuest (s.guestReadStr buf pathLen).2.ctx
        (s.guestReadStr buf pathLen).2.t.root cwd pathLen = none :=
      fun cwd => hostToGuest_unmapped h cwd pathLen
    rw [hguest]
    exact ⟨rfl, rfl, rfl⟩

theorem exitAction_unconfigured (hc : s.ctx.Unconfigured) (ht : s.t.Unanswered) (buf : Word w)
    (a : Action) (ret : Int) :
    SameWorld s (exitAction P s buf a ret) ∧ (exitAction P s buf a ret).t.Unanswered := by
  have hsame : SameWorld s s ∧ s.t.Unanswered := ⟨⟨rfl, rfl, rfl⟩, ht⟩
  unfold exitAction
  split
  · rw [exitGetcwd_t]
    refine ⟨exitGetcwd_unmapped ?_ buf ret, ht⟩
    rw [ht.root]
    exact hc.unmapped
  split
  · split
    · exact ⟨⟨rfl, rfl, rfl⟩, ⟨ht.root, ht.pendingRoot, ht.mountHandled, ht.procLink⟩⟩
    · exact hsame
  rw [if_neg fun h => h.2 ht.pendingRoot, if_neg (by simp [ht.mountHandled])]
  split
  · rw [if_pos (.inl (by simp [ht.procLink]))]
    exact hsame
  split
  · unfold exitUname
    rw [if_pos (.inl (by simp [hc.uname]))]
    exact hsame
  · rw [if_pos (by simp [hc.ids])]
    exact hsame

/-- **The exit changes nothing of the guest and the host.** -/
theorem onExit_unconfigured (hc : s.ctx.Unconfigured) (ht : s.t.Unanswered) :
    SameWorld s (onExit P s) ∧ (onExit P s).t.Unanswered := by
  have hcommit : ∀ ret, SameWorld s (commitCreated P s ret) ∧
      (commitCreated P s ret).ctx.Unconfigured ∧ (commitCreated P s ret).t.Unanswered := by
    intro ret
    unfold commitCreated
    split
    · exact ⟨⟨rfl, rfl, rfl⟩, hc, ht⟩
    · exact ⟨⟨rfl, rfl, rfl⟩, ⟨hc.root, hc.bindings, hc.ids, hc.uname⟩,
        ⟨ht.root, ht.pendingRoot, ht.mountHandled, ht.procLink⟩⟩
  unfold onExit onExitAt
  dsimp only
  obtain ⟨hsame, hc1, ht1⟩ := hcommit (s.regs P.arch.ret).toInt
  split
  · exact ⟨hsame, ht1⟩
  · rename_i a _
    obtain ⟨hact, ht2⟩ := exitAction_unconfigured (P := P) hc1 ht1 (s.arg P 1) a
      (s.regs P.arch.ret).toInt
    exact ⟨⟨hact.regs.trans hsame.regs, hact.mem.trans hsame.mem, hact.fs.trans hsame.fs⟩, ht2⟩

/-! ## Runs -/

variable {seccomp : Bool} {ctx : Ctx} {e : Engine w} {W : World w σ} {t : Traced w} {stop : Stop}

theorem unconfigured_kept (P : Platform w σ) :
    Kept P (fun _ => True) Ctx.Unconfigured Tracee.Unanswered where
  new ctx pid hc := ⟨by simp [traceeNew, hc.root, snprintf], rfl, rfl, rfl⟩
  inherit c p hc hp := ⟨hp.root, hc.pendingRoot, hc.mountHandled, hc.procLink⟩
  entry s _ hc ht := onEntry_stays hc ht
  exit s _ hc ht := by
    refine ⟨?_, (onExit_unconfigured hc ht).2⟩
    have h := onExit_sansOwners (P := P) s
    exact ⟨(congrArg Ctx.root h).trans hc.root, (congrArg Ctx.bindings h).trans hc.bindings,
      (congrArg Ctx.hasFakeIds h).trans hc.ids, (congrArg Ctx.hasFakeUname h).trans hc.uname⟩

/-- The stop is reported before the kernel makes the call. -/
def EntersCall (seccomp : Bool) (t : Traced w) (stop : Stop) : Prop :=
  if stop.sig = SIGTRAP ||| 0x80 then seccomp = false ∧ t.inSyscall = false
  else stop.event = PTRACE_EVENT_SECCOMP

/-- A handler that changes nothing changes nothing of the world. -/
theorem withRegs_same {f : St w σ → St w σ} {t : Tracee w} (h : ∀ regs, W.regs t.pid = some regs →
    SameWorld (stopState e W t regs) (f (stopState e W t regs))) :
    (withRegs f e W t).2.2 = W := by
  unfold withRegs
  split
  · rfl
  · rename_i regs hregs
    obtain ⟨hr, hm, hf⟩ := h regs hregs
    dsimp only
    rw [hr, hm, hf]
    have hregs' : Function.update W.regs t.pid (some regs) = W.regs := by
      rw [← hregs, Function.update_eq_self]
    have hmem : Function.update W.mem (W.space t.pid) (W.mem (W.space t.pid)) = W.mem :=
      Function.update_eq_self ..
    show ({ W with regs := _, mem := _ } : World w σ) = W
    rw [show (stopState e W t regs).regs = regs from rfl,
      show (stopState e W t regs).mem = W.mem (W.space t.pid) from rfl, hregs', hmem]

theorem handleStop_unconfigured (hc : e.ctx.Unconfigured) (ht : t.Unanswered)
    (hx : EntersCall seccomp t stop → ∀ regs, W.regs t.pid = some regs →
      ExecAsIs P (stopState e W t.toTracee regs)) :
    (handleStop P seccomp e W t stop).2.1 = W := by
  have hentry : EntersCall seccomp t stop → (withRegs (onEntry P) e W t.toTracee).2.2 = W := by
    intro henter
    apply withRegs_same
    intro regs hregs
    rw [onEntry_unconfigured hc ht (hx henter regs hregs)]
    exact ⟨rfl, rfl, rfl⟩
  have hexit : (withRegs (onExit P) e W t.toTracee).2.2 = W :=
    withRegs_same fun regs _ => (onExit_unconfigured hc ht).1
  unfold EntersCall at hentry
  unfold handleStop
  by_cases h : stop.sig = SIGTRAP ||| 0x80
  · rw [if_pos h] at hentry ⊢
    split
    · rename_i hs
      split
      · exact hexit
      · rename_i hin
        exact hentry ⟨by simpa using hs, by simpa using hin⟩
    · split
      · exact hexit
      · rfl
  · rw [if_neg h] at hentry ⊢
    by_cases hs : stop.event = PTRACE_EVENT_SECCOMP
    · rw [if_pos hs]
      exact hentry hs
    · rw [if_neg hs]
      split
      · split <;> rfl
      · split
        · rfl
        · split <;> rfl

/-- **Without options the tracing is not noticed.** In every state of the event loop that is reached
with nothing to map and nothing to fake, a round leaves all registers, all memory and the host as
they are, but for the entry of an execve of a script, or of a program whose loader is missing. -/
theorem unconfigured_transparent {fs : σ} (hctx : (canonicalCtx P fs ctx).Unconfigured)
    (rootPid : Nat) {as : List (StopRound w σ)}
    (h : Run (LoopStep P seccomp fun _ => True) (engineStart (canonicalCtx P fs ctx) rootPid) as e)
    (r : StopRound w σ)
    (hx : ∀ stop, r.st = .stopped stop → EntersCall seccomp (findOrAdd e r.pid).2 stop →
      ∀ regs, r.W.regs r.pid = some regs →
        ExecAsIs P (stopState (findOrAdd e r.pid).1 r.W (findOrAdd e r.pid).2.toTracee regs)) :
    (waitStep P seccomp e r.W r.pid r.st).2.1 = r.W := by
  have hk := unconfigured_kept P
  have he := hk.run h (hk.start hctx rootPid)
  have hadd : (findOrAdd e r.pid).1.ctx.Unconfigured ∧ (findOrAdd e r.pid).2.Unanswered := by
    unfold findOrAdd
    split
    · rename_i t ht
      exact ⟨he.ctx, he.tab t (Table.mem_of_find ht)⟩
    · exact ⟨he.ctx, hk.new e.ctx r.pid he.ctx⟩
  unfold waitStep
  dsimp only
  split
  · rfl
  · rfl
  · rename_i stop hstop
    refine handleStop_unconfigured hadd.1 hadd.2 fun henter regs hregs => ?_
    rw [findOrAdd_pid] at hregs
    exact hx stop hstop henter regs hregs
  · rfl

/-- A host with a static program. -/
def staticHost : Platform 64 Unit :=
  { linuxPlatform with
    content := fun _ path =>
      if path = cstr "/bin/true" then some [0x7f, 0x45, 0x4c, 0x46, 2, 1] else none }

/-- It is executed in a session whose root is the host's own. -/
def staticExec : StopRound 64 Unit where
  W :=
    { regs := fun _ => some (linuxRegs 59 [4096, 8192])
      space := id
      mem := fun _ =>
        linuxMem [(4096, cstr "/bin/true"), (8192, toBytes false 8 12288), (12288, cstr "true")]
      fs := () }
  pid := 7
  st := .stopped seccompStop

def hostRooted : Ctx := canonicalCtx staticHost () { Ctx.create with root := [slash] }

/-- The session behind that. -/
def staticRan : Engine 64 :=
  (waitStep staticHost true (engineStart hostRooted 7) staticExec.W staticExec.pid staticExec.st).1

/-- Nor is anything changed when the program is executed again. -/
theorem unconfigured_transparent_static :
    (waitStep staticHost true staticRan staticExec.W 7 (.stopped seccompStop)).2.1 =
      staticExec.W := by
  have hctx : hostRooted.Unconfigured := ⟨rfl, rfl, rfl, rfl⟩
  have hstep : LoopStep staticHost true (fun _ => True) (engineStart hostRooted 7) staticExec
      staticRan := ⟨trivial, rfl⟩
  have hrun : Run (LoopStep staticHost true fun _ => True) (engineStart hostRooted 7) [staticExec]
      staticRan := .cons hstep (.nil _)
  refine unconfigured_transparent hctx 7 hrun staticExec fun stop _ _ regs hregs _ path hpath => ?_
  cases hregs
  have hread : guestReadStr (linuxMem [(4096, cstr "/bin/true"), (8192, toBytes false 8 12288),
      (12288, cstr "true")]) 4096 pathLen = some (cstr "/bin/true") := by decide +kernel
  obtain rfl : cstr "/bin/true" = path := Option.some.inj (hread.symm.trans hpath)
  intro file hfile
  obtain rfl : [0x7f, 0x45, 0x4c, 0x46, 2, 1] = file := Option.some.inj hfile
  exact ⟨rfl, fun interp h => nomatch h⟩

end Emuroot
