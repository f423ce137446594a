import Emuroot.Proof.Buffers
import Emuroot.Proof.Grants

/-!
# The table of loaders

`loader_has_argv0` keeps its answers for the first eight loaders it is asked about. `expandPlain` is
the expansion of an execve that reads the loader every time. **`cache_coherent`**: in every state
that the event loop reaches while the files stay what they are, an execve is expanded as that does.
-/

namespace Emuroot

variable {w : Nat} {σ : Type}

/-- What `loader_has_argv0` finds in the file. -/
def readsArgv0 (content : CStr → Option (List Byte)) (hostPath : CStr) : Bool :=
  (content hostPath).any fun file => contains (file.take (4 * 2 ^ 20)) (cstr "--argv0")

/-- The entries of the table say what the files say. -/
def TrueAnswers (content : CStr → Option (List Byte)) (cache : List (CStr × Bool)) : Prop :=
  ∀ l ∈ cache, l.2 = readsArgv0 content l.1

section
variable (P : Platform w σ)

/-- The expansion loop without the table. -/
def expandPlain (s : St w σ) : Nat → ExecState w → ExecState w
  | 0, e => e
  | depth + 1, e =>
    let host := hostPathOf P s e.execPath pathLen
    let e := { e with host := host }
    match P.content s.fs host with
    | none => e
    | some file =>
      match parseShebang (file.take 256) with
      | some (interp, arg) =>
        expandPlain s depth
          { e with
            args := replaceHead e.args (interp :: (arg.toList ++ [e.execPath]))
            execPath := snprintf pathLen interp
            rewritten := true }
      | none =>
        match elfInterp P.offBits P.arch.bigEndian file pathLen with
        | none => e
        | some interp =>
          let loaderHost := (translatePath (s.walkEnv P true) interp pathLen).out
          if loaderAsIs P s.fs interp loaderHost then e
          else
            let lead :=
              if readsArgv0 (P.content s.fs) loaderHost then [cstr "--argv0", argv0 s e.args] else []
            { e with
              execPath := snprintf pathLen interp
              host := snprintf pathLen loaderHost
              args := replaceHead e.args (interp :: (lead ++ [e.execPath]))
              rewritten := true
              pendingExe := guestAbsolute P s e.execPath pathLen }

/-- With another table. -/
def ExecState.withCache (e : ExecState w) (cache : List (CStr × Bool)) : ExecState w :=
  { e with cache := cache }

end

variable {P : Platform w σ} {fs : σ} {cache : List (CStr × Bool)} {s : St w σ}
  {content : CStr → Option (List Byte)}

/-- An answer is that of the file, and the table stays truthful. -/
theorem TrueAnswers.loaderHasArgv0 (h : TrueAnswers (P.content fs) cache) {path : CStr}
    (hp : FitsPath path) :
    (loaderHasArgv0 P fs cache path).1 = readsArgv0 (P.content fs) path ∧
      TrueAnswers (P.content fs) (loaderHasArgv0 P fs cache path).2 := by
  unfold Emuroot.loaderHasArgv0
  split
  · rename_i ok hok
    obtain ⟨l1, l2, rfl, -⟩ := List.lookup_eq_some_iff.1 hok
    exact ⟨h (path, ok) (by simp), h⟩
  · refine ⟨rfl, fun l hl => ?_⟩
    dsimp only at hl
    split at hl
    · rcases List.mem_append.1 hl with hl | hl
      · exact h l hl
      · obtain rfl := List.mem_singleton.1 hl
        rw [snprintf_of_lt hp]
        rfl
    · exact h l hl

/-- **The table changes nothing of an execve.** -/
theorem expandExec_plain (s : St w σ) (depth : Nat) {e : ExecState w}
    (h : TrueAnswers (P.content s.fs) e.cache) :
    (expandExec P s depth e).withCache e.cache = expandPlain P s depth e ∧
      TrueAnswers (P.content s.fs) (expandExec P s depth e).cache := by
  induction depth generalizing e with
  | zero => exact ⟨rfl, h⟩
  | succ depth ih =>
    unfold expandExec expandPlain
    dsimp only
    cases P.content s.fs (hostPathOf P s e.execPath pathLen) with
    | none => exact ⟨rfl, h⟩
    | some file =>
    dsimp only
    cases parseShebang (file.take 256) with
    | some l => exact ih h
    | none =>
    dsimp only
    cases elfInterp P.offBits P.arch.bigEndian file pathLen with
    | none => exact ⟨rfl, h⟩
    | some interp =>
    dsimp only
    have hloader := h.loaderHasArgv0 (length_translatePath_lt (s.walkEnv P true) interp)
    by_cases hl : loaderAsIs P s.fs interp (translatePath (s.walkEnv P true) interp pathLen).out
    · rw [if_pos hl, if_pos hl]
      exact ⟨rfl, h⟩
    · rw [if_neg hl, if_neg hl, ← hloader.1]
      exact ⟨rfl, hloader.2⟩

/-! ## Runs -/

theorem rewriteExec_trueAnswers (h : TrueAnswers (P.content s.fs) s.ctx.loaderCache)
    (pathSlot argvSlot : Nat) :
    TrueAnswers (P.content s.fs) (rewriteExec P s pathSlot argvSlot).1.ctx.loaderCache := by
  unfold rewriteExec
  split
  · exact h
  split
  · exact h
  extract_lets args e t1 ctx1 s1
  split
  · exact h
  have he : TrueAnswers (P.content s.fs) e.cache := (expandExec_plain s maxShebangDepth h).2
  split
  · rw [(placeBlock_frame (P := P) s1 pathSlot argvSlot e.host e.args).ctx]
    exact he
  · exact he

theorem emulateEntry_cache (s : St w σ) (sysno : Int) :
    (emulateEntry P s sysno).1.ctx.loaderCache = s.ctx.loaderCache := by
  have h := congrArg Ctx.loaderCache (emulateEntry_sansBindings (P := P) s sysno)
  exact h

theorem onEntry_trueAnswers (h : TrueAnswers (P.content s.fs) s.ctx.loaderCache) :
    TrueAnswers (P.content s.fs) (onEntry P s).ctx.loaderCache := by
  have hcache := emulateEntry_cache (P := P) (resetCall P s) (resetCall P s).t.sysno
  have hfs := emulateEntry_fs (P := P) (resetCall P s) (resetCall P s).t.sysno
  unfold onEntry
  extract_lets s0 sysno
  generalize emulateEntry P s0 sysno = q at hcache hfs ⊢
  obtain ⟨s1, handled⟩ := q
  dsimp only at hcache hfs ⊢
  have h1 : TrueAnswers (P.content s1.fs) s1.ctx.loaderCache := by
    rw [hcache, hfs]
    exact h
  have hcontent : P.content s1.fs = P.content s.fs := congrArg P.content hfs
  rw [← hcontent]
  split
  · exact h1
  have h2 : TrueAnswers (P.content s1.fs)
      (if P.nr.is .execve sysno then rewriteExec P s1 1 2 else (s1, 0)).1.ctx.loaderCache := by
    split
    · exact rewriteExec_trueAnswers h1 1 2
    · exact h1
  generalize (if P.nr.is .execve sysno then rewriteExec P s1 1 2 else (s1, 0)) = q at h2 ⊢
  obtain ⟨s2, r⟩ := q
  dsimp only at h2 ⊢
  split
  · exact h2
  · rwa [(rewritePaths_frame (P := P) s2 sysno).ctx, notedCreation_ctx]

theorem truthful_kept (P : Platform w σ) (content : CStr → Option (List Byte)) :
    Kept P (P.content · = content) (fun ctx => TrueAnswers content ctx.loaderCache) fun _ => True where
  new _ _ _ := trivial
  inherit _ _ _ _ := trivial
  entry _ hfs hctx _ := by
    subst hfs
    exact ⟨onEntry_trueAnswers hctx, trivial⟩
  exit s _ hctx _ := by
    have hcache := congrArg Ctx.loaderCache (onExit_sansOwners (P := P) s)
    simp only [Ctx.sansOwners] at hcache
    exact ⟨hcache ▸ hctx, trivial⟩

variable {seccomp : Bool} {ctx : Ctx} {e : Engine w}

/-- **The table is never stale**: while the files stay what they are, the expansion of an execve does
the same in every state of the session as the one that reads the loader every time. -/
theorem cache_coherent (hctx : TrueAnswers content ctx.loaderCache) (rootPid : Nat)
    {as : List (StopRound w σ)}
    (h : Run (LoopStep P seccomp (P.content · = content)) (engineStart ctx rootPid) as e)
    {s : St w σ} (hs : P.content s.fs = content) (depth : Nat) {x : ExecState w}
    (hx : x.cache = e.ctx.loaderCache) :
    (expandExec P s depth x).withCache x.cache = expandPlain P s depth x := by
  have hk := truthful_kept P content
  have he := hk.run h (hk.start hctx rootPid)
  refine (expandExec_plain s depth ?_).1
  rw [hs, hx]
  exact he.ctx

/-- A host with a program, in the rootfs `/r`, whose loader takes `--argv0`. -/
def argv0Host : Platform 64 Unit :=
  filesAt [(cstr "/r/bin/ls", elfFile (cstr "/ld.so")), (cstr "/r/ld.so", cstr "... --argv0 ...")]

/-- `execve("/bin/ls", {"ls"}, ...)` comes to the filter. -/
def firstExec : StopRound 64 Unit where
  W :=
    { regs := fun _ => some ((linuxRegs 59 [4096, 8192]).put 19 0x7fff0000)
      space := id
      mem := fun _ =>
        linuxMem [(4096, cstr "/bin/ls"), (8192, toBytes false 8 12288), (12288, cstr "ls")]
      fs := () }
  pid := 7
  st := .stopped seccompStop

/-- The session after it. -/
def askedOnce : Engine 64 :=
  (waitStep argv0Host true (engineStart { Ctx.create with root := cstr "/r" } 7) firstExec.W firstExec.pid
    firstExec.st).1

/-- The program, to be run again. -/
def secondExec : ExecState 64 :=
  ⟨cstr "/bin/ls", [], [.str (cstr "ls")], false, [], askedOnce.ctx.loaderCache⟩

/-- The first execve has asked about the loader, and the second one is answered from the table. -/
theorem cache_coherent_asked :
    askedOnce.ctx.loaderCache = [(cstr "/r/ld.so", true)] ∧
    (expandExec argv0Host (execveIn (linuxMem [])) 5 secondExec).withCache secondExec.cache =
      expandPlain argv0Host (execveIn (linuxMem [])) 5 secondExec ∧
    (expandExec argv0Host (execveIn (linuxMem [])) 5 secondExec).args =
      [.str (cstr "/ld.so"), .str (cstr "--argv0"), .str (cstr "ls"), .str (cstr "/bin/ls")] := by
  have hstep : LoopStep argv0Host true (argv0Host.content · = argv0Host.content ())
      (engineStart { Ctx.create with root := cstr "/r" } 7) firstExec askedOnce := ⟨rfl, rfl⟩
  have hrun : Run (LoopStep argv0Host true (argv0Host.content · = argv0Host.content ()))
      (engineStart { Ctx.create with root := cstr "/r" } 7) [firstExec] askedOnce := .cons hstep (.nil _)
  have hnone : TrueAnswers (argv0Host.content ()) ({ Ctx.create with root := cstr "/r" } : Ctx).loaderCache :=
    fun l hl => absurd hl List.not_mem_nil
  have hfs : argv0Host.content (execveIn (linuxMem [])).fs = argv0Host.content () := rfl
  have hcache : secondExec.cache = askedOnce.ctx.loaderCache := by rw [secondExec]
  exact ⟨by decide +kernel, cache_coherent hnone 7 hrun hfs 5 hcache, by decide +kernel⟩

end Emuroot
