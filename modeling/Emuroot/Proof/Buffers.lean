import Emuroot.Proof.ExitFrame
import Emuroot.Proof.Scratch
import Emuroot.Proof.Session

/-!
# What the engine keeps fits its arrays

The records and the context of the sources have arrays of fixed sizes. `Ctx.Fits` and `Tracee.Fits`:
everything that is kept in them fits. `session_fits`: it does in every state of every run of the
event loop, whatever paths the guest hands over and whatever the host answers.
-/

namespace Emuroot

variable {w : Nat} {σ : Type}

/-- The text and its NUL fit a buffer of `PATH_LEN`. -/
def FitsPath (s : CStr) : Prop := s.length < pathLen

instance : DecidablePred FitsPath := fun _ => inferInstanceAs (Decidable (_ < _))

structure Binding.Fits (b : Binding) : Prop where
  host : FitsPath b.host
  guest : FitsPath b.guest
  mount : FitsPath b.mount

/-- `struct emuroot_ctx` and the table of `loader_has_argv0`. -/
structure Ctx.Fits (ctx : Ctx) : Prop where
  root : FitsPath ctx.root
  nbindings : ctx.bindings.length ≤ maxBindings
  bindings : ∀ b ∈ ctx.bindings, b.Fits
  sysname : ctx.unameSysname.length < utsField
  release : ctx.unameRelease.length < utsField
  machine : ctx.unameMachine.length < utsField
  used : ctx.loaderCache.length ≤ 8
  cache : ∀ l ∈ ctx.loaderCache, FitsPath l.1

/-- The text fits an array of `PATH_LEN`, which it may fill. -/
def FillsPath (s : CStr) : Prop := s.length ≤ pathLen

/-- `tracee_t`. The name of a program fills its array where `guest_absolute` leaves no NUL. -/
structure Tracee.Fits (t : Tracee w) : Prop where
  root : FitsPath t.root
  exe : FillsPath t.exe
  pendingExe : FillsPath t.pendingExe
  created : FitsPath t.created
  pendingRoot : FitsPath t.pendingRoot

def St.Fits (s : St w σ) : Prop := s.ctx.Fits ∧ s.t.Fits

/-- `realpath` fails for a name that is longer than `PATH_MAX`. -/
def Platform.ShortNames (P : Platform w σ) : Prop :=
  ∀ fs p c, P.realpath fs p = some c → FitsPath c

theorem fitsPath_nil : FitsPath [] := Nat.zero_lt_succ _

theorem FitsPath.fills {s : CStr} (h : FitsPath s) : FillsPath s := Nat.le_of_lt h

theorem fitsPath_snprintf (s : CStr) : FitsPath (snprintf pathLen s) :=
  Nat.lt_of_le_of_lt (length_snprintf_le pathLen s) (by decide)

theorem Tracee.Fits.congr {t t' : Tracee w} (h : t.Fits) (ht : t'.sansScratch = t.sansScratch) :
    t'.Fits := by
  have hroot := congrArg Tracee.root ht
  have hexe := congrArg Tracee.exe ht
  have hpendingExe := congrArg Tracee.pendingExe ht
  have hcreated := congrArg Tracee.created ht
  have hpendingRoot := congrArg Tracee.pendingRoot ht
  simp only [Tracee.sansScratch] at hroot hexe hpendingExe hcreated hpendingRoot
  exact ⟨hroot ▸ h.root, hexe ▸ h.exe, hpendingExe ▸ h.pendingExe, hcreated ▸ h.created,
    hpendingRoot ▸ h.pendingRoot⟩

variable {P : Platform w σ} {s s' : St w σ} {ctx : Ctx}

/-- The rewriting of paths keeps nothing of them. -/
theorem PathFrame.fits {slots : List Nat} (h : PathFrame P slots s s') (hs : s.Fits) : s'.Fits :=
  ⟨h.ctx ▸ hs.1, hs.2.congr h.t⟩

/-! ## The context -/

namespace Ctx.Fits

variable {host guest target : CStr}

theorem emurootBind (h : ctx.Fits) {ctx' : Ctx} (hb : emurootBind ctx host guest = some ctx') :
    ctx'.Fits := by
  unfold Emuroot.emurootBind at hb
  split at hb
  · cases hb
  · rename_i hfit
    cases hb
    simp only [not_or, Nat.not_le] at hfit
    refine ⟨h.root, ?_, ?_, h.sysname, h.release, h.machine, h.used, h.cache⟩
    · rw [List.length_append]
      exact hfit.1
    · intro b hb
      rcases List.mem_append.1 hb with hb | hb
      · exact h.bindings b hb
      · obtain rfl := List.mem_singleton.1 hb
        exact ⟨hfit.2.1, hfit.2.2, fitsPath_nil⟩

theorem bindAt (h : ctx.Fits) (host guest target : CStr) : (bindAt ctx host guest target).Fits := by
  unfold Emuroot.bindAt
  split
  · exact h
  · rename_i ctx' hb
    have hadded := h.emurootBind hb
    unfold Emuroot.emurootBind at hb
    split at hb
    · cases hb
    · cases hb
      refine ⟨h.root, ?_, ?_, h.sysname, h.release, h.machine, h.used, h.cache⟩
      · simpa using hadded.nbindings
      · intro b hb
        rcases List.mem_append.1 hb with hb | hb
        · exact h.bindings b hb
        · obtain rfl := List.mem_singleton.1 hb
          have hnew := hadded.bindings ⟨host, guest, []⟩ (by simp)
          exact ⟨hnew.host, hnew.guest, fitsPath_snprintf _⟩

theorem emurootUnbind (h : ctx.Fits) (guest : CStr) : (emurootUnbind ctx guest).Fits := by
  have hsub : ((ctx.bindings.reverse.eraseP fun b => b.guest == guest).reverse).Sublist
      ctx.bindings := by
    have hs := (List.eraseP_sublist (l := ctx.bindings.reverse) (p := fun b => b.guest == guest)).reverse
    rwa [List.reverse_reverse] at hs
  exact ⟨h.root, hsub.length_le.trans h.nbindings, fun b hb => h.bindings b (hsub.subset hb),
    h.sysname, h.release, h.machine, h.used, h.cache⟩

theorem owners (h : ctx.Fits) (owners : Option OwnerDb) : { ctx with owners := owners }.Fits :=
  ⟨h.root, h.nbindings, h.bindings, h.sysname, h.release, h.machine, h.used, h.cache⟩

end Ctx.Fits

/-! ## execve -/

/-- The table of `loader_has_argv0`. -/
structure CacheFits (cache : List (CStr × Bool)) : Prop where
  used : cache.length ≤ 8
  paths : ∀ l ∈ cache, FitsPath l.1

theorem Ctx.Fits.cacheFits (h : ctx.Fits) : CacheFits ctx.loaderCache := ⟨h.used, h.cache⟩

theorem CacheFits.loaderHasArgv0 {cache : List (CStr × Bool)} (h : CacheFits cache) (fs : σ)
    (hostPath : CStr) : CacheFits (loaderHasArgv0 P fs cache hostPath).2 := by
  unfold Emuroot.loaderHasArgv0
  split
  · exact h
  · dsimp only
    split
    · rename_i hroom
      refine ⟨by rw [List.length_append]; exact hroom, fun l hl => ?_⟩
      rcases List.mem_append.1 hl with hl | hl
      · exact h.paths l hl
      · obtain rfl := List.mem_singleton.1 hl
        exact fitsPath_snprintf _
    · exact h

/-- The name of a program never exceeds its array. -/
theorem length_guestAbsolute_le (s : St w σ) (path : CStr) {size : Nat} (hsize : 0 < size) :
    (guestAbsolute P s path size).length ≤ size := by
  have hcut := fun x : CStr => length_snprintf_le size x
  unfold guestAbsolute
  split
  · exact Nat.le_trans (hcut _) (Nat.sub_le size 1)
  dsimp only
  generalize (if realCwd P s = [] then [slash]
    else (hostToGuest s.ctx s.t.root (realCwd P s) pathLen).getD [slash]) = name
  have hname := hcut name
  have hle : (snprintf size name).length ≤ name.length := List.length_take_le' _ _
  generalize hsep : (if 1 < name.length ∧ name.length < size then [slash] else []) = sep
  have hlen : sep.length ≤ 1 := by
    rw [← hsep]
    split
    · exact Nat.le_refl 1
    · exact Nat.zero_le 1
  have hrest := length_snprintf_le (size - (name.length + sep.length)) path
  split <;> simp only [List.length_append] <;> omega

/-- What the expansion leaves for the record and the table. -/
theorem expandExec_fits (s : St w σ) (depth : Nat) {e : ExecState w} (hp : FillsPath e.pendingExe)
    (hc : CacheFits e.cache) :
    FillsPath (expandExec P s depth e).pendingExe ∧ CacheFits (expandExec P s depth e).cache := by
  induction depth generalizing e with
  | zero => exact ⟨hp, hc⟩
  | succ depth ih =>
    unfold expandExec
    dsimp only
    split
    · exact ⟨hp, hc⟩
    split
    · exact ih hp hc
    split
    · exact ⟨hp, hc⟩
    split
    · exact ⟨hp, hc⟩
    · exact ⟨length_guestAbsolute_le s _ (by decide), hc.loaderHasArgv0 _ _⟩

theorem rewriteExec_fits (hs : s.Fits) (pathSlot argvSlot : Nat) :
    (rewriteExec P s pathSlot argvSlot).1.Fits := by
  unfold rewriteExec
  split
  · exact hs
  split
  · exact hs
  extract_lets args e t1 ctx1 s1
  split
  · exact hs
  have he : FillsPath e.pendingExe ∧ CacheFits e.cache :=
    expandExec_fits s maxShebangDepth hs.2.pendingExe hs.1.cacheFits
  have hs1 : s1.Fits :=
    ⟨⟨hs.1.root, hs.1.nbindings, hs.1.bindings, hs.1.sysname, hs.1.release, hs.1.machine,
      he.2.used, he.2.paths⟩,
      ⟨hs.2.root, hs.2.exe, he.1, hs.2.created, hs.2.pendingRoot⟩⟩
  split
  · exact (placeBlock_frame (P := P) s1 pathSlot argvSlot e.host e.args).fits hs1
  · exact hs1

/-! ## The entry of a call -/

theorem hostPathArg_fits {sysno : Int} {slot : Nat} {follow : Bool} {host : CStr}
    (h : hostPathArg P s sysno slot follow = some host) : FitsPath host := by
  unfold hostPathArg at h
  split at h
  · cases h
  split at h
  · cases h
    exact fitsPath_snprintf _
  · cases h
    exact length_translatePath_lt _ _

theorem resetCall_fits (hs : s.Fits) : (resetCall P s).Fits :=
  ⟨hs.1, ⟨hs.2.root, hs.2.exe, fitsPath_nil.fills, fitsPath_nil, fitsPath_nil⟩⟩

theorem noteCreation_fits (hs : s.Fits) (sysno : Int) (d : PathSyscall) :
    (noteCreation P s sysno d).Fits := by
  have hput : ∀ c, FitsPath c → St.Fits { s with t := { s.t with created := c } } :=
    fun c hc => ⟨hs.1, ⟨hs.2.root, hs.2.exe, hs.2.pendingExe, hc, hs.2.pendingRoot⟩⟩
  unfold noteCreation
  split
  · exact hs
  split
  · exact hs
  split
  · rename_i host hhost
    refine hput _ ?_
    split
    · exact hostPathArg_fits hhost
    · exact fitsPath_nil
  · exact hput _ fitsPath_nil

theorem identityEntry_fits (hs : s.Fits) (sysno : Int) (a : Option Action) :
    (identityEntry P s sysno a).Fits := by
  have h := (neutralizeIdChange_frame (P := P) s a).fits hs
  unfold identityEntry
  dsimp only
  split
  · unfold noteChown
    dsimp only
    split
    · exact h
    · exact ⟨h.1, ⟨h.2.root, h.2.exe, h.2.pendingExe, h.2.created, h.2.pendingRoot⟩⟩
  · exact h

theorem emulateMounts_fits (hs : s.Fits) (sysno : Int) (a : Option Action) :
    (emulateMounts P s sysno a).1.Fits := by
  have hput : ∀ ctx : Ctx, ctx.Fits →
      St.Fits { s with ctx := ctx, t := { s.t with mountHandled := true } } :=
    fun ctx hc => ⟨hc, ⟨hs.2.root, hs.2.exe, hs.2.pendingExe, hs.2.created, hs.2.pendingRoot⟩⟩
  unfold emulateMounts
  dsimp only
  split
  · exact hs
  split
  · unfold emulateChroot
    split
    · exact hs
    split
    · exact hs
    split
    · exact hs
    · exact (neutralize_frame ..).fits
        ⟨hs.1, ⟨hs.2.root, hs.2.exe, hs.2.pendingExe, hs.2.created, fitsPath_snprintf _⟩⟩
  · unfold emulateMount
    split
    · exact hs
    · refine (neutralize_frame ..).fits (hput _ ?_)
      split
      · exact hs.1
      · exact hs.1.bindAt ..
  · unfold emulateUmount
    split
    · exact hs
    · exact (neutralize_frame ..).fits (hput _ (hs.1.emurootUnbind _))
  · exact hs

theorem rewritePaths_fits (hs : s.Fits) (sysno : Int) : (rewritePaths P s sysno).Fits := by
  refine (rewritePaths_frame (P := P) s sysno).fits ?_
  unfold notedCreation
  split
  · exact hs
  split
  · exact noteCreation_fits hs ..
  · exact hs

theorem onEntry_fits (hs : s.Fits) : (onEntry P s).Fits := by
  have h0 := resetCall_fits (P := P) hs
  unfold onEntry
  extract_lets s0 sysno
  have h1 : (emulateEntry P s0 sysno).1.Fits := by
    unfold emulateEntry
    split
    · exact emulateMounts_fits (identityEntry_fits h0 ..) ..
    · exact h0
  generalize emulateEntry P s0 sysno = q at h1 ⊢
  obtain ⟨s1, handled⟩ := q
  dsimp only at h1 ⊢
  split
  · exact h1
  have h2 : (if P.nr.is .execve sysno then rewriteExec P s1 1 2 else (s1, 0)).1.Fits := by
    split
    · exact rewriteExec_fits h1 ..
    · exact h1
  generalize (if P.nr.is .execve sysno then rewriteExec P s1 1 2 else (s1, 0)) = q at h2 ⊢
  obtain ⟨s2, r⟩ := q
  dsimp only at h2 ⊢
  split
  · exact h2
  · exact rewritePaths_fits h2 _

/-! ## The exit of a call -/

theorem Ctx.Fits.congr {ctx' : Ctx} (h : ctx.Fits) (hc : ctx'.sansOwners = ctx.sansOwners) :
    ctx'.Fits := by
  have heq : ctx' = { ctx with owners := ctx'.owners } := by
    cases ctx
    cases ctx'
    simpa [Ctx.sansOwners] using hc
  rw [heq]
  exact h.owners _

theorem exitAction_fits (hs : s.t.Fits) (buf : Word w) (a : Action) (ret : Int) :
    (exitAction P s buf a ret).t.Fits := by
  unfold exitAction
  split
  · rwa [exitGetcwd_t]
  split
  · split
    -- the program of the exec becomes the one that runs
    · exact ⟨hs.root, hs.pendingExe, hs.pendingExe, hs.created, hs.pendingRoot⟩
    · exact hs
  split
  · exact ⟨hs.pendingRoot, hs.exe, hs.pendingExe, hs.created, fitsPath_nil⟩
  split
  · exact hs
  split
  · split
    · exact hs
    · rwa [mapProcLink_t]
  split
  · rwa [(exitUname_memOnly s buf ret).t]
  split
  · exact hs
  · have hcreds : ∀ c, Tracee.Fits { s.t with creds := c } :=
      fun _ => ⟨hs.root, hs.exe, hs.pendingExe, hs.created, hs.pendingRoot⟩
    have ht := emulateResult_t (P := P) s a ret
    have h : (emulateResult P s a ret).1.t.Fits := ht ▸ hcreds _
    dsimp only
    split <;> exact h

theorem onExit_fits (hs : s.Fits) : (onExit P s).Fits := by
  have hc : ∀ ret, (commitCreated P s ret).t.Fits := by
    intro ret
    unfold commitCreated
    split
    · exact hs.2
    · exact ⟨hs.2.root, hs.2.exe, hs.2.pendingExe, fitsPath_nil, hs.2.pendingRoot⟩
  refine ⟨hs.1.congr (onExit_sansOwners s), ?_⟩
  unfold onExit onExitAt
  dsimp only
  split
  · exact hc _
  · exact exitAction_fits (hc _) ..

/-! ## Runs -/

theorem fits_kept (P : Platform w σ) (H : σ → Prop) : Kept P H Ctx.Fits Tracee.Fits where
  new _ _ _ :=
    ⟨fitsPath_snprintf _, fitsPath_nil.fills, fitsPath_nil.fills, fitsPath_nil, fitsPath_nil⟩
  inherit _ _ hc hp := ⟨hp.root, hp.exe, hc.pendingExe, hc.created, hc.pendingRoot⟩
  entry _ _ hctx ht := onEntry_fits ⟨hctx, ht⟩
  exit _ _ hctx ht := onExit_fits ⟨hctx, ht⟩

/-- The context as the engine makes it canonical. -/
theorem canonicalCtx_fits (hreal : P.ShortNames) (fs : σ) (h : ctx.Fits) :
    (canonicalCtx P fs ctx).Fits := by
  have hname : ∀ p, FitsPath p → FitsPath ((P.realpath fs p).getD p) := by
    intro p hp
    cases hr : P.realpath fs p with
    | none => exact hp
    | some c => exact hreal fs p c hr
  refine ⟨?_, ?_, ?_, h.sysname, h.release, h.machine, h.used, h.cache⟩
  · unfold canonicalCtx
    dsimp only
    split
    · exact fitsPath_nil
    · split
      · exact fitsPath_nil
      · exact hname _ h.root
  · simpa [canonicalCtx] using h.nbindings
  · intro b hb
    obtain ⟨c, hc, rfl⟩ := List.mem_map.1 hb
    exact ⟨hname _ (h.bindings c hc).host, (h.bindings c hc).guest, fitsPath_snprintf _⟩

variable {seccomp : Bool}

/-- In every state that the event loop reaches from a context that fits, the context fits and so
does the record of every process. -/
theorem session_fits (hctx : ctx.Fits) (rootPid : Nat) {as : List (StopRound w σ)} {e : Engine w}
    (h : Run (LoopStep P seccomp fun _ => True) (engineStart ctx rootPid) as e) :
    e.ctx.Fits ∧ ∀ t ∈ e.tab, t.Fits := by
  have hk := fits_kept P fun _ => True
  have he := hk.run h (hk.start hctx rootPid)
  exact ⟨he.ctx, he.tab⟩

end Emuroot
