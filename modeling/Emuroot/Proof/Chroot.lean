import Emuroot.Proof.MountFrame
import Emuroot.Proof.Reroot

/-!
# chroot

`ChrootCall.after`: a chroot of the fake root makes the canonical host path of the directory the root
of the process and changes nothing else. `tight_dirPlaced`: what a directory lies at is a canonical
path where the root and the hosts of the bindings are.
-/

namespace Emuroot

open Words

variable {w : Nat} {σ : Type} {P : Platform w σ} {s : St w σ} {E : WalkEnv} {dir : CStr}

/-! ## Canonical paths -/

/-- A canonical path of the host, with `/` as the empty one. -/
def Tight (p : CStr) : Prop := ∃ ws, (∀ c ∈ ws, IsName c) ∧ p = glue slash ws

theorem Tight.append {p q : CStr} (hp : Tight p) (hq : Tight q) : Tight (p ++ q) := by
  obtain ⟨ws, hw, rfl⟩ := hp
  obtain ⟨vs, hv, rfl⟩ := hq
  exact ⟨ws ++ vs, fun c hc => (List.mem_append.1 hc).elim (hw c) (hv c), (glue_append ws vs).symm⟩

/-- What is behind a directory on a canonical path. -/
theorem Tight.drop {p q : CStr} (hp : Tight p) (h : Stem slash q p) : Tight (p.drop q.length) := by
  obtain ⟨ws, hw, rfl⟩ := hp
  obtain ⟨k, hk, rfl⟩ := stem_glue (fun c hc => (hw c hc).word) h
  refine ⟨ws.drop k, fun c hc => hw c (List.mem_of_mem_drop hc), ?_⟩
  have hws : glue slash ws = glue slash (ws.take k) ++ glue slash (ws.drop k) := by
    rw [← glue_append, List.take_append_drop]
  rw [hws, List.drop_left]

theorem Tight.not_endsWithSlash {p : CStr} (hp : Tight p) : endsWithSlash p = false := by
  obtain ⟨ws, hw, rfl⟩ := hp
  rw [endsWithSlash, beq_eq_false_iff_ne]
  exact getLast?_glue_ne fun c hc => (hw c hc).word

/-- A path up to the slash that ends it. -/
theorem stem_concat {p q : CStr} (h : Stem slash q (p ++ [slash])) :
    Stem slash q p ∨ q = p ++ [slash] := by
  by_cases hle : q.length ≤ p.length
  · exact .inl (h.of_prefix (List.prefix_append _ _) hle)
  · refine .inr (h.isPrefix.eq_of_length_le ?_)
    rw [List.length_append, List.length_singleton]
    omega

/-- The host path of a directory is canonical if the root and the bindings' hosts are. -/
theorem tight_dirPlaced {ctx : Ctx} {root : CStr} {dn : List CStr} (hroot : Tight root)
    (hhosts : ∀ b ∈ ctx.bindings, Tight (unlessRoot b.host)) (hdn : ∀ c ∈ dn, IsName c) :
    Tight (dirPlaced ctx root dn) := by
  have hpath : Tight (root ++ glue slash dn) := hroot.append ⟨dn, hdn, rfl⟩
  -- a prefix of the path with its own slash ends with the path or at a directory on it
  have hrest : ∀ q : CStr, Stem slash q (root ++ pathStr dn) →
      Tight ((root ++ glue slash dn).drop q.length) := by
    intro q hq
    by_cases hne : dn = []
    · subst hne
      rw [glue_nil, List.append_nil] at hpath ⊢
      obtain h | rfl := stem_concat hq
      · exact hpath.drop h
      · rw [List.drop_eq_nil_of_le (by simp)]
        exact ⟨[], by simp, rfl⟩
    · rw [pathStr_of_ne hne] at hq
      exact hpath.drop hq
  unfold dirPlaced place
  cases hb : bestBinding ctx (pathStr dn) with
  | some b =>
    obtain ⟨hmem, hmatch⟩ := bestBinding_mem hb
    refine (hhosts b hmem).append ?_
    dsimp only
    obtain hr | hs := guestMatches_iff.1 hmatch
    · rw [if_pos hr, Nat.add_zero, List.drop_left]
      exact ⟨dn, hdn, rfl⟩
    · split
      · rw [Nat.add_zero, List.drop_left]
        exact ⟨dn, hdn, rfl⟩
      · have := hrest _ (hs.append_left root)
        rwa [List.length_append] at this
  | none =>
    dsimp only
    cases hm : mountedBinding ctx (root ++ pathStr dn) with
    | some m => exact (hhosts m (mountedBinding_mem hm)).append (hrest _ (mounted_stem hm).2)
    | none => exact (Tight.append ⟨[], by simp, rfl⟩ hpath)

/-- The host path of a directory, where it fits the buffers. -/
theorem img_dirPlaced {cs : List CStr} (hfit : (E.root ++ pathStr cs).length < pathLen)
    (hhost : (dirPlaced E.ctx E.root cs).length + 1 < pathLen) :
    E.img cs = orSlash (dirPlaced E.ctx E.root cs) ∨
      E.img cs = dirPlaced E.ctx E.root cs ++ [slash] := by
  rw [WalkEnv.img, mapToHost_place (head?_pathStr _) hfit]
  by_cases hne : cs = []
  · have hc := placed_concat (place E.ctx E.root (pathStr cs)) (E.root ++ glue slash cs)
    have hp : E.root ++ pathStr cs = E.root ++ glue slash cs ++ [slash] := by
      rw [hne, pathStr_nil, glue_nil, List.append_nil]
    rw [hp]
    rcases hc with hc | hc
    · right
      rw [hc, snprintf_of_lt (by rw [List.length_append]; exact hhost), orSlash, if_neg (by simp)]
      rfl
    · left
      rw [hc]
      exact congrArg orSlash (snprintf_of_lt (Nat.lt_of_succ_lt hhost))
  · left
    rw [dirPlaced, pathStr_of_ne hne] at hhost ⊢
    exact congrArg orSlash (snprintf_of_lt (Nat.lt_of_succ_lt hhost))

/-! ## The call -/

/-- `realpath` resolves symlinks and drops slashes at the end, and nothing else of a canonical path
that exists. -/
def RealpathResolves (P : Platform w σ) (fs : σ) : Prop :=
  ∀ p q, Tight p → p ≠ [] → (∀ d, Stem slash d p → d ≠ [] → P.readlink fs d = none) →
    UpToSlash q p → (P.stat fs q).isSome → P.realpath fs q = some p

/-- A chroot to an existing directory of the name space, with the privileges of the fake root. -/
structure ChrootCall (P : Platform w σ) (s : St w σ) (dir : CStr) : Prop where
  fake : s.ctx.hasFakeIds
  action : P.actionOf (s.sysno P) = some .chroot
  root : s.t.creds.uid.effective = 0
  target : targetPath P s .chroot = some dir
  isDir : guestDirExists P s (translatePath (s.walkEnv P true) dir pathLen).out

theorem findPathSyscall_chroot (h : P.actionOf (s.sysno P) = some .chroot) :
    findPathSyscall P.nr (s.sysno P) = some ⟨.chroot, 1, 0, .follow, 0⟩ := by
  obtain ⟨d, hd, ha, hn⟩ := actionOf_eq_some h
  have hrow : ∀ d ∈ actionTable, d.action = .chroot → d.nr = .chroot := by decide
  rw [findPathSyscall_of_is (hrow d hd ha ▸ hn)]
  rfl

theorem ChrootCall.hostPathArg_eq (h : ChrootCall P s dir) :
    hostPathArg P s (s.sysno P) 1 true = some (translatePath (s.walkEnv P true) dir pathLen).out := by
  have hdir := h.target
  unfold targetPath at hdir
  unfold hostPathArg
  cases hg : givenPath P s (targetSlot .chroot) with
  | none =>
    rw [hg] at hdir
    cases hdir
  | some given =>
    rw [hg, Option.bind_some] at hdir
    have hg' : givenPath P s 1 = some given := hg
    have hdir' : absoluteGuestPath P s (dirfdSlot P.nr (s.sysno P) 1) given (2 * pathLen) =
        some dir := hdir
    rw [hg']
    dsimp only
    rw [hdir']

/-- The entry of the call notes the canonical host path of the directory. -/
theorem ChrootCall.entry (h : ChrootCall P s dir) {top : CStr}
    (hreal : canonical P s (translatePath (s.walkEnv P true) dir pathLen).out = top)
    (hlen : top.length < pathLen) (hne : top ≠ []) :
    (onEntry P s).t.pendingRoot = top ∧ (onEntry P s).t.created = [] ∧ (onEntry P s).ctx = s.ctx := by
  have hroot : ¬(resetCall P s).t.creds.uid.effective ≠ 0 := not_not.2 h.root
  have hid : identityEntry P (resetCall P s) (s.sysno P) (some .chroot) = resetCall P s := rfl
  have harg : hostPathArg P (resetCall P s) (s.sysno P) 1 true = _ := h.hostPathArg_eq
  have hdir : guestDirExists P (resetCall P s)
      (translatePath (s.walkEnv P true) dir pathLen).out = true := h.isDir
  have hreal' : canonical P (resetCall P s) (translatePath (s.walkEnv P true) dir pathLen).out = top :=
    hreal
  have hfake : (resetCall P s).ctx.hasFakeIds := h.fake
  -- the call is neutralized with the root noted
  generalize hs1 : ({ resetCall P s with
    t := { (resetCall P s).t with pendingRoot := snprintf pathLen top } } : St w σ) = s1
  have hem : emulateChroot P (resetCall P s) (s.sysno P) (findPathSyscall P.nr (s.sysno P)) =
      neutralize P s1 1 true := by
    unfold emulateChroot
    rw [findPathSyscall_chroot h.action]
    dsimp only
    rw [harg]
    dsimp only
    rw [hdir, hreal', hs1]
    rfl
  have hn := neutralize_frame (P := P) s1 1 true
  have hpend : (neutralize P s1 1 true).t.pendingRoot = top := by
    have := congrArg (fun t : Tracee w => t.pendingRoot) hn.t
    refine Eq.trans this ?_
    rw [← hs1]
    exact snprintf_of_lt hlen
  have hcreated : (neutralize P s1 1 true).t.created = [] := by
    have := congrArg (fun t : Tracee w => t.created) hn.t
    refine Eq.trans this ?_
    rw [← hs1]
    rfl
  have hctx : (neutralize P s1 1 true).ctx = s.ctx := by
    rw [hn.ctx, ← hs1]
    rfl
  have he : emulateEntry P (resetCall P s) (s.sysno P) = (neutralize P s1 1 true, true) := by
    unfold emulateEntry
    rw [if_pos hfake, h.action, hid, emulateMounts, if_neg hroot]
    dsimp only
    rw [hem, hpend]
    simp [hne]
  have hon : onEntry P s = neutralize P s1 1 true := by
    unfold onEntry
    dsimp only
    rw [show (resetCall P s).t.sysno = s.sysno P from rfl, he]
    rfl
  rw [hon]
  exact ⟨hpend, hcreated, hctx⟩

/-- **A chroot makes the canonical host path of the directory the root**, and changes no binding. -/
theorem ChrootCall.after (h : ChrootCall P s dir) {top : CStr}
    (hreal : canonical P s (translatePath (s.walkEnv P true) dir pathLen).out = top)
    (hlen : top.length < pathLen) (hne : top ≠ []) (kern : Kernel w σ) :
    (afterCall P s kern).t.root = top ∧ (afterCall P s kern).ctx = s.ctx ∧
    (afterCall P s kern).fs = kern.fs := by
  obtain ⟨hpend, hcreated, hctx⟩ := h.entry hreal hlen hne
  have hcommit : ∀ ret, commitCreated P (atExit P s kern) ret = atExit P s kern := fun ret =>
    if_pos hcreated
  have hpend' : (atExit P s kern).t.pendingRoot = top := hpend
  have hex : ∀ buf ret, exitAction P (atExit P s kern) buf .chroot ret =
      { atExit P s kern with
        t := { (atExit P s kern).t with root := top, pendingRoot := [] } }.setRet P 0 := by
    intro buf ret
    unfold exitAction
    rw [if_neg (by decide), if_neg (by decide), if_pos ⟨rfl, by rw [hpend']; exact hne⟩, hpend']
  unfold afterCall onExit onExitAt
  dsimp only
  rw [hcommit, atExit_sysno, show P.actionOf (s.regs P.arch.sysno).toInt = some .chroot from h.action]
  dsimp only
  rw [hex]
  exact ⟨rfl, hctx, rfl⟩

/-- What the process's lookups go through after the call, where no symlink is on the directory's host
path. -/
theorem ChrootCall.walkEnv (h : ChrootCall P s dir) (hreal : RealpathResolves P s.fs) {top : CStr}
    (htop : Tight top) (hne : top ≠ [])
    (hlinks : ∀ d, Stem slash d top → d ≠ [] → P.readlink s.fs d = none)
    (hhost : UpToSlash (translatePath (s.walkEnv P true) dir pathLen).out top)
    (hlen : top.length < pathLen) (kern : Kernel w σ) (follow : Bool) :
    (afterCall P s kern).walkEnv P follow = ⟨s.ctx, top, P.readlink kern.fs, follow⟩ := by
  have hisDir : (P.stat s.fs (translatePath (s.walkEnv P true) dir pathLen).out).isSome := by
    have := h.isDir
    unfold guestDirExists at this
    cases hst : P.stat s.fs (translatePath (s.walkEnv P true) dir pathLen).out with
    | none =>
      rw [hst] at this
      cases this
    | some st => rfl
  have hcanon : canonical P s (translatePath (s.walkEnv P true) dir pathLen).out = top := by
    unfold canonical
    rw [hreal top _ htop hne hlinks hhost hisDir]
    rfl
  obtain ⟨h1, h2, h3⟩ := h.after hcanon hlen hne kern
  rw [St.walkEnv, h1, h2, h3]

/-! ## A chroot to `/sub` -/

/-- A host with the directory `/r/sub`. -/
def subPlatform : Platform 64 Unit :=
  { linuxPlatform with
    stat := fun _ p => if p = cstr "/r/sub" then some ⟨1, 2, 0, 0, S_IFDIR⟩ else none
    realpath := fun _ p => some (p.rdropWhile (· == slash)) }

end Emuroot
