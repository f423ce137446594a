import Emuroot.Proof.Links
import Emuroot.Proof.RelativeExec
import Emuroot.Proof.ReportedPaths
import Emuroot.Proof.Rounds
import Emuroot.Proof.Subtree

/-!
# The name of the program

For a program that runs through a loader, `/proc/self/exe` shows the name that the program has been
given (`onEntry_noted`, `onExit_exec`); for any other, the kernel's link is mapped back.
`exe_canonical_iff`: what is shown is the canonical guest path of the file exactly if the mapping
takes the name of the file back to the file, and the program has not been given another. A link that
has been followed to the program is shown instead of it: `link_shown`.
-/

namespace Emuroot

open Words Relation

variable {w : Nat} {σ : Type} {P : Platform w σ} {s s' : St w σ} {p q name : CStr}
  {ls : List (CStr × Option CStr)}

/-! ## The name that an exec notes -/

/-- The tracer has a loader run `q`: the program of an execve, or the last interpreter of a script. -/
structure ByLoader (P : Platform w σ) (s : St w σ) (q : CStr) : Prop where
  call : P.nr.is .execve (s.sysno P) = true
  room : P.calloc s.fs (maxExecArgs + 16) = true
  argv : s.arg P 2 ≠ 0 ∧ readArgv s.mem P.arch.bigEndian (s.arg P 2) maxExecArgs ≠ []
  path : s.arg P 1 ≠ 0
  chain : ∃ p ls, guestReadStr s.mem (s.arg P 1) pathLen = some p ∧
    Scripts P s (P.content s.fs) p ls q ∧ ls.length < maxShebangDepth
  ends : scriptAt (P.content s.fs) (hostPathOf P s q pathLen) = none
  loader : (usesLoader P s q).isSome = true

theorem expandExec_pending {e : ExecState w} {depth : Nat} (h : Scripts P s (P.content s.fs) p ls q)
    (hlen : ls.length < depth) (he : e.execPath = p)
    (hend : scriptAt (P.content s.fs) (hostPathOf P s q pathLen) = none) :
    (expandExec P s depth e).pendingExe =
      if (usesLoader P s q).isSome then guestAbsolute P s q pathLen else e.pendingExe := by
  induction h generalizing e depth with
  | here p =>
    obtain ⟨d, rfl⟩ : ∃ d, depth = d + 1 := ⟨depth - 1, by omega⟩
    subst he
    rw [expandExec]
    dsimp only
    unfold usesLoader
    cases hf : P.content s.fs (hostPathOf P s e.execPath pathLen) with
    | none => rfl
    | some f =>
      have hparse : parseShebang (f.take 256) = none := by
        rw [scriptAt, hf] at hend
        exact hend
      dsimp only
      rw [hparse]
      dsimp only
      cases hl : elfInterp P.offBits P.arch.bigEndian f pathLen with
      | none => simp [hl]
      | some loader =>
        dsimp only
        rw [← loaderHost]
        cases has : loaderAsIs P s.fs loader (loaderHost P s loader) with
        | true => simp [hl, has]
        | false => simp [hl, has, Option.filter]
  | next hs _ ih =>
    obtain ⟨d, rfl⟩ : ∃ d, depth = d + 1 := ⟨depth - 1, by omega⟩
    rw [expandExec_script (he ▸ hs)]
    exact ih (Nat.lt_of_succ_lt_succ hlen) rfl hend

theorem expandExec_pending_long {e : ExecState w} {depth : Nat}
    (h : Scripts P s (P.content s.fs) p ls q) (hlen : ls.length = depth) (he : e.execPath = p) :
    (expandExec P s depth e).pendingExe = e.pendingExe := by
  induction h generalizing e depth with
  | here p =>
    subst hlen
    rfl
  | next hs _ ih =>
    subst hlen
    rw [List.length_cons, expandExec_script (he ▸ hs), ih rfl rfl]
    rfl

theorem placeBlock_kept {host : CStr} {args : List (EArg w)} :
    (placeBlock P s 1 2 host args).1.t.pendingExe = s.t.pendingExe ∧
      (placeBlock P s 1 2 host args).1.t.created = s.t.created := by
  have h := (placeBlock_frame (P := P) s 1 2 host args).t
  have hp := congrArg Tracee.pendingExe h
  have hc := congrArg Tracee.created h
  exact ⟨hp, hc⟩

/-- The state of the expansion loop at its start. -/
def loopStart (P : Platform w σ) (s : St w σ) (p : CStr) : ExecState w where
  execPath := p
  host := []
  args := readArgv s.mem P.arch.bigEndian (s.arg P 2) maxExecArgs
  rewritten := false
  pendingExe := s.t.pendingExe
  cache := s.ctx.loaderCache

theorem rewriteExec_pending (h1 : s.arg P 1 ≠ 0)
    (hp : guestReadStr s.mem (s.arg P 1) pathLen = some p) (h2 : s.arg P 2 ≠ 0)
    (hargs : readArgv s.mem P.arch.bigEndian (s.arg P 2) maxExecArgs ≠ [])
    (hroom : P.calloc s.fs (maxExecArgs + 16) = true) :
    (rewriteExec P s 1 2).1.t.pendingExe =
      (expandExec P s maxShebangDepth (loopStart P s p)).pendingExe := by
  unfold rewriteExec
  rw [if_neg (by simp only [h1, h2, or_self, not_false_eq_true]), hp]
  dsimp only
  rw [if_neg (by simp only [hroom, hargs, Bool.not_true, Bool.false_eq_true, or_self,
    not_false_eq_true])]
  split
  · exact placeBlock_kept.1
  · rfl

/-- **What the entry of an execve notes**: the guest's name for a program that a loader runs. -/
theorem rewriteExec_noted (hx : P.nr.is .execve (s.sysno P) = true) (h0 : s.t.pendingExe = []) :
    (∃ q, ByLoader P s q ∧ (rewriteExec P s 1 2).1.t.pendingExe = guestAbsolute P s q pathLen) ∨
      (∀ q, ¬ByLoader P s q) ∧ (rewriteExec P s 1 2).1.t.pendingExe = [] := by
  by_cases hcall : s.arg P 1 ≠ 0 ∧ s.arg P 2 ≠ 0 ∧
      readArgv s.mem P.arch.bigEndian (s.arg P 2) maxExecArgs ≠ [] ∧
      P.calloc s.fs (maxExecArgs + 16) = true ∧
      ∃ p, guestReadStr s.mem (s.arg P 1) pathLen = some p
  · obtain ⟨h1, h2, hargs, hroom, p, hp⟩ := hcall
    rw [rewriteExec_pending h1 hp h2 hargs hroom]
    obtain ⟨ls, q, hls, hlen, hend⟩ := ScriptsAt.within (hostPathOf P s · pathLen) (P.content s.fs)
      maxShebangDepth p
    rcases Nat.lt_or_ge ls.length maxShebangDepth with hlt | hge
    · have hq := hend.resolve_left (Nat.ne_of_lt hlt)
      rw [expandExec_pending (e := loopStart P s p) hls hlt rfl hq]
      cases hl : (usesLoader P s q).isSome with
      | true => exact .inl ⟨q, ⟨hx, hroom, ⟨h2, hargs⟩, h1, ⟨p, ls, hp, hls, hlt⟩, hq, hl⟩, if_pos rfl⟩
      | false =>
        refine .inr ⟨fun q' h => ?_, h0⟩
        obtain ⟨p', ls', hp', hls', -⟩ := h.chain
        obtain rfl := Option.some.inj (hp.symm.trans hp')
        obtain ⟨-, rfl⟩ := hls.unique hls' hq h.ends
        exact Bool.false_ne_true (hl.symm.trans h.loader)
    · have hfull := Nat.le_antisymm hlen hge
      rw [expandExec_pending_long (e := loopStart P s p) hls hfull rfl]
      refine .inr ⟨fun q' h => ?_, h0⟩
      obtain ⟨p', ls', hp', hls', hlt⟩ := h.chain
      obtain rfl := Option.some.inj (hp.symm.trans hp')
      have := hls.length_le hls' h.ends
      omega
  · refine .inr ⟨fun q h => ?_, ?_⟩
    · obtain ⟨p, ls, hp, -⟩ := h.chain
      exact hcall ⟨h.path, h.argv.1, h.argv.2, h.room, p, hp⟩
    · have heq : rewriteExec P s 1 2 = (s, 0) := by
        unfold rewriteExec
        split
        · rfl
        · rename_i hne
          obtain ⟨h1, h2⟩ := not_or.1 hne
          split
          · rfl
          · rename_i p hp
            apply if_pos
            by_contra hno
            obtain ⟨hroom, hargs⟩ := not_or.1 hno
            exact hcall ⟨h1, h2, hargs, by simpa using hroom, p, hp⟩
      rw [heq]
      exact h0

variable {E : WalkEnv} {cs ds : List CStr} {file shown : CStr}

/-! ## Canonical names -/

/-- A file that the kernel runs, by the path that it shows for it: there is no link on the way, and
the file is none of `/proc`. -/
structure RunFile (rl : CStr → Option CStr) (file : CStr) (cs : List CStr) : Prop where
  ne : cs ≠ []
  names : ∀ c ∈ cs, IsName c
  text : file = pathStr cs
  linkless : ∀ k, 1 ≤ k → k ≤ cs.length → rl (pathStr (cs.take k)) = none
  proc : underProc file = false

/-- The guest path of a host file that its lookup by the kernel is mapped back to, without a link on
the way, and which is translated to the file. -/
structure CanonicalName (E : WalkEnv) (file shown : CStr) : Prop where
  same : hostToGuest E.ctx E.root file pathLen = some shown
  plain : ∃ ds, Readable ds ∧ ds ≠ [] ∧ shown = pathStr ds ∧ Resolved E ds
  leads : (translatePath E shown pathLen).out = file

/-- The name of a host file is mapped to the file again, and the directories above a binding on the
way are no links, and not under `/proc`. -/
structure NamedBack (E : WalkEnv) (file : CStr) (ds : List CStr) : Prop where
  readable : Readable ds
  ne : ds ≠ []
  name : hostToGuest E.ctx E.root file pathLen = some (pathStr ds)
  back : E.img ds = file
  above : ∀ k, 1 ≤ k → k < ds.length → ¬Stem slash (E.img (ds.take k)) file → Passes E (ds.take k)

/-- The walk over a name that has no links on the way. -/
theorem translate_passed (hmap : unmapped E.ctx E.root = false) (hds : Readable ds) (hne : ds ≠ [])
    (hpass : ∀ k, 1 ≤ k → k < ds.length → Passes E (ds.take k)) (hl : E.rl (E.img ds) = none) :
    (translatePath { E with followLast := true } (pathStr ds) pathLen).out = E.img ds := by
  have hfit : (pathStr ds).length < 2 * pathLen := by
    have := hds.fits
    omega
  have hout : (translatePath { E with followLast := false } (pathStr ds) pathLen).out = E.img ds := by
    have hs := stopsAt_straight (E := { E with followLast := false }) hds rfl hpass hne
    rw [translatePath, (translate_stopsAt hs (head?_pathStr ds) hmap 0).1, unwalked_last hs hfit]
    rfl
  have h := translate_unfollowed (E := { E with followLast := false }) (head?_pathStr ds) hfit
    (by rw [hout]; exact hl)
  exact h.trans hout

/-- A name that leads to a file outside `/proc` passes no directory under it. -/
theorem passes_of_leads (hmap : unmapped E.ctx E.root = false) (hds : Readable ds)
    (hres : Resolved E ds) (hout : underProc (translatePath E (pathStr ds) pathLen).out = false)
    (k : Nat) (h1 : 1 ≤ k) (hk : k < ds.length) : Passes E (ds.take k) := by
  induction k using Nat.strongRecOn with
  | ind k ih =>
    refine ⟨?_, hres k h1 (Nat.le_of_lt hk)⟩
    by_contra hp
    have hw : WayTo E ds k :=
      ⟨Nat.le_of_lt hk, fun i hi hik => ih i hik hi (by omega), fun _ => ⟨h1, by simpa using hp⟩⟩
    have hs := stopsAt_proc hds hw hk
    obtain ⟨r, hr, -⟩ := unwalked_eq_append E ⟨ds.take k, glue slash (ds.drop k), false, 0⟩
    rw [translatePath, (translate_stopsAt hs (head?_pathStr ds) hmap 0).1, hr,
      underProc_append (by simpa using hp)] at hout
    cases hout

/-- **Canonical names** are those that the mapping takes back to the file. -/
theorem canonicalName_iff (hf : E.followLast = true) (hfile : RunFile E.rl file cs) :
    CanonicalName E file shown ↔ ∃ ds, NamedBack E file ds ∧ shown = pathStr ds := by
  have hmapped : ∀ {name : CStr}, hostToGuest E.ctx E.root file pathLen = some name →
      unmapped E.ctx E.root = false := by
    intro name h
    by_contra hun
    rw [hostToGuest_unmapped (by simpa using hun)] at h
    cases h
  have hE : { E with followLast := true } = E := by
    rw [← hf]
  constructor
  · rintro ⟨hsame, ⟨ds, hds, hne, rfl, hres⟩, hleads⟩
    have hmap := hmapped hsame
    have hpass := passes_of_leads hmap hds hres (by rw [hleads]; exact hfile.proc)
    refine ⟨ds, ⟨hds, hne, hsame, ?_, fun k h1 hk _ => hpass k h1 hk⟩, rfl⟩
    have hl : E.rl (E.img ds) = none := by
      have := hres ds.length (List.length_pos_iff.2 hne) (Nat.le_refl _)
      rwa [List.take_length] at this
    have hout := translate_passed hmap hds hne hpass hl
    rw [hE, hleads] at hout
    exact hout.symm
  · rintro ⟨ds, h, rfl⟩
    have hmap := hmapped h.name
    -- what lies on the way to the file is a directory of its path
    have hway : ∀ k, 1 ≤ k → k ≤ ds.length → Stem slash (E.img (ds.take k)) file →
        Passes E (ds.take k) := by
      intro k _ _ hst
      constructor
      · by_contra hp
        obtain ⟨r, hr, -⟩ := hst
        have := hfile.proc
        rw [hr, underProc_append (by simpa using hp)] at this
        cases this
      · rw [hfile.text, pathStr_of_ne hfile.ne] at hst
        obtain ⟨j, hj, he⟩ := stem_glue (fun c hc => (hfile.names c hc).word) hst
        have hne : E.img (ds.take k) ≠ [] := mapToHost_ne_nil fun h0 => by
          have := head?_pathStr (ds.take k)
          rw [h0] at this
          cases this
        have hj0 : cs.take j ≠ [] := by
          rintro h0
          rw [h0] at he
          exact hne he
        rw [he, ← pathStr_of_ne hj0]
        refine hfile.linkless j ?_ hj
        by_contra hlt
        rw [show j = 0 by omega] at hj0
        exact hj0 rfl
    have hpass : ∀ k, 1 ≤ k → k < ds.length → Passes E (ds.take k) := by
      intro k h1 hk
      by_cases hst : Stem slash (E.img (ds.take k)) file
      · exact hway k h1 (Nat.le_of_lt hk) hst
      · exact h.above k h1 hk hst
    have hlast : E.rl (E.img ds) = none := by
      rw [h.back, hfile.text]
      have := hfile.linkless cs.length (List.length_pos_iff.2 hfile.ne) (Nat.le_refl _)
      rwa [List.take_length] at this
    refine ⟨h.name, ⟨ds, h.readable, h.ne, rfl, fun k h1 hk => ?_⟩, ?_⟩
    · rcases Nat.lt_or_eq_of_le hk with hlt | rfl
      · exact (hpass k h1 hlt).2
      · rw [List.take_length]
        exact hlast
    · have hout := translate_passed hmap h.readable h.ne hpass hlast
      rw [hE, h.back] at hout
      exact hout


/-! ## The exec -/

section
variable (P : Platform w σ)

/-- The host path of the file that a process opens as `q`. -/
def openedAs (s : St w σ) (q : CStr) : CStr :=
  match absoluteGuestPath P s 0 q (2 * pathLen) with
  | some guest => (translatePath (s.walkEnv P true) guest pathLen).out
  | none => s.kernelPath P q

/-- The host file that runs behind the exec that is entered in `s` and left in `s'`: what the loader
opens, or what the kernel has for its own link. -/
inductive Runs (s s' : St w σ) (image : CStr) : CStr → List CStr → Prop
  | byLoader {q : CStr} {cs : List CStr} (h : ByLoader P s q)
    (hl : LeadsTo (P.readlink s'.fs) (openedAs P s' q) cs) : Runs s s' image (pathStr cs) cs
  | direct {cs : List CStr} (h : ∀ q, ¬ByLoader P s q) (hi : image = pathStr cs) :
    Runs s s' image image cs

/-- An exec that is entered in `s` and has succeeded in `s'`: `file` is run, `image` is the text of
the kernel's link to the program. -/
structure ExecDone (s s' : St w σ) (image file : CStr) : Prop where
  call : P.nr.is .execve (s.sysno P) = true ∨ P.nr.is .execveat (s.sysno P) = true
  kept : s'.t = (onEntry P s).t
  ret : s'.regs P.arch.ret = 0
  runs : ∃ cs, Runs P s s' image file cs ∧ RunFile (P.readlink s'.fs) file cs

/-- What a readlink of `/proc/self/exe` shows. -/
def exeShown (s : St w σ) (image : CStr) : CStr :=
  if s.t.exe ≠ [] then s.t.exe else (hostToGuest s.ctx s.t.root image pathLen).getD image

/-- The name that a program has been given: from the working directory on, if it is relative. -/
inductive GivenAs (s : St w σ) (q : CStr) : CStr → Prop
  | absolute (h : q.head? = some slash) : GivenAs s q (snprintf pathLen q)
  | relative (h : q.head? ≠ some slash) (hroom : (cwdName P s).length + 1 < pathLen) : GivenAs s q
      (snprintf pathLen (cwdName P s ++ (if (cwdName P s).length > 1 then [slash] else []) ++ q))
  -- the directory's name and a slash fill the array, without a NUL
  | filled (h : q.head? ≠ some slash) (hfull : (cwdName P s).length + 1 = pathLen) :
      GivenAs s q (cwdName P s ++ [slash])

/-- What the exec has for the name of its program is `name`, if it has something. -/
structure SpelledAs (s : St w σ) (name : CStr) : Prop where
  given : ∀ q, ByLoader P s q → GivenAs P s q name
  left : P.nr.is .execve (s.sysno P) = false → s.t.exe = [] ∨ s.t.exe = name

end

/-- What is appended behind a name that leaves room for it. -/
theorem snprintf_behind {size : Nat} {x y : CStr} (h : x.length < size) :
    x ++ snprintf (size - x.length) y = snprintf size (x ++ y) := by
  rw [snprintf, snprintf, List.take_append, List.take_of_length_le (Nat.le_sub_one_of_lt h)]
  congr 2
  omega

theorem givenAs_iff : GivenAs P s q name ↔ guestAbsolute P s q pathLen = name := by
  have hlen := length_cwdName (P := P) s
  have hself : snprintf pathLen (cwdName P s) = cwdName P s :=
    List.take_of_length_le (Nat.le_pred_of_lt hlen)
  have hroomed : (cwdName P s).length + 1 < pathLen → q.head? ≠ some slash →
      guestAbsolute P s q pathLen = snprintf pathLen
        (cwdName P s ++ (if (cwdName P s).length > 1 then [slash] else []) ++ q) := by
    intro hroom hq
    unfold guestAbsolute
    dsimp only
    rw [if_neg hq, ← cwdName_eq, hself]
    by_cases hone : 1 < (cwdName P s).length
    · have hroom' : (cwdName P s ++ [slash]).length < pathLen := by simpa using hroom
      rw [if_pos (And.intro hone hlen), if_pos hone, ← List.length_append, if_pos hroom',
        snprintf_behind hroom']
    · have hroom' : (cwdName P s ++ []).length < pathLen := by simpa using hlen
      rw [if_neg (mt And.left hone), if_neg hone, ← List.length_append, if_pos hroom',
        snprintf_behind hroom']
  have hfilled : (cwdName P s).length + 1 = pathLen → q.head? ≠ some slash →
      guestAbsolute P s q pathLen = cwdName P s ++ [slash] := by
    intro hfull hq
    have hone : 1 < (cwdName P s).length := by
      have : pathLen = 4096 := rfl
      omega
    unfold guestAbsolute
    dsimp only
    rw [if_neg hq, ← cwdName_eq, hself, if_pos (And.intro hone hlen),
      if_neg (by rw [List.length_singleton]; omega)]
  constructor
  · intro h
    cases h with
    | absolute h => exact if_pos h
    | relative h hroom => exact hroomed hroom h
    | filled h hfull => exact hfilled hfull h
  · rintro rfl
    by_cases hq : q.head? = some slash
    · rw [show guestAbsolute P s q pathLen = snprintf pathLen q from if_pos hq]
      exact .absolute hq
    · rcases Nat.lt_or_eq_of_le hlen with hroom | hfull
      · rw [hroomed hroom hq]
        exact .relative hq hroom
      · rw [hfilled hfull hq]
        exact .filled hq hfull

theorem orSlash_ne_nil (x : CStr) : orSlash x ≠ [] := by
  unfold orSlash
  split
  · exact List.cons_ne_nil _ _
  · assumption

theorem hostToGuest_ne_nil {ctx : Ctx} {root host name : CStr} {n : Nat}
    (h : hostToGuest ctx root host n = some name) : name ≠ [] := by
  unfold hostToGuest at h
  split at h
  · cases h
    exact orSlash_ne_nil _
  · split at h
    · cases h
      exact orSlash_ne_nil _
    · cases h

theorem guestAbsolute_ne_nil (s : St w σ) (q : CStr) : guestAbsolute P s q pathLen ≠ [] := by
  have hcut : ∀ x : CStr, x ≠ [] → snprintf pathLen x ≠ [] := by
    intro x hx h
    rw [snprintf, List.take_eq_nil_iff] at h
    exact h.elim (by decide) hx
  have hg : GivenAs P s q (guestAbsolute P s q pathLen) := givenAs_iff.2 rfl
  generalize guestAbsolute P s q pathLen = name at hg
  cases hg with
  | absolute h =>
    apply hcut
    rintro rfl
    cases h
  | relative h _ =>
    apply hcut
    intro h
    have hc : cwdName P s ≠ [] := by
      rw [cwdName_eq]
      split
      · exact List.cons_ne_nil _ _
      · cases hn : hostToGuest s.ctx s.t.root (realCwd P s) pathLen with
        | none => exact List.cons_ne_nil _ _
        | some name => exact hostToGuest_ne_nil hn
    exact hc (List.append_eq_nil_iff.1 (List.append_eq_nil_iff.1 h).1).1
  | filled _ _ => exact List.append_ne_nil_of_right_ne_nil _ (List.cons_ne_nil _ _)

/-! ### The entry -/

theorem byLoader_reset : ByLoader P (resetCall P s) q ↔ ByLoader P s q := by
  constructor
  · rintro ⟨hc, hr, ha, hp, ⟨p, ls, hg, hs, hl⟩, he, hu⟩
    exact ⟨hc, hr, ha, hp, ⟨p, ls, hg, hs.congr rfl fun _ _ => rfl, hl⟩, he, hu⟩
  · rintro ⟨hc, hr, ha, hp, ⟨p, ls, hg, hs, hl⟩, he, hu⟩
    exact ⟨hc, hr, ha, hp, ⟨p, ls, hg, hs.congr rfl fun _ _ => rfl, hl⟩, he, hu⟩

theorem rewriteExec_created (s : St w σ) : (rewriteExec P s 1 2).1.t.created = s.t.created := by
  unfold rewriteExec
  split
  · rfl
  split
  · rfl
  dsimp only
  split
  · rfl
  split
  · exact placeBlock_kept.2
  · rfl

/-- **What the entry of an execve notes**: the name that a program for a loader has been given. -/
theorem onEntry_noted (hx : P.nr.is .execve (s.sysno P) = true) :
    ((∃ q, ByLoader P s q ∧ (onEntry P s).t.pendingExe = guestAbsolute P s q pathLen) ∨
      (∀ q, ¬ByLoader P s q) ∧ (onEntry P s).t.pendingExe = []) ∧
    (onEntry P s).t.created = [] ∧ (onEntry P s).t.sysno = s.sysno P := by
  have hentry : (onEntry P s).t.pendingExe = (rewriteExec P (resetCall P s) 1 2).1.t.pendingExe ∧
      (onEntry P s).t.created = (rewriteExec P (resetCall P s) 1 2).1.t.created := by
    rw [onEntry_execve hx]
    unfold execEntry
    split
    · exact ⟨rfl, rfl⟩
    · rw [rewritePaths_execve hx]
      generalize (rewriteExec P (resetCall P s) 1 2).1 = u
      have h := (rewritePathArg_frame (P := P) u (s.sysno P) 1 true 0).t
      have hp := congrArg Tracee.pendingExe h
      have hc := congrArg Tracee.created h
      exact ⟨hp, hc⟩
  rw [hentry.1, hentry.2]
  have hnoted := rewriteExec_noted (s := resetCall P s) hx rfl
  simp only [byLoader_reset] at hnoted
  have hsys := congrArg Tracee.sysno (onEntry_frame (P := P) s).t
  exact ⟨hnoted, rewriteExec_created _, hsys⟩

theorem rewritePaths_execveat {n : Int} (hx : P.nr.is .execveat n) :
    rewritePaths P s n = rewritePathArg P s n 2 true 0 := by
  have hnot : ∀ z ∈ [Sys.bind, .connect, .sendto, .execve], P.nr.is z n = false := by
    intro z hz
    rw [Numbers.is_eq hx]
    apply decide_eq_false
    rintro rfl
    revert hz
    decide
  have htable : findPathSyscall P.nr n = none := (findPathSyscall_of_is hx).trans rfl
  unfold rewritePaths
  rw [hnot .bind (by decide), hnot .connect (by decide), hnot .sendto (by decide),
    hnot .execve (by decide), htable, hx]
  rfl

/-- An execveat notes nothing. -/
theorem onEntry_execveat (hx : P.nr.is .execveat (s.sysno P) = true) :
    P.actionOf (s.sysno P) = none ∧ (onEntry P s).t.sysno = s.sysno P ∧
      (onEntry P s).t.created = [] ∧ (onEntry P s).t.exe = s.t.exe := by
  have ha : P.actionOf (s.sysno P) = none := by
    have ha : P.actionOf (s.sysno P) = _ := actionOf_of_is hx
    rw [ha]
    cases lp64 w <;> rfl
  have he : onEntry P s = rewritePaths P (resetCall P s) (s.sysno P) := onEntry_noAction ha
  rw [he, rewritePaths_execveat hx]
  have h := (rewritePathArg_frame (P := P) (resetCall P s) (s.sysno P) 2 true 0).t
  have hs := congrArg Tracee.sysno h
  have hc := congrArg Tracee.created h
  have hexe := congrArg Tracee.exe h
  exact ⟨ha, hs, hc, hexe⟩

/-! ### The exit -/

theorem commitCreated_none (h : s.t.created = []) (ret : Int) : commitCreated P s ret = s :=
  if_pos h

/-- **The exit of an exec** puts the name in place; that of an execveat leaves the last one. -/
theorem onExit_exec (hcall : P.nr.is .execve (s.sysno P) = true ∨ P.nr.is .execveat (s.sysno P) = true)
    (hkept : s'.t = (onEntry P s).t) (hret : s'.regs P.arch.ret = 0) :
    onExit P s' =
      let exe := if P.nr.is .execve (s.sysno P) then (onEntry P s).t.pendingExe else s.t.exe
      { s' with t := { s'.t with exe := exe } } := by
  by_cases hx : P.nr.is .execve (s.sysno P) = true
  · obtain ⟨-, hc, hs⟩ := onEntry_noted hx
    have hact : P.actionOf s'.t.sysno = some .execve := by
      rw [hkept, hs]
      have ha : P.actionOf (s.sysno P) = _ := actionOf_of_is hx
      rw [ha]
      cases lp64 w <;> rfl
    unfold onExit onExitAt
    dsimp only
    rw [commitCreated_none (hkept ▸ hc), hact, if_pos hx]
    dsimp only
    unfold exitAction
    rw [if_neg nofun, if_pos rfl, hret, if_pos (by simp), hkept]
  · obtain ⟨ha, hs, hc, hexe⟩ := onEntry_execveat (hcall.resolve_left hx)
    have hnone : P.actionOf s'.t.sysno = none := by rw [hkept, hs, ha]
    have hlast : s.t.exe = s'.t.exe := by rw [hkept, hexe]
    unfold onExit onExitAt
    dsimp only
    rw [commitCreated_none (hkept ▸ hc), hnone, if_neg hx, hlast]


/-! ## What is shown -/

theorem ByLoader.unique {q' : CStr} (h : ByLoader P s q) (h' : ByLoader P s q') : q = q' := by
  obtain ⟨p, ls, hp, hls, -⟩ := h.chain
  obtain ⟨p', ls', hp', hls', -⟩ := h'.chain
  obtain rfl := Option.some.inj (hp.symm.trans hp')
  exact (hls.unique hls' h.ends h'.ends).2

/-- The name of the file is shown just when the exec has no other for it. -/
theorem exeShown_iff {image file : CStr} (h : ExecDone P s s' image file)
    (hn : hostToGuest s'.ctx s'.t.root file pathLen = some name) :
    exeShown (onExit P s') image = name ↔ SpelledAs P s name := by
  obtain ⟨cs, hruns, -⟩ := h.runs
  have hexit := onExit_exec h.call h.kept h.ret
  -- without a name noted, the link of the kernel is mapped back
  have hdirect : (∀ q, ¬ByLoader P s q) → (onExit P s').t.exe = [] →
      exeShown (onExit P s') image = name := by
    intro hno he
    have hi : image = file := by
      cases hruns with
      | byLoader hq => exact (hno _ hq).elim
      | direct => rfl
    rw [exeShown, if_neg (by simp [he]), hexit, hi]
    exact (congrArg (Option.getD · file) hn).trans rfl
  have hnoted : ∀ {x : CStr}, (onExit P s').t.exe = x → x ≠ [] → exeShown (onExit P s') image = x := by
    rintro x rfl hx
    exact if_pos hx
  by_cases hx : P.nr.is .execve (s.sysno P) = true
  · have hexe : (onExit P s').t.exe = (onEntry P s).t.pendingExe := by
      rw [hexit]
      exact if_pos hx
    rcases (onEntry_noted hx).1 with ⟨q, hq, hp⟩ | ⟨hno, hp⟩
    · rw [hnoted (hexe.trans hp) (guestAbsolute_ne_nil s q), ← givenAs_iff]
      constructor
      · intro hg
        refine ⟨fun q' hq' => hq.unique hq' ▸ hg, fun hf => ?_⟩
        rw [hx] at hf
        cases hf
      · exact fun hs => hs.given q hq
    · refine iff_of_true (hdirect hno (hexe.trans hp)) ⟨fun q hq => (hno q hq).elim, fun hf => ?_⟩
      rw [hx] at hf
      cases hf
  · have hexe : (onExit P s').t.exe = s.t.exe := by
      rw [hexit]
      exact if_neg hx
    have hno : ∀ q, ¬ByLoader P s q := fun q hq => hx hq.call
    by_cases h0 : s.t.exe = []
    · exact iff_of_true (hdirect hno (hexe.trans h0)) ⟨fun q hq => (hno q hq).elim, fun _ => .inl h0⟩
    · rw [hnoted hexe h0]
      constructor
      · exact fun he => ⟨fun q hq => (hno q hq).elim, fun _ => .inr he⟩
      · exact fun hs => (hs.left (by simpa using hx)).resolve_left h0

/-- **The reported program path is canonical** just when the mapping takes the name of the file back
to the file, and the exec has been given no other name for it. -/
theorem exe_canonical_iff {image file : CStr} (h : ExecDone P s s' image file) :
    CanonicalName ((onExit P s').walkEnv P true) file (exeShown (onExit P s') image) ↔
      ∃ ds, NamedBack (s'.walkEnv P true) file ds ∧ SpelledAs P s (pathStr ds) := by
  obtain ⟨cs, -, hfile⟩ := h.runs
  have hE : (onExit P s').walkEnv P true = s'.walkEnv P true := by
    rw [onExit_exec h.call h.kept h.ret]
    rfl
  rw [hE, canonicalName_iff rfl hfile]
  constructor
  · rintro ⟨ds, hd, hs⟩
    exact ⟨ds, hd, (exeShown_iff h hd.name).1 hs⟩
  · rintro ⟨ds, hd, hs⟩
    exact ⟨ds, hd, (exeShown_iff h hd.name).2 hs⟩

/-- **A readlink of the program's link** that has the room for a path shows it. -/
theorem readlink_shows {m : Memory w} {image : CStr} (h : ReadlinkDone P m s image)
    (hexe : s.t.procLinkExe = true) (hsize : pathLen ≤ linkTaken P s)
    (hroom : m.canWrite (linkBuf P s) pathLen = true) :
    LinkReported P m s (onExit P s) (exeShown s image) := by
  have hshort := h.short
  have htake : image.take (linkTaken P s) = image := List.take_of_length_le (by omega)
  have hsize' : pathLen ≤ linkSize P s := Nat.le_trans hsize (linkTaken_le s)
  have hfound : ∀ {a : CStr}, a.length < pathLen → foundAnswer s image = some a →
      exeShown s image = a → LinkReported P m s (onExit P s) (exeShown s image) := by
    rintro a ha hf rfl
    have hcan : m.canWrite (linkBuf P s) (min (exeShown s image).length (linkSize P s)) = true :=
      Memory.canWrite_le hroom (by omega)
    rw [h.found_iff ha (by rw [htake, hf]) (by omega), if_pos hcan]
  by_cases he : s.t.exe = []
  · have hf : foundAnswer s image = hostToGuest s.ctx s.t.root image pathLen := by
      rw [foundAnswer, if_neg (by simp [he]), hostToGuest_eq _ _ _ (by decide)]
    have hs : exeShown s image = (hostToGuest s.ctx s.t.root image pathLen).getD image :=
      if_neg (by simp [he])
    cases hn : hostToGuest s.ctx s.t.root image pathLen with
    | some a =>
      rw [hn] at hf hs
      exact hfound (length_hostToGuest_lt hn) hf hs
    | none =>
      rw [hn] at hf hs
      rw [hs, h.left_iff (by rw [htake, hf]) (by dsimp only [Option.getD_none]; omega), htake]
      exact (List.take_of_length_le (by omega)).symm
  · exact hfound h.exe (if_pos ⟨hexe, he⟩) (if_pos he)

/-! ## A link to a program -/

/-- In the root `/r`, `/t` is a link to `/bin/tool`, which is for the loader `/l`. -/
def linkedTool : Platform 64 Unit :=
  linkedHost [(cstr "/r/bin/tool", elfFile (cstr "/l"))] [(cstr "/r/t", cstr "/bin/tool")]

/-- `execve(p, {"t"}, ...)` has succeeded. -/
def toolRunning (p : CStr) : St 64 Unit :=
  let u := onEntry linkedTool (relativeCall p p)
  { u with regs := u.regs.put x86_64.ret 0 }

def toolFile : CStr := cstr "/r/bin/tool"

theorem tool_byLoader {p : CStr}
    (h : guestReadStr (relativeCall p p).mem ((relativeCall p p).arg linkedTool 1) pathLen = some p ∧
      readArgv (relativeCall p p).mem false ((relativeCall p p).arg linkedTool 2) maxExecArgs ≠ [])
    (hf : hostPathOf linkedTool (relativeCall p p) p pathLen = toolFile)
    (hl : (usesLoader linkedTool (relativeCall p p) p).isSome = true) :
    ByLoader linkedTool (relativeCall p p) p := by
  refine ⟨?_, rfl, ⟨?_, h.2⟩, ?_, ⟨p, [], h.1, .here p, by decide⟩, ?_, hl⟩
  · show linkedTool.nr.is .execve (59 : Word 64).toInt = true
    decide
  · show (8192 : Word 64) ≠ 0
    decide
  · show (4096 : Word 64) ≠ 0
    decide
  · rw [hf]
    show scriptAt (linkedTool.content ()) toolFile = none
    decide +kernel

theorem tool_done {p : CStr} (h : ByLoader linkedTool (relativeCall p p) p)
    (hl : LeadsTo (linkedTool.readlink ()) (openedAs linkedTool (toolRunning p) p)
      [cstr "r", cstr "bin", cstr "tool"]) :
    ExecDone linkedTool (relativeCall p p) (toolRunning p) (cstr "/r/l") toolFile := by
  have hret : (toolRunning p).regs x86_64.ret = 0 :=
    Regs.put_self (onEntry linkedTool (relativeCall p p)).regs x86_64.ret 0
  refine ⟨.inl h.call, rfl, hret, _, .byLoader h hl, ?_⟩
  refine ⟨by decide, by decide, rfl, ?_, by decide⟩
  intro k h1 hk
  have hk : k ≤ 3 := hk
  show linkedTool.readlink () _ = none
  rcases (by omega : k = 1 ∨ k = 2 ∨ k = 3) with rfl | rfl | rfl
  all_goals decide +kernel

/-- The name of the link is shown for the program. -/
theorem link_shown :
    ExecDone linkedTool (relativeCall (cstr "/t") (cstr "/t")) (toolRunning (cstr "/t"))
        (cstr "/r/l") toolFile ∧
      ¬CanonicalName ((onExit linkedTool (toolRunning (cstr "/t"))).walkEnv linkedTool true) toolFile
        (exeShown (onExit linkedTool (toolRunning (cstr "/t"))) (cstr "/r/l")) := by
  have hl : ByLoader linkedTool (relativeCall (cstr "/t") (cstr "/t")) (cstr "/t") := by
    apply tool_byLoader
    all_goals decide +kernel
  refine ⟨tool_done hl (leadsTo_of_lead 16 (by decide +kernel)), fun h => ?_⟩
  have hsame := h.same
  revert hsame
  decide +kernel

/-- The program's own name is shown for it. -/
theorem tool_shown :
    CanonicalName ((onExit linkedTool (toolRunning (cstr "/bin/tool"))).walkEnv linkedTool true)
      toolFile (exeShown (onExit linkedTool (toolRunning (cstr "/bin/tool"))) (cstr "/r/l")) := by
  have hl : ByLoader linkedTool (relativeCall (cstr "/bin/tool") (cstr "/bin/tool"))
      (cstr "/bin/tool") := by
    apply tool_byLoader
    all_goals decide +kernel
  have hdone := tool_done hl (leadsTo_of_lead 16 (by decide +kernel))
  refine (exe_canonical_iff hdone).2 ⟨[cstr "bin", cstr "tool"], ⟨?_, by decide, ?_, ?_, ?_⟩, ?_, ?_⟩
  · exact ⟨by decide, by decide, by decide⟩
  · decide +kernel
  · decide +kernel
  · intro k h1 hk _
    have hk : k < 2 := hk
    obtain rfl : k = 1 := by omega
    exact ⟨by decide +kernel, by decide +kernel⟩
  · intro q hq
    obtain rfl := hq.unique hl
    exact .absolute rfl
  · intro hx
    exact (Bool.false_ne_true (hx.symm.trans hl.call)).elim

end Emuroot
