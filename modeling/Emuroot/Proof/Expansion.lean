import Emuroot.Proof.ExecArgs
import Emuroot.Proof.Lookups

/-!
# The expansion of scripts

`scripts_expanded_iff`: an execve hands over the last program of a chain of scripts, with the
arguments of all of them, exactly when the chain is no longer than the loop allows, the tracer can
read its scripts, and it finds them where the guest's name space has them. `file` is what the kernel
finds at a host path when it runs it, readable or not.
-/

namespace Emuroot

variable {w : Nat} {σ : Type} {P : Platform w σ} {s : St w σ} {file : CStr → Option (List Byte)}
  {ps : List (Word w)} {p p0 q a a0 : CStr} {ls : List (CStr × Option CStr)}

/-! ## The chain in the name space -/

/-- Where the name space has a program: the translation of its absolute name. -/
def guestHost (P : Platform w σ) (s : St w σ) (p : CStr) : CStr :=
  (translatePath (s.walkEnv P true) (fromDir (cwdName P s) p) pathLen).out

/-- The loader that a program of the name space is run by: the one it names, unless the kernel finds
that as it is. -/
def guestLoader (P : Platform w σ) (s : St w σ) (q : CStr) : Option CStr :=
  (namedLoader P s (guestHost P s q)).filter fun loader =>
    !loaderAsIs P s.fs loader (guestHost P s loader)

/-- The host path that is to be run in the end. -/
def guestLast (P : Platform w σ) (s : St w σ) (q : CStr) : CStr :=
  match guestLoader P s q with
  | none => guestHost P s q
  | some loader => guestHost P s loader

/-- The strings that are to come before `argv[1..]`. -/
def guestFront (P : Platform w σ) (s : St w σ) (p0 a0 : CStr) (ls : List (CStr × Option CStr))
    (q : CStr) : List CStr :=
  let lead :=
    match guestLoader P s q with
    | none => []
    | some loader =>
      loader :: if (loaderHasArgv0 P s.fs s.ctx.loaderCache (guestHost P s loader)).1 then
        [cstr "--argv0", if ls = [] then a0 else q] else []
  lead ++ scriptArgs [p0] ls

/-- What runs is the last program of the chain or its loader, where the name space has it and no
script for the kernel to expand, with the arguments of the scripts. -/
def Expanded (P : Platform w σ) (s u : St w σ) (file : CStr → Option (List Byte)) (p0 : CStr)
    (ps : List (Word w)) (a0 : CStr) : Prop :=
  ∃ ls q, ScriptsAt (guestHost P s) file p0 ls q ∧ scriptAt file (guestHost P s q) = none ∧
    u.mem.HoldsString (u.arg P 1) (guestLast P s q) ∧ scriptAt file (guestLast P s q) = none ∧
    HasArgs P u (guestFront P s p0 a0 ls q) (ps.drop 1)

/-! ## The names -/

/-- The tracer finds the programs of its chain and the loader where the name space has them. -/
structure InPlace (P : Platform w σ) (s : St w σ) (p0 : CStr) (ls : List (CStr × Option CStr))
    (q : CStr) : Prop where
  program : hostPathOf P s p0 pathLen = guestHost P s p0
  interps : ∀ l ∈ ls, hostPathOf P s l.1 pathLen = guestHost P s l.1
  loader : ∀ loader ∈ namedLoader P s (hostPathOf P s q pathLen),
    loaderHost P s loader = guestHost P s loader

/-- So it does those with an absolute name. -/
theorem hostPathOf_absolute (h : p.head? = some slash) :
    hostPathOf P s p pathLen = guestHost P s p := by
  rw [hostPathOf, if_pos h, guestHost, fromDir, if_pos h]

theorem loaderHost_absolute (h : p.head? = some slash) : loaderHost P s p = guestHost P s p := by
  rw [loaderHost, guestHost, fromDir, if_pos h]

theorem InPlace.of_absolute (hp : p0.head? = some slash) (hls : ∀ l ∈ ls, l.1.head? = some slash)
    (hl : ∀ loader ∈ namedLoader P s (hostPathOf P s q pathLen), loader.head? = some slash) :
    InPlace P s p0 ls q :=
  ⟨hostPathOf_absolute hp, fun l h => hostPathOf_absolute (hls l h),
    fun loader h => loaderHost_absolute (hl loader h)⟩

/-- The last program is the first one, or an interpreter. -/
theorem ScriptsAt.last_mem {place : CStr → CStr} (h : ScriptsAt place file p ls q) :
    q = p ∨ ∃ l ∈ ls, l.1 = q := by
  induction h with
  | here => exact .inl rfl
  | next _ _ ih =>
    rcases ih with rfl | ⟨l, hl, rfl⟩
    · exact .inr ⟨_, List.mem_cons_self, rfl⟩
    · exact .inr ⟨l, List.mem_cons_of_mem _ hl, rfl⟩

section
variable (hin : InPlace P s p0 ls q) (h : Scripts P s file p0 ls q)
include hin h

theorem InPlace.last : hostPathOf P s q pathLen = guestHost P s q := by
  rcases h.last_mem with rfl | ⟨l, hl, rfl⟩
  · exact hin.program
  · exact hin.interps l hl

/-- The chain is the one of the name space. -/
theorem InPlace.scripts : ScriptsAt (guestHost P s) file p0 ls q :=
  h.congr hin.program.symm fun l hl => (hin.interps l hl).symm

theorem InPlace.guestLoader_eq : guestLoader P s q = usesLoader P s q := by
  rw [usesLoader_eq, guestLoader, ← hin.last h]
  cases hl : namedLoader P s (hostPathOf P s q pathLen) with
  | none => rfl
  | some loader => rw [Option.filter, Option.filter, hin.loader loader hl]

/-- So are the host path that is run and the strings. -/
theorem InPlace.same : guestLast P s q = lastHost P s q ∧
    guestFront P s p0 a ls q = execFront P s p0 a ls q := by
  rw [guestLast, guestFront, execFront, lastHost, loaderArgs, hin.guestLoader_eq h]
  cases hl : usesLoader P s q with
  | none => exact ⟨(hin.last h).symm, rfl⟩
  | some loader =>
    have hnamed : loader ∈ namedLoader P s (hostPathOf P s q pathLen) := by
      rw [usesLoader_eq] at hl
      exact (Option.filter_eq_some_iff.1 hl).1
    dsimp only
    rw [toldArgv0, hin.loader loader hnamed]
    exact ⟨rfl, rfl⟩

end

/-- The programs that the name space has give the host path and the strings that the tracer's chain
gives, with `c` for `argv[0]`. -/
def GivesSame (P : Platform w σ) (s : St w σ) (file : CStr → Option (List Byte)) (p0 c a0 : CStr)
    (ls : List (CStr × Option CStr)) (q : CStr) : Prop :=
  ∃ ls' q', ScriptsAt (guestHost P s) file p0 ls' q' ∧ scriptAt file (guestHost P s q') = none ∧
    guestLast P s q' = lastHost P s q ∧
    guestFront P s p0 a0 ls' q' = execFront P s p0 c ls q

/-- The tracer can follow the chain to its end: it can read the scripts, which are fewer than the
loop has rounds. What runs is no script. The names are found where the name space has them, and an
`argv[0]` that is passed on fits its buffer; a name is found elsewhere only where that happens to
come to the same. `c` is what the tracer has read for `argv[0]`. -/
def Expandable (P : Platform w σ) (s : St w σ) (file : CStr → Option (List Byte))
    (p0 c a0 : CStr) : Prop :=
  ∃ ls q, Scripts P s (P.content s.fs) p0 ls q ∧ ls.length < maxShebangDepth ∧
    scriptAt file (hostPathOf P s q pathLen) = none ∧ scriptAt file (lastHost P s q) = none ∧
    (InPlace P s p0 ls q ∧ (PassesArgv0 P s p0 → a0.length < pathLen) ∨
      ¬InPlace P s p0 ls q ∧ GivesSame P s file p0 c a0 ls q)

theorem scriptAt_mono {file' : CStr → Option (List Byte)} {path : CStr}
    (hf : ∀ path f, file path = some f → file' path = some f) (h : scriptAt file' path = none) :
    scriptAt file path = none := by
  cases hp : file path with
  | none => rw [scriptAt, hp]; rfl
  | some f =>
    rw [scriptAt, hf _ _ hp] at h
    rw [scriptAt, hp]
    exact h

/-- A program that is run as it is, or whose loader is run, is no script. -/
theorem scriptAt_last (hf : ∀ path f, P.content s.fs path = some f → file path = some f)
    (h : scriptAt file (lastHost P s q) = none) :
    scriptAt file (hostPathOf P s q pathLen) = none := by
  cases hl : usesLoader P s q with
  | none => rwa [lastHost, hl] at h
  | some loader =>
    obtain ⟨f, hfile, hparse⟩ := scriptAt_of_usesLoader hl
    rw [scriptAt, hf _ _ hfile]
    exact hparse

/-- **Where the names are in their places**, only `argv[0]` can differ. -/
theorem InPlace.givesSame_iff {x : Word w} (hin : InPlace P s p0 ls q)
    (hls : Scripts P s (P.content s.fs) p0 ls q) (ha : s.mem.HoldsString x a0)
    (hf : ∀ path f, P.content s.fs path = some f → file path = some f)
    (hlast : scriptAt file (lastHost P s q) = none) :
    GivesSame P s file p0 (argv0 s [.ptr x]) a0 ls q ↔
      (PassesArgv0 P s p0 → a0.length < pathLen) := by
  have hchain := hin.scripts (hls.mono hf)
  have hend : scriptAt file (guestHost P s q) = none := hin.last hls ▸ scriptAt_last hf hlast
  rw [← execFront_copy_iff hls ha]
  constructor
  · rintro ⟨ls', q', hls', hend', -, hfront⟩
    -- the two chains are one
    obtain ⟨rfl, rfl⟩ := hchain.unique hls' hend hend'
    rw [(hin.same hls).2] at hfront
    exact hfront.symm
  · intro hfront
    refine ⟨ls, q, hchain, hend, (hin.same hls (a := a0)).1, ?_⟩
    rw [(hin.same hls).2, hfront]

theorem expanded_iff {x : Word w} (hc : ExecCall P s p0 ps a0) (hx : ps.head? = some x)
    (hE : ProperNames (s.walkEnv P true))
    (hf : ∀ path f, P.content s.fs path = some f → file path = some f)
    (hlen : ps.length ≤ maxExecArgs) (h : (rewriteExec P s 1 2).2 = 1) :
    Expanded P s (rewriteExec P s 1 2).1 file p0 ps a0 ↔
      Expandable P s file p0 (argv0 s [.ptr x]) a0 := by
  obtain ⟨ls, q, x', host, strs, hls, hx', hhost, hargs, -, hout⟩ := rewriteExec_outcome hc hE h
  obtain rfl : x = x' := Option.some.inj (hx.symm.trans hx')
  rw [List.take_of_length_le hlen] at hargs
  have ha0 : s.mem.HoldsString x a0 := by
    obtain ⟨x', hx', ha⟩ := hc.first
    rw [hx] at hx'
    exact Option.some.inj hx' ▸ ha
  have hgives : scriptAt file (lastHost P s q) = none →
      (GivesSame P s file p0 (argv0 s [.ptr x]) a0 ls q ↔
        InPlace P s p0 ls q ∧ (PassesArgv0 P s p0 → a0.length < pathLen) ∨
          ¬InPlace P s p0 ls q ∧ GivesSame P s file p0 (argv0 s [.ptr x]) a0 ls q) := by
    intro hlast
    by_cases hin : InPlace P s p0 ls q
    · simp only [hin, true_and, not_true_eq_false, false_and, or_false]
      exact hin.givesSame_iff hls ha0 hf hlast
    · simp only [hin, false_and, not_false_eq_true, true_and, false_or]
  constructor
  · rintro ⟨ls', q', hls', hend', hhost', hlast', hargs'⟩
    -- the path and the strings in memory tell what is run
    obtain rfl := hhost.unique hhost'
    obtain rfl := hargs.front hargs'
    rcases hout with ⟨hlt, hend, hq, hfront⟩ | ⟨-, hscript, -⟩
    · have hlast : scriptAt file (lastHost P s q) = none := hq ▸ hlast'
      exact ⟨ls, q, hls, hlt, scriptAt_last hf hlast, hlast,
        (hgives hlast).1 ⟨ls', q', hls', hend', hq, hfront⟩⟩
    · rw [scriptAt_mono hf hlast'] at hscript
      cases hscript
  · rintro ⟨ls', q', hls', hlt', hend', hlast', hsame⟩
    rcases hout with ⟨-, hend, rfl, rfl⟩ | ⟨hlen, -, -⟩
    · obtain ⟨rfl, rfl⟩ := hls.unique hls' hend (scriptAt_mono hf hend')
      obtain ⟨ls', q', hls', hend', hq', hfront⟩ := (hgives hlast').2 hsame
      exact ⟨ls', q', hls', hend', hq' ▸ hhost, hq' ▸ hlast', hfront ▸ hargs⟩
    · have := hls.length_le hls' (scriptAt_mono hf hend')
      omega

/-- A program is left to the kernel unless the tracer finds a script or a loader for it. -/
theorem rewriteExec_left_iff (hc : ExecCall P s p0 ps a0) :
    (rewriteExec P s 1 2).2 ≠ 0 ↔
      P.calloc s.fs (maxExecArgs + 16) = true ∧
        ((scriptAt (P.content s.fs) (hostPathOf P s p0 pathLen)).isSome ∨
          (usesLoader P s p0).isSome) := by
  obtain ⟨x, hx, -⟩ := hc.first
  obtain ⟨rest, rfl⟩ := List.head?_eq_some_iff.1 hx
  have hstart := execStart_atStart s p0 x rest
  rw [rewriteExec_eq hc]
  cases hcalloc : P.calloc s.fs (maxExecArgs + 16) with
  | false => simp
  | true =>
    rw [if_neg (by simp)]
    dsimp only
    have hrew : (expandExec P s maxShebangDepth (execStart s p0 (x :: rest))).rewritten = true ↔
        (scriptAt (P.content s.fs) (hostPathOf P s p0 pathLen)).isSome ∨
          (usesLoader P s p0).isSome := by
      obtain ⟨ls, q, hls, hlen, hend⟩ := ScriptsAt.within (hostPathOf P s · pathLen)
        (P.content s.fs) maxShebangDepth p0
      rcases Nat.lt_or_ge ls.length maxShebangDepth with hlt | hge
      · rw [(expandExec_short hstart hls hlt (hend.resolve_left (Nat.ne_of_lt hlt))).2.1]
        cases hls with
        | here =>
          rw [hend.resolve_left (by decide)]
          simp
        | next hs _ =>
          rw [hs]
          simp
      · have hlong := (expandExec_long hstart hls (Nat.le_antisymm hlen hge) (by decide)).2.1
        refine iff_of_true hlong (.inl ?_)
        cases hls with
        | here => exact absurd hge (by decide)
        | next hs _ => rw [hs]; rfl
    rw [← hrew]
    by_cases hr : (expandExec P s maxShebangDepth (execStart s p0 (x :: rest))).rewritten = true
    · rw [if_pos hr]
      exact iff_of_true (placeBlock_ne_zero _ _ _ _ _) ⟨rfl, hr⟩
    · rw [if_neg hr]
      simp [hr]

/-- **The scripts are expanded** exactly when the tracer can follow the chain to its end, its names
in their places. A program is left to the kernel exactly when the tracer has no memory, or finds
neither a script nor what asks for a loader where it looks. A call that cannot be rewritten has no
path to run. -/
theorem scripts_expanded_iff {x : Word w} (hc : ExecCall P s p0 ps a0) (hx : ps.head? = some x)
    (hE : ProperNames (s.walkEnv P true))
    (hf : ∀ path f, P.content s.fs path = some f → file path = some f)
    (hlen : ps.length ≤ maxExecArgs) :
    let r := rewriteExec P s 1 2
    (r.2 = 1 → (Expanded P s r.1 file p0 ps a0 ↔
      Expandable P s file p0 (argv0 s [.ptr x]) a0)) ∧
    (r.2 ≠ 0 ↔ P.calloc s.fs (maxExecArgs + 16) = true ∧
      ((scriptAt (P.content s.fs) (hostPathOf P s p0 pathLen)).isSome ∨
        (usesLoader P s p0).isSome)) ∧
    (r.2 = -1 → r.1.arg P 1 = 0) := by
  refine ⟨expanded_iff hc hx hE hf hlen, rewriteExec_left_iff hc, fun h => ?_⟩
  rcases rewriteExec_else hc with h1 | ⟨-, h0⟩ | ⟨h0, -⟩
  · rw [h] at h1
    cases h1
  · exact h0
  · rw [h] at h0
    cases h0

/-! ## Five scripts in a row -/

/-- Scripts `/s0` to `/s4`, each with the next for its interpreter, and the program `/s5`, which the
last of them names so. The working directory is the root. -/
def scriptRow (last : CStr) : Platform 64 Unit :=
  linkedHost
    [(cstr "/r/s0", cstr "#!/s1\n"), (cstr "/r/s1", cstr "#!/s2\n"), (cstr "/r/s2", cstr "#!/s3\n"),
      (cstr "/r/s3", cstr "#!/s4\n"), (cstr "/r/s4", cstr "#!" ++ last), (cstr "/r/s5", [])]
    [(cstr "/proc/7/cwd", cstr "/r")]

theorem scriptRow_call (last path : CStr)
    (hpath : (execveCall path (cstr "s")).mem.HoldsString 4096 path) (hlen : path.length < pathLen)
    (hvec : (execveCall path (cstr "s")).mem.read 8192 16 =
      ([12288, 0] : List (Word 64)).flatMap fun p => toBytes false 8 p.toNat)
    (ha : (execveCall path (cstr "s")).mem.HoldsString 12288 (cstr "s")) :
    ExecCall (scriptRow last) (execveCall path (cstr "s")) path [12288] (cstr "s") :=
  execveIn_call rfl hpath hlen hvec ha

/-- What is handed over is the fifth script, whose `#!` line the kernel takes for its own. -/
theorem five_scripts_unexpanded :
    ExecCall (scriptRow (cstr "/s5")) (execveCall (cstr "/s0") (cstr "s")) (cstr "/s0") [12288]
      (cstr "s") ∧
    (let r := rewriteExec (scriptRow (cstr "/s5")) (execveCall (cstr "/s0") (cstr "s")) 1 2
     r.2 = 1 ∧ guestReadStr r.1.mem (r.1.arg (scriptRow (cstr "/s5")) 1) pathLen =
        some (cstr "/r/s4") ∧
      ¬Expanded (scriptRow (cstr "/s5")) (execveCall (cstr "/s0") (cstr "s")) r.1
        ((scriptRow (cstr "/s5")).content ()) (cstr "/s0") [12288] (cstr "s")) := by
  have hc := scriptRow_call (cstr "/s5") (cstr "/s0") ⟨by decide, by decide +kernel⟩
    (by decide) (by decide +kernel) ⟨by decide, by decide +kernel⟩
  have hr : (rewriteExec (scriptRow (cstr "/s5")) (execveCall (cstr "/s0") (cstr "s")) 1 2).2 = 1 := by
    decide +kernel
  have hrow : Scripts (scriptRow (cstr "/s5")) (execveCall (cstr "/s0") (cstr "s"))
      ((scriptRow (cstr "/s5")).content ()) (cstr "/s0")
      [(cstr "/s1", none), (cstr "/s2", none), (cstr "/s3", none), (cstr "/s4", none),
        (cstr "/s5", none)] (cstr "/s5") := by
    repeat' apply ScriptsAt.next
    · decide +kernel
    · decide +kernel
    · decide +kernel
    · decide +kernel
    · decide +kernel
    · exact .here _
  refine ⟨hc, hr, by decide +kernel, fun h => ?_⟩
  obtain ⟨ls, q, hls, hlt, hend, -⟩ :=
    (expanded_iff hc rfl (execveLinked_proper (by decide) _) (fun _ _ h => h) (by decide) hr).1 h
  have hlong := hrow.length_le hls hend
  rw [maxShebangDepth] at hlt
  simp only [List.length_cons, List.length_nil] at hlong
  omega

/-- From the second on they are four, and the program is handed over, also under a relative name. -/
theorem four_scripts_expanded :
    Expanded (scriptRow (cstr "s5")) (execveCall (cstr "/s1") (cstr "s"))
      (rewriteExec (scriptRow (cstr "s5")) (execveCall (cstr "/s1") (cstr "s")) 1 2).1
      ((scriptRow (cstr "s5")).content ()) (cstr "/s1") [12288] (cstr "s") := by
  have hc := scriptRow_call (cstr "s5") (cstr "/s1") ⟨by decide, by decide +kernel⟩
    (by decide) (by decide +kernel) ⟨by decide, by decide +kernel⟩
  have hls : Scripts (scriptRow (cstr "s5")) (execveCall (cstr "/s1") (cstr "s"))
      ((scriptRow (cstr "s5")).content ()) (cstr "/s1")
      [(cstr "/s2", none), (cstr "/s3", none), (cstr "/s4", none), (cstr "s5", none)]
      (cstr "s5") := by
    repeat' apply ScriptsAt.next
    · decide +kernel
    · decide +kernel
    · decide +kernel
    · decide +kernel
    · exact .here _
  have hin : InPlace (scriptRow (cstr "s5")) (execveCall (cstr "/s1") (cstr "s")) (cstr "/s1")
      [(cstr "/s2", none), (cstr "/s3", none), (cstr "/s4", none), (cstr "s5", none)]
      (cstr "s5") := ⟨by decide +kernel, by decide +kernel, by decide +kernel⟩
  apply ((scripts_expanded_iff hc rfl (execveLinked_proper (by decide) _) (fun _ _ h => h)
    (by decide)).1 (by decide +kernel)).2
  exact ⟨_, _, hls, by decide, by decide +kernel, by decide +kernel, .inl ⟨hin, fun _ => by decide⟩⟩

/-- `/s` has the interpreter `x`; in the working directory `/d` that is a link to `/bin/tool`. -/
def linkedInterp : Platform 64 Unit :=
  linkedHost [(cstr "/r/s", cstr "#!x"), (cstr "/r/d/x", []), (cstr "/r/bin/tool", [])]
    [(cstr "/proc/7/cwd", cstr "/r/d"), (cstr "/r/d/x", cstr "/bin/tool")]

-- the kernel is handed the link, which leads out of the rootfs
example :
    let s := execveCall (cstr "/s") (cstr "s")
    let u := (rewriteExec linkedInterp s 1 2).1
    guestReadStr u.mem (u.arg linkedInterp 1) pathLen = some (cstr "/r/d/x") ∧
      guestLast linkedInterp s (cstr "x") = cstr "/r/bin/tool" := by
  decide +kernel

end Emuroot
