import Emuroot.Proof.ExecArgs
import Emuroot.Proof.GrantsInside

/-!
# execve of a relative path

A relative path is opened behind the working directory as the host has it, an absolute one is
translated. `relative_exec_iff`: the two are run alike, and the tracer looks at no file outside for
it, exactly when it finds the same interpreters and loader in both places, and none of the ways past
the resolver leads it outside.
-/

namespace Emuroot

variable {w : Nat} {σ : Type} {P : Platform w σ} {s : St w σ} {ps : List (Word w)} {p a a0 c : CStr}
  {o o' : Option (CStr × List CStr)}

/-! ## What the tracer makes of a program -/

/-- What it runs in place of the program, and the strings it puts before the program's path; `none`
if it leaves the call to the rewriting of paths. `c` is what is passed on as `argv[0]`. -/
inductive Taken (P : Platform w σ) (s : St w σ) (c p : CStr) : Option (CStr × List CStr) → Prop
  | unseen (h : P.calloc s.fs (maxExecArgs + 16) = false) : Taken P s c p none
  | asIs (h : P.calloc s.fs (maxExecArgs + 16) = true)
    (hs : scriptAt (P.content s.fs) (hostPathOf P s p pathLen) = none)
    (hl : usesLoader P s p = none) : Taken P s c p none
  | ended {ls : List (CStr × Option CStr)} {q : CStr} (h : P.calloc s.fs (maxExecArgs + 16) = true)
    (hls : Scripts P s (P.content s.fs) p ls q) (hlen : ls.length < maxShebangDepth)
    (hend : scriptAt (P.content s.fs) (hostPathOf P s q pathLen) = none)
    (hsome : ls ≠ [] ∨ (usesLoader P s q).isSome) :
    Taken P s c p
      (some (lastHost P s q, loaderArgs P s q (if ls = [] then c else q) ++ scriptArgs [] ls))
  | cut {ls : List (CStr × Option CStr)} {q p' : CStr}
    (h : P.calloc s.fs (maxExecArgs + 16) = true) (hls : Scripts P s (P.content s.fs) p ls q)
    (hlen : ls.length = maxShebangDepth) (hp' : Scripts P s (P.content s.fs) p ls.dropLast p') :
    Taken P s c p (some (hostPathOf P s p' pathLen, scriptArgs [] ls))

theorem scriptArgs_append (strs : List CStr) (ls : List (CStr × Option CStr)) (p : CStr) :
    scriptArgs (strs ++ [p]) ls = scriptArgs strs ls ++ [p] := by
  induction ls generalizing strs with
  | nil => rfl
  | cons l ls ih =>
    obtain ⟨interp, arg⟩ := l
    rw [scriptArgs, scriptArgs, ← ih]
    simp

/-- There is one outcome. -/
theorem Taken.unique (h : Taken P s c p o) (h' : Taken P s c p o') : o = o' := by
  -- a chain that has ended is no longer than another
  have hleft : ∀ {ls q}, Scripts P s (P.content s.fs) p ls q → ls = [] →
      (ls ≠ [] ∨ (usesLoader P s q).isSome) → usesLoader P s p ≠ none := by
    rintro ls q hls rfl hsome hnone
    cases hls
    rw [hnone] at hsome
    simp at hsome
  have hscript : ∀ {ls q}, Scripts P s (P.content s.fs) p ls q →
      scriptAt (P.content s.fs) (hostPathOf P s p pathLen) = none → ls = [] := by
    intro ls q hls hnone
    cases hls with
    | here => rfl
    | next hs _ => rw [hnone] at hs; cases hs
  cases h with
  | unseen h =>
    cases h' with
    | unseen => rfl
    | asIs => rfl
    | ended h2 => rw [h] at h2; cases h2
    | cut h2 => rw [h] at h2; cases h2
  | asIs h hs hl =>
    cases h' with
    | unseen => rfl
    | asIs => rfl
    | ended _ hls _ _ hsome => exact (hleft hls (hscript hls hs) hsome hl).elim
    | cut _ hls hlen => rw [hscript hls hs] at hlen; cases hlen
  | ended h hls hlen hend hsome =>
    cases h' with
    | unseen h2 => rw [h] at h2; cases h2
    | asIs _ hs hl => exact (hleft hls (hscript hls hs) hsome hl).elim
    | ended _ hls' _ hend' =>
      obtain ⟨rfl, rfl⟩ := hls.unique hls' hend hend'
      rfl
    | cut _ hls' hlen' =>
      have := hls'.length_le hls hend
      omega
  | cut h hls hlen hp' =>
    cases h' with
    | unseen h2 => rw [h] at h2; cases h2
    | asIs _ hs => rw [hscript hls hs] at hlen; cases hlen
    | ended _ hls' hlen' hend' =>
      have := hls.length_le hls' hend'
      omega
    | cut _ hls' hlen' hp'' =>
      obtain ⟨rfl, -⟩ := hls.unique_length hls' (hlen.trans hlen'.symm)
      obtain ⟨-, rfl⟩ := hp'.unique_length hp'' rfl
      rfl

/-- Where one file is found for two programs, the tracer makes the same of them. -/
theorem Taken.of_content (h : Taken P s c p o)
    (hf : P.content s.fs (hostPathOf P s p pathLen) = P.content s.fs (hostPathOf P s a pathLen)) :
    ∃ o', Taken P s c a o' ∧ (o = none → o' = none) ∧ (o.isSome → o' = o) := by
  have hscript : scriptAt (P.content s.fs) (hostPathOf P s p pathLen) =
      scriptAt (P.content s.fs) (hostPathOf P s a pathLen) := by
    rw [scriptAt, scriptAt, hf]
  have huses : usesLoader P s p = usesLoader P s a := by
    rw [usesLoader, usesLoader, hf]
  cases h with
  | unseen h => exact ⟨none, .unseen h, fun _ => rfl, fun _ => rfl⟩
  | asIs h hs hl => exact ⟨none, .asIs h (hscript ▸ hs) (huses ▸ hl), fun _ => rfl, fun _ => rfl⟩
  | ended h hls hlen hend hsome =>
    cases hls with
    | here =>
      have hl : (usesLoader P s p).isSome := hsome.resolve_left (fun hne => hne rfl)
      obtain ⟨loader, hloader⟩ := Option.isSome_iff_exists.1 hl
      refine ⟨_, .ended h (.here a) hlen (hscript ▸ hend) (.inr (huses ▸ hl)),
        (fun ho => by cases ho), fun _ => ?_⟩
      simp only [lastHost, loaderArgs, ← huses, hloader, if_true]
    | next hs hrest =>
      exact ⟨_, .ended h (.next (hscript ▸ hs) hrest) hlen hend hsome, id, fun _ => rfl⟩
  | cut h hls hlen hp' =>
    cases hls with
    | here => cases hlen
    | @next _ _ _ _ ls hs hrest =>
      cases ls with
      | nil => cases hlen
      | cons l ls =>
        cases hp' with
        | next hs' hrest' =>
          exact ⟨_, .cut h (.next (hscript ▸ hs) hrest) hlen (.next (hscript ▸ hs') hrest'),
            id, fun _ => rfl⟩

/-! ## The files that are looked at -/

/-- The tracer, which works in `here`, comes to look at a file for the program `p`: it reads the
programs of the chain; it compares what the loader's own name is in the real root with the loader of
the name space; and it reads the latter, unless that is in its cache. -/
inductive Inspects (P : Platform w σ) (s : St w σ) (here p : CStr) : (name path : CStr) → Prop
  | program {ls : List (CStr × Option CStr)} {q : CStr}
    (h : P.calloc s.fs (maxExecArgs + 16) = true) (hls : Scripts P s (P.content s.fs) p ls q)
    (hlen : ls.length < maxShebangDepth) (there : (P.content s.fs (hostPathOf P s q pathLen)).isSome) :
    Inspects P s here p q (hostPathOf P s q pathLen)
  | asIs {ls : List (CStr × Option CStr)} {q l : CStr}
    (h : P.calloc s.fs (maxExecArgs + 16) = true) (hls : Scripts P s (P.content s.fs) p ls q)
    (hlen : ls.length < maxShebangDepth)
    (hl : namedLoader P s (hostPathOf P s q pathLen) = some l) (there : (P.stat s.fs l).isSome) :
    Inspects P s here p l (fromDir here l)
  | inRoot {ls : List (CStr × Option CStr)} {q l : CStr}
    (h : P.calloc s.fs (maxExecArgs + 16) = true) (hls : Scripts P s (P.content s.fs) p ls q)
    (hlen : ls.length < maxShebangDepth)
    (hl : namedLoader P s (hostPathOf P s q pathLen) = some l) (asIs : (P.stat s.fs l).isSome)
    (there : (P.stat s.fs (loaderHost P s l)).isSome) :
    Inspects P s here p l (fromDir here (loaderHost P s l))
  | loader {ls : List (CStr × Option CStr)} {q l : CStr}
    (h : P.calloc s.fs (maxExecArgs + 16) = true) (hls : Scripts P s (P.content s.fs) p ls q)
    (hlen : ls.length < maxShebangDepth) (hl : usesLoader P s q = some l)
    (unknown : s.ctx.loaderCache.lookup (loaderHost P s l) = none)
    (there : (P.content s.fs (loaderHost P s l)).isSome) :
    Inspects P s here p l (fromDir here (loaderHost P s l))

/-- The ways past the resolver that lead the tracer to a file do not lead it outside: a relative
name, the loader's own name in the real root, and a translation that is not a whole one. -/
structure KeepsInside (P : Platform w σ) (s : St w σ) (here p : CStr) : Prop where
  relative : ∀ x path, Inspects P s here p x path → x.head? ≠ some slash →
    LeadsInside (s.walkEnv P true) path
  own : ∀ l, Inspects P s here p l (fromDir here l) →
    LeadsInside (s.walkEnv P true) (fromDir here l)
  exposed : ∀ x path why pt, Inspects P s here p x path → StopsAt (s.walkEnv P true) x why pt →
    Exposed (s.walkEnv P true) why pt path → LeadsInside (s.walkEnv P true) path

/-- The whole translation of a name lies inside. -/
theorem KeepsInside.translation {here x : CStr} (hk : KeepsInside P s here p)
    (hE : CanonicalNames (s.walkEnv P true)) (hmap : unmapped s.ctx s.t.root = false)
    (habs : x.head? = some slash)
    (h : Inspects P s here p x (translatePath (s.walkEnv P true) x pathLen).out) :
    LeadsInside (s.walkEnv P true) (translatePath (s.walkEnv P true) x pathLen).out := by
  obtain ⟨why, pt, hs⟩ := stopsAt_exists (s.walkEnv P true) x
  have hout : (translatePath (s.walkEnv P true) x pathLen).out = unwalked (s.walkEnv P true) pt.walk :=
    (translate_stopsAt hs habs hmap 0).1
  by_cases hx : Exposed (s.walkEnv P true) why pt (translatePath (s.walkEnv P true) x pathLen).out
  · exact hk.exposed x _ why pt h hs hx
  · rw [hout] at hx ⊢
    have hread : dacPath (unwalked (s.walkEnv P true) pt.walk) .read = some _ := rfl
    exact leadsInside_of_not_exposed hE hs hread hx

/-- **The tracer looks at no file outside** exactly if none of these ways leads there. -/
theorem inspects_inside_iff {here : CStr} (hP : ProperNames (s.walkEnv P true))
    (hE : CanonicalNames (s.walkEnv P true)) (hmap : unmapped s.ctx s.t.root = false) :
    (∀ x path, Inspects P s here p x path → LeadsInside (s.walkEnv P true) path) ↔
      KeepsInside P s here p := by
  constructor
  · exact fun h => ⟨fun x path hi _ => h x path hi, fun l hi => h l _ hi,
      fun x path _ _ hi _ _ => h x path hi⟩
  intro hk x path h
  by_cases hrel : x.head? ≠ some slash
  · exact hk.relative x path h hrel
  have habs : x.head? = some slash := not_not.1 hrel
  have hloader : fromDir here (loaderHost P s x) = (translatePath (s.walkEnv P true) x pathLen).out :=
    if_pos (translate_absolute hP habs)
  cases h with
  | program hc hls hlen there =>
    have hhost : hostPathOf P s x pathLen = (translatePath (s.walkEnv P true) x pathLen).out :=
      if_pos habs
    have hi : Inspects P s here p x _ := .program hc hls hlen there
    rw [hhost] at hi ⊢
    exact hk.translation hE hmap habs hi
  | asIs hc hls hlen hl there => exact hk.own x (.asIs hc hls hlen hl there)
  | inRoot hc hls hlen hl own there =>
    have hi : Inspects P s here p x _ := .inRoot hc hls hlen hl own there
    rw [hloader] at hi ⊢
    exact hk.translation hE hmap habs hi
  | loader hc hls hlen hl unknown there =>
    have hi : Inspects P s here p x _ := .loader hc hls hlen hl unknown there
    rw [hloader] at hi ⊢
    exact hk.translation hE hmap habs hi

/-! ## What the loop leaves -/

/-- Only the register with the path differs. -/
theorem Taken.setArg {n : Nat} {x : Word w} (h : Taken P (s.setArg P n x) c p o) :
    Taken P s c p o := by
  cases h with
  | unseen h => exact .unseen h
  | asIs h hs hl => exact .asIs h hs hl
  | ended h hls hlen hend hsome => exact .ended h (hls.congr rfl fun _ _ => rfl) hlen hend hsome
  | cut h hls hlen hp' => exact .cut h (hls.congr rfl fun _ _ => rfl) hlen (hp'.congr rfl fun _ _ => rfl)

/-- A call that the loop has nothing to do for is left as it is. -/
theorem rewriteExec_left {x : Word w} (hc : ExecCall P s p ps a0) (hx : ps.head? = some x)
    (h : (rewriteExec P s 1 2).2 = 0) :
    rewriteExec P s 1 2 = (s, 0) ∧ Taken P s c p none := by
  obtain ⟨rest, rfl⟩ := List.head?_eq_some_iff.1 hx
  have hstart := execStart_atStart s p x rest
  rw [rewriteExec_eq hc] at h ⊢
  cases hcalloc : P.calloc s.fs (maxExecArgs + 16) with
  | false => exact ⟨if_pos rfl, .unseen hcalloc⟩
  | true =>
    rw [hcalloc, if_neg (by simp)] at h
    rw [if_neg (by simp)]
    dsimp only at h ⊢
    have hrew : (expandExec P s maxShebangDepth (execStart s p (x :: rest))).rewritten ≠ true := by
      intro hrew
      rw [if_pos hrew] at h
      exact placeBlock_ne_zero _ _ _ _ _ h
    obtain ⟨ls, q, hls, hlen, hend⟩ := ScriptsAt.within (hostPathOf P s · pathLen) (P.content s.fs)
      maxShebangDepth p
    rcases Nat.lt_or_ge ls.length maxShebangDepth with hlt | hge
    · have hq := hend.resolve_left (Nat.ne_of_lt hlt)
      have hiff := (expandExec_short hstart hls hlt hq).2.1
      have hls0 : ls = [] := by
        by_contra hne
        exact hrew (hiff.2 (.inl hne))
      have huses : usesLoader P s q = none := by
        by_contra hne
        exact hrew (hiff.2 (.inr (Option.isSome_iff_ne_none.2 hne)))
      subst hls0
      cases hls
      have hlast := (expandExec_last (e := execStart s p (x :: rest)) (maxShebangDepth - 1)
        hq rfl hstart.atProgram).2.1 huses
      rw [if_neg hrew]
      rw [show maxShebangDepth - 1 + 1 = maxShebangDepth from rfl] at hlast
      rw [hlast]
      exact ⟨rfl, .asIs hcalloc hq huses⟩
    · exact (hrew (expandExec_long hstart hls (Nat.le_antisymm hlen hge) (by decide)).2.1).elim

/-- What a call that is not refused does with the program. -/
theorem rewriteExec_taken {x : Word w} (hc : ExecCall P s p ps a0)
    (hE : ProperNames (s.walkEnv P true)) (hx : ps.head? = some x)
    (h : (rewriteExec P s 1 2).1.arg P 1 ≠ 0 ∨ (rewriteExec P s 1 2).2 = 0) :
    rewriteExec P s 1 2 = (s, 0) ∧ Taken P s (argv0 s [.ptr x]) p none ∨
    (rewriteExec P s 1 2).2 = 1 ∧ ∃ host strs, Taken P s (argv0 s [.ptr x]) p (some (host, strs)) ∧
      (rewriteExec P s 1 2).1.mem.HoldsString ((rewriteExec P s 1 2).1.arg P 1) host ∧
      HasArgs P (rewriteExec P s 1 2).1 (strs ++ [p]) ((ps.take maxExecArgs).drop 1) := by
  rcases rewriteExec_else hc with h1 | ⟨hneg, h0⟩ | ⟨h0, -⟩
  · obtain ⟨ls, q, y, host, strs, hls, hy, hhost, hargs, -, hout⟩ := rewriteExec_outcome hc hE h1
    have hrew := (rewriteExec_placed hc h1).1
    have hcalloc : P.calloc s.fs (maxExecArgs + 16) = true := by
      cases hca : P.calloc s.fs (maxExecArgs + 16) with
      | true => rfl
      | false =>
        rw [rewriteExec_eq hc, if_pos hca] at h1
        cases h1
    obtain rfl : x = y := Option.some.inj (hx.symm.trans hy)
    refine .inr ⟨h1, ?_⟩
    rcases hout with ⟨hlt, hend, rfl, rfl⟩ | ⟨hlen, -, rfl, p', hp', rfl⟩
    · obtain ⟨rest, rfl⟩ := List.head?_eq_some_iff.1 hx
      have hsome := (expandExec_short (execStart_atStart ..) hls hlt hend).2.1.1 hrew
      refine ⟨_, _, .ended hcalloc hls hlt hend hsome, hhost, ?_⟩
      rw [List.append_assoc, ← scriptArgs_append]
      exact hargs
    · refine ⟨_, _, .cut hcalloc hls hlen hp', hhost, ?_⟩
      rw [← scriptArgs_append]
      exact hargs
  · rcases h with h | h
    · exact (h h0).elim
    · rw [hneg] at h
      cases h
  · exact .inl (rewriteExec_left hc hx h0)

/-! ## The call -/

/-- `emuroot_rewrite_exec` followed by the path side of `emuroot_on_entry`, for call `n`. -/
def execEntry (P : Platform w σ) (s : St w σ) (n : Int) : St w σ :=
  if (rewriteExec P s 1 2).2 ≠ 0 then (rewriteExec P s 1 2).1
  else rewritePaths P (rewriteExec P s 1 2).1 n

theorem onEntry_execve (hx : P.nr.is .execve (s.sysno P)) :
    onEntry P s = execEntry P (resetCall P s) (s.sysno P) := by
  have hact : P.actionOf (s.sysno P) = some .execve := by
    have ha : P.actionOf (s.sysno P) = _ := actionOf_of_is hx
    rw [ha]
    cases lp64 w <;> rfl
  have he : emulateEntry P (resetCall P s) (s.sysno P) = (resetCall P s, false) := by
    unfold emulateEntry
    rw [hact]
    split
    · unfold emulateMounts
      split <;> rfl
    · rfl
  have hx' : P.nr.is .execve (s.regs P.arch.sysno).toInt = true := hx
  unfold onEntry
  dsimp only
  rw [show (resetCall P s).t.sysno = s.sysno P from rfl, he]
  dsimp only
  rw [hx, if_pos rfl]
  rfl

variable {n : Int} {host : CStr}

theorem rewritePaths_execve (hx : P.nr.is .execve n) :
    rewritePaths P s n = rewritePathArg P s n 1 true 0 := by
  have hnot : ∀ z ∈ [Sys.bind, .connect, .sendto, .execveat], P.nr.is z n = false := by
    intro z hz
    rw [Numbers.is_eq hx]
    apply decide_eq_false
    rintro rfl
    revert hz
    decide
  have htable : findPathSyscall P.nr n = none := (findPathSyscall_of_is hx).trans rfl
  unfold rewritePaths
  rw [hnot .bind (by decide), hnot .connect (by decide), hnot .sendto (by decide),
    hnot .execveat (by decide), htable, hx]
  rfl

/-- No permission is granted for an execve. -/
theorem rewriteGuest_execve (hx : P.nr.is .execve n) (guest : CStr) :
    rewriteGuest P s n 1 true 0 guest =
      let r := translatePath (s.walkEnv P true) guest pathLen
      if r.differs then repoint P s 1 r.out else s := by
  have hany : ∀ l : List Sys, .execve ∉ l → (l.any fun z => P.nr.is z n) = false := by
    intro l hl
    rw [List.any_eq_false]
    intro z hz
    rw [Numbers.is_eq hx, decide_eq_true_iff]
    rintro rfl
    exact hl hz
  have hlink : isReadlink P.nr n = false := by
    have h := hany [.readlink, .readlinkat] (by decide)
    simpa [isReadlink] using h
  have hdac : ∀ path, grantAccess P s n 0 path = s := by
    intro path
    have hnone : dacFor P s n 0 = .none := by
      unfold dacFor
      simp (disch := decide) only [hany, Bool.false_eq_true, if_true, if_false]
    rw [grantAccess, hnone]
    rfl
  unfold rewriteGuest
  simp only [hlink, Bool.and_false, Bool.false_eq_true, if_false, hdac, ite_self]

/-- The plain rewrite of an execve's path that spells `a`: what is left to be read. -/
theorem exec_plain {given : CStr} (hx : P.nr.is .execve n) (hE : ProperNames (s.walkEnv P true))
    (hr : Reads P s 1 given) (hne : given ≠ []) (hlen : given.length < pathLen)
    (hs : Spells P s.ctx s.t.root s.t.pid s.fs AT_FDCWD given host a)
    (hmap : unmapped s.ctx s.t.root = false)
    (hu : (rewritePathArg P s n 1 true 0).arg P 1 ≠ 0) :
    let u := rewritePathArg P s n 1 true 0
    let r := translatePath (s.walkEnv P true) a pathLen
    u.arg P 2 = s.arg P 2 ∧
      u.mem.HoldsString (u.arg P 1) (if r.differs then r.out else given) := by
  have hguest : absoluteGuestPath P s (dirfdSlot P.nr n 1) given (2 * pathLen) = some a := by
    have h : Spells P s.ctx s.t.root s.t.pid s.fs (s.dirfd P (dirfdSlot P.nr n 1)) given host a := hs
    exact h.absoluteGuestPath hlen
  have hstrict : strictOpenat2 P s n 1 = false := by simp [strictOpenat2]
  obtain ⟨habs, h0⟩ := hs.proper hE rfl hr.2.1
  have heq : rewritePathArg P s n 1 true 0 =
      let r := translatePath (s.walkEnv P true) a pathLen
      if r.differs then repoint P s 1 r.out else s := by
    rw [rewritePathArg_eq,
      if_neg (by simp only [hmap, hr.1, Bool.false_eq_true, or_self, Nat.one_ne_zero,
        not_false_eq_true]),
      hr.read hlen]
    dsimp only
    rw [if_neg hne, hstrict, if_neg (by simp), hguest]
    exact rewriteGuest_execve hx a
  dsimp only at heq ⊢
  have hframe := (rewritePathArg_frame (P := P) s n 1 true 0).regs
  refine ⟨hframe _ ?_, ?_⟩
  · intro m hm he
    rw [List.mem_singleton.1 hm] at he
    exact absurd (regArg_inj P.arch (by decide) (by decide) he) (by decide)
  · rw [heq] at hu ⊢
    split
    · rename_i hdiff
      rw [if_pos hdiff] at hu
      exact (repoint_reads (translate_noNul hE habs h0) (length_translate_lt _ _) hu).2
    · exact hr.2

/-! ## The relative and the absolute path -/

/-- The state that a call is left in, by what the tracer makes of its program: a path and a vector
of its own, or the guest's vector with the path rewritten to `plain`. -/
def LeftWith (P : Platform w σ) (s u : St w σ) (ps : List (Word w)) (p plain : CStr) :
    Option (CStr × List CStr) → Prop
  | none => u.arg P 2 = s.arg P 2 ∧ u.mem.HoldsString (u.arg P 1) plain
  | some (host, strs) => u.arg P 2 ≠ s.arg P 2 ∧ u.mem.HoldsString (u.arg P 1) host ∧
      HasArgs P u (strs ++ [p]) ((ps.take maxExecArgs).drop 1)

/-- The guest's vector does not lie in the room below its stack that scratch is taken from. -/
def ArgvApart (P : Platform w σ) (s : St w σ) : Prop :=
  s.t.scratchTop ≤ s.arg P 2 ∨ (s.arg P 2).toNat + 2 ^ 18 ≤ s.t.scratchTop.toNat

theorem execEntry_leftWith {y : Word w} (hx : P.nr.is .execve n) (hc : ExecCall P s p ps a0)
    (hE : ProperNames (s.walkEnv P true)) (hy : ps.head? = some y) (hne : p ≠ [])
    (hs : Spells P s.ctx s.t.root s.t.pid s.fs AT_FDCWD p host a)
    (hmap : unmapped s.ctx s.t.root = false) (hargv : ArgvApart P s)
    (hu : (execEntry P s n).arg P 1 ≠ 0) :
    let r := translatePath (s.walkEnv P true) a pathLen
    ∃ o, Taken P s (argv0 s [.ptr y]) p o ∧
      LeftWith P s (execEntry P s n) ps p (if r.differs then r.out else p) o := by
  unfold execEntry at hu ⊢
  have hrefused : (rewriteExec P s 1 2).1.arg P 1 ≠ 0 ∨ (rewriteExec P s 1 2).2 = 0 := by
    by_cases h0 : (rewriteExec P s 1 2).2 = 0
    · exact .inr h0
    · rw [if_pos h0] at hu
      exact .inl hu
  rcases rewriteExec_taken hc hE hy hrefused with ⟨heq, htaken⟩ | ⟨h1, path, strs, htaken, hpath, hargs⟩
  · rw [heq, if_neg (by simp), rewritePaths_execve hx] at hu
    rw [heq, if_neg (by simp), rewritePaths_execve hx]
    exact ⟨none, htaken, exec_plain hx hE hc.path hne hc.short hs hmap hu⟩
  · rw [if_pos (by rw [h1]; decide)]
    refine ⟨_, htaken, ?_, hpath, hargs⟩
    obtain ⟨hlt, habove⟩ := rewriteExec_argv hc hE h1
    intro he
    rw [he] at hlt habove
    rcases hargv with h | h
    · exact absurd hlt (BitVec.not_lt.2 h)
    · omega

/-- The path that a call is left with, as the kernel starts from it. -/
def RunsHost (P : Platform w σ) (s u : St w σ) (path : CStr) : Prop :=
  ∃ q, u.mem.HoldsString (u.arg P 1) q ∧ s.kernelPath P q = path

/-- The vector that a call is left with: the guest's own, or one with strings before the program's
path. -/
def HandedArgs (P : Platform w σ) (s u : St w σ) (ps : List (Word w)) (p : CStr) :
    Option (List CStr) → Prop
  | none => u.arg P 2 = s.arg P 2
  | some strs => u.arg P 2 ≠ s.arg P 2 ∧ HasArgs P u (strs ++ [p]) ((ps.take maxExecArgs).drop 1)

/-- The kernel runs one host program for both calls, with vectors that differ in the program's path
only. -/
def SameRun (P : Platform w σ) (s u u' : St w σ) (ps : List (Word w)) (p a : CStr) : Prop :=
  ∃ path path' lead, RunsHost P s u path ∧ RunsHost P s u' path' ∧
    SameHost (P.readlink s.fs) path path' ∧ HandedArgs P s u ps p lead ∧ HandedArgs P s u' ps a lead

/-- Of one program and its arguments. -/
def Agree (P : Platform w σ) (s : St w σ) (host a : CStr) :
    Option (CStr × List CStr) → Option (CStr × List CStr) → Prop
  | none, none => (translatePath (s.walkEnv P true) a pathLen).differs = true ∨
      SameHost (P.readlink s.fs) host a
  | some (path, strs), some (path', strs') => strs = strs' ∧
      SameHost (P.readlink s.fs) (s.kernelPath P path) (s.kernelPath P path')
  | _, _ => False

/-- A relative path is run like the absolute one, and all that the tracer looks at for both lies
inside. -/
structure LikeAbsolute (P : Platform w σ) (s u u' : St w σ) (ps : List (Word w)) (here p a : CStr) :
    Prop where
  run : SameRun P s u u' ps p a
  inside : ∀ q ∈ [p, a], ∀ x path, Inspects P s here q x path →
    LeadsInside (s.walkEnv P true) path

/-- Behind the working directory on the host, the tracer finds what asks for the same interpreters,
arguments and loader as what it finds under the translation; where neither asks for any, the
translation is another path or the kernel finds the same under both. No way past the resolver leads
outside. -/
structure FoundAlike (P : Platform w σ) (s : St w σ) (here c p host a : CStr) : Prop where
  found : ∃ o o', Taken P s c p o ∧ Taken P s c a o' ∧ Agree P s host a o o'
  inside : ∀ q ∈ [p, a], KeepsInside P s here q

/-- One file behind both. -/
theorem FoundAlike.of_content (htaken : Taken P s c p o)
    (hf : P.content s.fs (hostPathOf P s p pathLen) = P.content s.fs (hostPathOf P s a pathLen))
    (hplain : (translatePath (s.walkEnv P true) a pathLen).differs = true ∨
      SameHost (P.readlink s.fs) host a)
    {here : CStr} (hin : ∀ q ∈ [p, a], KeepsInside P s here q) :
    FoundAlike P s here c p host a := by
  obtain ⟨o', htaken', hnone, hsome⟩ := htaken.of_content hf
  refine ⟨⟨o, o', htaken, htaken', ?_⟩, hin⟩
  cases o with
  | none =>
    obtain rfl := hnone rfl
    exact hplain
  | some x =>
    obtain rfl := hsome rfl
    exact ⟨rfl, .refl _ _⟩

/-- Of what two calls are left with. -/
def SameFate (P : Platform w σ) (s : St w σ) (plain plain' : CStr) :
    Option (CStr × List CStr) → Option (CStr × List CStr) → Prop
  | none, none => SameHost (P.readlink s.fs) (s.kernelPath P plain) (s.kernelPath P plain')
  | some (path, strs), some (path', strs') => strs = strs' ∧
      SameHost (P.readlink s.fs) (s.kernelPath P path) (s.kernelPath P path')
  | _, _ => False

theorem sameRun_iff {u u' : St w σ} {plain plain' : CStr}
    (h : LeftWith P s u ps p plain o) (h' : LeftWith P s u' ps a plain' o') :
    SameRun P s u u' ps p a ↔ SameFate P s plain plain' o o' := by
  -- the strings before the program's path are known from the vector
  have hstrs : ∀ {v : St w σ} {strs strs' : List CStr} {q : CStr} {rest : List (Word w)},
      HasArgs P v (strs ++ [q]) rest → HasArgs P v (strs' ++ [q]) rest → strs = strs' :=
    fun h h' => List.append_cancel_right (h.front h')
  cases o with
  | none =>
    obtain ⟨hargs, hplain⟩ := h
    cases o' with
    | none =>
      obtain ⟨hargs', hplain'⟩ := h'
      constructor
      · rintro ⟨path, path', lead, ⟨q, hq, rfl⟩, ⟨q', hq', rfl⟩, hsame, -, -⟩
        obtain rfl := hplain.unique hq
        obtain rfl := hplain'.unique hq'
        exact hsame
      · intro hsame
        exact ⟨_, _, none, ⟨_, hplain, rfl⟩, ⟨_, hplain', rfl⟩, hsame, hargs, hargs'⟩
    | some x =>
      refine iff_of_false ?_ not_false
      rintro ⟨path, path', lead, -, -, -, hl, hl'⟩
      cases lead with
      | none => exact h'.1 hl'
      | some strs => exact hl.1 hargs
  | some x =>
    obtain ⟨path, strs⟩ := x
    obtain ⟨hargs, hpath, hvec⟩ := h
    cases o' with
    | none =>
      refine iff_of_false ?_ not_false
      rintro ⟨path, path', lead, -, -, -, hl, hl'⟩
      cases lead with
      | none => exact hargs hl
      | some strs => exact hl'.1 h'.1
    | some x' =>
      obtain ⟨path', strs'⟩ := x'
      obtain ⟨hargs', hpath', hvec'⟩ := h'
      constructor
      · rintro ⟨_, _, lead, ⟨q, hq, rfl⟩, ⟨q', hq', rfl⟩, hsame, hl, hl'⟩
        cases lead with
        | none => exact (hargs hl).elim
        | some strs'' =>
          obtain rfl := hpath.unique hq
          obtain rfl := hpath'.unique hq'
          exact ⟨(hstrs hvec hl.2).trans (hstrs hl'.2 hvec'), hsame⟩
      · rintro ⟨rfl, hsame⟩
        exact ⟨_, _, some strs, ⟨_, hpath, rfl⟩, ⟨_, hpath', rfl⟩, hsame, ⟨hargs, hvec⟩,
          ⟨hargs', hvec'⟩⟩

/-- What the tracer makes of both decides whether they are run alike. -/
theorem sameRun_agree {x y : Word w} (hx : P.nr.is .execve n) (hc : ExecCall P s p ps a0)
    (hy : ps.head? = some y) (hE : ProperNames (s.walkEnv P true)) (hne : p ≠ [])
    (hrel : p.head? ≠ some slash) (hs : Spells P s.ctx s.t.root s.t.pid s.fs AT_FDCWD p host a)
    (ha : Reads P (s.setArg P 1 x) 1 a) (hlen : a.length < pathLen) (hargv : ArgvApart P s)
    (hu : (execEntry P s n).arg P 1 ≠ 0) (hu' : (execEntry P (s.setArg P 1 x) n).arg P 1 ≠ 0) :
    ∃ o o', Taken P s (argv0 s [.ptr y]) p o ∧ Taken P s (argv0 s [.ptr y]) a o' ∧
      (SameRun P s (execEntry P s n) (execEntry P (s.setArg P 1 x) n) ps p a ↔
        Agree P s host a o o') := by
  have habs : a.head? = some slash := (hs.proper hE rfl hc.path.2.1).1
  have hmap : unmapped s.ctx s.t.root = false := hs.mapped hrel
  have harg : (s.setArg P 1 x).arg P 2 = s.arg P 2 :=
    arg_setArg_ne s x (by decide) (by decide) (by decide)
  have hc' : ExecCall P (s.setArg P 1 x) a ps a0 :=
    ⟨ha, hlen, harg ▸ hc.argv, harg ▸ hc.vector, hc.first⟩
  obtain ⟨o, ho, hleft⟩ := execEntry_leftWith hx hc hE hy hne hs hmap hargv hu
  obtain ⟨o', ho', hleft'⟩ := execEntry_leftWith (s := s.setArg P 1 x) hx hc' hE hy
    (fun h0 => by rw [h0] at habs; cases habs) (.absolute habs) hmap
    (show s.t.scratchTop ≤ _ ∨ _ from harg ▸ hargv) hu'
  refine ⟨o, o', ho, ho'.setArg, ?_⟩
  have hleft'' : LeftWith P s (execEntry P (s.setArg P 1 x) n) ps a
      (if (translatePath (s.walkEnv P true) a pathLen).differs then
        (translatePath (s.walkEnv P true) a pathLen).out else a) o' := by
    cases o' with
    | none => exact ⟨hleft'.1.trans harg, hleft'.2⟩
    | some z => exact ⟨harg ▸ hleft'.1, hleft'.2⟩
  rw [sameRun_iff hleft hleft'']
  cases o with
  | some z => cases o' <;> exact Iff.rfl
  | none =>
    cases o' with
    | some z => exact Iff.rfl
    | none =>
      unfold Agree SameFate
      by_cases hdiff : (translatePath (s.walkEnv P true) a pathLen).differs = true
      · rw [if_pos hdiff, if_pos hdiff]
        exact iff_of_true (SameHost.refl _ _) (.inl hdiff)
      · rw [if_neg hdiff, if_neg hdiff, hs.kernelPath, show s.kernelPath P a = a from if_pos habs]
        exact ⟨.inr, fun h => h.resolve_left hdiff⟩

/-- **A relative path is run like the absolute one**, with no look outside, exactly when the tracer
finds the same behind the working directory as under the translation and is not led outside. `x` is
where the absolute path is. -/
theorem relative_exec_iff {x y : Word w} {here : CStr} (hx : P.nr.is .execve n)
    (hc : ExecCall P s p ps a0) (hy : ps.head? = some y) (hE : ProperNames (s.walkEnv P true))
    (hcanon : CanonicalNames (s.walkEnv P true)) (hne : p ≠ []) (hrel : p.head? ≠ some slash) (hs : Spells P s.ctx s.t.root s.t.pid s.fs AT_FDCWD p host a)
    (ha : Reads P (s.setArg P 1 x) 1 a) (hlen : a.length < pathLen) (hargv : ArgvApart P s)
    (hu : (execEntry P s n).arg P 1 ≠ 0) (hu' : (execEntry P (s.setArg P 1 x) n).arg P 1 ≠ 0) :
    LikeAbsolute P s (execEntry P s n) (execEntry P (s.setArg P 1 x) n) ps here p a ↔
      FoundAlike P s here (argv0 s [.ptr y]) p host a := by
  obtain ⟨o, o', ho, ho', hagree⟩ := sameRun_agree hx hc hy hE hne hrel hs ha hlen hargv hu hu'
  have hmap : unmapped s.ctx s.t.root = false := hs.mapped hrel
  have hinside : ∀ q, (∀ x path, Inspects P s here q x path → LeadsInside (s.walkEnv P true) path) ↔
      KeepsInside P s here q := fun _ => inspects_inside_iff hE hcanon hmap
  constructor
  · intro h
    exact ⟨⟨o, o', ho, ho', hagree.1 h.run⟩, fun q hq => (hinside q).1 (h.inside q hq)⟩
  · rintro ⟨⟨q, q', hq, hq', h⟩, hin⟩
    obtain rfl := ho.unique hq
    obtain rfl := ho'.unique hq'
    exact ⟨hagree.2 h, fun q hq => (hinside q).2 (hin q hq)⟩

/-! ## Through an absolute link -/

/-- In `/r/d`, `x` is a link to `/bin/tool`; only the root has that program, for the loader `/l`. -/
def toolHost : Platform 64 Unit :=
  linkedHost [(cstr "/r/bin/tool", elfFile (cstr "/l"))]
    [(cstr "/proc/7/cwd", cstr "/r/d"), (cstr "/r/d/x", cstr "/bin/tool")]

def toolFiles : List (CStr × List Byte) :=
  [(cstr "/r/bin/tool", elfFile (cstr "/l")), (cstr "/r/l", [])]

/-- The program with its loader, and its own directory for the working directory. -/
def toolDir : Platform 64 Unit := linkedHost toolFiles [(cstr "/proc/7/cwd", cstr "/r/bin")]

/-- `execve(p, {"t"}, ...)`, with `a` at 16384. -/
def relativeCall (p a : CStr) : St 64 Unit :=
  execveIn (linuxMem [(4096, p), (8192, toBytes false 8 12288), (12288, cstr "t"), (16384, a)])

theorem relativeCall_reads {P : Platform 64 Unit} {p a : CStr} (hP : P.arch = x86_64)
    (h : (relativeCall p a).mem.HoldsString 16384 a) :
    Reads P ((relativeCall p a).setArg P 1 16384) 1 a := by
  have harg : ((relativeCall p a).setArg P 1 16384).arg P 1 = 16384 := by
    rw [St.arg, St.setArg, hP]
    rfl
  rw [Reads, harg]
  exact ⟨by decide, h⟩

theorem relativeCall_argv {P : Platform 64 Unit} (hP : P.arch = x86_64) (p a : CStr) :
    ArgvApart P (relativeCall p a) := by
  have hargv : (relativeCall p a).arg P 2 = 8192 := by
    rw [St.arg, hP]
    rfl
  rw [ArgvApart, hargv]
  right
  show (8192 : Word 64).toNat + 2 ^ 18 ≤ (relativeCall [] []).t.scratchTop.toNat
  decide +kernel

/-- The tracer does not find the program behind the link, and the kernel is left to run `x`; for
`/d/x` it runs the root's loader. -/
theorem absolute_link_missed :
    let s := relativeCall (cstr "x") (cstr "/d/x")
    ¬LikeAbsolute toolHost s (execEntry toolHost s 59)
      (execEntry toolHost (s.setArg toolHost 1 16384) 59) [12288] (cstr "/") (cstr "x")
      (cstr "/d/x") := by
  intro s h
  have hc : ExecCall toolHost s (cstr "x") [12288] (cstr "t") := by
    apply execveIn_call rfl
    · exact ⟨by decide, by decide +kernel⟩
    · decide
    · decide +kernel
    · exact ⟨by decide, by decide +kernel⟩
  have hs : Spells toolHost s.ctx s.t.root s.t.pid s.fs AT_FDCWD (cstr "x") (cstr "/r/d/x")
      (cstr "/d/x") := by
    have hb : Standing toolHost () 7 AT_FDCWD (cstr "/r/d") :=
      ⟨by decide +kernel, by decide, by decide, rfl⟩
    exact .relative (by decide) hb (by decide +kernel : _ = some (cstr "/d"))
  have hE : ProperNames (s.walkEnv toolHost true) := execveLinked_proper (by decide) _
  have ha : Reads toolHost (s.setArg toolHost 1 16384) 1 (cstr "/d/x") :=
    relativeCall_reads rfl ⟨by decide, by decide +kernel⟩
  obtain ⟨o, o', ho, ho', hagree⟩ := sameRun_agree (n := 59) (by decide +kernel) hc rfl hE (by decide)
    (by decide) hs ha (by decide) (relativeCall_argv rfl _ _) (by decide +kernel) (by decide +kernel)
  have hx : Taken toolHost s (argv0 s [.ptr 12288]) (cstr "x") none :=
    .asIs rfl (by decide +kernel) (by decide +kernel)
  have huses : (usesLoader toolHost s (cstr "/d/x")).isSome := by decide +kernel
  have hx' := Taken.ended (c := argv0 s [.ptr 12288]) rfl (.here (cstr "/d/x")) (by decide)
    (by decide +kernel) (.inr huses)
  obtain rfl := ho.unique hx
  obtain rfl := ho'.unique hx'
  exact hagree.1 h.run

/-- From its own directory, the program is found. Beside it, the tracer reads the loader. -/
theorem tool_found :
    let s := relativeCall (cstr "tool") (cstr "/bin/tool")
    LikeAbsolute toolDir s (execEntry toolDir s 59)
      (execEntry toolDir (s.setArg toolDir 1 16384) 59) [12288] (cstr "/") (cstr "tool")
      (cstr "/bin/tool") := by
  intro s
  have hc : ExecCall toolDir s (cstr "tool") [12288] (cstr "t") := by
    apply execveIn_call rfl
    · exact ⟨by decide, by decide +kernel⟩
    · decide
    · decide +kernel
    · exact ⟨by decide, by decide +kernel⟩
  have hs : Spells toolDir s.ctx s.t.root s.t.pid s.fs AT_FDCWD (cstr "tool") (cstr "/r/bin/tool")
      (cstr "/bin/tool") := by
    have hb : Standing toolDir () 7 AT_FDCWD (cstr "/r/bin") :=
      ⟨by decide +kernel, by decide, by decide, rfl⟩
    exact .relative (by decide) hb (by decide +kernel : _ = some (cstr "/bin"))
  have hE : ProperNames (s.walkEnv toolDir true) := execveLinked_proper (by decide) _
  have hcanon : CanonicalNames (s.walkEnv toolDir true) :=
    ⟨⟨[cstr "r"], by decide, by decide +kernel⟩, nofun, nofun⟩
  have ha : Reads toolDir (s.setArg toolDir 1 16384) 1 (cstr "/bin/tool") :=
    relativeCall_reads rfl ⟨by decide, by decide +kernel⟩
  apply (relative_exec_iff (n := 59) (by decide +kernel) hc rfl hE hcanon (by decide) (by decide) hs
    ha (by decide) (relativeCall_argv rfl _ _) (by decide +kernel) (by decide +kernel)).2
  have hend : scriptAt (toolDir.content s.fs) (hostPathOf toolDir s (cstr "tool") pathLen) = none := by
    decide +kernel
  have huses : (usesLoader toolDir s (cstr "tool")).isSome := by decide +kernel
  -- the host has two files, and nothing under the loader's own name
  have hfiles : ∀ path, (toolDir.content s.fs path).isSome →
      path = cstr "/r/bin/tool" ∨ path = cstr "/r/l" := by
    intro path h
    obtain ⟨f, hf⟩ := Option.isSome_iff_exists.1 h
    have hf : toolFiles.lookup path = some f := hf
    obtain ⟨l₁, l₂, hl, -⟩ := List.lookup_eq_some_iff.1 hf
    have hmem : (path, f) ∈ toolFiles := by
      rw [hl]
      simp
    rcases List.mem_cons.1 hmem with hp | hp
    · exact .inl (congrArg Prod.fst hp)
    · exact .inr (congrArg Prod.fst (List.mem_singleton.1 hp))
  have hlooks : ∀ q x path, Inspects toolDir s (cstr "/") q x path →
      path = cstr "/r/bin/tool" ∨ path = cstr "/r/l" := by
    intro q x path h
    cases h with
    | program _ _ _ there => exact hfiles _ there
    | asIs _ _ _ _ there => cases there
    | inRoot _ _ _ _ own _ => cases own
    | loader _ _ _ _ _ there =>
      rcases hfiles _ there with h | h
      · exact .inl (by rw [h]; rfl)
      · exact .inr (by rw [h]; rfl)
  have hinside : ∀ q x path, Inspects toolDir s (cstr "/") q x path →
      LeadsInside (s.walkEnv toolDir true) path := by
    intro q x path h
    have htop : LeadsTo (toolDir.readlink ()) (cstr "/r") [cstr "r"] :=
      leadsTo_of_lead 16 (by decide +kernel)
    rcases hlooks q x path h with rfl | rfl
    · exact ⟨cstr "/r", .head _, _, [cstr "r", cstr "bin", cstr "tool"], htop,
        leadsTo_of_lead 16 (by decide +kernel), by decide⟩
    · exact ⟨cstr "/r", .head _, _, [cstr "r", cstr "l"], htop,
        leadsTo_of_lead 16 (by decide +kernel), by decide⟩
  apply FoundAlike.of_content (.ended rfl (.here _) (by decide) hend (.inr huses))
  · decide +kernel
  · exact .inl (by decide +kernel)
  · exact fun q _ => ⟨fun x path h _ => hinside q x path h, fun l h => hinside q l _ h,
      fun x path _ _ h _ _ => hinside q x path h⟩

end Emuroot
