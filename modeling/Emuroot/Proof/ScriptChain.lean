import Emuroot.Proof.ExecBlock
import Emuroot.Proof.HostNames
import Emuroot.Proof.TableEntry

/-!
# What the expansion loop of an execve finds

`Scripts P s file p ls q`: from the program `p` on, each a script of the next, there are the
interpreters and arguments `ls`, the last interpreter being `q`. `expandExec_short` and
`expandExec_long` say what the loop leaves behind a chain that it can follow to its end and one
that it cannot; what it leaves are proper strings (`execFront_proper`).
-/

namespace Emuroot

variable {w : Nat} {σ : Type} {P : Platform w σ} {s : St w σ} {file : CStr → Option (List Byte)}
  {p q : CStr} {ls : List (CStr × Option CStr)}

/-! ## Scripts -/

/-- The `#!` line of the file at a host path. -/
def scriptAt (file : CStr → Option (List Byte)) (host : CStr) : Option (CStr × Option CStr) :=
  (file host).bind fun f => parseShebang (f.take 256)

/-- From a program through its interpreter and the interpreter's to one of them, where the programs
are found in these places. -/
inductive ScriptsAt (place : CStr → CStr) (file : CStr → Option (List Byte)) :
    CStr → List (CStr × Option CStr) → CStr → Prop
  | here (p : CStr) : ScriptsAt place file p [] p
  | next {p q interp : CStr} {arg : Option CStr} {ls : List (CStr × Option CStr)} :
    scriptAt file (place p) = some (interp, arg) →
    ScriptsAt place file interp ls q → ScriptsAt place file p ((interp, arg) :: ls) q

/-- The chain that the tracer follows. -/
abbrev Scripts (P : Platform w σ) (s : St w σ) (file : CStr → Option (List Byte)) :
    CStr → List (CStr × Option CStr) → CStr → Prop :=
  ScriptsAt (hostPathOf P s · pathLen) file

/-- `Ik [Ak] ... I1 [A1]` in front of what is there. -/
def scriptArgs : List CStr → List (CStr × Option CStr) → List CStr
  | strs, [] => strs
  | strs, (interp, arg) :: ls => scriptArgs (interp :: (arg.toList ++ strs)) ls

namespace ScriptsAt

variable {place place' : CStr → CStr} {ls' : List (CStr × Option CStr)} {q' : CStr}

theorem mono {file' : CStr → Option (List Byte)} (h : ScriptsAt place file p ls q)
    (hf : ∀ path f, file path = some f → file' path = some f) : ScriptsAt place file' p ls q := by
  induction h with
  | here p => exact .here p
  | @next p q interp arg ls hs _ ih =>
    obtain ⟨f, hfile, hparse⟩ := Option.bind_eq_some_iff.1 hs
    exact .next (Option.bind_eq_some_iff.2 ⟨f, hf _ f hfile, hparse⟩) ih

/-- The chain is the same where its programs are found in the same places. -/
theorem congr (h : ScriptsAt place file p ls q) (hp : place' p = place p)
    (hls : ∀ l ∈ ls, place' l.1 = place l.1) : ScriptsAt place' file p ls q := by
  induction h with
  | here p => exact .here p
  | next hs _ ih =>
    rw [← hp] at hs
    exact .next hs (ih (hls _ List.mem_cons_self) fun l hl => hls l (List.mem_cons_of_mem _ hl))

/-- Two chains of one length agree. -/
theorem unique_length (h : ScriptsAt place file p ls q) (h' : ScriptsAt place file p ls' q')
    (hlen : ls.length = ls'.length) : ls = ls' ∧ q = q' := by
  induction h generalizing ls' with
  | here p =>
    cases h' with
    | here => exact ⟨rfl, rfl⟩
    | next _ _ => cases hlen
  | next hs _ ih =>
    cases h' with
    | here => cases hlen
    | next hs' h' =>
      rw [hs] at hs'
      cases hs'
      obtain ⟨rfl, rfl⟩ := ih h' (Nat.succ.inj hlen)
      exact ⟨rfl, rfl⟩

/-- No chain is longer than one that ends. -/
theorem length_le (h : ScriptsAt place file p ls q) (h' : ScriptsAt place file p ls' q')
    (hq' : scriptAt file (place q') = none) : ls.length ≤ ls'.length := by
  induction h generalizing ls' with
  | here => exact Nat.zero_le _
  | next hs _ ih =>
    cases h' with
    | here =>
      rw [hq'] at hs
      cases hs
    | next hs' h' =>
      rw [hs] at hs'
      cases hs'
      exact Nat.succ_le_succ (ih h')

/-- Two chains that both end agree. -/
theorem unique (h : ScriptsAt place file p ls q) (h' : ScriptsAt place file p ls' q')
    (hq : scriptAt file (place q) = none) (hq' : scriptAt file (place q') = none) :
    ls = ls' ∧ q = q' :=
  h.unique_length h' (Nat.le_antisymm (h.length_le h' hq') (h'.length_le h hq))

/-- A chain of so many scripts, or a shorter one that ends. -/
theorem within (place : CStr → CStr) (file : CStr → Option (List Byte)) (n : Nat) (p : CStr) :
    ∃ ls q, ScriptsAt place file p ls q ∧ ls.length ≤ n ∧
      (ls.length = n ∨ scriptAt file (place q) = none) := by
  induction n generalizing p with
  | zero => exact ⟨[], p, .here p, Nat.le_refl 0, .inl rfl⟩
  | succ n ih =>
    cases hs : scriptAt file (place p) with
    | none => exact ⟨[], p, .here p, Nat.zero_le _, .inr hs⟩
    | some l =>
      obtain ⟨interp, arg⟩ := l
      obtain ⟨ls, q, hls, hlen, hend⟩ := ih interp
      refine ⟨(interp, arg) :: ls, q, .next hs hls, Nat.succ_le_succ hlen, ?_⟩
      exact hend.imp (congrArg (· + 1)) id

end ScriptsAt

/-! ## The strings -/

/-- A string without NUL that fits a path buffer. -/
def Proper (x : CStr) : Prop := 0 ∉ x ∧ x.length < pathLen

theorem cStrOf_noNul (buf : List Byte) : 0 ∉ cStrOf buf := by
  intro h
  have := List.mem_takeWhile_imp h
  simp at this

theorem parseShebang_proper {head : List Byte} {interp : CStr} {arg : Option CStr}
    (h : parseShebang head = some (interp, arg)) :
    Proper interp ∧ ∀ a ∈ arg, Proper a := by
  unfold parseShebang at h
  split at h
  · cases h
  · extract_lets line p interp' rest arg' at h
    split at h
    · cases h
    · -- both are parts of the line
      have hline : ∀ {x : CStr}, x.Sublist line → Proper x := by
        intro x hx
        refine ⟨fun h0 => cStrOf_noNul _ (hx.subset h0), ?_⟩
        have hlen : line.length ≤ 255 :=
          (List.takeWhile_sublist _).length_le.trans (List.length_take_le _ _)
        have := hx.length_le
        rw [pathLen]
        omega
      have hp : p.Sublist line := List.dropWhile_sublist _
      have hrest : rest.Sublist line :=
        ((List.dropWhile_sublist _).trans (List.dropWhile_sublist _)).trans hp
      have harg : arg'.Sublist rest := by
        have := (List.dropWhile_sublist (fun c => isBlank c || c == 13) (l := rest.reverse)).reverse
        rwa [List.reverse_reverse] at this
      obtain ⟨rfl, rfl⟩ := Prod.mk.inj (Option.some.inj h)
      refine ⟨hline ((List.takeWhile_sublist _).trans hp), ?_⟩
      intro a ha
      split at ha
      · cases ha
      · cases ha
        exact hline (harg.trans hrest)

theorem findInterp_proper {offBits : Nat} {big is64 : Bool} {f : List Byte} {phoff phentsize i n : Nat}
    {interp : CStr} (h : findInterp offBits big is64 f phoff phentsize pathLen i n = some interp) :
    Proper interp := by
  induction n generalizing i with
  | zero => cases h
  | succ n ih =>
    unfold findInterp at h
    extract_lets at_ at h
    split at h
    · cases h
    · rename_i ph hph
      extract_lets off filesz at h
      split at h
      · split at h
        · cases h
        · rename_i hsz
          obtain ⟨bytes, hb, rfl⟩ := Option.map_eq_some_iff.1 h
          refine ⟨cStrOf_noNul _, ?_⟩
          have hlen : bytes.length = filesz := by
            obtain ⟨_, -, hb⟩ := Option.bind_eq_some_iff.1 hb
            unfold preadExact at hb
            extract_lets got at hb
            split at hb
            · exact Option.some.inj hb ▸ ‹_›
            · cases hb
          have := (List.takeWhile_sublist (· != 0) (l := bytes)).length_le
          rw [cStrOf]
          omega
      · exact ih h

theorem elfInterp_found {offBits : Nat} {big : Bool} {f : List Byte} {size : Nat} {interp : CStr}
    (h : elfInterp offBits big f size = some interp) :
    f.take 4 = [0x7f, 0x45, 0x4c, 0x46] ∧ ∃ is64 phoff phentsize n,
      findInterp offBits big is64 f phoff phentsize size 0 n = some interp := by
  unfold elfInterp at h
  cases hid : preadExact f 0 16 with
  | none => rw [hid] at h; cases h
  | some id =>
    rw [hid] at h
    have hhead : id = f.take 16 := by
      unfold preadExact at hid
      extract_lets got at hid
      split at hid
      · exact (Option.some.inj hid).symm
      · cases hid
    have h4 : f.take 4 = id.take 4 := by simp [hhead, List.take_take]
    rw [h4]
    dsimp only at h
    by_cases hmag : id.take 4 ≠ [0x7f, 0x45, 0x4c, 0x46]
    · rw [if_pos hmag] at h
      cases h
    · rw [if_neg hmag] at h
      refine ⟨not_not.1 hmag, ?_⟩
      by_cases hdata : ((id.drop 5).head?.any (· == if big then 2 else 1)) = true
      · rw [if_pos hdata] at h
        split at h
        · obtain ⟨_, -, h⟩ := Option.bind_eq_some_iff.1 h
          exact ⟨_, _, _, _, h⟩
        · obtain ⟨_, -, h⟩ := Option.bind_eq_some_iff.1 h
          exact ⟨_, _, _, _, h⟩
        · cases h
      · rw [if_neg hdata] at h
        cases h

theorem elfInterp_proper {offBits : Nat} {big : Bool} {f : List Byte} {interp : CStr}
    (h : elfInterp offBits big f pathLen = some interp) : Proper interp := by
  obtain ⟨-, _, _, _, _, h⟩ := elfInterp_found h
  exact findInterp_proper h

/-- An ELF file is no script. -/
theorem parseShebang_of_elf {offBits : Nat} {big : Bool} {f : List Byte} {size : Nat} {interp : CStr}
    (h : elfInterp offBits big f size = some interp) : parseShebang (f.take 256) = none := by
  have h2 : (f.take 256).take 2 = (f.take 4).take 2 := by simp [List.take_take]
  unfold parseShebang
  apply if_pos
  apply Or.inr
  intro hsb
  rw [h2, (elfInterp_found h).1] at hsb
  exact absurd hsb (by decide)

theorem ScriptsAt.proper {place : CStr → CStr} (h : ScriptsAt place file p ls q) :
    ∀ l ∈ ls, Proper l.1 ∧ ∀ a ∈ l.2, Proper a := by
  induction h with
  | here => simp
  | next hs _ ih =>
    obtain ⟨f, -, hparse⟩ := Option.bind_eq_some_iff.1 hs
    intro l hl
    rcases List.mem_cons.1 hl with rfl | hl
    · exact parseShebang_proper hparse
    · exact ih l hl

theorem ScriptsAt.last_proper {place : CStr → CStr} (h : ScriptsAt place file p ls q)
    (hp : Proper p) : Proper q := by
  induction h with
  | here => exact hp
  | next hs _ ih =>
    obtain ⟨f, -, hparse⟩ := Option.bind_eq_some_iff.1 hs
    exact ih (parseShebang_proper hparse).1

theorem scriptArgs_proper {strs : List CStr} (hs : ∀ x ∈ strs, Proper x)
    (hl : ∀ l ∈ ls, Proper l.1 ∧ ∀ a ∈ l.2, Proper a) : ∀ x ∈ scriptArgs strs ls, Proper x := by
  induction ls generalizing strs with
  | nil => exact hs
  | cons l ls ih =>
    obtain ⟨interp, arg⟩ := l
    obtain ⟨hi, ha⟩ := hl _ List.mem_cons_self
    apply ih _ fun l hl' => hl l (List.mem_cons_of_mem _ hl')
    intro x hx
    rcases List.mem_cons.1 hx with rfl | hx
    · exact hi
    · rcases List.mem_append.1 hx with hx | hx
      · exact ha x (Option.mem_toList.1 hx)
      · exact hs x hx

theorem length_scriptArgs_le (strs : List CStr) (ls : List (CStr × Option CStr)) :
    (scriptArgs strs ls).length ≤ strs.length + 2 * ls.length := by
  induction ls generalizing strs with
  | nil => exact Nat.le_refl _
  | cons l ls ih =>
    obtain ⟨interp, arg⟩ := l
    have := ih (interp :: (arg.toList ++ strs))
    cases arg <;> simp [scriptArgs] at this ⊢ <;> omega

/-- The last interpreter, or the program, comes first. -/
theorem ScriptsAt.head {place : CStr → CStr} (h : ScriptsAt place file p ls q) (strs : List CStr) :
    (scriptArgs (p :: strs) ls).head? = some q := by
  induction h generalizing strs with
  | here => rfl
  | next _ _ ih => exact ih _

/-! ## The loop -/

/-- Where a loader is on the host. -/
def loaderHost (P : Platform w σ) (s : St w σ) (loader : CStr) : CStr :=
  (translatePath (s.walkEnv P true) loader pathLen).out

/-- The loader that a program asks for, unless the kernel finds it as it is. -/
def usesLoader (P : Platform w σ) (s : St w σ) (q : CStr) : Option CStr :=
  (P.content s.fs (hostPathOf P s q pathLen)).bind fun f =>
    (elfInterp P.offBits P.arch.bigEndian f pathLen).filter fun loader =>
      !loaderAsIs P s.fs loader (loaderHost P s loader)

/-- The loader that the file at a host path names. -/
def namedLoader (P : Platform w σ) (s : St w σ) (host : CStr) : Option CStr :=
  (P.content s.fs host).bind fun f => elfInterp P.offBits P.arch.bigEndian f pathLen

theorem usesLoader_eq (P : Platform w σ) (s : St w σ) (q : CStr) :
    usesLoader P s q = (namedLoader P s (hostPathOf P s q pathLen)).filter fun loader =>
      !loaderAsIs P s.fs loader (loaderHost P s loader) := by
  rw [usesLoader, namedLoader]
  cases P.content s.fs (hostPathOf P s q pathLen) <;> rfl

/-- The loader is told what to pass on as `argv[0]`. -/
def toldArgv0 (P : Platform w σ) (s : St w σ) (loader : CStr) : Bool :=
  (loaderHasArgv0 P s.fs s.ctx.loaderCache (loaderHost P s loader)).1

/-- The program that is run in the end. -/
def lastHost (P : Platform w σ) (s : St w σ) (q : CStr) : CStr :=
  match usesLoader P s q with
  | none => hostPathOf P s q pathLen
  | some loader => loaderHost P s loader

/-- What the loader is given before the program, `a` to pass on. -/
def loaderArgs (P : Platform w σ) (s : St w σ) (q a : CStr) : List CStr :=
  match usesLoader P s q with
  | none => []
  | some loader => loader :: if toldArgv0 P s loader then [cstr "--argv0", a] else []

/-- The strings in front of `argv[1..]` for a program `p` with `argv[0]` `a0`. -/
def execFront (P : Platform w σ) (s : St w σ) (p a0 : CStr) (ls : List (CStr × Option CStr))
    (q : CStr) : List CStr :=
  loaderArgs P s q (if ls = [] then a0 else q) ++ scriptArgs [p] ls

/-- The variables of the loop where it looks at a program: `strs` are made up, `rest` is the
guest's, and `x` is where `argv[0]` was. -/
structure AtProgram (e : ExecState w) (x : EArg w) (strs : List CStr) (rest : List (EArg w)) :
    Prop where
  head : strs.head? = some e.execPath
  args : e.args = x :: ((strs.drop 1).map .str ++ rest)

/-- The variables behind a script. -/
def afterScript (P : Platform w σ) (s : St w σ) (e : ExecState w) (interp : CStr)
    (arg : Option CStr) : ExecState w :=
  { e with
    host := hostPathOf P s e.execPath pathLen
    args := replaceHead e.args (interp :: (arg.toList ++ [e.execPath]))
    execPath := interp
    rewritten := true }

variable {e : ExecState w} {x : EArg w} {strs : List CStr} {rest : List (EArg w)} {depth : Nat}

theorem expandExec_script {interp : CStr} {arg : Option CStr}
    (h : scriptAt (P.content s.fs) (hostPathOf P s e.execPath pathLen) = some (interp, arg)) :
    expandExec P s (depth + 1) e = expandExec P s depth (afterScript P s e interp arg) := by
  obtain ⟨f, hf, hparse⟩ := Option.bind_eq_some_iff.1 h
  have hi : snprintf pathLen interp = interp := snprintf_of_lt (parseShebang_proper hparse).1.2
  rw [expandExec]
  dsimp only
  rw [hf]
  dsimp only
  rw [hparse]
  dsimp only
  rw [hi]
  rfl

theorem AtProgram.script (h : AtProgram e x strs rest) (interp : CStr) (arg : Option CStr) :
    AtProgram (afterScript P s e interp arg) (.str interp) (interp :: (arg.toList ++ strs)) rest := by
  refine ⟨rfl, ?_⟩
  cases strs with
  | nil => cases h.head
  | cons a t =>
    have ha : a = e.execPath := Option.some.inj h.head
    simp [afterScript, replaceHead, h.args, ha]

/-- **Along a chain of scripts** each level puts its strings in front. -/
theorem expandExec_run (h : Scripts P s (P.content s.fs) p ls q) (hd : ls.length ≤ depth)
    (he : e.execPath = p) (ha : AtProgram e x strs rest) :
    ∃ e' x', expandExec P s depth e = expandExec P s (depth - ls.length) e' ∧ e'.execPath = q ∧
      AtProgram e' x' (scriptArgs strs ls) rest ∧ e'.cache = e.cache ∧
      (ls = [] → e' = e ∧ x' = x) ∧
      (ls ≠ [] → x' = .str q ∧ e'.rewritten = true ∧
        ∃ p', Scripts P s (P.content s.fs) p ls.dropLast p' ∧ e'.host = hostPathOf P s p' pathLen ∧
          (scriptAt (P.content s.fs) e'.host).isSome) := by
  induction h generalizing e x strs depth with
  | here p =>
    exact ⟨e, x, rfl, he, ha, rfl, fun _ => ⟨rfl, rfl⟩, fun hne => (hne rfl).elim⟩
  | @next p q interp arg ls hs hls ih =>
    obtain ⟨d, rfl⟩ : ∃ d, depth = d + 1 := ⟨depth - 1, by simp at hd; omega⟩
    obtain ⟨e', x', hrun, hq, hat, hcache, hnil, hcons⟩ :=
      ih (Nat.le_of_succ_le_succ hd) rfl (ha.script (P := P) (s := s) interp arg)
    refine ⟨e', x', ?_, hq, hat, hcache, (fun hnil => nomatch hnil), fun _ => ?_⟩
    · rw [expandExec_script (he ▸ hs), hrun, List.length_cons, Nat.add_sub_add_right]
    · by_cases hls0 : ls = []
      · subst hls0
        obtain ⟨rfl, rfl⟩ := hnil rfl
        cases hls
        refine ⟨rfl, rfl, p, .here p, congrArg (hostPathOf P s · pathLen) he, ?_⟩
        exact Option.isSome_iff_exists.2 ⟨_, he ▸ hs⟩
      · obtain ⟨hx, hrew, p', hp', hhost, hscript⟩ := hcons hls0
        refine ⟨hx, hrew, p', ?_, hhost, hscript⟩
        rw [List.dropLast_cons_of_ne_nil hls0]
        exact .next hs hp'

/-- The round for a program that is no script. -/
theorem expandExec_last (depth : Nat)
    (hend : scriptAt (P.content s.fs) (hostPathOf P s e.execPath pathLen) = none)
    (hcache : e.cache = s.ctx.loaderCache) (ha : AtProgram e x strs rest) :
    let r := expandExec P s (depth + 1) e
    r.host = lastHost P s e.execPath ∧
      (usesLoader P s e.execPath = none →
        r = { e with host := hostPathOf P s e.execPath pathLen }) ∧
      ((usesLoader P s e.execPath).isSome → r.rewritten = true ∧
        r.args = (loaderArgs P s e.execPath (argv0 s e.args) ++ strs).map .str ++ rest) := by
  dsimp only
  rw [expandExec]
  dsimp only
  cases hf : P.content s.fs (hostPathOf P s e.execPath pathLen) with
  | none =>
    have huses : usesLoader P s e.execPath = none := by rw [usesLoader, hf]; rfl
    simp [lastHost, huses]
  | some f =>
    have hparse : parseShebang (f.take 256) = none := by
      rw [scriptAt, hf] at hend
      exact hend
    dsimp only
    rw [hparse]
    dsimp only
    cases hl : elfInterp P.offBits P.arch.bigEndian f pathLen with
    | none =>
      have huses : usesLoader P s e.execPath = none := by simp [usesLoader, hf, hl]
      simp [lastHost, huses]
    | some loader =>
      dsimp only
      rw [← loaderHost]
      cases has : loaderAsIs P s.fs loader (loaderHost P s loader) with
      | true =>
        have huses : usesLoader P s e.execPath = none := by simp [usesLoader, hf, hl, has]
        simp [lastHost, huses]
      | false =>
        have huses : usesLoader P s e.execPath = some loader := by
          simp [usesLoader, hf, hl, has, Option.filter]
        have hhost : snprintf pathLen (loaderHost P s loader) = loaderHost P s loader :=
          snprintf_of_lt (length_translate_lt _ _)
        rw [if_neg (by simp), hcache, lastHost, huses]
        refine ⟨hhost, ?_, ?_⟩
        · intro hn
          cases hn
        intro _
        refine ⟨rfl, ?_⟩
        dsimp only
        cases strs with
        | nil => cases ha.head
        | cons a t =>
          have hae : a = e.execPath := Option.some.inj ha.head
          simp only [loaderArgs, huses, toldArgv0, replaceHead, ha.args, hae]
          cases (loaderHasArgv0 P s.fs s.ctx.loaderCache (loaderHost P s loader)).1 <;> simp

/-- What the loop starts with. -/
structure AtStart (s : St w σ) (e : ExecState w) (p : CStr) (x : EArg w) (rest : List (EArg w)) :
    Prop where
  path : e.execPath = p
  args : e.args = x :: rest
  cache : e.cache = s.ctx.loaderCache
  fresh : e.rewritten = false

theorem AtStart.atProgram (h : AtStart s e p x rest) : AtProgram e x [p] rest :=
  ⟨congrArg some h.path.symm, h.args⟩

/-- **A chain that the loop follows to its end.** -/
theorem expandExec_short (h0 : AtStart s e p x rest) (h : Scripts P s (P.content s.fs) p ls q)
    (hlen : ls.length < depth)
    (hend : scriptAt (P.content s.fs) (hostPathOf P s q pathLen) = none) :
    let r := expandExec P s depth e
    r.host = lastHost P s q ∧ (r.rewritten = true ↔ ls ≠ [] ∨ (usesLoader P s q).isSome) ∧
      (r.rewritten = true →
        r.args = (execFront P s p (argv0 s [x]) ls q).map .str ++ rest) := by
  obtain ⟨e', x', hrun, hq, hat, hcache, hnil, hcons⟩ :=
    expandExec_run h (Nat.le_of_lt hlen) h0.path h0.atProgram
  obtain ⟨d, hd⟩ : ∃ d, depth - ls.length = d + 1 := ⟨depth - ls.length - 1, by omega⟩
  obtain ⟨hhost, hwithout, hwith⟩ := expandExec_last d (hq ▸ hend)
    (hcache.trans h0.cache) hat
  have hargv0 : argv0 s e'.args = if ls = [] then argv0 s [x] else q := by
    rw [hat.args]
    split
    · rw [(hnil ‹_›).2]
      rfl
    · rename_i hne
      rw [(hcons hne).1]
      have hqp : Proper q := by
        cases h with
        | here => exact (hne rfl).elim
        | next hs hls =>
          obtain ⟨f, -, hparse⟩ := Option.bind_eq_some_iff.1 hs
          exact hls.last_proper (parseShebang_proper hparse).1
      exact snprintf_of_lt hqp.2
  rw [hrun, hd]
  dsimp only
  rw [hq] at hhost hwithout hwith
  refine ⟨hhost, ?_⟩
  cases huses : usesLoader P s q with
  | some loader =>
    obtain ⟨hrew, hargs⟩ := hwith (by rw [huses]; rfl)
    refine ⟨by simp [hrew], fun _ => ?_⟩
    rw [hargs, hargv0, execFront]
  | none =>
    rw [hwithout huses, execFront, loaderArgs, huses, List.nil_append]
    dsimp only
    by_cases hls : ls = []
    · rw [(hnil hls).1, h0.fresh]
      simp [hls]
    · obtain ⟨hx', hrew', -⟩ := hcons hls
      refine ⟨by simp [hrew', hls], fun _ => ?_⟩
      have hhead := h.head []
      rw [hat.args, hx']
      cases hsa : scriptArgs [p] ls with
      | nil => rw [hsa] at hhead; cases hhead
      | cons a t =>
        rw [hsa] at hhead
        rw [Option.some.inj hhead]
        rfl

/-- **A chain that is too long for the loop**: what it leaves to be run is a script. -/
theorem expandExec_long (h0 : AtStart s e p x rest) (h : Scripts P s (P.content s.fs) p ls q)
    (hlen : ls.length = depth) (hpos : 0 < depth) :
    let r := expandExec P s depth e
    (∃ p', Scripts P s (P.content s.fs) p ls.dropLast p' ∧ r.host = hostPathOf P s p' pathLen ∧
      (scriptAt (P.content s.fs) r.host).isSome) ∧ r.rewritten = true ∧
      r.args = (scriptArgs [p] ls).map .str ++ rest := by
  obtain ⟨e', x', hrun, hq, hat, -, -, hcons⟩ :=
    expandExec_run h (Nat.le_of_eq hlen) h0.path h0.atProgram
  have hne : ls ≠ [] := List.ne_nil_of_length_pos (hlen ▸ hpos)
  obtain ⟨hx', hrew, hscript⟩ := hcons hne
  rw [hrun, hlen, Nat.sub_self]
  refine ⟨hscript, hrew, ?_⟩
  have hhead := h.head []
  show e'.args = _
  rw [hat.args, hx']
  cases hsa : scriptArgs [p] ls with
  | nil => rw [hsa] at hhead; cases hhead
  | cons a t =>
    rw [hsa] at hhead
    rw [Option.some.inj hhead]
    rfl

end Emuroot
