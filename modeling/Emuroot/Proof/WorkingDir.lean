import Emuroot.Proof.Chroot
import Emuroot.Proof.HostNames

/-!
# Working directories

`host_to_guest` after the translation of a directory. `working_dir`: it finds a name for the host
directory, and where it takes the mapping that the directory was translated through, paths behind
that name and behind the directory are the same host paths. It may take another: in
`working_dir_renamed` a binding whose host directory contains the root names the root's directories,
and `..` leads elsewhere.
-/

namespace Emuroot

open Words Relation

variable {E : WalkEnv} {ctx : Ctx} {root guest host : CStr} {cs : List CStr} {pt pt' : Point}
  {why : Why}

/-! ## Slashes at the end -/

/-- A path without the slashes at its end. -/
def trimmed (p : CStr) : CStr := orSlash (p.rdropWhile (· == slash))

theorem UpToSlash.trimmed_eq {p q : CStr} (h : UpToSlash p q) : trimmed p = trimmed q := by
  rw [trimmed, trimmed, show p.rdropWhile _ = q.rdropWhile _ from h]

theorem head?_rdropWhile {p : CStr} (h : ∀ a ∈ p.head?, a = slash) :
    ∀ a ∈ (p.rdropWhile (· == slash)).head?, a = slash := by
  intro a ha
  obtain ⟨t, ht⟩ := List.rdropWhile_prefix (· == slash) (l := p)
  refine h a ?_
  rw [← ht, Option.mem_def, List.head?_append, Option.mem_def.1 ha]
  rfl

theorem trimmed_pathStr (hw : ∀ c ∈ cs, IsWord slash c) : trimmed (pathStr cs) = pathStr cs := by
  by_cases hne : cs = []
  · rw [hne]
    decide
  · rw [trimmed, rdropWhile_eq_self (getLast?_pathStr_ne hw hne), orSlash, if_neg]
    rw [pathStr_of_ne hne]
    exact fun h => hne (glue_eq_nil.1 h)

/-! ## The directory of a mapping -/

/-- The host directory of the mapping that a guest path is taken through: the host path of a
binding, or the root. It is empty for `/`. -/
def mappedDir (ctx : Ctx) (root guest : CStr) : CStr :=
  match bestBinding ctx guest with
  | some b => unlessRoot b.host
  | none =>
    match mountedBinding ctx (snprintf pathLen (root ++ guest)) with
    | some m => unlessRoot m.host
    | none => unlessRoot root

theorem unlessRoot_of_ne {p : CStr} (h : unlessRoot p ≠ []) : unlessRoot p = p := by
  unfold unlessRoot at h ⊢
  split
  · rename_i hp
    exact absurd (if_pos hp) h
  · rfl

theorem stem_snprintf {q r : CStr} (hr : ∀ a ∈ r.head?, a = slash) (hlen : q.length < pathLen) :
    Stem slash q (snprintf pathLen (q ++ r)) := by
  have hs : Stem slash q (q ++ r) := ⟨r, rfl, hr⟩
  refine hs.of_prefix (List.take_prefix ..) ?_
  rw [snprintf, List.length_take, List.length_append]
  omega

theorem stem_orSlash_of {q p : CStr} (h : Stem slash q p) (hne : q ≠ []) : Stem slash q (orSlash p) := by
  obtain ⟨r, rfl, hr⟩ := h
  rw [orSlash, if_neg (by simp [hne])]
  exact ⟨r, rfl, hr⟩

/-- A host path is at or below the host directory of its mapping. -/
theorem stem_mapToHost (hg : guest.head? = some slash) (hne : mappedDir ctx root guest ≠ [])
    (hlen : (mappedDir ctx root guest).length < pathLen) :
    Stem slash (mappedDir ctx root guest) (mapToHost ctx root guest pathLen) := by
  unfold mappedDir at hne hlen ⊢
  cases hb : bestBinding ctx guest with
  | some b =>
    rw [hb] at hne hlen
    obtain ⟨pre, -, hr, -⟩ := Binding.exists_rest (bestBinding_mem hb).2 hg
    rw [mapToHost_best hb]
    exact stem_orSlash_of (stem_snprintf hr hlen) hne
  | none =>
    rw [hb] at hne hlen
    dsimp only at hne hlen ⊢
    cases hm : mountedBinding ctx (snprintf pathLen (root ++ guest)) with
    | some m =>
      rw [hm] at hne hlen
      obtain ⟨r, hr, hrs⟩ := (mounted_stem hm).2
      rw [mapToHost_mounted hb hm, hr, List.drop_left]
      exact stem_orSlash_of (stem_snprintf hrs hlen) hne
    | none =>
      rw [hm] at hne hlen
      dsimp only at hne hlen ⊢
      rw [unlessRoot_of_ne hne] at hlen ⊢
      rw [mapToHost_root hb hm]
      refine stem_snprintf (fun a ha => ?_) hlen
      rw [hg] at ha
      exact (Option.mem_some_iff.1 ha).symm

theorem Tight.getLast?_ne {p : CStr} (h : Tight p) : p.getLast? ≠ some slash := by
  have := h.not_endsWithSlash
  rwa [endsWithSlash, beq_eq_false_iff_ne] at this

theorem Tight.one_lt_length {p : CStr} (h : Tight p) (hne : p ≠ []) : 1 < p.length := by
  obtain ⟨ws, hw, rfl⟩ := h
  cases ws with
  | nil => exact absurd rfl hne
  | cons c ws =>
    have hc := List.length_pos_iff.2 (hw c List.mem_cons_self).word.ne_nil
    rw [glue_cons, List.length_append, List.length_cons]
    omega

theorem stem_append {q p r : CStr} (h : Stem slash q p)
    (hr : (∀ a ∈ r.head?, a = slash) ∨ endsWithSlash p = true ∧ q.getLast? ≠ some slash) :
    Stem slash q (p ++ r) := by
  obtain ⟨t, rfl, ht⟩ := h
  refine ⟨t ++ r, List.append_assoc .., fun a ha => ?_⟩
  cases t with
  | cons b t => exact ht a ha
  | nil =>
    rw [List.append_nil] at hr
    obtain hr | ⟨he, hl⟩ := hr
    · exact hr a ha
    · rw [endsWithSlash, beq_iff_eq] at he
      exact absurd he hl

/-- What is written is at or below a directory that the host path is at or below. -/
theorem stem_unwalked {q : CStr} (h : Stem slash q (E.img pt.cs)) (hl : q.getLast? ≠ some slash) :
    Stem slash q (unwalked E pt.walk) := by
  have hj : Stem slash q (pt.joined E) := by
    obtain ⟨hj, -⟩ | ⟨hj, he⟩ | hj := joined_eq E pt
    · rwa [hj]
    · rw [hj]
      exact stem_append h (.inr ⟨he, hl⟩)
    · rw [hj]
      exact stem_append h (.inl (by simp))
  obtain hu | hu := unwalked_walk E pt
  · rwa [hu]
  · rw [hu]
    exact stem_append hj (.inl (by simp))

theorem stem_trimmed {q p : CStr} (h : Stem slash q p) (hne : q ≠ []) (hl : q.getLast? ≠ some slash) :
    Stem slash q (trimmed p) := by
  obtain ⟨r, rfl, hr⟩ := h
  rw [trimmed, rdropWhile_append (.inl hl)]
  exact stem_orSlash_of ⟨_, rfl, head?_rdropWhile hr⟩ hne

/-- There is a guest path for what is at or below the host directory of a mapping. -/
theorem hostToGuest_isSome (hdir : Tight (mappedDir ctx root guest))
    (hne : mappedDir ctx root guest ≠ [])
    (h : Stem slash (mappedDir ctx root guest) host) : (hostToGuest ctx root host pathLen).isSome := by
  have hlen := hdir.one_lt_length hne
  -- a binding with that directory is one that the inverse can take
  have hbound : ∀ b ∈ ctx.bindings, mappedDir ctx root guest = unlessRoot b.host →
      hostBinding ctx host ≠ none := by
    intro b hb he hnone
    rw [he] at hne h hlen
    rw [unlessRoot_of_ne hne] at h hlen
    have hno := Pick.pick_eq_none.1 hnone b hb
    rw [hasPrefix_iff_stem.2 h, Bool.and_true] at hno
    exact absurd hlen (by simpa using hno)
  unfold hostToGuest
  cases hback : hostBinding ctx host with
  | some b => rfl
  | none =>
    dsimp only
    rw [if_pos]
    · rfl
    · unfold mappedDir at hne h hbound
      cases hb : bestBinding ctx guest with
      | some b =>
        rw [hb] at hbound
        exact absurd hback (hbound b (bestBinding_mem hb).1 rfl)
      | none =>
        rw [hb] at hne h hbound
        dsimp only at hne h hbound
        cases hm : mountedBinding ctx (snprintf pathLen (root ++ guest)) with
        | some m =>
          rw [hm] at hbound
          exact absurd hback (hbound m (mountedBinding_mem hm) rfl)
        | none =>
          rw [hm] at hne h
          dsimp only at hne h
          rw [unlessRoot_of_ne hne] at h
          have hr : root ≠ [] := unlessRoot_of_ne hne ▸ hne
          exact ⟨hr, hasPrefix_iff_stem.2 h⟩

/-! ## Walks without symlinks -/

/-- A place on a walk that has followed no symlink: the path so far has been read from the guest
path, and the text is the rest of it. -/
structure ReadSoFar (guest : CStr) (pt : Point) : Prop where
  suffix : pt.text <:+ guest
  head : ∀ a ∈ pt.text.head?, a = slash
  hops : pt.hops = 0
  length : (glue slash pt.cs).length + pt.text.length ≤ guest.length

theorem ReadSoFar.start (h : guest.head? = some slash) (hlen : guest.length < 2 * pathLen) :
    ReadSoFar guest (.start guest) where
  suffix := by rw [Point.start, snprintf_of_lt hlen]
  head a ha := by
    rw [Point.start, snprintf_of_lt hlen, h] at ha
    exact (Option.mem_some_iff.1 ha).symm
  hops := rfl
  length := by
    rw [Point.start, snprintf_of_lt hlen, glue_nil]
    exact Nat.le_of_eq (Nat.zero_add _)

theorem head?_afterComp (text : CStr) : ∀ a ∈ (afterComp text).head?, a = slash := by
  intro a ha
  have hnot := List.head?_dropWhile_not (· != slash) (text.dropWhile (· == slash))
  rw [show (text.dropWhile (· == slash)).dropWhile (· != slash) = afterComp text from rfl,
    Option.mem_def.1 ha] at hnot
  simpa using hnot

theorem afterComp_suffix (text : CStr) : afterComp text <:+ text :=
  (List.dropWhile_suffix _).trans (List.dropWhile_suffix _)

/-- A component is read with the slash before it. -/
theorem length_afterComp {text : CStr} (hs : ∀ a ∈ text.head?, a = slash) (hne : nextComp text ≠ []) :
    (nextComp text).length + 1 + (afterComp text).length ≤ text.length := by
  obtain ⟨t, rfl⟩ : ∃ t, text = slash :: t := by
    cases text with
    | nil => exact absurd rfl hne
    | cons a t => exact ⟨t, by rw [hs a rfl]⟩
  have hdrop : (slash :: t).dropWhile (· == slash) = t.dropWhile (· == slash) :=
    List.dropWhile_cons_of_pos (by rfl)
  have hle : (t.dropWhile (· == slash)).length ≤ t.length := (List.dropWhile_suffix _).length_le
  have hsplit := congrArg List.length
    (List.takeWhile_append_dropWhile (p := (· != slash)) (l := t.dropWhile (· == slash)))
  have hcut := List.length_take_le' 255 ((t.dropWhile (· == slash)).takeWhile (· != slash))
  rw [List.length_append] at hsplit
  rw [nextComp, afterComp, hdrop, List.length_cons]
  omega

theorem ReadSoFar.push {c : CStr} (h : ReadSoFar guest pt) (hc : pt.Enters c) :
    ReadSoFar guest (pt.push c) where
  suffix := (afterComp_suffix _).trans h.suffix
  head := head?_afterComp _
  hops := h.hops
  length := by
    have hlen := length_afterComp h.head (hc.comp ▸ hc.name.word.ne_nil)
    have := h.length
    rw [hc.comp] at hlen
    simp only [Point.push, glue_append, glue_cons, glue_nil, List.length_append, List.length_cons,
      List.length_nil]
    omega

theorem length_glue_dropLast_le (cs : List CStr) :
    (glue slash cs.dropLast).length ≤ (glue slash cs).length := by
  rw [List.dropLast_eq_take]
  exact (stem_glue_take cs _).isPrefix.length_le

theorem Turn.readSoFar (ht : Turn E pt pt') (h : ReadSoFar guest pt) (hfree : pt'.hops = 0) :
    ReadSoFar guest pt' := by
  have hsuffix := (afterComp_suffix pt.text).trans h.suffix
  have hle := (afterComp_suffix pt.text).length_le
  have hlen := h.length
  cases ht with
  | here => exact ⟨hsuffix, head?_afterComp _, h.hops, by dsimp only; omega⟩
  | up =>
    have := length_glue_dropLast_le pt.cs
    exact ⟨hsuffix, head?_afterComp _, h.hops, by dsimp only; omega⟩
  | down hc => exact h.push hc
  | link => exact absurd hfree (Nat.succ_ne_zero _)

theorem reaches_readSoFar (habs : guest.head? = some slash) (hlen : guest.length < 2 * pathLen)
    (hp : ReflTransGen (Turn E) (.start guest) pt) (hfree : pt.hops = 0) : ReadSoFar guest pt := by
  induction hp with
  | refl => exact .start habs hlen
  | tail _ ht ih =>
    have hle := ht.hops_le
    exact ht.readSoFar (ih (by omega)) hfree

/-- A walk that follows no symlink of a path that fits its buffer reads it to its end, or stops
under
`/proc`. -/
theorem stops_readSoFar (habs : guest.head? = some slash) (hlen : guest.length < pathLen)
    (hlast : E.followLast = true) (hs : StopsAt E guest why pt) (hfree : pt.hops = 0) :
    ReadSoFar guest pt ∧ (why = .done ∧ pt.text = [] ∨ why = .proc) := by
  obtain ⟨p, hp, hh⟩ := hs
  have hp0 : p.hops = 0 → ReadSoFar guest p := reaches_readSoFar habs (by omega) hp
  cases hh with
  | done =>
    have hu := hp0 hfree
    exact ⟨⟨List.nil_suffix, by simp, hfree, Nat.le_of_add_right_le hu.length⟩, .inl ⟨rfl, rfl⟩⟩
  | @tooLong c hc hn hlong =>
    exfalso
    have hu := hp0 hfree
    have htext := length_afterComp hu.head (hc ▸ hn.word.ne_nil)
    have hshort : c.length ≤ 255 := hc ▸ List.length_take_le _ _
    have hread := hu.length
    rw [hc] at htext
    by_cases hcs : p.cs = []
    · rw [hcs, pathStr_nil, List.length_singleton] at hlong
      simp only [pathLen] at hlong
      omega
    · rw [pathStr_of_ne hcs] at hlong
      omega
  | last hc hl hf =>
    rw [hlast] at hf
    cases hf
  | proc hc => exact ⟨(hp0 hfree).push hc, .inr rfl⟩
  | hops => exact absurd hfree (Nat.succ_ne_zero _)

/-! ## Paths behind a directory -/

/-- A round does not see the slashes before the next component. -/
theorem walkStep_slashes {p q cur : CStr} {tr : Bool} {n : Nat}
    (h : p.dropWhile (· == slash) = q.dropWhile (· == slash)) :
    walkStep E ⟨p, cur, tr, n⟩ = walkStep E ⟨q, cur, tr, n⟩ := by
  unfold walkStep
  simp only [h]

theorem unwalked_slashes {p q cur : CStr} {tr : Bool} {n m : Nat} (hp : p ≠ []) (hq : q ≠ [])
    (h : p.dropWhile (· == slash) = q.dropWhile (· == slash)) :
    unwalked E ⟨p, cur, tr, n⟩ = unwalked E ⟨q, cur, tr, m⟩ := by
  unfold unwalked
  simp only [if_neg hp, if_neg hq, h]

/-- Where two directories leave their walks with the same text, paths behind them are the same. -/
theorem translate_behind {front front' p : CStr} (hmap : unmapped E.ctx E.root = false)
    (hfront : front.head? = some slash) (hfront' : front'.head? = some slash)
    (hs : StopsAt { E with followLast := true } front why pt)
    (hs' : StopsAt { E with followLast := true } front' why pt')
    (hwhy : why = .done ∨ why = .proc) (hfree : pt.hops = 0) (hfree' : pt'.hops = 0)
    (hcs : pt'.cs = pt.cs)
    (htext : (pt'.text ++ slash :: p).dropWhile (· == slash) =
      (pt.text ++ slash :: p).dropWhile (· == slash))
    (hlen : (front ++ slash :: p).length < 2 * pathLen)
    (hlen' : (front' ++ slash :: p).length < 2 * pathLen) :
    (translatePath E (front' ++ slash :: p) pathLen).out =
      (translatePath E (front ++ slash :: p) pathLen).out := by
  have habs : ∀ {f : CStr}, f.head? = some slash → (f ++ slash :: p).head? = some slash :=
    fun hf => by rw [List.head?_append, hf]; rfl
  obtain rfl | rfl := hwhy
  · -- the walks go on from the directory
    have hout : ∀ {f : CStr} {q : Point}, f.head? = some slash →
        StopsAt { E with followLast := true } f .done q → q.hops = 0 → q.cs = pt.cs →
        (f ++ slash :: p).length < 2 * pathLen →
        (translatePath E (f ++ slash :: p) pathLen).out = snprintf pathLen (unwalked E
          ((walkLoop E).run ⟨slash :: p, pathStr pt.cs, endsWithSlash (slash :: p), 0⟩)) := by
      intro f q hf hq hq0 hqcs hl
      obtain ⟨slashes, hsl, hreach⟩ := reaches_front hq hq0
      have hdrop : (slashes ++ slash :: p).dropWhile (· == slash) =
          (slash :: p).dropWhile (· == slash) := by
        rw [List.dropWhile_append, nextComp_eq_nil.1 hsl]
        rfl
      have hcond : ¬((f ++ slash :: p).head? ≠ some slash ∨ unmapped E.ctx E.root) := by
        rw [habs hf, hmap]
        decide
      have hrun := (run_reaches (hreach (slash :: p) rfl hl) (.start _)).trans
        ((walkLoop E).run_congr (walkStep_slashes hdrop))
      rw [hqcs] at hrun
      unfold translatePath translatePathEx
      rw [if_neg hcond, ← hrun]
      rfl
    rw [hout hfront' hs' hfree' hcs hlen', hout hfront hs hfree rfl hlen]
  · -- the walks stop at the directory
    have hstop : ∀ {f : CStr} {q : Point}, StopsAt { E with followLast := true } f .proc q →
        q.hops = 0 → (f ++ slash :: p).length < 2 * pathLen →
        StopsAt E (f ++ slash :: p) .proc (q.behind (slash :: p) (endsWithSlash (slash :: p))) := by
      intro f q hq hq0 hl
      have ht : Behind (slash :: p) (endsWithSlash (slash :: p)) := .of_head rfl
      obtain ⟨r, hr, hh⟩ := hq
      cases hh with
      | proc hc hlast hp =>
        obtain ⟨hc', hpush⟩ := ht.enters hc
        have hreach := reaches_behind ht hr hq0
        rw [start_behind (by simp) hl] at hreach
        rw [← hpush]
        exact ⟨_, hreach, .proc hc'
          (fun h => ht.not_isLast (hc.comp ▸ hc.name.word.ne_nil) h.1) hp⟩
    rw [translatePath, translatePath,
      (translate_stopsAt (hstop hs' hfree' hlen') (habs hfront') hmap 0).1,
      (translate_stopsAt (hstop hs hfree hlen) (habs hfront) hmap 0).1, Point.walk, Point.walk,
      Point.behind, Point.behind]
    dsimp only
    rw [hcs]
    exact unwalked_slashes (by simp) (by simp) htext

/-- The second slash of a path makes no difference. -/
theorem translate_root_behind {p : CStr} (hmap : unmapped E.ctx E.root = false)
    (hlen : p.length + 2 < 2 * pathLen) :
    (translatePath E (slash :: p) pathLen).out =
      (translatePath E (slash :: slash :: p) pathLen).out := by
  have hend : endsWithSlash (slash :: slash :: p) = endsWithSlash (slash :: p) :=
    endsWithSlash_append (p := [slash]) (by simp)
  have hdrop : (slash :: p).dropWhile (· == slash) = (slash :: slash :: p).dropWhile (· == slash) :=
    (List.dropWhile_cons_of_pos (by rfl)).symm
  have hrun : (walkLoop E).run (walkStart (slash :: p)) =
      (walkLoop E).run (walkStart (slash :: slash :: p)) := by
    have h1 : (slash :: p).length < 2 * pathLen := by rw [List.length_cons]; omega
    have h2 : (slash :: slash :: p).length < 2 * pathLen := by simpa using hlen
    rw [walkStart, walkStart, hend, snprintf_of_lt h1, snprintf_of_lt h2]
    exact (walkLoop E).run_congr (walkStep_slashes hdrop)
  unfold translatePath translatePathEx
  rw [if_neg (by simp [hmap]), if_neg (by simp [hmap]), hrun]

/-! ## The guest's own name of a place -/

/-- The text that a walk has left, behind a slash. -/
def Point.left (pt : Point) : CStr :=
  if pt.text = [] then [] else slash :: pt.text.dropWhile (· == slash)

/-- The guest path without symlinks of a place. -/
def Point.name (pt : Point) : CStr := pathStr pt.cs ++ pt.left

theorem head?_left (pt : Point) : ∀ a ∈ pt.left.head?, a = slash := by
  unfold Point.left
  split
  · simp
  · simp

theorem left_behind (pt : Point) (p : CStr) :
    (pt.left ++ slash :: p).dropWhile (· == slash) = (pt.text ++ slash :: p).dropWhile (· == slash) := by
  unfold Point.left
  split
  · rename_i h
    rw [h]
  · rw [List.dropWhile_append, List.dropWhile_append, List.dropWhile_cons_of_pos (by rfl),
      List.dropWhile_idempotent]

theorem stopsAt_name_done (h : StopsAt { E with followLast := true } guest .done pt) :
    ∃ pt', StopsAt { E with followLast := true } (pathStr pt.cs) .done pt' ∧ pt'.cs = pt.cs ∧
      pt'.text = [] ∧ pt'.hops = 0 := by
  obtain ⟨p, hp, hh⟩ := h
  cases hh with
  | done hd =>
    obtain ⟨ht, hlast⟩ := reached_trodden hp
    by_cases hne : p.cs = []
    · dsimp only
      rw [hne]
      exact ⟨_, ⟨.start (pathStr []), .refl, .done (by decide)⟩, rfl, rfl, rfl⟩
    · refine ⟨⟨p.cs, [], false, 0⟩, ⟨⟨p.cs, [], false, 0⟩, ?_, .done (by rfl)⟩, rfl, rfl, rfl⟩
      rw [start_pathStr ht.readable hne]
      exact reaches_straight (r := []) (by simp) (by simp) ht.readable (.inl rfl)
        fun k hk hkl => (ht.all hlast hk hkl).1

theorem stopsAt_name_proc (h : StopsAt { E with followLast := true } guest .proc pt)
    (hlen : pt.name.length < 2 * pathLen) :
    ∃ pt', StopsAt { E with followLast := true } pt.name .proc pt' ∧ pt'.cs = pt.cs ∧
      pt'.text = pt.left ∧ pt'.hops = 0 := by
  obtain ⟨p, hp, hh⟩ := h
  cases hh with
  | @proc c hc hl hpr =>
    obtain ⟨ht, hlast⟩ := reached_trodden hp
    have hr := ht.readable.push hc
    have hshort : c.length ≤ 255 := hr.short c (by simp)
    obtain ⟨hnext, hafter⟩ := nextComp_word hc.name.word hshort (head?_left (p.push c))
    have htext : (p.push c).name = glue slash p.cs ++ (slash :: c ++ (p.push c).left) := by
      rw [Point.name, Point.push, pathStr_of_ne (by simp)]
      simp
    have hreach : ReflTransGen (Turn { E with followLast := true }) (.start (p.push c).name)
        ⟨p.cs, slash :: c ++ (p.push c).left, endsWithSlash (p.push c).name, 0⟩ := by
      have hstart : Point.start (p.push c).name =
          ⟨[], glue slash p.cs ++ (slash :: c ++ (p.push c).left),
            endsWithSlash (p.push c).name, 0⟩ := by
        rw [Point.start, snprintf_of_lt hlen, ← htext]
      rw [hstart]
      exact reaches_straight rfl (by simp) (by simpa using ht.readable) (.inl rfl)
        fun k hk hkl => (ht.all hlast hk hkl).1
    have hhalt : Halt { E with followLast := true }
        ⟨p.cs, slash :: c ++ (p.push c).left, endsWithSlash (p.push c).name, 0⟩ .proc _ :=
      .proc ⟨hnext, hc.name, hc.fits⟩ (by simp) hpr
    exact ⟨_, ⟨_, hreach, hhalt⟩, rfl, hafter, rfl⟩

/-- The walk over the name of a place comes to it. -/
theorem stopsAt_name (hwhy : why = .done ∧ pt.text = [] ∨ why = .proc)
    (h : StopsAt { E with followLast := true } guest why pt) (hlen : pt.name.length < 2 * pathLen) :
    ∃ pt', StopsAt { E with followLast := true } pt.name why pt' ∧ pt'.cs = pt.cs ∧ pt'.hops = 0 ∧
      ∀ p : CStr, (pt'.text ++ slash :: p).dropWhile (· == slash) =
        (pt.text ++ slash :: p).dropWhile (· == slash) := by
  obtain ⟨rfl, htext⟩ | rfl := hwhy
  · obtain ⟨pt', hs, hcs, htext', hhops⟩ := stopsAt_name_done h
    refine ⟨pt', ?_, hcs, hhops, fun p => by rw [htext, htext']⟩
    rwa [Point.name, Point.left, if_pos htext, List.append_nil]
  · obtain ⟨pt', hs, hcs, htext', hhops⟩ := stopsAt_name_proc h hlen
    exact ⟨pt', hs, hcs, hhops, fun p => by rw [htext', left_behind]⟩

theorem proc_ne_root (h : StopsAt E guest .proc pt) : pt.cs ≠ [] := by
  obtain ⟨p, -, hh⟩ := h
  cases hh with
  | proc => simp [Point.push]

section
variable (hu : ReadSoFar guest pt) (hroot : pt.cs = [] → pt.text = [])
include hu hroot

omit hroot in
theorem length_left_le : (glue slash pt.cs).length + pt.left.length ≤ guest.length := by
  have hlen := hu.length
  unfold Point.left
  split
  · rw [List.length_nil]
    omega
  · rename_i hne
    obtain ⟨a, t, ht⟩ := List.exists_cons_of_ne_nil hne
    have ha := hu.head a (by rw [ht]; rfl)
    rw [ht, ha, List.dropWhile_cons_of_pos (by rfl), List.length_cons]
    have hle : (t.dropWhile (· == slash)).length ≤ t.length := (List.dropWhile_suffix _).length_le
    rw [ht, List.length_cons] at hlen
    omega

theorem length_name_le (habs : guest ≠ []) : pt.name.length ≤ guest.length := by
  have hlen := length_left_le hu
  have hpos := List.length_pos_iff.2 habs
  rw [Point.name, List.length_append]
  by_cases hcs : pt.cs = []
  · rw [hcs, Point.left, if_pos (hroot hcs)]
    exact hpos
  · rwa [pathStr_of_ne hcs]

omit hroot in
theorem getLast?_left_ne (hend : pt.text ≠ [] → endsWithSlash guest = false) :
    pt.left.getLast? ≠ some slash := by
  unfold Point.left
  split
  · simp
  · rename_i hne
    have hlast : pt.text.getLast? ≠ some slash := by
      obtain ⟨r, hr⟩ := hu.suffix
      have he := hend hne
      rw [← hr, endsWithSlash, beq_eq_false_iff_ne, List.getLast?_append_of_ne_nil _ hne] at he
      exact he
    have hdrop : pt.text.dropWhile (· == slash) ≠ [] := by
      intro h0
      have hall := List.dropWhile_eq_nil_iff.1 h0 _ (List.getLast_mem hne)
      rw [List.getLast?_eq_some_getLast hne, beq_iff_eq.1 hall] at hlast
      exact hlast rfl
    obtain ⟨r, hr⟩ := List.dropWhile_suffix (· == slash) (l := pt.text)
    rwa [← hr, List.getLast?_append_of_ne_nil _ hdrop,
      ← List.getLast?_append_of_ne_nil [slash] hdrop] at hlast

/-- The host path is the one of the directory, and the unread text behind it. -/
theorem joined_eq_left {dir pre rest : CStr} (hw : ∀ c ∈ pt.cs, IsWord slash c)
    (hdir : dir.getLast? ≠ some slash) (hg : pathStr pt.cs = pre ++ rest)
    (himg : E.img pt.cs = dir ++ rest) (hfit : dir.length + guest.length < pathLen) :
    pt.joined E = dir ++ (rest ++ pt.left) := by
  have hleft := length_left_le hu
  unfold Point.left at hleft ⊢
  rw [Point.joined, himg]
  split
  · rw [List.append_nil]
  · rename_i hne
    have hcs : pt.cs ≠ [] := fun h0 => hne (hroot h0)
    have hlast : endsWithSlash (dir ++ rest) = false := by
      rw [endsWithSlash, beq_eq_false_iff_ne]
      by_cases hr : rest = []
      · rwa [hr, List.append_nil]
      · have hp := getLast?_pathStr_ne hw hcs
        rw [hg, List.getLast?_append_of_ne_nil _ hr] at hp
        rwa [List.getLast?_append_of_ne_nil _ hr]
    have hlen := congrArg List.length hg
    rw [pathStr_of_ne hcs, List.length_append] at hlen
    rw [if_neg hne] at hleft
    have hshort : ([slash] ++ pt.text.dropWhile (· == slash)).length <
        pathLen - (dir ++ rest).length := by
      rw [List.length_append]
      rw [List.length_cons] at hleft
      simp only [List.length_append, List.length_singleton]
      omega
    rw [hlast, if_neg (by decide), snprintf_of_lt hshort, List.append_assoc]
    rfl

end

theorem trimmed_name (hw : ∀ c ∈ pt.cs, IsWord slash c) (hl : pt.left.getLast? ≠ some slash) :
    trimmed pt.name = pt.name := by
  by_cases hne : pt.left = []
  · rw [Point.name, hne, List.append_nil, trimmed_pathStr hw]
  · have hlast : pt.name.getLast? ≠ some slash := by
      rwa [Point.name, List.getLast?_append_of_ne_nil _ hne]
    rw [trimmed, rdropWhile_eq_self hlast, orSlash, if_neg]
    rw [Point.name]
    exact fun h => hne (List.append_eq_nil_iff.1 h).2

/-! ## The name that the inverse finds -/

/-- The inverse takes for the host path the mapping that the guest path is taken through. -/
inductive TakenBack (ctx : Ctx) (root guest host : CStr) : Prop
  | binding {b b' : Binding} (best : bestBinding ctx guest = some b)
      (back : hostBinding ctx host = some b') (hhost : b'.host = b.host) (hguest : b'.guest = b.guest)
  | root (best : bestBinding ctx guest = none)
      (mounted : mountedBinding ctx (snprintf pathLen (root ++ guest)) = none)
      (back : hostBinding ctx host = none)

theorem stem_pathStr_last (hw : ∀ c ∈ cs, IsWord slash c) {v : CStr} (h : Stem slash v (pathStr cs))
    (hne : v ≠ [slash]) : v.getLast? ≠ some slash := by
  cases cs with
  | nil =>
    obtain rfl | rfl := Stem.of_singleton h
    · simp
    · exact absurd rfl hne
  | cons c cs =>
    rw [pathStr_of_ne (by simp)] at h
    obtain ⟨k, -, rfl⟩ := stem_glue hw h
    exact getLast?_glue_ne fun d hd => hw d (List.mem_of_mem_take hd)

/-- The two ways of the mapping: what is behind its host directory is behind its guest directory. -/
theorem TakenBack.shape (h : TakenBack ctx root (pathStr cs) host) (hw : ∀ c ∈ cs, IsWord slash c)
    (hne : mappedDir ctx root (pathStr cs) ≠ [])
    (hfit : (mappedDir ctx root (pathStr cs)).length + (pathStr cs).length < pathLen)
    (hstem : Stem slash (mappedDir ctx root (pathStr cs)) host) :
    ∃ pre rest, pathStr cs = pre ++ rest ∧ pre.getLast? ≠ some slash ∧
      mapToHost ctx root (pathStr cs) pathLen = mappedDir ctx root (pathStr cs) ++ rest ∧
      hostToGuest ctx root host pathLen = some (orSlash (snprintf pathLen
        (pre ++ host.drop (mappedDir ctx root (pathStr cs)).length))) := by
  cases h with
  | @binding b b' best back hhost hguest =>
    have hdir : mappedDir ctx root (pathStr cs) = unlessRoot b.host := by rw [mappedDir, best]
    rw [hdir] at hne hfit hstem ⊢
    obtain ⟨pre, hg, hr, hpre⟩ := Binding.exists_rest (bestBinding_mem best).2 (head?_pathStr cs)
    refine ⟨pre, b.rest (pathStr cs), hg, ?_, ?_, ?_⟩
    · obtain ⟨-, rfl⟩ | ⟨hroot, rfl⟩ := hpre
      · simp
      · exact stem_pathStr_last hw ⟨_, hg, hr⟩ hroot
    · have hlen := congrArg List.length hg
      rw [List.length_append] at hlen
      rw [mapToHost_best best]
      refine orSlash_snprintf (by simp [hne]) ?_
      rw [List.length_append]
      omega
    · have hpre' : unlessRoot b'.guest = pre := by
        obtain ⟨hroot, rfl⟩ | ⟨hroot, rfl⟩ := hpre
        · exact if_pos (hguest.trans hroot)
        · rw [hguest]
          exact if_neg hroot
      rw [hostToGuest, back]
      dsimp only
      rw [hpre', hhost, unlessRoot_of_ne hne]
  | root best mounted back =>
    have hdir : mappedDir ctx root (pathStr cs) = unlessRoot root := by
      rw [mappedDir, best]
      dsimp only
      rw [mounted]
    rw [hdir] at hne hfit hstem ⊢
    rw [unlessRoot_of_ne hne] at hfit hstem ⊢
    have hroot : root ≠ [] := unlessRoot_of_ne hne ▸ hne
    refine ⟨[], pathStr cs, rfl, by simp, ?_, ?_⟩
    · rw [mapToHost_root best mounted]
      exact snprintf_of_lt (by rwa [List.length_append])
    · rw [hostToGuest, back]
      dsimp only
      rw [if_pos ⟨hroot, hasPrefix_iff_stem.2 hstem⟩, List.nil_append]

/-- **The working-directory law.** The host directory that a guest directory is translated to has a
guest path, if the host directory of its mapping is not `/`. Where the inverse takes the same
mapping, and the directory is reached without symlinks, what is behind that path is what is behind
the directory. -/
theorem working_dir {h : CStr} (habs : guest.head? = some slash) (hlen : guest.length < pathLen)
    (hs : StopsAt { E with followLast := true } guest why pt)
    (hdir : Tight (mappedDir E.ctx E.root (pathStr pt.cs)))
    (hne : mappedDir E.ctx E.root (pathStr pt.cs) ≠ [])
    (hfit : (mappedDir E.ctx E.root (pathStr pt.cs)).length + guest.length < pathLen)
    (hh : h = trimmed (translatePath { E with followLast := true } guest pathLen).out) :
    (hostToGuest E.ctx E.root h pathLen).isSome ∧
    (pt.hops = 0 → (why = .proc → endsWithSlash guest = false) →
      TakenBack E.ctx E.root (pathStr pt.cs) h →
      ∃ answer, hostToGuest E.ctx E.root h pathLen = some answer ∧
        ∀ p : CStr, p.length < pathLen → ∀ dir ∈ [answer, unlessRoot answer],
          (translatePath E (dir ++ slash :: p) pathLen).out =
            (translatePath E (guest ++ slash :: p) pathLen).out) := by
  have hw := hs.good.words
  have hlast := hdir.getLast?_ne
  have hmap : unmapped E.ctx E.root = false := by
    rw [← Bool.not_eq_true]
    intro hun
    rw [unmapped, Bool.and_eq_true, List.isEmpty_iff, List.isEmpty_iff] at hun
    refine hne ?_
    rw [mappedDir, bestBinding, mountedBinding, hun.1, hun.2]
    rfl
  have hout : (translatePath { E with followLast := true } guest pathLen).out =
      unwalked { E with followLast := true } pt.walk := (translate_stopsAt hs habs hmap 0).1
  have hstem : Stem slash (mappedDir E.ctx E.root (pathStr pt.cs)) h := by
    rw [hh, hout]
    exact stem_trimmed (stem_unwalked (stem_mapToHost (head?_pathStr _) hne (by omega)) hlast) hne hlast
  refine ⟨hostToGuest_isSome hdir hne hstem, fun hfree hproc hback => ?_⟩
  obtain ⟨hu, hwhy⟩ := stops_readSoFar habs hlen rfl hs hfree
  have hroot : pt.cs = [] → pt.text = [] := by
    obtain ⟨-, htext⟩ | rfl := hwhy
    · exact fun _ => htext
    · exact fun hcs => absurd hcs (proc_ne_root hs)
  have hend : pt.text ≠ [] → endsWithSlash guest = false := by
    obtain ⟨-, htext⟩ | hwhy := hwhy
    · exact fun hne => absurd htext hne
    · exact fun _ => hproc hwhy
  have hleft := length_left_le hu
  have hguest : guest ≠ [] := fun h0 => by simp [h0] at habs
  have hname := length_name_le hu hroot hguest
  have hpath : (pathStr pt.cs).length ≤ pt.name.length := by
    rw [Point.name, List.length_append]
    exact Nat.le_add_right _ _
  obtain ⟨pre, rest, hg, hpre, hmapped, hanswer⟩ := hback.shape hw hne (by omega) hstem
  -- the host path and the unread text
  have hjoined : pt.joined { E with followLast := true } =
      mappedDir E.ctx E.root (pathStr pt.cs) ++ (rest ++ pt.left) :=
    joined_eq_left hu hroot hw hlast hg hmapped hfit
  have hh' : h =
      mappedDir E.ctx E.root (pathStr pt.cs) ++ (rest ++ pt.left).rdropWhile (· == slash) := by
    rw [hh, hout, (upToSlash_unwalked _ pt).trimmed_eq, hjoined, trimmed, rdropWhile_append (.inl hlast),
      orSlash, if_neg (by simp [hne])]
  have hcut : pre ++ (rest ++ pt.left).rdropWhile (· == slash) =
      pt.name.rdropWhile (· == slash) := by
    rw [Point.name, hg, List.append_assoc, rdropWhile_append (.inl hpre)]
  have hans : hostToGuest E.ctx E.root h pathLen = some pt.name := by
    have hle := (List.rdropWhile_prefix (· == slash) (l := pt.name)).length_le
    rw [hanswer, hh', List.drop_left, hcut, snprintf_of_lt (by omega)]
    exact congrArg some (trimmed_name hw (getLast?_left_ne hu hend))
  obtain ⟨pt', hs', hcs', hfree', htext⟩ := stopsAt_name hwhy hs (by omega)
  refine ⟨pt.name, hans, fun p hp => ?_⟩
  have hlenp : ∀ {f : CStr}, f.length ≤ guest.length → (f ++ slash :: p).length < 2 * pathLen := by
    intro f hf
    rw [List.length_append, List.length_cons]
    omega
  have hbehind : (translatePath E (pt.name ++ slash :: p) pathLen).out =
      (translatePath E (guest ++ slash :: p) pathLen).out := by
    refine translate_behind hmap habs ?_ hs hs' (hwhy.imp_left And.left) hfree hfree' hcs' (htext p)
      (hlenp (Nat.le_refl _)) (hlenp hname)
    rw [Point.name, List.head?_append, head?_pathStr]
    rfl
  -- the base is the name, or nothing for `/`
  intro dir hdir'
  obtain rfl | hdir' := List.mem_cons.1 hdir'
  · exact hbehind
  · obtain rfl := List.mem_singleton.1 hdir'
    rw [← hbehind]
    unfold unlessRoot
    split
    · rename_i hn
      rw [hn]
      exact translate_root_behind hmap (by simp only [pathLen] at hp ⊢; omega)
    · rfl

/-! ## Directories of a root below a binding's host directory -/

/-- A host without symlinks. -/
def plainEnv (ctx : Ctx) : WalkEnv := ⟨ctx, ctx.root, fun _ => none, true⟩

/-- The root is `/srv/r`, and `/srv` is bound to `/host`. -/
def nestedCtx : Ctx :=
  { Ctx.create with
    root := cstr "/srv/r"
    bindings := [⟨cstr "/srv", cstr "/host", cstr "/srv/r/host"⟩] }

/-- There is no root, and `/` is bound to `/x`. -/
def wholeCtx : Ctx := { Ctx.create with bindings := [⟨cstr "/", cstr "/x", cstr "/x"⟩] }

/-- `/etc` of the root is `/host/r/etc` too, and the inverse prefers a binding to the root:
`../../x` from there is not what it is from `/etc`. What is bound from the host's `/` has no name at
all. -/
theorem working_dir_renamed :
    hostToGuest nestedCtx nestedCtx.root
        (trimmed (translatePath (plainEnv nestedCtx) (cstr "/etc") pathLen).out) pathLen =
      some (cstr "/host/r/etc") ∧
    (translatePath (plainEnv nestedCtx) (cstr "/host/r/etc" ++ slash :: cstr "../../x") pathLen).out =
      cstr "/srv/x" ∧
    (translatePath (plainEnv nestedCtx) (cstr "/etc" ++ slash :: cstr "../../x") pathLen).out =
      cstr "/srv/r/x" ∧
    hostToGuest wholeCtx wholeCtx.root
      (trimmed (translatePath (plainEnv wholeCtx) (cstr "/x/srv") pathLen).out) pathLen = none := by
  refine ⟨?_, ?_, ?_, ?_⟩ <;> decide +kernel

/-- The root is `/srv/r`, with `/data/home` bound to `/home`. -/
def homeCtx : Ctx :=
  { Ctx.create with
    root := cstr "/srv/r"
    bindings := [⟨cstr "/data/home", cstr "/home", cstr "/srv/r/home"⟩] }

theorem readable_home : Readable [cstr "home", cstr "u"] := ⟨by decide, by decide, by decide +kernel⟩

theorem stopsAt_home :
    StopsAt (plainEnv homeCtx) (cstr "/home/u") .done ⟨[cstr "home", cstr "u"], [], false, 0⟩ := by
  refine ⟨⟨[cstr "home", cstr "u"], [], false, 0⟩,
    reaches_straight (by decide : _ = glue slash [cstr "home", cstr "u"] ++ []) (by simp)
      readable_home (.inl rfl) fun k _ hk => ⟨?_, rfl⟩, .done (by rfl)⟩
  match k, hk with
  | 0, _ | 1, _ | 2, _ => decide +kernel

/-- `../v` from `/home/u` -/
theorem working_dir_home :
    ∃ answer, hostToGuest homeCtx homeCtx.root (cstr "/data/home/u") pathLen = some answer ∧
      (translatePath (plainEnv homeCtx) (answer ++ slash :: cstr "../v") pathLen).out =
        (translatePath (plainEnv homeCtx) (cstr "/home/u" ++ slash :: cstr "../v") pathLen).out := by
  have hh : cstr "/data/home/u" =
      trimmed (translatePath (plainEnv homeCtx) (cstr "/home/u") pathLen).out := by decide +kernel
  have hbest : bestBinding homeCtx (pathStr [cstr "home", cstr "u"]) =
      some ⟨cstr "/data/home", cstr "/home", cstr "/srv/r/home"⟩ := by decide +kernel
  have hfrom : hostBinding homeCtx (cstr "/data/home/u") =
      some ⟨cstr "/data/home", cstr "/home", cstr "/srv/r/home"⟩ := by decide +kernel
  have hback : TakenBack homeCtx homeCtx.root (pathStr [cstr "home", cstr "u"]) (cstr "/data/home/u") :=
    .binding hbest hfrom rfl rfl
  have hdir : Tight (mappedDir homeCtx homeCtx.root (pathStr [cstr "home", cstr "u"])) :=
    ⟨[cstr "data", cstr "home"], by decide, by decide +kernel⟩
  obtain ⟨answer, ha, hp⟩ := (working_dir (E := plainEnv homeCtx) (by decide) (by decide) stopsAt_home
    hdir (by decide +kernel) (by decide +kernel) hh).2 rfl (by simp) hback
  exact ⟨answer, ha, hp (cstr "../v") (by decide) answer List.mem_cons_self⟩

end Emuroot
