import Emuroot.Proof.Chroot
import Emuroot.Proof.TwoResults

/-!
# What lies below a directory

A path without links on the way is walked to its end, or to where the kernel takes over
(`stops_linkFree`). Below a directory that no binding is crossed in, it lies on the host below where
the directory does:
`Uncrossed.dirPlaced_eq` for the places and `translate_below` for the translations.
-/

namespace Emuroot

open Words Relation

variable {E : WalkEnv} {ctx : Ctx} {root : CStr} {bs cs ds : List CStr} {pt : Point} {why : Why}

/-! ## Places -/

/-- No binding comes to match, or ceases to, on the way from the directory `bs` down to `bs/ds`. -/
def Uncrossed (ctx : Ctx) (root : CStr) (bs ds : List CStr) : Prop :=
  ∀ b ∈ ctx.bindings, ∀ k ≤ ds.length,
    guestMatches (pathStr (bs ++ ds.take k)) b = guestMatches (pathStr bs) b ∧
    hasPrefix (root ++ pathStr (bs ++ ds.take k)) b.mount = hasPrefix (root ++ pathStr bs) b.mount

theorem uncrossed_nil (ctx : Ctx) (root : CStr) (bs : List CStr) : Uncrossed ctx root bs [] := by
  intro b _ k _
  rw [List.take_nil, List.append_nil]
  exact ⟨rfl, rfl⟩

theorem Uncrossed.place_eq (h : Uncrossed ctx root bs ds) {k : Nat} (hk : k ≤ ds.length) :
    place ctx root (pathStr (bs ++ ds.take k)) = place ctx root (pathStr bs) := by
  have hbest : bestBinding ctx (pathStr (bs ++ ds.take k)) = bestBinding ctx (pathStr bs) :=
    Pick.pick_congr fun b hb => (h b (List.mem_reverse.1 hb) k hk).1
  have hmount : mountedBinding ctx (root ++ pathStr (bs ++ ds.take k)) =
      mountedBinding ctx (root ++ pathStr bs) :=
    Pick.pick_congr fun b hb => by rw [(h b (List.mem_reverse.1 hb) k hk).2]
  rw [place, place, hbest, hmount]

/-- A directory's place stands for no more than its path. -/
theorem place_le (hne : cs ≠ []) : (place ctx root (pathStr cs)).2 ≤ (root ++ glue slash cs).length := by
  rw [pathStr_of_ne hne]
  have hlen : 1 ≤ (glue slash cs).length := List.length_pos_iff.2 fun h => hne (glue_eq_nil.1 h)
  unfold place
  cases hb : bestBinding ctx (glue slash cs) with
  | some b =>
    dsimp only
    rw [List.length_append]
    split
    · omega
    · rename_i hr
      have hs := (guestMatches_iff.1 (bestBinding_mem hb).2).resolve_left hr
      exact Nat.add_le_add_left hs.isPrefix.length_le _
  | none =>
    dsimp only
    cases hm : mountedBinding ctx (root ++ glue slash cs) with
    | some m => exact (mounted_stem hm).2.isPrefix.length_le
    | none => exact Nat.zero_le _

/-- The place of `/` stands for no more than the root, where a path in it crosses no binding. -/
theorem place_root_le (hcs : ∀ c ∈ cs, IsWord slash c) (hne : cs ≠ [])
    (hmount : ∀ m ∈ ctx.bindings,
      hasPrefix (root ++ pathStr cs) m.mount = hasPrefix (root ++ pathStr []) m.mount) :
    (place ctx root (pathStr [])).2 ≤ root.length := by
  unfold place
  cases hb : bestBinding ctx (pathStr []) with
  | some b =>
    dsimp only
    split
    · exact Nat.le_refl _
    · rename_i hr
      have hs := (guestMatches_iff.1 (bestBinding_mem hb).2).resolve_left hr
      obtain hg | hg := Stem.of_singleton hs
      · rw [hg]
        exact Nat.le_refl _
      · exact absurd hg hr
  | none =>
    dsimp only
    cases hm : mountedBinding ctx (root ++ pathStr []) with
    | none => exact Nat.zero_le _
    | some m =>
      have hs := (mounted_stem hm).2
      obtain hst | he := stem_concat (hs : Stem slash m.mount (root ++ [slash]))
      · exact hst.isPrefix.length_le
      · -- `/` with a slash of its own is matched by nothing below it
        exfalso
        have hp := (hmount m (mountedBinding_mem hm)).trans (hasPrefix_iff_stem.2 hs)
        obtain ⟨r, hr, hsep⟩ := hasPrefix_iff_stem.1 hp
        obtain ⟨c, cs, rfl⟩ := List.exists_cons_of_ne_nil hne
        have hc := hcs c List.mem_cons_self
        obtain ⟨a, c, rfl⟩ := List.exists_cons_of_ne_nil hc.ne_nil
        rw [he, pathStr_of_ne (by simp), glue_cons, List.append_assoc, List.append_cancel_left_eq] at hr
        have hr' : r = a :: (c ++ glue slash cs) := by simpa using hr.symm
        refine hc.sep_not_mem (hsep a (by rw [hr']; rfl) ▸ List.mem_cons_self)

/-- **Below a directory nothing is elsewhere** where no binding is crossed. -/
theorem Uncrossed.dirPlaced_eq (h : Uncrossed ctx root bs ds) (hds : ∀ c ∈ ds, IsWord slash c) {k : Nat}
    (hk : k ≤ ds.length) :
    dirPlaced ctx root (bs ++ ds.take k) = dirPlaced ctx root bs ++ glue slash (ds.take k) := by
  by_cases h0 : ds.take k = []
  · rw [h0, List.append_nil, glue_nil, List.append_nil]
  have hle : (place ctx root (pathStr bs)).2 ≤ (root ++ glue slash bs).length := by
    by_cases hbs : bs = []
    · subst hbs
      rw [glue_nil, List.append_nil]
      exact place_root_le (fun c hc => hds c (List.mem_of_mem_take hc)) h0 fun m hm => (h m hm k hk).2
    · exact place_le hbs
  rw [dirPlaced, dirPlaced, h.place_eq hk, placed, placed, glue_append, ← List.append_assoc,
    List.drop_append_of_le_length hle, List.append_assoc]

theorem upToSlash_orSlash (p : CStr) : UpToSlash (orSlash p) p := by
  unfold orSlash
  split
  · rename_i h
    rw [h]
    exact rfl
  · exact rfl

/-- What is mapped is the place, cut to the buffer, where a name takes it or the path behind the
root is not cut. -/
theorem mapToHost_placed {guest : CStr} (hg : guest.head? = some slash)
    (hfit : (root ++ guest).length < pathLen ∨ (bestBinding ctx guest).isSome) :
    mapToHost ctx root guest pathLen =
      orSlash (snprintf pathLen (placed (place ctx root guest) (root ++ guest))) := by
  obtain hfit | hbest := hfit
  · exact mapToHost_place hg hfit
  · obtain ⟨b, hb⟩ := Option.isSome_iff_exists.1 hbest
    rw [mapToHost_best hb, place, hb]
    dsimp only
    rw [placed, drop_append_length_add]
    rfl

theorem mapToHost_dirPlaced (hne : cs ≠ [])
    (hfit : (root ++ pathStr cs).length < pathLen ∨ (bestBinding ctx (pathStr cs)).isSome) :
    mapToHost ctx root (pathStr cs) pathLen = orSlash (snprintf pathLen (dirPlaced ctx root cs)) := by
  rw [mapToHost_placed (head?_pathStr cs) hfit, dirPlaced, pathStr_of_ne hne]

/-- A directory's host path is its place, but for the slash behind a name space's own root. -/
theorem upToSlash_dirPlaced
    (hfit : (root ++ pathStr cs).length < pathLen ∨ (bestBinding ctx (pathStr cs)).isSome)
    (hlen : (dirPlaced ctx root cs).length < pathLen) :
    UpToSlash (mapToHost ctx root (pathStr cs) pathLen) (dirPlaced ctx root cs) := by
  have hcut : UpToSlash (orSlash (snprintf pathLen (dirPlaced ctx root cs)))
      (dirPlaced ctx root cs) := by
    rw [snprintf_of_lt hlen]
    exact upToSlash_orSlash _
  by_cases hne : cs = []
  · subst hne
    rw [mapToHost_placed (head?_pathStr []) hfit, pathStr_nil]
    rw [dirPlaced, glue_nil, List.append_nil, pathStr_nil] at hcut ⊢
    obtain hc | hc := placed_concat (place ctx root [slash]) root
    · rw [hc]
      exact (upToSlash_orSlash_snprintf _).trans hcut
    · rw [hc]
      exact hcut
  · rw [mapToHost_dirPlaced hne hfit]
    exact hcut

/-! ## Walks that meet no link -/

/-- The walk over the guest path looks through no link. -/
def MeetsNoLink (E : WalkEnv) (guest : CStr) : Prop := ∀ why pt, StopsAt E guest why pt → pt.hops = 0

/-- The walk over a path comes past links nowhere, to the path's end or to a directory under
`/proc`, which
`cs.take j` is. -/
structure WayTo (E : WalkEnv) (cs : List CStr) (j : Nat) : Prop where
  le : j ≤ cs.length
  passes : ∀ i, 1 ≤ i → i < j → Passes E (cs.take i)
  proc : j < cs.length → 1 ≤ j ∧ underProc (E.img (cs.take j)) = true

/-- There is more than slashes to walk before the end of a path. -/
theorem Readable.not_all_slash (hcs : Readable cs) {j : Nat} (hj : j < cs.length) :
    ¬(glue slash (cs.drop j)).all (· == slash) := by
  intro hall
  have hw := hcs.words _ (List.getElem_mem hj)
  obtain ⟨a, ha⟩ := List.exists_mem_of_ne_nil _ hw.ne_nil
  rw [List.drop_eq_getElem_cons hj, glue_cons, List.all_eq_true] at hall
  have := hall a (List.mem_append_left _ (List.mem_cons_of_mem _ ha))
  exact hw.sep_not_mem (beq_iff_eq.1 this ▸ ha)

/-- The way of a walk that has looked through no link. -/
theorem reached_linkFree (hcs : Readable cs) (hne : cs ≠ []) {p : Point}
    (hp : ReflTransGen (Turn E) (.start (pathStr cs)) p) (hfree : p.hops = 0) :
    ∃ j ≤ cs.length, p = ⟨cs.take j, glue slash (cs.drop j), false, 0⟩ ∧
      ∀ i, 1 ≤ i → i ≤ j → Passes E (cs.take i) := by
  rw [start_pathStr hcs hne] at hp
  induction hp with
  | refl => exact ⟨0, Nat.zero_le _, rfl, fun i h1 h2 => absurd (h1.trans h2) (Nat.not_succ_le_zero 0)⟩
  | @tail p q hp ht ih =>
    obtain ⟨j, hj, rfl, hpass⟩ := ih (Nat.le_zero.1 (hfree ▸ ht.hops_le))
    obtain hj | rfl := Nat.lt_or_eq_of_le hj
    · obtain ⟨hnext, hafter⟩ := next_straight hcs hj
      have hname := hcs.names _ (List.getElem_mem hj)
      cases ht with
      | here h => exact absurd (hnext.symm.trans h) hname.ne_dot
      | up h => exact absurd (hnext.symm.trans h) hname.ne_dotdot
      | down hc hl hpr hr =>
        obtain rfl := hc.comp.symm.trans hnext
        refine ⟨j + 1, hj, ?_, fun i h1 h2 => ?_⟩
        · simp only [Point.push, hafter, List.take_succ_eq_append_getElem hj]
        · obtain h2 | rfl := Nat.lt_or_eq_of_le h2
          · exact hpass i h1 (Nat.le_of_lt_succ h2)
          · rw [List.take_succ_eq_append_getElem hj]
            exact ⟨hpr, hr⟩
      | link => cases hfree
    · rw [List.drop_length, glue_nil] at ht
      cases ht with
      | here h => exact absurd (show ([] : CStr) = dot from h) (by decide)
      | up h => exact absurd (show ([] : CStr) = dotdot from h) (by decide)
      | down hc | link hc => exact absurd hc.comp.symm hc.name.word.ne_nil

/-- Without links a path is walked over to its end, or to the first directory under `/proc`. -/
theorem stops_linkFree (hcs : Readable cs) (hs : StopsAt E (pathStr cs) why pt) (hfree : pt.hops = 0) :
    ∃ j, WayTo E cs j ∧ pt.cs = cs.take j ∧ pt.text = glue slash (cs.drop j) := by
  by_cases hne : cs = []
  · subst hne
    have hdots := stopsAt_dots (by decide : ∀ c ∈ words slash (snprintf (2 * pathLen) [slash]),
      c = dot) hs
    refine ⟨0, ⟨Nat.le_refl _, ?_, ?_⟩, congrArg Point.cs hdots, congrArg Point.text hdots⟩
    · exact fun i _ h2 => absurd h2 (Nat.not_lt_zero i)
    · exact fun h => absurd h (Nat.lt_irrefl 0)
  obtain ⟨p, hp, hh⟩ := hs
  have hpfree : p.hops = 0 := by
    cases hh with
    | done | tooLong | last | proc => exact hfree
    | hops => cases hfree
  obtain ⟨j, hj, rfl, hpass⟩ := reached_linkFree hcs hne hp hpfree
  obtain hj | rfl := Nat.lt_or_eq_of_le hj
  · obtain ⟨hnext, hafter⟩ := next_straight hcs hj
    have hname := hcs.names _ (List.getElem_mem hj)
    have hpush : ∀ {c}, (Point.mk (cs.take j) (glue slash (cs.drop j)) false 0).Enters c →
        cs.take j ++ [c] = cs.take (j + 1) := by
      intro c hc
      obtain rfl := hc.comp.symm.trans hnext
      exact (List.take_succ_eq_append_getElem hj).symm
    have hbefore : ∀ i, 1 ≤ i → i < j + 1 → Passes E (cs.take i) := fun i h1 h2 =>
      hpass i h1 (Nat.le_of_lt_succ h2)
    cases hh with
    | done h => exact absurd (hnext.symm.trans h) hname.word.ne_nil
    | tooLong hc hn hlen =>
      obtain rfl := hc.symm.trans hnext
      have hfit := (hcs.take (j + 1)).fits
      rw [List.take_succ_eq_append_getElem hj] at hfit
      have := fits_of_append (hcs.take j).words (hcs.short _ (List.getElem_mem hj)) hfit
      exact absurd hlen (by simpa using this)
    | last hc hl hf =>
      refine ⟨j + 1, ⟨hj, hbefore, fun hlt => absurd ?_ (hcs.not_all_slash hlt)⟩, hpush hc, hafter⟩
      obtain h | ⟨h, -⟩ := hl
      · rw [← hafter, h]
        rfl
      · rwa [hafter] at h
    | proc hc hl hpr =>
      exact ⟨j + 1, ⟨hj, hbefore, fun _ => ⟨Nat.succ_pos j, hpush hc ▸ hpr⟩⟩, hpush hc, hafter⟩
    | hops => cases hfree
  · have hend : glue slash (cs.drop cs.length) = [] := by rw [List.drop_length, glue_nil]
    have hno : ∀ {c}, nextComp (glue slash (cs.drop cs.length)) = c → ¬IsName c := by
      rintro c rfl hn
      rw [hend] at hn
      exact hn.word.ne_nil rfl
    cases hh with
    | done =>
      exact ⟨cs.length, ⟨Nat.le_refl _, fun i h1 h2 => hpass i h1 (Nat.le_of_lt h2),
        fun h => absurd h (Nat.lt_irrefl _)⟩, rfl, hend.symm⟩
    | tooLong hc hn => exact absurd hn (hno hc)
    | last hc | proc hc | hops hc => exact absurd hc.name (hno hc.comp)

/-- A walk that comes to a directory under `/proc`. -/
theorem stopsAt_proc (hcs : Readable cs) {j : Nat} (hw : WayTo E cs j) (hj : j < cs.length) :
    StopsAt E (pathStr cs) .proc ⟨cs.take j, glue slash (cs.drop j), false, 0⟩ := by
  obtain ⟨h1, hproc⟩ := hw.proc hj
  obtain ⟨i, rfl⟩ := Nat.exists_eq_add_of_le' h1
  have hi : i < cs.length := by omega
  have hne : cs ≠ [] := List.length_pos_iff.1 (by omega)
  obtain ⟨hnext, hafter⟩ := next_straight hcs hi
  have htext : (Point.mk [] (glue slash cs) false 0).text =
      glue slash (cs.take i) ++ glue slash (cs.drop i) := by
    rw [← glue_append, List.take_append_drop]
  have hreach : ReflTransGen (Turn E) ⟨[], glue slash cs, false, 0⟩
      ⟨cs.take i, glue slash (cs.drop i), false, 0⟩ := by
    refine reaches_straight htext (head?_glue _) (hcs.take i)
      (.inr (hcs.not_all_slash hi)) fun k hk hkl => ?_
    rw [List.length_take] at hkl
    show Passes E ((cs.take i).take k)
    rw [List.take_take, Nat.min_eq_left (by omega)]
    exact hw.passes k hk (by omega)
  have hfit := (hcs.take (i + 1)).fits
  rw [List.take_succ_eq_append_getElem hi] at hproc hfit ⊢
  have henters : (Point.mk (cs.take i) (glue slash (cs.drop i)) false 0).Enters cs[i] :=
    ⟨hnext, hcs.names _ (List.getElem_mem hi),
      fits_of_append (hcs.take i).words (hcs.short _ (List.getElem_mem hi)) hfit⟩
  rw [StopsAt, start_pathStr hcs hne]
  refine ⟨_, hreach, ?_⟩
  rw [← hafter]
  refine .proc henters ?_ hproc
  rintro ⟨hl, -⟩
  refine hcs.not_all_slash hj ?_
  rw [← hafter]
  obtain h | ⟨h, -⟩ := hl
  · rw [show afterComp (glue slash (cs.drop i)) = [] from h]
    rfl
  · exact h

/-- With its last component left as it is the path is walked over to there. -/
theorem WayTo.stops {j : Nat} (hw : WayTo E cs j) (hcs : Readable cs) (hf : E.followLast = false) :
    ∃ why pt, StopsAt E (pathStr cs) why pt ∧ pt.cs = cs.take j ∧ pt.text = glue slash (cs.drop j) ∧
      pt.hops = 0 := by
  obtain hj | rfl := Nat.lt_or_eq_of_le hw.le
  · exact ⟨_, _, stopsAt_proc hcs hw hj, rfl, rfl, rfl⟩
  rw [List.take_length, List.drop_length, glue_nil]
  by_cases hne : cs = []
  · subst hne
    exact ⟨_, _, stopsAt_root E, rfl, rfl, rfl⟩
  · exact ⟨_, _, stopsAt_straight hcs hf hw.passes hne, rfl, rfl, rfl⟩

theorem WayTo.left {j : Nat} (hw : WayTo E (bs ++ ds) j) : WayTo E bs (min j bs.length) where
  le := Nat.min_le_right _ _
  passes i h1 hi := by
    have := hw.passes i h1 (by omega)
    rwa [List.take_append_of_le_length (by omega)] at this
  proc hlt := by
    have hp := hw.proc (by rw [List.length_append]; omega)
    rwa [List.take_append_of_le_length (by omega), show j = min j bs.length by omega] at hp

theorem StopsAt.meetsNoLink {guest : CStr} (hs : StopsAt E guest why pt) (h : pt.hops = 0) :
    MeetsNoLink E guest := by
  intro why' pt' hs'
  have := (run_of_stopsAt hs').symm.trans (run_of_stopsAt hs)
  exact (congrArg Walk.hops this).trans h

/-! ## Translations -/

/-- The path behind the root, and what it is mapped to from each of its directories on, fit the
buffer. -/
structure FitsBuffer (ctx : Ctx) (root : CStr) (cs : List CStr) : Prop where
  path : (root ++ pathStr cs).length < pathLen
  host : ∀ j ≤ cs.length, (dirPlaced ctx root (cs.take j) ++ glue slash (cs.drop j)).length < pathLen

/-- None of the directories on a path lies at a host path with a slash behind it. -/
def Slashless (ctx : Ctx) (root : CStr) (cs : List CStr) : Prop :=
  ∀ j ≤ cs.length, cs = [] ∨ 1 ≤ j → endsWithSlash (dirPlaced ctx root (cs.take j)) = false

theorem slashless_of_tight (hroot : Tight root) (hhosts : ∀ b ∈ ctx.bindings, Tight (unlessRoot b.host))
    (hcs : ∀ c ∈ cs, IsName c) : Slashless ctx root cs := fun _ _ _ =>
  (tight_dirPlaced hroot hhosts fun c hc => hcs c (List.mem_of_mem_take hc)).not_endsWithSlash

theorem endsWithSlash_behind (p : CStr) (hne : cs ≠ []) (hcs : ∀ c ∈ cs, IsWord slash c) :
    endsWithSlash (p ++ glue slash cs) = false := by
  rw [endsWithSlash_append fun h => hne (glue_eq_nil.1 h), endsWithSlash, beq_eq_false_iff_ne]
  exact getLast?_glue_ne hcs

theorem eq_of_upToSlash {p q : CStr} (hp : endsWithSlash p = false) (hq : endsWithSlash q = false)
    (h : UpToSlash p q) : p = q := by
  rw [← rdropWhile_eq_self (beq_eq_false_iff_ne.1 hp), ← rdropWhile_eq_self (beq_eq_false_iff_ne.1 hq)]
  exact h

/-- What a walk that stops at a directory writes. -/
theorem translate_stopped (hmap : unmapped E.ctx E.root = false) (hcs : Readable cs)
    (hs : StopsAt E (pathStr cs) why pt) {j : Nat} (hdir : pt.cs = cs.take j)
    (htext : pt.text = glue slash (cs.drop j)) {host : CStr} (hhost : UpToSlash (E.img (cs.take j)) host)
    (hj : j < cs.length → E.img (cs.take j) = host ∧ endsWithSlash host = false)
    (hfit : (host ++ glue slash (cs.drop j)).length < pathLen) :
    UpToSlash (translatePath E (pathStr cs) pathLen).out (host ++ glue slash (cs.drop j)) := by
  rw [translatePath, (translate_stopsAt hs (head?_pathStr cs) hmap 0).1]
  refine (upToSlash_unwalked E pt).trans ?_
  obtain hlt | hge := Nat.lt_or_ge j cs.length
  · obtain ⟨himg, hend⟩ := hj hlt
    rw [List.drop_eq_getElem_cons hlt] at htext hfit ⊢
    have hc := hcs.words _ (List.getElem_mem hlt)
    have hne : pt.text ≠ [] := by
      rw [htext, glue_cons]
      exact List.cons_ne_nil _ _
    have hdrop : [slash] ++ pt.text.dropWhile (· == slash) = pt.text := by
      rw [htext, glue_cons, dropWhile_word hc]
      rfl
    rw [List.length_append] at hfit
    rw [Point.joined, if_neg hne, hdir, himg, hend, if_neg (by simp), hdrop, htext,
      snprintf_of_lt (by omega)]
  · rw [List.drop_eq_nil_of_le hge, glue_nil] at htext ⊢
    rw [List.append_nil, Point.joined, if_pos htext, hdir]
    exact hhost

/-- A walk that stops at a directory writes where that lies, with the rest behind it. -/
theorem translate_placed (hmap : unmapped E.ctx E.root = false) (hcs : Readable cs)
    (hfit : FitsBuffer E.ctx E.root cs) {j : Nat} (hw : WayTo E cs j)
    (hslash : j < cs.length → endsWithSlash (dirPlaced E.ctx E.root (cs.take j)) = false)
    (hs : StopsAt E (pathStr cs) why pt) (hdir : pt.cs = cs.take j)
    (htext : pt.text = glue slash (cs.drop j)) :
    UpToSlash (translatePath E (pathStr cs) pathLen).out
      (dirPlaced E.ctx E.root (cs.take j) ++ glue slash (cs.drop j)) := by
  have hhost := hfit.host j hw.le
  have hlen : (dirPlaced E.ctx E.root (cs.take j)).length < pathLen := by
    rw [List.length_append] at hhost
    omega
  have hpath : (E.root ++ pathStr (cs.take j)).length < pathLen := by
    have h1 := hfit.path
    have h2 := length_pathStr_take_le cs j
    rw [List.length_append] at h1 ⊢
    omega
  refine translate_stopped hmap hcs hs hdir htext (upToSlash_dirPlaced (.inl hpath) hlen) (fun hlt => ?_)
    hhost
  obtain ⟨h1, hproc⟩ := hw.proc hlt
  have hne : cs.take j ≠ [] := by
    intro h0
    have := congrArg List.length h0
    rw [List.length_take, List.length_nil] at this
    omega
  have himg : E.img (cs.take j) = orSlash (dirPlaced E.ctx E.root (cs.take j)) := by
    rw [WalkEnv.img, mapToHost_dirPlaced hne (.inl hpath), snprintf_of_lt hlen]
  have hD : dirPlaced E.ctx E.root (cs.take j) ≠ [] := by
    intro h0
    rw [himg, h0] at hproc
    exact absurd hproc (by decide)
  rw [himg, orSlash, if_neg hD]
  exact ⟨rfl, hslash hlt⟩

theorem FitsBuffer.left (h : FitsBuffer ctx root (bs ++ ds)) : FitsBuffer ctx root bs where
  path := by
    have h1 := h.path
    have h2 := length_pathStr_take_le (bs ++ ds) bs.length
    rw [List.take_left] at h2
    rw [List.length_append] at h1 ⊢
    omega
  host j hj := by
    have hh := h.host j (by rw [List.length_append]; omega)
    rw [List.take_append_of_le_length hj, List.drop_append_of_le_length hj, glue_append] at hh
    simp only [List.length_append] at hh ⊢
    omega

/-- **What lies below a directory** is translated to where the directory is, with the way down
behind. -/
theorem translate_below {rl : CStr → Option CStr} {follow : Bool} (hmap : unmapped ctx root = false)
    (hslash : Slashless ctx root bs) (hcs : Readable (bs ++ ds)) (hun : Uncrossed ctx root bs ds)
    (hfit : FitsBuffer ctx root (bs ++ ds))
    (hfree : MeetsNoLink ⟨ctx, root, rl, follow⟩ (pathStr (bs ++ ds))) :
    ∃ host, endsWithSlash host = false ∧ (host ++ glue slash ds).length < pathLen ∧
      UpToSlash (translatePath ⟨ctx, root, rl, false⟩ (pathStr bs) pathLen).out host ∧
      UpToSlash (translatePath ⟨ctx, root, rl, follow⟩ (pathStr (bs ++ ds)) pathLen).out
        (host ++ glue slash ds) := by
  obtain ⟨why, pt, hs⟩ := stopsAt_exists ⟨ctx, root, rl, follow⟩ (pathStr (bs ++ ds))
  obtain ⟨j, hw, hdir, htext⟩ := stops_linkFree hcs hs (hfree _ _ hs)
  have hds : ∀ c ∈ ds, IsWord slash c := fun c hc => hcs.words c (List.mem_append_right _ hc)
  have hend : j < (bs ++ ds).length → endsWithSlash (dirPlaced ctx root ((bs ++ ds).take j)) =
      false := by
    intro hlt
    obtain ⟨h1, -⟩ := hw.proc hlt
    obtain hgt | hle := Nat.lt_or_ge bs.length j
    · obtain ⟨i, rfl⟩ := Nat.exists_eq_add_of_lt hgt
      rw [List.length_append] at hlt
      rw [Nat.add_assoc, List.take_length_add_append, hun.dirPlaced_eq hds (by omega)]
      refine endsWithSlash_behind _ (fun h0 => ?_) fun c hc => hds c (List.mem_of_mem_take hc)
      have := congrArg List.length h0
      rw [List.length_take, List.length_nil] at this
      omega
    · rw [List.take_append_of_le_length hle]
      exact hslash j hle (.inr h1)
  have hout := translate_placed hmap hcs hfit hw hend hs hdir htext
  have hlen := hfit.host j hw.le
  have hbs : Readable bs := by simpa using hcs.take bs.length
  have hw0 : WayTo ⟨ctx, root, rl, false⟩ bs (min j bs.length) :=
    ⟨hw.left.le, hw.left.passes, hw.left.proc⟩
  obtain ⟨why0, pt0, hs0, hdir0, htext0, -⟩ := hw0.stops hbs rfl
  have hout0 := translate_placed hmap hbs hfit.left hw0
    (fun hlt => hslash _ (Nat.min_le_right _ _) (.inr (hw0.proc hlt).1)) hs0 hdir0 htext0
  obtain hlt | hge := Nat.lt_or_ge j bs.length
  · -- the kernel takes over on the way to the directory
    rw [Nat.min_eq_left (Nat.le_of_lt hlt)] at hout0
    rw [List.take_append_of_le_length (Nat.le_of_lt hlt),
      List.drop_append_of_le_length (Nat.le_of_lt hlt),
      glue_append, ← List.append_assoc] at hout hlen
    refine ⟨_, endsWithSlash_behind _ (fun h0 => ?_) fun c hc => ?_, hlen, hout0, hout⟩
    · exact absurd (List.drop_eq_nil_iff.1 h0) (by omega)
    · exact hbs.words c (List.mem_of_mem_drop hc)
  · obtain ⟨i, rfl⟩ := Nat.exists_eq_add_of_le hge
    have hle := hw.le
    rw [List.length_append] at hle
    have hdrop : (bs ++ ds).drop (bs.length + i) = ds.drop i := drop_append_length_add bs ds i
    rw [List.take_length_add_append, hdrop, hun.dirPlaced_eq hds (by omega), List.append_assoc,
      ← glue_append, List.take_append_drop] at hout hlen
    rw [Nat.min_eq_right hge, List.take_length, List.drop_length, glue_nil, List.append_nil] at hout0
    refine ⟨_, ?_, hlen, hout0, hout⟩
    have hend := hslash bs.length (Nat.le_refl _)
      ((em (bs = [])).imp_right List.length_pos_iff.2)
    rwa [List.take_length] at hend

end Emuroot
