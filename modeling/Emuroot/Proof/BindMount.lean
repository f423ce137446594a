import Emuroot.Proof.CommandLine
import Emuroot.Proof.SharedRoot
import Emuroot.Proof.Subtree

/-!
# A bind mount shows its source

`bind_shows_iff`: after a bind mount the paths below the target are those below the source, and the
others stay where they were, exactly when a binding is added for the directory that the target
names, from where the source lies, and it takes no path outside (`ShowsWhen`). The call succeeds in
any case:
`full_table`.
-/

namespace Emuroot

open Words Relation

variable {w : Nat} {σ : Type} {E E' : WalkEnv} {guest : CStr} {cs ss ts ds : List CStr} {pt : Point}
  {why : Why}

/-! ## The directory that a path names -/

/-- The guest path is walked over to its end, or to a directory under `/proc`; `cs` is what it
names. -/
def NamesDir (E : WalkEnv) (guest : CStr) (cs : List CStr) : Prop :=
  ∃ why pt, StopsAt E guest why pt ∧ (why = .done ∨ why = .proc) ∧ cs = pt.cs ++ words slash pt.text

/-- What a path names is walked over to where the path is. -/
theorem NamesDir.wayTo (h : NamesDir E guest cs) :
    ∃ j, WayTo E cs j ∧ ∀ why pt, StopsAt E guest why pt → pt.cs = cs.take j := by
  obtain ⟨why, pt, hs, hwhy, rfl⟩ := h
  have ht : Trodden E guest pt.cs := LooksAt.trodden (.inr ⟨why, pt, hs, rfl⟩)
  refine ⟨pt.cs.length, ⟨by simp, fun i h1 hi => ?_, fun hlt => ?_⟩, fun why' pt' hs' => ?_⟩
  · rw [List.take_append_of_le_length (Nat.le_of_lt hi)]
    exact ht.passes i h1 hi
  · rw [List.take_left]
    obtain ⟨p, hp, hh⟩ := hs
    cases hh with
    | done => simp [words] at hlt
    | proc hc hl hpr =>
      refine ⟨?_, hpr⟩
      simp [Point.push]
    | tooLong | last | hops => simp at hwhy
  · rw [List.take_left]
    exact hs.cs_eq hs'

/-- Walks that stop at one directory, which lies in one place, write the same. -/
theorem translate_upToSlash {guest' : CStr} {why' : Why} {pt' : Point} (hs : StopsAt E guest why pt)
    (hs' : StopsAt E' guest' why' pt') (habs : guest.head? = some slash)
    (habs' : guest'.head? = some slash) (hmap : unmapped E.ctx E.root = false)
    (hmap' : unmapped E'.ctx E'.root = false) (hcs : pt'.cs = pt.cs) (htext : pt'.text = pt.text)
    (himg : E'.img pt.cs = E.img pt.cs) :
    UpToSlash (translatePath E' guest' pathLen).out (translatePath E guest pathLen).out := by
  rw [translatePath, translatePath, (translate_stopsAt hs' habs' hmap' 0).1,
    (translate_stopsAt hs habs hmap 0).1]
  have hj : pt'.joined E' = pt.joined E := by
    unfold Point.joined
    rw [hcs, htext, himg]
  exact ((upToSlash_unwalked E' pt').trans (congrArg _ hj)).trans (upToSlash_unwalked E pt).symm

/-- Where no link is met it does not matter whether the last one would be followed. -/
theorem translate_follow {ctx : Ctx} {root : CStr} {rl : CStr → Option CStr} {follow : Bool}
    (hmap : unmapped ctx root = false) (hcs : Readable cs)
    (hfree : MeetsNoLink ⟨ctx, root, rl, follow⟩ (pathStr cs)) :
    UpToSlash (translatePath ⟨ctx, root, rl, follow⟩ (pathStr cs) pathLen).out
      (translatePath ⟨ctx, root, rl, false⟩ (pathStr cs) pathLen).out := by
  obtain ⟨why, pt, hs⟩ := stopsAt_exists ⟨ctx, root, rl, follow⟩ (pathStr cs)
  obtain ⟨j, hw, hdir, htext⟩ := stops_linkFree hcs hs (hfree _ _ hs)
  have hw0 : WayTo ⟨ctx, root, rl, false⟩ cs j := ⟨hw.le, hw.passes, hw.proc⟩
  obtain ⟨why0, pt0, hs0, hdir0, htext0, -⟩ := hw0.stops hcs rfl
  exact translate_upToSlash hs0 hs (head?_pathStr cs) (head?_pathStr cs) hmap hmap
    (hdir.trans hdir0.symm) (htext.trans htext0.symm) rfl

/-! ## The call -/

section
variable (P : Platform w σ)

/-- The source, as an absolute guest path. -/
def sourcePath (s : St w σ) : Option CStr :=
  (givenPath P s 1).bind fun given =>
    absoluteGuestPath P s (dirfdSlot P.nr (s.sysno P) 1) given (2 * pathLen)

/-- A bind mount of the directory `ss` of the guest at its directory `ts`; the source lies at `H` on
the host. -/
structure BindMount (s : St w σ) (source target : CStr) (ss ts : List CStr) (H : CStr) : Prop where
  call : BindCall P s
  sourceAt : sourcePath P s = some source
  targetAt : targetPath P s .mount = some target
  targetAbs : target.head? = some slash
  sourceNames : NamesDir (s.walkEnv P true) source ss
  targetNames : NamesDir (s.walkEnv P true) target ts
  sourceReadable : Readable ss
  targetReadable : Readable ts
  real : P.realpath s.fs (translatePath (s.walkEnv P true) source pathLen).out = some H
  hostTight : Tight (unlessRoot H)
  fits : H.length < pathLen
  slashless : Slashless s.ctx s.t.root ss

/-- A way `ds` down from the source, before the call, and from the target, after it: without links,
crossing no binding, and with a host path that fits. -/
structure WayDown (s s' : St w σ) (ss ts ds : List CStr) (follow : Bool) : Prop where
  source : Readable (ss ++ ds)
  target : Readable (ts ++ ds)
  sourceFree : MeetsNoLink (s.walkEnv P follow) (pathStr (ss ++ ds))
  targetFree : MeetsNoLink ⟨s'.ctx, s'.t.root, P.readlink s.fs, follow⟩ (pathStr (ts ++ ds))
  sourceUncrossed : Uncrossed s.ctx s.t.root ss ds
  targetUncrossed : Uncrossed s.ctx s.t.root ts ds
  fits : ds ≠ [] → FitsBuffer s.ctx s.t.root (ss ++ ds)

/-- What is below the target afterwards is what was below the source. -/
def ShowsSource (s s' : St w σ) (ss ts : List CStr) : Prop :=
  ∀ ds follow, WayDown P s s' ss ts ds follow →
    UpToSlash
      (translatePath ⟨s'.ctx, s'.t.root, P.readlink s.fs, follow⟩ (pathStr (ts ++ ds)) pathLen).out
      (translatePath (s.walkEnv P follow) (pathStr (ss ++ ds)) pathLen).out

/-- The paths that come nowhere at or below the target are where they were. -/
def KeepsOutside (s s' : St w σ) (ts : List CStr) : Prop :=
  ∀ guest follow, guest.head? = some slash → Avoids (fun cs => ts <+: cs) (s.walkEnv P follow) guest →
    (translatePath ⟨s'.ctx, s'.t.root, P.readlink s.fs, follow⟩ guest pathLen).out =
      (translatePath (s.walkEnv P follow) guest pathLen).out

/-- There is room for a binding and something mapped already, the resolution of the target does not
stop short of it, the source lies where `realpath` says, and the binding takes no path outside the
target, but to where that is anyway. -/
structure ShowsWhen (s : St w σ) (target : CStr) (ss ts : List CStr) (H : CStr) : Prop where
  room : s.ctx.bindings.length < maxBindings
  mapped : unmapped s.ctx s.t.root = false
  whole : ∀ why pt, StopsAt (s.walkEnv P true) target why pt → pt.cs = ts
  same : UpToSlash H (translatePath (s.walkEnv P false) (pathStr ss) pathLen).out
  spares : ∀ nb ∈ addedBinding P s, ∀ cs, Straight (fun cs => ts <+: cs) (s.walkEnv P true) cs →
    Takes nb (changedCtx P s .mount) s.t.root (pathStr cs) →
    mapToHost (changedCtx P s .mount) s.t.root (pathStr cs) pathLen =
      mapToHost s.ctx s.t.root (pathStr cs) pathLen

end

variable {P : Platform w σ} {s : St w σ} {source target H : CStr}

theorem MountCall.root_kept {a : Action} (h : MountCall P s a) (kern : Kernel w σ) :
    (afterCall P s kern).t.root = s.t.root := by
  have hne : ¬(P.actionOf (atExit P s kern).t.sysno = some .chroot ∧
      (atExit P s kern).t.pendingRoot ≠ []) := by
    rintro ⟨hc, -⟩
    rw [atExit_sysno] at hc
    obtain rfl := Option.some.inj (h.action.symm.trans hc)
    obtain h | h := h.kind <;> cases h
  rw [afterCall, onExit_root, if_neg hne]
  exact onEntry_root s

theorem BindMount.mountSource_eq (h : BindMount P s source target ss ts H) :
    mountSource P s (s.sysno P) = some (translatePath (s.walkEnv P true) source pathLen).out := by
  obtain ⟨given, hgiven, habs⟩ := Option.bind_eq_some_iff.1 h.sourceAt
  have harg : hostPathArg P s (s.sysno P) 1 true =
      some (translatePath (s.walkEnv P true) source pathLen).out := by
    rw [hostPathArg, hgiven]
    dsimp only
    rw [habs]
  rw [mountSource, if_neg (by simp [h.call.plain]), if_pos h.call.bind, harg]

/-- The binding that the call adds. -/
theorem BindMount.added (h : BindMount P s source target ss ts H) :
    addedBinding P s =
      if s.ctx.bindings.length < maxBindings then
        some ⟨H, (targetIn P s s.ctx target).guestOut, snprintf pathLen (targetIn P s s.ctx target).out⟩
      else none := by
  have hguest : (targetIn P s s.ctx target).guestOut.length < pathLen := by
    unfold targetIn translatePathEx
    split
    · exact Nat.lt_of_le_of_lt (length_snprintf_le _ _) (by decide)
    · exact Nat.lt_of_le_of_lt (length_snprintf_le _ _) (by decide)
  have hbind : (emurootBind s.ctx H (targetIn P s s.ctx target).guestOut).isSome =
      decide (s.ctx.bindings.length < maxBindings) := by
    have hH := h.fits
    unfold emurootBind
    by_cases hroom : s.ctx.bindings.length < maxBindings
    · rw [if_neg (by omega), decide_eq_true hroom]
      rfl
    · rw [if_pos (by omega), decide_eq_false hroom]
      rfl
  unfold addedBinding
  rw [h.targetAt, Option.bind_some]
  dsimp only
  rw [h.mountSource_eq, Option.bind_some, canonical, h.real, Option.getD_some, hbind]
  simp only [decide_eq_true_eq]

theorem BindMount.ctx_eq (h : BindMount P s source target ss ts H) (kern : Kernel w σ) :
    (afterCall P s kern).ctx = s.ctx.withBinding (addedBinding P s) := by
  rw [h.call.ctx_eq, changedCtx_mount]
  rfl

/-! ## Names below the target -/

section
variable {ctx ctx' : Ctx} {root : CStr} {rl : CStr → Option CStr} {nb : Binding}

/-- Below the directory that a binding names nothing but the binding takes a path, as far as no
other is crossed. -/
theorem withBinding_below (hname : nb.guest = pathStr ts) (hun : Uncrossed ctx root ts ds) {k : Nat}
    (hk : k ≤ ds.length) :
    bestBinding (ctx.withBinding (some nb)) (pathStr (ts ++ ds.take k)) = some nb := by
  refine withBinding_best (guestMatches_iff.2 ?_) fun c hc hm => ?_
  · by_cases hts : ts = []
    · exact .inl (by rw [hname, hts, pathStr_nil])
    · refine .inr ?_
      rw [hname, pathStr_of_ne hts, pathStr_of_ne (by simp [hts]), glue_append]
      exact (Stem.refl _).append_glue _
  · rw [(hun c hc k hk).1] at hm
    rw [hname]
    exact length_le_of_guestMatches hm fun h0 => by simpa [h0] using head?_pathStr ts

theorem dirPlaced_withBinding (hname : nb.guest = pathStr ts) (hts : ∀ c ∈ ts, IsWord slash c)
    (hun : Uncrossed ctx root ts ds) {k : Nat} (hk : k ≤ ds.length) :
    dirPlaced (ctx.withBinding (some nb)) root (ts ++ ds.take k) =
      unlessRoot nb.host ++ glue slash (ds.take k) := by
  rw [dirPlaced, place, withBinding_below hname hun hk]
  dsimp only
  rw [placed, drop_append_length_add, glue_append]
  cases ts with
  | nil =>
    rw [if_pos (by rw [hname, pathStr_nil]), List.drop_zero, glue_nil, List.nil_append]
  | cons c ts =>
    have hc := List.length_pos_iff.2 (hts c List.mem_cons_self).ne_nil
    have hguest : nb.guest = glue slash (c :: ts) := by rw [hname, pathStr_of_ne (by simp)]
    have hne : nb.guest ≠ [slash] := by
      intro h
      have := congrArg List.length (hguest.symm.trans h)
      simp only [glue_cons, List.length_append, List.length_cons, List.length_nil] at this
      omega
    rw [if_neg hne, hguest, List.drop_left]

/-- **What lies below the target** is translated to the binding's host directory, with the way down
behind. -/
theorem translate_target {follow : Bool} (hname : nb.guest = pathStr ts)
    (hhost : Tight (unlessRoot nb.host))
    (hcs : Readable (ts ++ ds)) (hun : Uncrossed ctx root ts ds)
    (hfree : MeetsNoLink ⟨ctx.withBinding (some nb), root, rl, follow⟩ (pathStr (ts ++ ds)))
    (hway : ∀ i, 1 ≤ i → i < ts.length → underProc
      (mapToHost (ctx.withBinding (some nb)) root (pathStr (ts.take i)) pathLen) = false)
    (hlen : (unlessRoot nb.host ++ glue slash ds).length < pathLen) :
    UpToSlash
      (translatePath ⟨ctx.withBinding (some nb), root, rl, follow⟩ (pathStr (ts ++ ds)) pathLen).out
      (unlessRoot nb.host ++ glue slash ds) := by
  have hmap : unmapped (ctx.withBinding (some nb)) root = false := by
    rw [unmapped_withBinding, Option.isNone_some, Bool.and_false]
  obtain ⟨why, pt, hs⟩ :=
    stopsAt_exists ⟨ctx.withBinding (some nb), root, rl, follow⟩ (pathStr (ts ++ ds))
  obtain ⟨j, hw, hdir, htext⟩ := stops_linkFree hcs hs (hfree _ _ hs)
  have hle := hw.le
  rw [List.length_append] at hle
  -- the walk does not stop on the way to the target
  have hge : ts.length ≤ j := by
    by_contra hlt
    obtain ⟨h1, hproc⟩ := hw.proc (by rw [List.length_append]; omega)
    rw [List.take_append_of_le_length (by omega)] at hproc
    exact absurd ((hway j h1 (by omega)).symm.trans hproc) (by decide)
  obtain ⟨i, rfl⟩ := Nat.exists_eq_add_of_le hge
  have hi : i ≤ ds.length := by omega
  have hbest : (bestBinding (ctx.withBinding (some nb)) (pathStr (ts ++ ds.take i))).isSome := by
    rw [withBinding_below hname hun hi]
    rfl
  have hplaced :=
    dirPlaced_withBinding hname (fun c hc => hcs.words c (List.mem_append_left _ hc)) hun hi
  have hparts : glue slash ds = glue slash (ds.take i) ++ glue slash (ds.drop i) := by
    rw [← glue_append, List.take_append_drop]
  have hcut : (unlessRoot nb.host ++ glue slash (ds.take i)).length < pathLen := by
    rw [hparts] at hlen
    simp only [List.length_append] at hlen ⊢
    omega
  have hplace := upToSlash_dirPlaced (.inr hbest) (by rwa [hplaced])
  rw [hplaced, ← List.take_length_add_append] at hplace
  have hout := translate_stopped hmap hcs hs hdir htext hplace (fun hlt => ?_) ?_
  · rwa [drop_append_length_add, List.append_assoc, ← hparts] at hout
  · obtain ⟨h1, hproc⟩ := hw.proc hlt
    have hne : ts ++ ds.take i ≠ [] := by
      intro h0
      have := congrArg List.length h0
      rw [List.length_append, List.length_take, List.length_nil] at this
      omega
    have himg : WalkEnv.img ⟨ctx.withBinding (some nb), root, rl, follow⟩
        ((ts ++ ds).take (ts.length + i)) = orSlash (unlessRoot nb.host ++ glue slash (ds.take i)) := by
      rw [List.take_length_add_append, WalkEnv.img, mapToHost_dirPlaced hne (.inr hbest), hplaced,
        snprintf_of_lt hcut]
    have hX : unlessRoot nb.host ++ glue slash (ds.take i) ≠ [] := by
      intro h0
      rw [himg, h0] at hproc
      exact absurd hproc (by decide)
    rw [himg, orSlash, if_neg hX]
    refine ⟨rfl, (hhost.append ⟨ds.take i, fun c hc => ?_, rfl⟩).not_endsWithSlash⟩
    exact hcs.names c (List.mem_append_right _ (List.mem_of_mem_take hc))
  · rwa [drop_append_length_add, List.append_assoc, ← hparts]

/-- Where the way is the same, a path is walked over to the same place. -/
theorem WayTo.congr {j : Nat} (hw : WayTo E cs j) (hrl : E'.rl = E.rl)
    (himg : ∀ i ≤ j, i < cs.length → E'.img (cs.take i) = E.img (cs.take i)) : WayTo E' cs j where
  le := hw.le
  passes i h1 hi := by
    have hle := hw.le
    have hp := hw.passes i h1 hi
    rw [Passes] at hp ⊢
    rwa [himg i (Nat.le_of_lt hi) (by omega), hrl]
  proc hlt := by
    rw [himg j (Nat.le_refl j) hlt]
    exact hw.proc hlt

/-- The directories on the way to the target are outside of it. -/
theorem AlikeAway.way_eq (h : AlikeAway (fun cs => ts <+: cs) ctx ctx' root rl)
    (hmap : unmapped ctx root = false) (hmap' : unmapped ctx' root = false) (hts : Readable ts)
    {j : Nat} {follow : Bool} (hw : WayTo ⟨ctx, root, rl, follow⟩ ts j) {i : Nat} (hi : i ≤ j)
    (hlt : i < ts.length) :
    mapToHost ctx' root (pathStr (ts.take i)) pathLen =
      mapToHost ctx root (pathStr (ts.take i)) pathLen := by
  have hout : ∀ k ≤ i, ¬ts <+: ts.take k := by
    intro k hk hp
    have := hp.length_le
    rw [List.length_take] at this
    omega
  refine (alikeAway_iff hmap hmap').1 h (ts.take i) ⟨hts.take i, fun k h1 hk => ?_, fun k h1 hk => ?_,
    hout i (Nat.le_refl i)⟩
  · rw [List.length_take] at hk
    rw [List.take_take, Nat.min_eq_left (by omega)]
    exact hw.passes k h1 (by omega)
  · rw [List.length_take] at hk
    rw [List.take_take, Nat.min_eq_left (by omega)]
    exact hout k (by omega)

end

/-! ## The call -/

theorem BindMount.changed (_h : BindMount P s source target ss ts H) :
    changedCtx P s .mount = s.ctx.withBinding (addedBinding P s) := by
  rw [changedCtx_mount]
  rfl

theorem BindMount.keepsOutside_iff (h : BindMount P s source target ss ts H) (kern : Kernel w σ) :
    KeepsOutside P s (afterCall P s kern) ts ↔
      AlikeAway (fun cs => ts <+: cs) s.ctx (s.ctx.withBinding (addedBinding P s)) s.t.root
        (P.readlink s.fs) := by
  unfold KeepsOutside
  rw [h.ctx_eq, h.call.root_kept]
  exact Iff.rfl

theorem BindMount.targetWay (h : BindMount P s source target ss ts H) (follow : Bool) :
    ∃ j, WayTo (s.walkEnv P follow) ts j ∧
      ∀ why pt, StopsAt (s.walkEnv P true) target why pt → pt.cs = ts.take j := by
  obtain ⟨j, hw, hcs⟩ := h.targetNames.wayTo
  exact ⟨j, ⟨hw.le, hw.passes, hw.proc⟩, hcs⟩

theorem BindMount.sourceWay (h : BindMount P s source target ss ts H) :
    ∃ j, WayTo (s.walkEnv P false) ss j := by
  obtain ⟨j, hw, -⟩ := h.sourceNames.wayTo
  exact ⟨j, hw.le, hw.passes, hw.proc⟩

/-- Where the target is resolved to its end the binding has its name. -/
theorem BindMount.binding (h : BindMount P s source target ss ts H)
    (hroom : s.ctx.bindings.length < maxBindings) (hmap : unmapped s.ctx s.t.root = false)
    (hwhole : ∀ why pt, StopsAt (s.walkEnv P true) target why pt → pt.cs = ts) :
    ∃ mount, addedBinding P s = some ⟨H, pathStr ts, mount⟩ := by
  obtain ⟨why, pt, hs⟩ := stopsAt_exists (s.walkEnv P true) target
  have hguest : (targetIn P s s.ctx target).guestOut = pathStr ts := by
    rw [← hwhole why pt hs, ← snprintf_of_lt hs.good.fits]
    exact (translate_stopsAt hs h.targetAbs hmap pathLen).2
  rw [h.added, if_pos hroom, hguest]
  exact ⟨_, rfl⟩

/-! ## Enough -/

theorem ShowsWhen.keeps (h : BindMount P s source target ss ts H) (hw : ShowsWhen P s target ss ts H)
    (kern : Kernel w σ) : KeepsOutside P s (afterCall P s kern) ts := by
  rw [h.keepsOutside_iff kern]
  have hmap' : unmapped (s.ctx.withBinding (addedBinding P s)) s.t.root = false := by
    rw [unmapped_withBinding, hw.mapped, Bool.false_and]
  refine (alikeAway_iff hw.mapped hmap').2 fun cs hc => ?_
  by_cases ht : TakenBy (addedBinding P s) s.ctx s.t.root (pathStr cs)
  · obtain ⟨nb, hnb, ht⟩ := ht
    have := hw.spares nb hnb cs hc
    rw [h.changed] at this
    exact this ht
  · exact withBinding_img ht

theorem upToSlash_unlessRoot (p : CStr) : UpToSlash (unlessRoot p) p := by
  unfold unlessRoot
  split
  · rename_i h
    rw [h]
    exact rfl
  · exact rfl

theorem ShowsWhen.shows (h : BindMount P s source target ss ts H) (hw : ShowsWhen P s target ss ts H)
    (kern : Kernel w σ) : ShowsSource P s (afterCall P s kern) ss ts := by
  rintro ds follow ⟨hsource, htarget, hsf, htf, hsu, htu, hfits⟩
  have hkeep := (h.keepsOutside_iff kern).1 (hw.keeps h kern)
  obtain ⟨mount, hadd⟩ := h.binding hw.room hw.mapped hw.whole
  rw [h.ctx_eq, h.call.root_kept] at htf ⊢
  rw [hadd] at htf hkeep ⊢
  have hmap' : unmapped (s.ctx.withBinding (some ⟨H, pathStr ts, mount⟩)) s.t.root = false := by
    rw [unmapped_withBinding, hw.mapped, Bool.false_and]
  -- the way to the target is as before
  have hway : ∀ i, 1 ≤ i → i < ts.length → underProc (mapToHost
      (s.ctx.withBinding (some ⟨H, pathStr ts, mount⟩)) s.t.root
      (pathStr (ts.take i)) pathLen) = false := by
    intro i h1 hi
    obtain ⟨why, pt, hs⟩ := stopsAt_exists (s.walkEnv P true) target
    obtain ⟨j, hway, hj⟩ := h.targetWay true
    have hlen := congrArg List.length ((hw.whole why pt hs).symm.trans (hj why pt hs))
    rw [List.length_take] at hlen
    rw [hkeep.way_eq hw.mapped hmap' h.targetReadable hway (by omega) hi]
    exact (hway.passes i h1 (by omega)).1
  -- the host directory, with the way down behind
  have hfound : (unlessRoot H ++ glue slash ds).length < pathLen ∧
      UpToSlash (translatePath (s.walkEnv P follow) (pathStr (ss ++ ds)) pathLen).out
        (unlessRoot H ++ glue slash ds) := by
    have hH := (upToSlash_unlessRoot H).trans hw.same
    by_cases hds : ds = []
    · subst hds
      rw [List.append_nil] at hsf ⊢
      rw [glue_nil, List.append_nil]
      refine ⟨Nat.lt_of_le_of_lt ?_ h.fits,
        (translate_follow hw.mapped h.sourceReadable hsf).trans hH.symm⟩
      unfold unlessRoot
      split
      · exact Nat.zero_le _
      · exact Nat.le_refl _
    · obtain ⟨host, hslash, hlen, hhost, hout⟩ :=
        translate_below hw.mapped h.slashless hsource hsu (hfits hds) hsf
      rw [eq_of_upToSlash h.hostTight.not_endsWithSlash hslash (hH.trans hhost)]
      exact ⟨hlen, hout⟩
  exact (translate_target rfl h.hostTight htarget htu htf hway hfound.1).trans hfound.2.symm

/-! ## Needed -/

/-- What the target itself shows is what the source does. -/
theorem BindMount.shows_self (h : BindMount P s source target ss ts H) (kern : Kernel w σ)
    (hshow : ShowsSource P s (afterCall P s kern) ss ts) {j : Nat}
    (hw : WayTo ⟨s.ctx.withBinding (addedBinding P s), s.t.root, P.readlink s.fs, false⟩ ts j) :
    UpToSlash
      (translatePath
        ⟨s.ctx.withBinding (addedBinding P s), s.t.root, P.readlink s.fs, false⟩ (pathStr ts) pathLen).out
      (translatePath (s.walkEnv P false) (pathStr ss) pathLen).out := by
  obtain ⟨i, hi⟩ := h.sourceWay
  obtain ⟨why, pt, hs, -, -, h0⟩ := hi.stops h.sourceReadable rfl
  obtain ⟨why', pt', hs', -, -, h0'⟩ := hw.stops h.targetReadable rfl
  have hd : WayDown P s (afterCall P s kern) ss ts [] false := by
    constructor
    · rw [List.append_nil]
      exact h.sourceReadable
    · rw [List.append_nil]
      exact h.targetReadable
    · rw [List.append_nil]
      exact hs.meetsNoLink h0
    · rw [List.append_nil, h.ctx_eq, h.call.root_kept]
      exact hs'.meetsNoLink h0'
    · exact uncrossed_nil _ _ _
    · exact uncrossed_nil _ _ _
    · exact fun hne => absurd rfl hne
  have := hshow [] false hd
  rwa [List.append_nil, List.append_nil, h.ctx_eq, h.call.root_kept] at this

theorem BindMount.needs (h : BindMount P s source target ss ts H)
    (hroot : ts = [] → unmapped s.ctx s.t.root = false)
    (hnew : ¬UpToSlash (translatePath (s.walkEnv P false) (pathStr ts) pathLen).out
      (translatePath (s.walkEnv P false) (pathStr ss) pathLen).out)
    (kern : Kernel w σ) (hshow : ShowsSource P s (afterCall P s kern) ss ts)
    (hkeep : KeepsOutside P s (afterCall P s kern) ts) : ShowsWhen P s target ss ts H := by
  have hself := fun {j} => h.shows_self kern hshow (j := j)
  rw [h.keepsOutside_iff kern] at hkeep
  obtain ⟨j, hway, hj⟩ := h.targetWay false
  have hroom : s.ctx.bindings.length < maxBindings := by
    by_contra hfull
    have hsame : s.ctx.withBinding (addedBinding P s) = s.ctx := by
      rw [h.added, if_neg hfull, Ctx.withBinding_none]
    rw [hsame] at hself
    exact hnew (hself hway)
  obtain ⟨nb, hadd⟩ : ∃ nb, addedBinding P s = some nb := by
    rw [h.added, if_pos hroom]
    exact ⟨_, rfl⟩
  have hmap' : unmapped (s.ctx.withBinding (addedBinding P s)) s.t.root = false := by
    rw [hadd, unmapped_withBinding, Option.isNone_some, Bool.and_false]
  have hmap : unmapped s.ctx s.t.root = false := by
    by_cases hts : ts = []
    · exact hroot hts
    · rw [← hkeep.unmapped_eq fun hp => hts (List.prefix_nil.1 hp)]
      exact hmap'
  have himg : ∀ i ≤ j, i < ts.length →
      mapToHost (s.ctx.withBinding (addedBinding P s)) s.t.root (pathStr (ts.take i)) pathLen =
        mapToHost s.ctx s.t.root (pathStr (ts.take i)) pathLen := fun i hi hlt =>
    hkeep.way_eq hmap hmap' h.targetReadable hway hi hlt
  have hway' : WayTo ⟨s.ctx.withBinding (addedBinding P s), s.t.root, P.readlink s.fs, false⟩ ts j :=
    hway.congr rfl himg
  obtain ⟨why', pt', hs', hdir', htext', -⟩ := hway'.stops h.targetReadable rfl
  have hjlen : j = ts.length := by
    -- a target that is stopped short of is where it was
    by_contra hne
    have hlt : j < ts.length := Nat.lt_of_le_of_ne hway.le hne
    obtain ⟨why, pt, hs, hdir, htext, -⟩ := hway.stops h.targetReadable rfl
    have hout := translate_upToSlash hs hs' (head?_pathStr ts) (head?_pathStr ts) hmap hmap'
      (hdir'.trans hdir.symm) (htext'.trans htext.symm) (by
        rw [hdir]
        exact himg j (Nat.le_refl j) hlt)
    exact hnew (hout.symm.trans (hself hway'))
  have hwhole : ∀ why pt, StopsAt (s.walkEnv P true) target why pt → pt.cs = ts := fun why pt hs => by
    rw [hj why pt hs, hjlen, List.take_length]
  obtain ⟨mount, hname⟩ := h.binding hroom hmap hwhole
  refine ⟨hroom, hmap, hwhole, ?_, fun nb hnb cs hc _ => ?_⟩
  · refine Eq.trans (Eq.symm ?_) (hself hway')
    -- the target itself now lies where the binding says
    have hown : UpToSlash (WalkEnv.img
        ⟨s.ctx.withBinding (addedBinding P s), s.t.root, P.readlink s.fs, false⟩ (ts.take j)) H := by
      have habs : (⟨H, pathStr ts, mount⟩ : Binding).guest.head? = some slash := head?_pathStr ts
      rw [hjlen, List.take_length, hname]
      exact withBinding_own habs h.fits
    have hfit : (H ++ glue slash (ts.drop j)).length < pathLen := by
      rw [hjlen, List.drop_length, glue_nil, List.append_nil]
      exact h.fits
    have hout := translate_stopped hmap' h.targetReadable hs' hdir' htext' hown
      (fun hlt => by omega) hfit
    rwa [hjlen, List.drop_length, glue_nil, List.append_nil] at hout
  · rw [h.changed]
    exact (alikeAway_iff hmap hmap').1 hkeep cs hc

/-- **A bind mount shows its source** where a binding is added for what the target names, the source
lies where `realpath` says, and the binding takes no path outside. For a target that did not show
the source before this is needed too, `/` of a name space with nothing mapped apart. -/
theorem bind_shows_iff (h : BindMount P s source target ss ts H) (kern : Kernel w σ) :
    (ShowsWhen P s target ss ts H →
      ShowsSource P s (afterCall P s kern) ss ts ∧ KeepsOutside P s (afterCall P s kern) ts) ∧
    ((ts = [] → unmapped s.ctx s.t.root = false) →
      ¬UpToSlash (translatePath (s.walkEnv P false) (pathStr ts) pathLen).out
        (translatePath (s.walkEnv P false) (pathStr ss) pathLen).out →
      (ShowsSource P s (afterCall P s kern) ss ts ∧ KeepsOutside P s (afterCall P s kern) ts ↔
        ShowsWhen P s target ss ts H)) :=
  ⟨fun hw => ⟨hw.shows h kern, hw.keeps h kern⟩, fun hroot hnew =>
    ⟨fun hk => h.needs hroot hnew kern hk.1 hk.2, fun hw => ⟨hw.shows h kern, hw.keeps h kern⟩⟩⟩

/-! ## A full table -/

/-- `mount("/src", "/dst", NULL, MS_BIND, NULL)` in a root at `/r`. -/
def bindSrc (bindings : List Binding) : St 64 Unit :=
  linuxCall { rootJailCtx with bindings := bindings } (cstr "/r") 165 [4096, 8192, 0, 4096]
    [(4096, cstr "/src"), (8192, cstr "/dst")]

/-- As many bindings as there is room for, elsewhere. -/
def fullTable : List Binding := List.replicate maxBindings ⟨cstr "/x", cstr "/y", cstr "/r/y"⟩

theorem stopsAt_dir {ctx : Ctx} {root : CStr} {c : CStr} (hc : Readable [c])
    (hproc : underProc (mapToHost ctx root (pathStr [c]) pathLen) = false) :
    StopsAt ⟨ctx, root, dirPlatform.readlink (), true⟩ (pathStr [c]) .done ⟨[c], [], false, 0⟩ := by
  refine stopsAt_passed hc rfl (by simp) fun k h1 hk => ?_
  obtain rfl : k = 1 := Nat.le_antisymm hk h1
  exact ⟨hproc, rfl⟩

theorem namesDir_dir {ctx : Ctx} {root : CStr} {c : CStr} (hc : Readable [c])
    (hproc : underProc (mapToHost ctx root (pathStr [c]) pathLen) = false) :
    NamesDir ⟨ctx, root, dirPlatform.readlink (), true⟩ (pathStr [c]) [c] :=
  ⟨.done, ⟨[c], [], false, 0⟩, stopsAt_dir hc hproc, .inl rfl, by simp [words]⟩

theorem readable_src : Readable [cstr "src"] := ⟨by decide, by decide, by decide +kernel⟩

theorem readable_dst : Readable [cstr "dst"] := ⟨by decide, by decide, by decide +kernel⟩

theorem bindSrc_bind (bindings : List Binding) (h : bindings = [] ∨ bindings = fullTable) :
    BindMount dirPlatform (bindSrc bindings) (pathStr [cstr "src"]) (pathStr [cstr "dst"])
      [cstr "src"] [cstr "dst"] (cstr "/r/src") where
  call := by
    obtain rfl | rfl := h <;>
      exact ⟨⟨by decide, by decide +kernel, .inl rfl, by decide⟩, by decide, by decide⟩
  sourceAt := by obtain rfl | rfl := h <;> decide +kernel
  targetAt := by obtain rfl | rfl := h <;> decide +kernel
  targetAbs := head?_pathStr _
  sourceNames := namesDir_dir readable_src (by obtain rfl | rfl := h <;> decide +kernel)
  targetNames := namesDir_dir readable_dst (by obtain rfl | rfl := h <;> decide +kernel)
  sourceReadable := readable_src
  targetReadable := readable_dst
  real := by obtain rfl | rfl := h <;> decide +kernel
  hostTight := ⟨[cstr "r", cstr "src"], by decide, by decide +kernel⟩
  fits := by decide
  slashless := by
    have hroot : Tight (cstr "/r") := ⟨[cstr "r"], by decide, by decide +kernel⟩
    refine slashless_of_tight hroot (fun b hb => ?_) readable_src.names
    obtain rfl | rfl := h
    · simp [bindSrc, linuxCall] at hb
    · obtain rfl := (List.mem_replicate.1 hb).2
      exact ⟨[cstr "x"], by decide, by decide +kernel⟩

theorem bindSrc_way (bindings : List Binding) (h : bindings = [] ∨ bindings = fullTable) :
    WayDown dirPlatform (bindSrc bindings) (afterCall dirPlatform (bindSrc bindings) bindUsrDone)
      [cstr "src"] [cstr "dst"] [cstr "f"] true where
  source := ⟨by decide, by decide, by decide +kernel⟩
  target := ⟨by decide, by decide, by decide +kernel⟩
  sourceFree _ _ hs := by
    refine (congrArg Walk.hops (run_of_stopsAt hs)).symm.trans ?_
    obtain rfl | rfl := h <;> decide +kernel
  targetFree _ _ hs := by
    refine (congrArg Walk.hops (run_of_stopsAt hs)).symm.trans ?_
    obtain rfl | rfl := h <;> decide +kernel
  sourceUncrossed := by
    unfold Uncrossed
    obtain rfl | rfl := h <;> decide +kernel
  targetUncrossed := by
    unfold Uncrossed
    obtain rfl | rfl := h <;> decide +kernel
  fits _ := by obtain rfl | rfl := h <;> exact ⟨by decide +kernel, by decide +kernel⟩

theorem bindSrc_when :
    ShowsWhen dirPlatform (bindSrc []) (pathStr [cstr "dst"]) [cstr "src"] [cstr "dst"]
      (cstr "/r/src") where
  room := by decide
  mapped := by decide
  whole _ _ hs := (stopsAt_dir readable_dst (by decide +kernel)).cs_eq hs
  same := by
    unfold UpToSlash
    decide +kernel
  spares nb hnb cs hc ht := by
    have hadd : addedBinding dirPlatform (bindSrc []) =
        some ⟨cstr "/r/src", pathStr [cstr "dst"], cstr "/r" ++ pathStr [cstr "dst"]⟩ := by
      decide +kernel
    rw [hadd] at hnb
    obtain rfl := Option.some.inj hnb
    exact absurd (ht.below (by simp) readable_dst.words hc.readable.words (by decide +kernel)) hc.away

theorem bind_shows_src :
    UpToSlash
      (translatePath ⟨(afterCall dirPlatform (bindSrc []) bindUsrDone).ctx, cstr "/r",
        dirPlatform.readlink (), true⟩ (pathStr [cstr "dst", cstr "f"]) pathLen).out
      (cstr "/r/src/f") := by
  have hsource : (translatePath ((bindSrc []).walkEnv dirPlatform true)
      (pathStr ([cstr "src"] ++ [cstr "f"])) pathLen).out = cstr "/r/src/f" := by
    decide +kernel
  rw [← hsource]
  exact ((bind_shows_iff (bindSrc_bind [] (.inl rfl)) bindUsrDone).1 bindSrc_when).1 _ _
    (bindSrc_way [] (.inl rfl))

/-- With a full table the call succeeds all the same, and the target shows what it did. -/
theorem full_table :
    BindMount dirPlatform (bindSrc fullTable) (pathStr [cstr "src"]) (pathStr [cstr "dst"])
      [cstr "src"] [cstr "dst"] (cstr "/r/src") ∧
    (afterCall dirPlatform (bindSrc fullTable) bindUsrDone).regs dirPlatform.arch.ret = 0 ∧
    ¬ShowsSource dirPlatform (bindSrc fullTable)
      (afterCall dirPlatform (bindSrc fullTable) bindUsrDone) [cstr "src"] [cstr "dst"] := by
  refine ⟨bindSrc_bind fullTable (.inr rfl), by decide +kernel, fun hshow => ?_⟩
  have := hshow _ _ (bindSrc_way fullTable (.inr rfl))
  unfold UpToSlash at this
  exact absurd this (by decide +kernel)

end Emuroot
