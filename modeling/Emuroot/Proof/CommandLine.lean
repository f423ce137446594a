import Emuroot.Model.Ptrace
import Emuroot.Proof.TableEntry
import Emuroot.Proof.TwoResults
import Emuroot.Proof.Umount

/-!
# A binding of the command line and a bind mount

`typed_mounted_iff`: a guest that is started with `-b H:G` and one that mounts `H` at `G` itself
translate every path alike where `G` is typed as it is resolved and is attached where the root maps
it (`typed_as_resolved`); where it is spelled otherwise they do not, but if `H` is what is there
anyway (`spelled_otherwise`). In general they do exactly when the two bindings show the same
(`ShowAlike`).
-/

namespace Emuroot

open Words Relation

variable {ctx ctx' : Ctx} {root : CStr} {rl : CStr → Option CStr} {o o' : Option Binding}
  {cs : List CStr}

/-! ## Two bindings in one place -/

/-- The context with a binding more, if there is one. -/
def Ctx.withBinding (ctx : Ctx) (o : Option Binding) : Ctx :=
  { ctx with bindings := ctx.bindings ++ o.toList }

/-- The path is mapped through the added binding. -/
def TakenBy (o : Option Binding) (ctx : Ctx) (root guest : CStr) : Prop :=
  ∃ nb ∈ o, Takes nb (ctx.withBinding o) root guest

/-- A path without links on the way to it. -/
def LinkFreeWay (ctx : Ctx) (root : CStr) (rl : CStr → Option CStr) (cs : List CStr) : Prop :=
  Straight (fun _ => False) ⟨ctx, root, rl, true⟩ cs

/-- Two bindings show the same in a name space: a path without links on the way that both take goes
to one place, and one that only one of them takes lies there anyway. -/
structure ShowAlike (o o' : Option Binding) (ctx : Ctx) (root : CStr) (rl : CStr → Option CStr) :
    Prop where
  both : ∀ cs, LinkFreeWay (ctx.withBinding o) root rl cs → TakenBy o ctx root (pathStr cs) →
    TakenBy o' ctx root (pathStr cs) →
    mapToHost (ctx.withBinding o) root (pathStr cs) pathLen =
      mapToHost (ctx.withBinding o') root (pathStr cs) pathLen
  first : ∀ cs, LinkFreeWay (ctx.withBinding o) root rl cs → TakenBy o ctx root (pathStr cs) →
    ¬TakenBy o' ctx root (pathStr cs) →
    mapToHost (ctx.withBinding o) root (pathStr cs) pathLen = mapToHost ctx root (pathStr cs) pathLen
  second : ∀ cs, LinkFreeWay (ctx.withBinding o) root rl cs → ¬TakenBy o ctx root (pathStr cs) →
    TakenBy o' ctx root (pathStr cs) →
    mapToHost (ctx.withBinding o') root (pathStr cs) pathLen = mapToHost ctx root (pathStr cs) pathLen
  mapped : unmapped ctx root = true → (o = none ↔ o' = none)

@[simp] theorem Ctx.withBinding_none (ctx : Ctx) : ctx.withBinding none = ctx := by
  simp [Ctx.withBinding]

theorem withBinding_extends (nb : Binding) (ctx : Ctx) :
    Extends nb ctx (ctx.withBinding (some nb)) :=
  ⟨ctx.bindings, [], (List.append_nil _).symm, rfl⟩

theorem not_takenBy_none {guest : CStr} : ¬TakenBy none ctx root guest := by
  rintro ⟨nb, hnb, -⟩
  cases hnb

theorem withBinding_img {guest : CStr} (h : ¬TakenBy o ctx root guest) :
    mapToHost (ctx.withBinding o) root guest pathLen = mapToHost ctx root guest pathLen := by
  cases o with
  | none => rw [Ctx.withBinding_none]
  | some nb => exact mapToHost_extends (withBinding_extends nb ctx) fun ht => h ⟨nb, rfl, ht⟩

/-- The added binding takes what it matches and no other does with a longer name. -/
theorem withBinding_best {nb : Binding} {guest : CStr} (hm : guestMatches guest nb = true)
    (hle : ∀ c ∈ ctx.bindings, guestMatches guest c = true → c.guest.length ≤ nb.guest.length) :
    bestBinding (ctx.withBinding (some nb)) guest = some nb := by
  have hrev : (ctx.withBinding (some nb)).bindings.reverse = nb :: ctx.bindings.reverse := by
    simp [Ctx.withBinding]
  rw [bestBinding, hrev]
  exact Pick.pick_cons_self hm fun c hc => hle c (List.mem_reverse.1 hc)

theorem length_le_of_guestMatches {guest : CStr} {c : Binding} (h : guestMatches guest c = true)
    (hne : guest ≠ []) : c.guest.length ≤ guest.length := by
  obtain hr | hs := guestMatches_iff.1 h
  · rw [hr]
    exact List.length_pos_iff.2 hne
  · exact hs.isPrefix.length_le

/-- Its own name is mapped to its host directory. -/
theorem withBinding_own {nb : Binding} (habs : nb.guest.head? = some slash)
    (hlen : nb.host.length < pathLen) :
    UpToSlash (mapToHost (ctx.withBinding (some nb)) root nb.guest pathLen) nb.host := by
  have hne : nb.guest ≠ [] := by
    intro h
    simp [h] at habs
  have hbest : bestBinding (ctx.withBinding (some nb)) nb.guest = some nb :=
    withBinding_best (guestMatches_iff.2 (.inr (.refl _))) fun c _ hc => length_le_of_guestMatches hc hne
  have hhost : UpToSlash (orSlash (snprintf pathLen (unlessRoot nb.host))) nb.host := by
    by_cases hr : nb.host = [slash]
    · rw [hr]
      exact rfl
    · rw [unlessRoot, if_neg hr, snprintf_of_lt hlen, orSlash]
      split
      · rename_i h0
        rw [h0]
        exact rfl
      · exact rfl
  rw [mapToHost_best hbest, Binding.rest]
  by_cases hr : nb.guest = [slash]
  · rw [if_pos hr, List.drop_zero, hr]
    exact (upToSlash_orSlash_snprintf _).trans hhost
  · rw [if_neg hr, List.drop_length, List.append_nil]
    exact hhost

theorem unmapped_withBinding (o : Option Binding) (ctx : Ctx) (root : CStr) :
    unmapped (ctx.withBinding o) root = (unmapped ctx root && o.isNone) := by
  unfold unmapped Ctx.withBinding
  cases o <;> cases ctx.bindings <;> simp

theorem ShowAlike.img_eq (h : ShowAlike o o' ctx root rl)
    (hc : LinkFreeWay (ctx.withBinding o) root rl cs) :
    mapToHost (ctx.withBinding o') root (pathStr cs) pathLen =
      mapToHost (ctx.withBinding o) root (pathStr cs) pathLen := by
  by_cases ht : TakenBy o ctx root (pathStr cs) <;> by_cases ht' : TakenBy o' ctx root (pathStr cs)
  · exact (h.both cs hc ht ht').symm
  · rw [h.first cs hc ht ht', withBinding_img ht']
  · rw [h.second cs hc ht ht', withBinding_img ht]
  · rw [withBinding_img ht, withBinding_img ht']

/-- All guest paths are translated alike. -/
def SameNames (ctx ctx' : Ctx) (root : CStr) (rl : CStr → Option CStr) : Prop :=
  ∀ guest follow, (translatePath ⟨ctx', root, rl, follow⟩ guest pathLen).out =
    (translatePath ⟨ctx, root, rl, follow⟩ guest pathLen).out

theorem sameNames_iff_alikeAway :
    SameNames ctx ctx' root rl ↔ AlikeAway (fun _ => False) ctx ctx' root rl := by
  constructor
  · exact fun h guest follow _ _ => h guest follow
  · intro h guest follow
    by_cases habs : guest.head? = some slash
    · exact h guest follow habs fun _ _ => id
    · -- a path that is not absolute is left as it is
      rw [translatePath, translatePath, translatePathEx, translatePathEx, if_pos (.inl habs),
        if_pos (.inl habs)]

theorem sameNames_of_unmapped (h : unmapped ctx root = true) (h' : unmapped ctx' root = true) :
    SameNames ctx ctx' root rl := by
  intro guest follow
  rw [translatePath, translatePath, translatePathEx, translatePathEx, if_pos (.inr h'),
    if_pos (.inr h)]

/-- The names are translated by the bindings alone. -/
theorem sameNames_of_bindings (h : ctx'.bindings = ctx.bindings) : SameNames ctx ctx' root rl := by
  have hmap : unmapped ctx' root = unmapped ctx root := by rw [unmapped, unmapped, h]
  cases hu : unmapped ctx root with
  | true => exact sameNames_of_unmapped hu (hmap.trans hu)
  | false =>
    refine sameNames_iff_alikeAway.2 ((alikeAway_iff hu (hmap.trans hu)).2 fun cs _ => ?_)
    simp only [mapToHost, bestBinding, mountedBinding, h]

/-- **Two name spaces with one binding each more** translate alike exactly when the bindings show
the same. -/
theorem sameNames_iff_showAlike :
    SameNames (ctx.withBinding o) (ctx.withBinding o') root rl ↔ ShowAlike o o' ctx root rl := by
  have hmap := unmapped_withBinding o ctx root
  have hmap' := unmapped_withBinding o' ctx root
  have hunlike : unmapped (ctx.withBinding o) root ≠ unmapped (ctx.withBinding o') root →
      ¬SameNames (ctx.withBinding o) (ctx.withBinding o') root rl := fun hne h =>
    hne ((sameNames_iff_alikeAway.1 h).unmapped_eq id).symm
  cases hu : unmapped (ctx.withBinding o) root with
  | false =>
    cases hu' : unmapped (ctx.withBinding o') root with
    | false =>
      rw [sameNames_iff_alikeAway, alikeAway_iff hu hu']
      refine ⟨fun h => ⟨fun cs hc _ _ => (h cs hc).symm, fun cs hc _ ht' => ?_,
        fun cs hc ht _ => ?_, fun hm => ?_⟩, fun h cs hc => h.img_eq hc⟩
      · rw [← h cs hc, withBinding_img ht']
      · rw [h cs hc, withBinding_img ht]
      · rw [hm, Bool.true_and] at hmap hmap'
        refine iff_of_false (fun h0 => ?_) fun h0 => ?_
        · rw [hu, h0] at hmap
          cases hmap
        · rw [hu', h0] at hmap'
          cases hmap'
    | true =>
      refine iff_of_false (hunlike (by simp [hu, hu'])) fun h => ?_
      rw [hu', eq_comm, Bool.and_eq_true, Option.isNone_iff_eq_none] at hmap'
      rw [hu, hmap'.1, (h.mapped hmap'.1).2 hmap'.2] at hmap
      cases hmap
  | true =>
    rw [hu, eq_comm, Bool.and_eq_true, Option.isNone_iff_eq_none] at hmap
    cases hu' : unmapped (ctx.withBinding o') root with
    | false =>
      refine iff_of_false (hunlike (by simp [hu, hu'])) fun h => ?_
      rw [hu', hmap.1, (h.mapped hmap.1).1 hmap.2] at hmap'
      cases hmap'
    | true =>
      rw [hu', eq_comm, Bool.and_eq_true, Option.isNone_iff_eq_none] at hmap'
      have hnone : o = none ∧ o' = none := ⟨hmap.2, hmap'.2⟩
      obtain ⟨rfl, rfl⟩ := hnone
      exact iff_of_true (sameNames_of_unmapped hu hu') ⟨fun cs _ ht => absurd ht not_takenBy_none,
        fun cs _ ht => absurd ht not_takenBy_none, fun cs _ _ ht => absurd ht not_takenBy_none,
        fun _ => Iff.rfl⟩

/-- Two bindings of one name and one host directory show the same where neither mount point is met
by a path that the name does not take. -/
theorem withBinding_alike {nb nb' : Binding} {guest : CStr} (hg : nb'.guest = nb.guest)
    (hh : nb'.host = nb.host)
    (hclear : ∀ b ∈ [nb, nb'], guestMatches guest b = false →
      ¬Stem slash b.mount (snprintf pathLen (root ++ guest))) :
    mapToHost (ctx.withBinding (some nb')) root guest pathLen =
      mapToHost (ctx.withBinding (some nb)) root guest pathLen := by
  have hm : guestMatches guest nb' = guestMatches guest nb := by rw [guestMatches, guestMatches, hg]
  by_cases hbest : guestMatches guest nb = true ∧ ∀ c ∈ ctx.bindings, guestMatches guest c = true →
      c.guest.length ≤ nb.guest.length
  · obtain ⟨hown, hle⟩ := hbest
    rw [mapToHost_best (withBinding_best (hm.trans hown) (hg ▸ hle)),
      mapToHost_best (withBinding_best hown hle), Binding.rest, Binding.rest, hg, hh]
  · -- neither is taken
    have hnot : ∀ b ∈ [nb, nb'], b.guest = nb.guest → ¬TakenBy (some b) ctx root guest := by
      rintro b hb hbg ⟨b', hb', htaken⟩
      obtain rfl := Option.some.inj hb'
      have hbm : guestMatches guest b = guestMatches guest nb := by
        rw [guestMatches, guestMatches, hbg]
      have hmem : b ∈ (ctx.withBinding (some b)).bindings := by simp [Ctx.withBinding]
      obtain hpick | ⟨hnone, hmount⟩ := htaken
      · refine hbest ⟨hbm ▸ (bestBinding_mem hpick).2, fun c hc hcm => ?_⟩
        have hcmem : c ∈ (ctx.withBinding (some b)).bindings := List.mem_append_left _ hc
        have hle : c.guest.length ≤ b.guest.length :=
          Pick.le_of_pick (f := fun b : Binding => b.guest.length) hpick (List.mem_reverse.2 hcmem) hcm
        exact hbg ▸ hle
      · have hunmatched := Pick.pick_eq_none.1 hnone b (List.mem_reverse.2 hmem)
        exact hclear b hb hunmatched (mounted_stem hmount).2
    rw [withBinding_img (hnot nb' (by simp) hg), withBinding_img (hnot nb (by simp) rfl)]

/-! ## The command line -/

variable {w : Nat} {σ : Type}

section
variable (P : Platform w σ)

/-- A mount call with `MS_BIND` that neither remounts nor moves. -/
structure BindCall (s : St w σ) : Prop extends MountCall P s .mount where
  bind : flag (s.arg P 4) MS_BIND = true
  plain : flag (s.arg P 4) (MS_REMOUNT ||| MS_MOVE) = false

/-- The binding that an option `-b` adds to the context that the guest starts with. -/
def typedBinding (fs : σ) (base : Ctx) (optarg : CStr) : Option Binding :=
  let host := optarg.takeWhile (· != colon)
  let guest := optarg.drop (host.length + 1)
  if (emurootBind base host guest).isSome then
    some ⟨(P.realpath fs host).getD host, guest,
      snprintf pathLen ((canonicalCtx P fs base).root ++ unlessRoot guest)⟩
  else none

/-- A directory `H` of the host is bound at `G` on the command line of one guest (`typed`), and
mounted there by the first process of another. -/
structure TypedAndMounted (base : Ctx) (H G : CStr) (typed : Ctx) (s : St w σ) : Prop where
  option : optionBind base (H ++ colon :: G) = some typed
  call : BindCall P s
  bindings : s.ctx.bindings = (canonicalCtx P s.fs base).bindings
  sessionRoot : s.ctx.root = (canonicalCtx P s.fs base).root
  firstRoot : s.t.root = s.ctx.root
  source : (mountSource P s (s.sysno P)).map (canonical P s) = some H
  canonicalHost : P.realpath s.fs H = some H
  target : givenPath P s 2 = some G
  directory : ∃ target ∈ targetPath P s .mount,
    guestDirExists P s (targetIn P s s.ctx target).out = true

end

variable {P : Platform w σ} {base typed : Ctx} {H G : CStr} {s : St w σ} {fs : σ}

theorem canonicalCtx_option {optarg : CStr} (h : optionBind base optarg = some typed) :
    (canonicalCtx P fs typed).bindings =
      (canonicalCtx P fs base).bindings ++ (typedBinding P fs base optarg).toList := by
  unfold optionBind at h
  split at h
  · cases h
  obtain rfl := Option.some.inj h
  unfold typedBinding
  dsimp only
  unfold emurootBind
  split
  · simp
  · simp [canonicalCtx]

theorem TypedAndMounted.typed_bindings (h : TypedAndMounted P base H G typed s) :
    (canonicalCtx P s.fs typed).bindings =
      (s.ctx.withBinding (typedBinding P s.fs base (H ++ colon :: G))).bindings := by
  rw [canonicalCtx_option h.option, Ctx.withBinding, h.bindings]

theorem TypedAndMounted.mounted_ctx (h : TypedAndMounted P base H G typed s)
    (kern : Kernel w σ) : (afterCall P s kern).ctx = s.ctx.withBinding (addedBinding P s) := by
  rw [h.call.ctx_eq, changedCtx_mount]
  rfl

theorem TypedAndMounted.sameNames_iff (h : TypedAndMounted P base H G typed s) (kern : Kernel w σ)
    (root : CStr) (rl : CStr → Option CStr) :
    SameNames (canonicalCtx P s.fs typed) (afterCall P s kern).ctx root rl ↔
      SameNames (s.ctx.withBinding (typedBinding P s.fs base (H ++ colon :: G)))
        (s.ctx.withBinding (addedBinding P s)) root rl := by
  have htyped : SameNames (canonicalCtx P s.fs typed)
      (s.ctx.withBinding (typedBinding P s.fs base (H ++ colon :: G))) root rl :=
    sameNames_of_bindings h.typed_bindings.symm
  rw [h.mounted_ctx]
  exact forall₂_congr fun guest follow => by rw [htyped guest follow]

/-! ## What `G` is spelled like -/

theorem typedBinding_eq (hH : colon ∉ H) :
    typedBinding P fs base (H ++ colon :: G) =
      if (emurootBind base H G).isSome then
        some ⟨(P.realpath fs H).getD H, G,
          snprintf pathLen ((canonicalCtx P fs base).root ++ unlessRoot G)⟩
      else none := by
  have hhost : (H ++ colon :: G).takeWhile (· != colon) = H := by
    rw [List.takeWhile_append_of_pos fun a ha => by simpa using fun he : a = colon => hH (he ▸ ha)]
    simp
  have hguest : (H ++ colon :: G).drop (H.length + 1) = G := by simp
  unfold typedBinding
  rw [hhost]
  dsimp only
  rw [hguest]

theorem TypedAndMounted.added (h : TypedAndMounted P base H G typed s) {target : CStr}
    (ht : targetPath P s .mount = some target) :
    addedBinding P s =
      if (emurootBind base H (targetIn P s s.ctx target).guestOut).isSome then
        some ⟨H, (targetIn P s s.ctx target).guestOut, snprintf pathLen (targetIn P s s.ctx target).out⟩
      else none := by
  obtain ⟨host, hhost, hcanon⟩ := Option.map_eq_some_iff.1 h.source
  have hroom : (emurootBind s.ctx H (targetIn P s s.ctx target).guestOut).isSome =
      (emurootBind base H (targetIn P s s.ctx target).guestOut).isSome := by
    unfold emurootBind
    rw [h.bindings, canonicalCtx, List.length_map]
    split <;> rfl
  unfold addedBinding
  rw [ht, hhost]
  dsimp only [Option.bind_some]
  rw [hcanon, hroom]

/-- **A mount point typed as it is resolved**, and attached where the root maps it: every process of
both guests has the same names. -/
theorem typed_as_resolved (h : TypedAndMounted P base H G typed s) (kern : Kernel w σ) {target : CStr}
    (ht : targetPath P s .mount = some target) (hH : colon ∉ H)
    (hguest : (targetIn P s s.ctx target).guestOut = G)
    (hout : (targetIn P s s.ctx target).out = s.ctx.root ++ unlessRoot G) (root : CStr)
    (rl : CStr → Option CStr) (guest : CStr) (follow : Bool) :
    (translatePath ⟨(afterCall P s kern).ctx, root, rl, follow⟩ guest pathLen).out =
      (translatePath ⟨canonicalCtx P s.fs typed, root, rl, follow⟩ guest pathLen).out := by
  have hsame : addedBinding P s = typedBinding P s.fs base (H ++ colon :: G) := by
    rw [h.added ht, typedBinding_eq hH, hguest, hout, h.sessionRoot, h.canonicalHost]
    rfl
  refine sameNames_of_bindings ?_ guest follow
  rw [h.mounted_ctx, h.typed_bindings, hsame]

/-- A stem of a resolved path is spelled as it is resolved. -/
theorem resolved_of_stem {E : WalkEnv} {target : CStr} {pt : Point} {why : Why}
    (hs : StopsAt E target why pt) (hf : E.followLast = true) (hmap : unmapped E.ctx E.root = false)
    (hne : target ≠ []) (hst : target = [slash] ∨ Stem slash target (pathStr pt.cs)) :
    pathStr pt.cs = target := by
  have htrod : Trodden E target pt.cs := LooksAt.trodden (.inr ⟨why, pt, hs, rfl⟩)
  have habs : target.head? = some slash := by
    obtain rfl | hst := hst
    · rfl
    · exact (hst.head?_eq hne).trans (head?_pathStr _)
  -- the walk over it ends where it says
  have hend : ∀ {cs why' pt'}, StopsAt E target why' pt' → pt'.cs = cs → pathStr pt.cs = pathStr cs := by
    rintro cs why' pt' hs' rfl
    have hout := (translate_stopsAt hs habs hmap pathLen).2
    have hout' := (translate_stopsAt hs' habs hmap pathLen).2
    rw [snprintf_of_lt hs.good.fits] at hout
    rw [snprintf_of_lt hs'.good.fits] at hout'
    rw [← hout, hout']
  obtain rfl | hst := hst
  · exact hend (stopsAt_root E) rfl
  by_cases h0 : pt.cs = []
  · rw [h0, pathStr_nil] at hst
    obtain hroot | hroot := Stem.of_singleton hst
    · exact absurd hroot hne
    · rw [h0, hroot, pathStr_nil]
  rw [pathStr_of_ne h0] at hst
  obtain ⟨j, hj, rfl⟩ := stem_glue htrod.readable.words hst
  have hj0 : pt.cs.take j ≠ [] := fun h => hne (by rw [h, glue_nil])
  obtain hlt | rfl := Nat.lt_or_eq_of_le hj
  · have hpass : ∀ i, 1 ≤ i → i ≤ (pt.cs.take j).length → Passes E ((pt.cs.take j).take i) := by
      intro i hi hij
      rw [List.length_take] at hij
      rw [List.take_take, Nat.min_eq_left (by omega)]
      exact htrod.passes i hi (by omega)
    rw [← pathStr_of_ne hj0] at hend ⊢
    exact hend (stopsAt_passed (htrod.readable.take j) hf hj0 hpass) rfl
  · rw [List.take_length, pathStr_of_ne h0]

theorem TypedAndMounted.given_ne_nil (h : TypedAndMounted P base H G typed s) : G ≠ [] := by
  have ht := h.target
  unfold givenPath at ht
  split at ht
  · cases ht
  · simpa using (Option.filter_eq_some_iff.1 ht).2

/-- An absolute path is walked over as it is typed. -/
theorem TypedAndMounted.target_eq (h : TypedAndMounted P base H G typed s) {target : CStr}
    (ht : targetPath P s .mount = some target) (habs : G.head? = some slash)
    (hlen : G.length < 2 * pathLen) : target = G := by
  have hgiven : givenPath P s (targetSlot .mount) = some G := h.target
  rw [targetPath, hgiven, Option.bind_some, absoluteGuestPath, if_pos habs] at ht
  rw [← Option.some.inj ht, snprintf_of_lt hlen]

/-- What the typed binding takes it matches. -/
theorem TypedAndMounted.matches (h : TypedAndMounted P base H G typed s) (hH : colon ∉ H)
    (hfit : (s.t.root ++ G).length < pathLen) {guest : CStr}
    (hlen : (s.t.root ++ guest).length < pathLen)
    (ht : TakenBy (typedBinding P s.fs base (H ++ colon :: G)) s.ctx s.t.root guest) :
    G = [slash] ∨ Stem slash G guest := by
  obtain ⟨nb, hnb, ht⟩ := ht
  rw [typedBinding_eq hH] at hnb
  split at hnb
  · obtain rfl := Option.some.inj hnb
    obtain hb | ⟨-, hm⟩ := ht
    · exact guestMatches_iff.1 (bestBinding_mem hb).2
    · by_cases hr : G = [slash]
      · exact .inl hr
      have hst := (mounted_stem hm).2
      rw [← h.sessionRoot, ← h.firstRoot, unlessRoot, if_neg hr, snprintf_of_lt hfit,
        snprintf_of_lt hlen] at hst
      obtain ⟨v, hv, hst⟩ := hst.of_append (by simp)
      rw [List.append_cancel_left hv]
      exact .inr hst
  · cases hnb

/-- A mount point typed otherwise than it is resolved is not taken on the way to where it is. -/
theorem TypedAndMounted.not_taken (h : TypedAndMounted P base H G typed s) {target : CStr}
    (ht : targetPath P s .mount = some target) (hmap : unmapped s.ctx s.t.root = false)
    (hH : colon ∉ H) (hfit : (s.t.root ++ G).length < pathLen) {why : Why} {pt : Point}
    (hs : StopsAt (s.walkEnv P true) target why pt)
    (hfit' : (s.t.root ++ pathStr pt.cs).length < pathLen) (hspelt : pathStr pt.cs ≠ G) (k : Nat) :
    ¬TakenBy (typedBinding P s.fs base (H ++ colon :: G)) s.ctx s.t.root
      (pathStr (pt.cs.take k)) := by
  intro htaken
  have hlen : (s.t.root ++ pathStr (pt.cs.take k)).length < pathLen := by
    have := length_pathStr_take_le pt.cs k
    rw [List.length_append] at hfit' ⊢
    omega
  have hm := h.matches hH hfit hlen htaken
  have hGabs : G.head? = some slash := by
    obtain rfl | hst := hm
    · rfl
    · exact (hst.head?_eq h.given_ne_nil).trans (head?_pathStr _)
  obtain rfl := h.target_eq ht hGabs (by rw [List.length_append] at hfit; omega)
  refine hspelt (resolved_of_stem hs rfl hmap h.given_ne_nil ?_)
  obtain hr | hst := hm
  · exact .inl hr
  by_cases h0 : pt.cs.take k = []
  · rw [h0, pathStr_nil] at hst
    obtain hroot | hroot := Stem.of_singleton hst
    · exact absurd hroot h.given_ne_nil
    · exact .inl hroot
  · rw [pathStr_of_ne h0] at hst
    rw [pathStr_of_ne fun h' => h0 (by rw [h', List.take_nil])]
    exact .inr (hst.trans (stem_glue_take pt.cs k))

/-- **A mount point typed otherwise than it is resolved** is found by the first process only where
`H` is what is there anyway. -/
theorem spelled_otherwise (h : TypedAndMounted P base H G typed s) (kern : Kernel w σ) {target : CStr}
    (ht : targetPath P s .mount = some target) (habs : target.head? = some slash)
    (hmap : unmapped s.ctx s.t.root = false) (hH : colon ∉ H) (hroom : (addedBinding P s).isSome)
    (hfit : (s.t.root ++ G).length < pathLen)
    (hfit' : (s.t.root ++ (targetIn P s s.ctx target).guestOut).length < pathLen)
    (hspelt : (targetIn P s s.ctx target).guestOut ≠ G)
    (hsame : ∀ guest follow,
      (translatePath ⟨(afterCall P s kern).ctx, s.t.root, P.readlink s.fs, follow⟩ guest pathLen).out =
        (translatePath ⟨canonicalCtx P s.fs typed, s.t.root, P.readlink s.fs, follow⟩ guest
          pathLen).out) :
    UpToSlash (mapToHost s.ctx s.t.root (targetIn P s s.ctx target).guestOut pathLen) H := by
  obtain ⟨why, pt, hs⟩ := stopsAt_exists (s.walkEnv P true) target
  have hout : (targetIn P s s.ctx target).guestOut = pathStr pt.cs := by
    rw [← snprintf_of_lt hs.good.fits]
    exact (translate_stopsAt hs habs hmap pathLen).2
  rw [hout] at hfit' hspelt ⊢
  have htrod : Trodden (s.walkEnv P true) target pt.cs := LooksAt.trodden (.inr ⟨why, pt, hs, rfl⟩)
  have himg : ∀ k, mapToHost (s.ctx.withBinding (typedBinding P s.fs base (H ++ colon :: G))) s.t.root
      (pathStr (pt.cs.take k)) pathLen = mapToHost s.ctx s.t.root (pathStr (pt.cs.take k)) pathLen :=
    fun k => withBinding_img (h.not_taken ht hmap hH hfit hs hfit' hspelt k)
  have hway : LinkFreeWay (s.ctx.withBinding (typedBinding P s.fs base (H ++ colon :: G))) s.t.root
      (P.readlink s.fs) pt.cs := by
    refine ⟨htrod.readable, fun k hk hkl => ?_, fun _ _ _ => id, id⟩
    have hp := htrod.passes k hk hkl
    rw [Passes, WalkEnv.img] at hp ⊢
    rwa [himg k]
  -- so the mounted one must leave that place where it is
  have hu : ∀ o, unmapped (s.ctx.withBinding o) s.t.root = false := fun o => by
    rw [unmapped_withBinding, hmap, Bool.false_and]
  have hnames := sameNames_iff_alikeAway.1 ((h.sameNames_iff kern _ _).1 hsame)
  have hkept := himg pt.cs.length
  rw [List.take_length, ← (alikeAway_iff (hu _) (hu _)).1 hnames pt.cs hway] at hkept
  obtain ⟨nb, hnb⟩ := Option.isSome_iff_exists.1 hroom
  have hadded := h.added ht
  rw [hnb] at hadded
  split at hadded
  · rename_i hbound
    obtain rfl := Option.some.inj hadded
    rw [← hkept, hnb, ← hout]
    refine withBinding_own (by rw [hout]; exact head?_pathStr _) ?_
    unfold emurootBind at hbound
    split at hbound
    · cases hbound
    · rename_i hbad
      dsimp only
      omega
  · cases hadded

/-- The place of the mount point: where the root maps its name, or apart from all that the root
maps. -/
def PlacedPlainly (root out guest : CStr) : Prop :=
  out = root ++ unlessRoot guest ∨ ¬out <+: root ∧ ¬root <+: out

/-- A path below the root that lies at a mount point of the root has its name. -/
theorem stem_of_mounted {G guest : CStr} (hfit : (root ++ G).length + 1 < pathLen)
    (h : Stem slash (root ++ G) (snprintf pathLen (root ++ guest))) : Stem slash G guest := by
  obtain ⟨r, hr, hslash⟩ := h
  have hcut := List.take_append_drop (pathLen - 1) (root ++ guest)
  rw [snprintf] at hr
  have hguest : guest = G ++ (r ++ (root ++ guest).drop (pathLen - 1)) := by
    have hroot : root ++ guest = root ++ (G ++ (r ++ (root ++ guest).drop (pathLen - 1))) := by
      rw [← List.append_assoc, ← List.append_assoc, ← hr, hcut]
    exact List.append_cancel_left hroot
  refine ⟨_, hguest, fun a ha => ?_⟩
  cases r with
  | cons b r => exact hslash a ha
  | nil =>
    -- the name ends before the buffer does
    have hlen := congrArg List.length hr
    rw [List.append_nil, List.length_take] at hlen
    rw [List.nil_append, List.drop_eq_nil_of_le (by omega)] at ha
    cases ha

theorem translatePathEx_out (E : WalkEnv) (guest : CStr) (n m : Nat) :
    (translatePathEx E guest n m).out = (translatePath E guest n).out := by
  unfold translatePath translatePathEx
  split <;> rfl

/-- **A mount point typed as it is resolved** is found by the first process. -/
theorem typed_found (h : TypedAndMounted P base H G typed s) (kern : Kernel w σ) {target : CStr}
    (ht : targetPath P s .mount = some target) (hmap : unmapped s.ctx s.t.root = false)
    (hH : colon ∉ H) (hroom : (addedBinding P s).isSome) (hfit : (s.t.root ++ G).length + 1 < pathLen)
    (hplain : PlacedPlainly s.t.root (targetIn P s s.ctx target).out
      (targetIn P s s.ctx target).guestOut)
    (hspelt : (targetIn P s s.ctx target).guestOut = G) (guest : CStr) (follow : Bool) :
    (translatePath ⟨(afterCall P s kern).ctx, s.t.root, P.readlink s.fs, follow⟩ guest pathLen).out =
      (translatePath ⟨canonicalCtx P s.fs typed, s.t.root, P.readlink s.fs, follow⟩ guest
        pathLen).out := by
  rcases hplain with hout | ⟨habove, hbelow⟩
  · rw [hspelt, h.firstRoot] at hout
    exact typed_as_resolved h kern ht hH hspelt hout _ _ guest follow
  refine (h.sameNames_iff kern _ _).2 ?_ guest follow
  have hadded := h.added ht
  rw [hadded] at hroom ⊢
  rw [hspelt] at hroom ⊢
  rw [typedBinding_eq hH]
  by_cases hbound : (emurootBind base H G).isSome
  swap
  · rw [if_neg hbound] at hroom
    cases hroom
  rw [if_pos hbound, if_pos hbound]
  have hu : ∀ o, unmapped (s.ctx.withBinding o) s.t.root = false := fun o => by
    rw [unmapped_withBinding, hmap, Bool.false_and]
  refine sameNames_iff_alikeAway.2 ((alikeAway_iff (hu _) (hu _)).2 fun cs _ => ?_)
  refine withBinding_alike rfl (by rw [h.canonicalHost]; rfl) fun b hb hunmatched hst => ?_
  have hroot : G ≠ [slash] := by
    rintro rfl
    rcases List.mem_cons.1 hb with rfl | hb
    · cases hunmatched
    · rw [List.mem_singleton.1 hb] at hunmatched
      cases hunmatched
  rcases List.mem_cons.1 hb with rfl | hb
  · -- the typed mount point is the root's own place for the name
    dsimp only at hst
    rw [← h.sessionRoot, ← h.firstRoot, unlessRoot, if_neg hroot,
      snprintf_of_lt (Nat.lt_of_succ_lt hfit)] at hst
    rw [← Bool.not_eq_true, guestMatches_iff] at hunmatched
    exact hunmatched (.inr (stem_of_mounted hfit hst))
  · -- the other one is apart from the root
    obtain rfl := List.mem_singleton.1 hb
    have hout : snprintf pathLen (targetIn P s s.ctx target).out = (targetIn P s s.ctx target).out := by
      refine snprintf_of_lt ?_
      rw [targetIn, translatePathEx_out]
      exact length_translate_lt _ _
    dsimp only at hst
    rw [hout] at hst
    have hpre : (targetIn P s s.ctx target).out <+: s.t.root ++ pathStr cs :=
      hst.isPrefix.trans (List.take_prefix _ _)
    rcases List.prefix_or_prefix_of_prefix hpre (List.prefix_append _ _) with h' | h'
    · exact habove h'
    · exact hbelow h'

/-- **A binding of the command line and the same mount.** Typed as it is resolved, and attached where
the root maps it, `G` gives every process of both guests the same names. The first process finds it
so, attached plainly, exactly if it is typed as it is resolved, unless `H` is what is at `G` anyway.
In general, and for every process, the names are the same exactly when the two bindings show the
same. -/
theorem typed_mounted_iff (h : TypedAndMounted P base H G typed s) (kern : Kernel w σ) :
    (∀ target, targetPath P s .mount = some target → colon ∉ H →
      let r := targetIn P s s.ctx target
      (r.guestOut = G → r.out = s.ctx.root ++ unlessRoot G → ∀ root rl guest follow,
        (translatePath ⟨(afterCall P s kern).ctx, root, rl, follow⟩ guest pathLen).out =
          (translatePath ⟨canonicalCtx P s.fs typed, root, rl, follow⟩ guest pathLen).out) ∧
      (target.head? = some slash → unmapped s.ctx s.t.root = false → (addedBinding P s).isSome →
        (s.t.root ++ G).length + 1 < pathLen → (s.t.root ++ r.guestOut).length < pathLen →
        PlacedPlainly s.t.root r.out r.guestOut →
        ¬UpToSlash (mapToHost s.ctx s.t.root r.guestOut pathLen) H →
        ((∀ guest follow, (translatePath ⟨(afterCall P s kern).ctx, s.t.root, P.readlink s.fs, follow⟩
            guest pathLen).out =
          (translatePath ⟨canonicalCtx P s.fs typed, s.t.root, P.readlink s.fs, follow⟩ guest
            pathLen).out) ↔ r.guestOut = G))) ∧
    ∀ root rl, ((∀ guest follow,
      (translatePath ⟨(afterCall P s kern).ctx, root, rl, follow⟩ guest pathLen).out =
        (translatePath ⟨canonicalCtx P s.fs typed, root, rl, follow⟩ guest pathLen).out) ↔
      ShowAlike (typedBinding P s.fs base (H ++ colon :: G)) (addedBinding P s) s.ctx root rl) := by
  refine ⟨fun target ht hH => ⟨fun hguest hout root rl =>
      typed_as_resolved h kern ht hH hguest hout root rl,
    fun habs hmap hroom hfit hfit' hplain hother => ⟨fun hsame => ?_, fun hspelt =>
      typed_found h kern ht hmap hH hroom hfit hplain hspelt⟩⟩,
    fun root rl => (h.sameNames_iff kern root rl).trans sameNames_iff_showAlike⟩
  by_contra hspelt
  exact hother (spelled_otherwise h kern ht habs hmap hH hroom (Nat.lt_of_succ_lt hfit) hfit' hspelt
    hsame)

/-! ## A trailing slash -/

/-- A host of directories. -/
def dirPlatform : Platform 64 Unit :=
  { linuxPlatform with
    stat := fun _ _ => some ⟨1, 2, 0, 0, S_IFDIR⟩
    realpath := fun _ p => some (p.rdropWhile (· == slash)) }

/-- `mount("/h", target, NULL, MS_BIND, NULL)` in a root at `/r`. -/
def bindAtTarget (target : CStr) : St 64 Unit :=
  linuxCall rootJailCtx (cstr "/r") 165 [4096, 8192, 0, 4096] [(4096, cstr "/h"), (8192, target)]

/-- `-b /r/h:guest` -/
def typedCtx (guest : CStr) : Ctx := { rootJailCtx with bindings := [⟨cstr "/r/h", guest, []⟩] }

theorem optionBind_typed {guest : CStr} (hlen : guest.length < pathLen) :
    optionBind rootJailCtx (cstr "/r/h" ++ colon :: guest) = some (typedCtx guest) := by
  have hhost : (cstr "/r/h" ++ colon :: guest).takeWhile (· != colon) = cstr "/r/h" := by
    rw [List.takeWhile_append_of_pos (by decide +kernel)]
    simp
  have hguest : (cstr "/r/h" ++ colon :: guest).drop ((cstr "/r/h").length + 1) = guest := by
    rw [← List.drop_drop, List.drop_left]
    rfl
  have hbind : emurootBind rootJailCtx (cstr "/r/h") guest = some (typedCtx guest) := by
    refine if_neg ?_
    rintro (h | h | h)
    · exact absurd h (by decide)
    · exact absurd h (by decide +kernel)
    · omega
  rw [optionBind, if_neg (by simp), hhost]
  dsimp only
  rw [hguest, hbind]
  rfl

theorem typed_mnt :
    TypedAndMounted dirPlatform rootJailCtx (cstr "/r/h") (cstr "/mnt") (typedCtx (cstr "/mnt"))
      (bindAtTarget (cstr "/mnt")) where
  option := optionBind_typed (by decide)
  call := ⟨⟨by decide, by decide +kernel, .inl rfl, by decide⟩, by decide, by decide⟩
  bindings := by decide +kernel
  sessionRoot := by decide +kernel
  firstRoot := rfl
  source := by decide +kernel
  canonicalHost := by decide +kernel
  target := by decide +kernel
  directory := ⟨cstr "/mnt", by decide +kernel, by decide +kernel⟩

/-- `/mnt` is typed as it is resolved, and what is there in the rootfs is not `/r/h`. -/
theorem typed_mounted_mnt :
    (∀ guest follow, (translatePath ⟨(afterCall dirPlatform (bindAtTarget (cstr "/mnt")) bindUsrDone).ctx,
        cstr "/r", dirPlatform.readlink (), follow⟩ guest pathLen).out =
      (translatePath ⟨canonicalCtx dirPlatform () (typedCtx (cstr "/mnt")), cstr "/r",
        dirPlatform.readlink (), follow⟩ guest pathLen).out) ∧
    (translatePath ⟨canonicalCtx dirPlatform () (typedCtx (cstr "/mnt")), cstr "/r",
        dirPlatform.readlink (), true⟩ (cstr "/mnt/x") pathLen).out = cstr "/r/h/x" := by
  have ht : targetPath dirPlatform (bindAtTarget (cstr "/mnt")) .mount = some (cstr "/mnt") := by
    decide +kernel
  have hfirst := ((typed_mounted_iff typed_mnt bindUsrDone).1 _ ht (by decide +kernel)).2 rfl
    (by decide +kernel) (by decide +kernel) (by decide +kernel) (by decide +kernel)
    (.inl (by decide +kernel)) (by unfold UpToSlash; decide +kernel)
  exact ⟨hfirst.2 (by decide +kernel), by decide +kernel⟩

/-- Typed with a slash behind it, the mount point is never found. -/
theorem typed_trailing_slash :
    TypedAndMounted dirPlatform rootJailCtx (cstr "/r/h") (cstr "/mnt/") (typedCtx (cstr "/mnt/"))
      (bindAtTarget (cstr "/mnt/")) ∧
    (translatePath ⟨(afterCall dirPlatform (bindAtTarget (cstr "/mnt/")) bindUsrDone).ctx, cstr "/r",
        dirPlatform.readlink (), true⟩ (cstr "/mnt/x") pathLen).out = cstr "/r/h/x" ∧
    (translatePath ⟨canonicalCtx dirPlatform () (typedCtx (cstr "/mnt/")), cstr "/r",
        dirPlatform.readlink (), true⟩ (cstr "/mnt/x") pathLen).out = cstr "/r/mnt/x" := by
  have hcall : BindCall dirPlatform (bindAtTarget (cstr "/mnt/")) :=
    ⟨⟨by decide, by decide +kernel, .inl rfl, by decide⟩, by decide, by decide⟩
  refine ⟨⟨optionBind_typed (by decide), hcall, by decide +kernel, by decide +kernel, rfl,
    by decide +kernel, by decide +kernel, by decide +kernel, cstr "/mnt/", by decide +kernel,
    by decide +kernel⟩, ?_, by decide +kernel⟩
  rw [hcall.ctx_eq]
  decide +kernel

end Emuroot
