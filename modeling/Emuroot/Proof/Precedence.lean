import Emuroot.Model.Linux
import Emuroot.Proof.MountFrame

/-!
# Which binding a path is taken through

`binding_precedence`: of the bindings of the command line a path is taken through the one with the
most specific guest point, whatever their order is.
-/

namespace Emuroot

open Words

variable {w : Nat} {σ : Type} {ctx : Ctx} {root guest : CStr} {b c : Binding} {bs : List Binding}
  {cs ds : List CStr}

/-- An absolute path without doubled slashes, `.` and `..`, and without a slash at its end. -/
def NormalPath (p : CStr) : Prop := ∃ cs, (∀ c ∈ cs, IsName c) ∧ p = pathStr cs

/-- The components of the guest point. -/
def Binding.point (b : Binding) : List CStr := words slash b.guest

/-- The guest point is a prefix of the path, component by component; `/` is one of every path. -/
def Binding.Covers (b : Binding) (guest : CStr) : Prop := b.point <+: words slash guest

/-- The guest point is the longest that covers the path, and the latest added of equal ones. -/
structure MostSpecific (bs : List Binding) (guest : CStr) (b : Binding) : Prop where
  covers : b.Covers guest
  latest : ∃ before after, bs = before ++ b :: after ∧
    (∀ c ∈ before, c.Covers guest → c.point.length ≤ b.point.length) ∧
    ∀ c ∈ after, c.Covers guest → c.point.length < b.point.length

/-- Another order of the bindings, with those of one guest point in the order they had. -/
structure Reordered (bs bs' : List Binding) : Prop where
  perm : bs'.Perm bs
  order : ∀ guest, bs'.filter (fun b => b.guest = guest) = bs.filter fun b => b.guest = guest

/-- What the guest points are and where they are attached, in the context that a guest starts
with. -/
structure Attached (ctx : Ctx) : Prop where
  normal : ∀ b ∈ ctx.bindings, NormalPath b.guest
  mount : ∀ b ∈ ctx.bindings, b.mount = ctx.root ++ unlessRoot b.guest

/-- The joined paths fit their buffers. -/
structure JoinsFit (ctx : Ctx) (guest : CStr) : Prop where
  bound : ∀ b, MostSpecific ctx.bindings guest b →
    (unlessRoot b.host ++ b.rest guest).length < pathLen
  rooted : (∀ b ∈ ctx.bindings, ¬b.Covers guest) → (ctx.root ++ guest).length < pathLen

/-! ## Bytes and components -/

/-- A path is its components. -/
theorem NormalPath.eq_pathStr {p : CStr} (h : NormalPath p) :
    p = pathStr (words slash p) ∧ ∀ c ∈ words slash p, IsWord slash c := by
  obtain ⟨cs, hcs, rfl⟩ := h
  rw [words_pathStr fun c hc => (hcs c hc).word]
  exact ⟨rfl, fun c hc => (hcs c hc).word⟩

theorem guest_eq_of_point (hb : NormalPath b.guest) (hc : NormalPath c.guest) (h : b.point = c.point) :
    b.guest = c.guest := by
  rw [hb.eq_pathStr.1, hc.eq_pathStr.1]
  exact congrArg pathStr h

theorem length_pathStr_lt (hw : ∀ c ∈ cs, IsWord slash c) (hp : ds <+: cs)
    (hlt : ds.length < cs.length) : (pathStr ds).length < (pathStr cs).length := by
  obtain ⟨rest, rfl⟩ := hp
  obtain ⟨c, rest, rfl⟩ := List.exists_cons_of_ne_nil (l := rest) (by rintro rfl; simp at hlt)
  have hc : 0 < c.length := List.length_pos_iff.2 (hw c (by simp)).ne_nil
  have hne : ds ++ c :: rest ≠ [] := by simp
  rw [pathStr_of_ne hne, glue_append, glue_cons]
  by_cases hds : ds = []
  · subst hds
    simp only [pathStr_nil, glue_nil, List.nil_append, List.length_append, List.length_cons,
      List.length_nil]
    omega
  · rw [pathStr_of_ne hds]
    simp only [List.length_append, List.length_cons]
    omega

/-- Guest paths are prefixes of each other as far as their bytes are, up to a slash. -/
theorem prefix_iff_stem (hw : ∀ c ∈ cs, IsWord slash c) (hw' : ∀ c ∈ ds, IsWord slash c) :
    ds <+: cs ↔ pathStr ds = [slash] ∨ Stem slash (pathStr ds) (pathStr cs) := by
  constructor
  · rintro ⟨rest, rfl⟩
    by_cases hds : ds = []
    · exact .inl (by rw [hds, pathStr_nil])
    · right
      rw [pathStr_of_ne hds, pathStr_of_ne (by simp [hds]), glue_append]
      exact (Stem.refl _).append_glue rest
  · intro h
    by_cases hds : ds = []
    · rw [hds]
      exact List.nil_prefix
    · have hlast := getLast?_pathStr_ne hw' hds
      have hne : pathStr ds ≠ [slash] := fun he => hlast (by rw [he]; rfl)
      obtain ⟨k, -, -, he⟩ := stem_pathStr hw (h.resolve_left hne)
        (by rw [pathStr_of_ne hds]; exact fun h0 => hds (glue_eq_nil.1 h0)) hlast
      have hwords := congrArg (words slash) he
      rw [words_pathStr hw', words_pathStr fun c hc => hw c (List.mem_of_mem_take hc)] at hwords
      rw [hwords]
      exact List.take_prefix k cs

/-- The guest point matches exactly the paths that it covers. -/
theorem guestMatches_iff_covers (hb : NormalPath b.guest) (hg : NormalPath guest) :
    guestMatches guest b = true ↔ b.Covers guest := by
  obtain ⟨hbe, hbw⟩ := hb.eq_pathStr
  obtain ⟨hge, hgw⟩ := hg.eq_pathStr
  rw [guestMatches_iff, Binding.Covers, Binding.point, prefix_iff_stem hgw hbw, ← hbe, ← hge]

/-- Of two guest points that cover a path, the one with more components is the longer one. -/
theorem length_lt_iff (hb : NormalPath b.guest) (hc : NormalPath c.guest) (hbg : b.Covers guest)
    (hcg : c.Covers guest) : b.guest.length < c.guest.length ↔ b.point.length < c.point.length := by
  have hlt : ∀ {b c : Binding}, NormalPath b.guest → NormalPath c.guest → b.Covers guest → c.Covers guest →
      b.point.length < c.point.length → b.guest.length < c.guest.length := by
    intro b c hb hc hbg hcg hlt
    rw [hb.eq_pathStr.1, hc.eq_pathStr.1]
    exact length_pathStr_lt hc.eq_pathStr.2
      (List.prefix_of_prefix_length_le hbg hcg (Nat.le_of_lt hlt)) hlt
  refine ⟨fun h => ?_, hlt hb hc hbg hcg⟩
  by_contra hge
  obtain hgt | heq := Nat.lt_or_eq_of_le (Nat.not_lt.1 hge)
  · exact Nat.lt_asymm h (hlt hc hb hcg hbg hgt)
  · have hpoint := (List.prefix_of_prefix_length_le hcg hbg (Nat.le_of_eq heq)).eq_of_length heq
    rw [guest_eq_of_point hc hb hpoint] at h
    exact Nat.lt_irrefl _ h

/-- What the scan compares is what covers the path, by components. -/
theorem matches_lt_iff (hb : NormalPath b.guest) (hc : NormalPath c.guest) (hg : NormalPath guest)
    (hbg : b.Covers guest) :
    (guestMatches guest c = true → c.guest.length < b.guest.length) ↔
      (c.Covers guest → c.point.length < b.point.length) := by
  rw [guestMatches_iff_covers hc hg]
  exact imp_congr_right fun hcg => length_lt_iff hc hb hcg hbg

theorem matches_le_iff (hb : NormalPath b.guest) (hc : NormalPath c.guest) (hg : NormalPath guest)
    (hbg : b.Covers guest) :
    (guestMatches guest c = true → c.guest.length ≤ b.guest.length) ↔
      (c.Covers guest → c.point.length ≤ b.point.length) := by
  rw [guestMatches_iff_covers hc hg]
  refine imp_congr_right fun hcg => ?_
  rw [← Nat.not_lt, ← Nat.not_lt, length_lt_iff hb hc hbg hcg]

/-! ## The binding that is taken -/

/-- **The scan finds the most specific binding.** -/
theorem bestBinding_iff (hn : ∀ b ∈ ctx.bindings, NormalPath b.guest) (hg : NormalPath guest) :
    bestBinding ctx guest = some b ↔ MostSpecific ctx.bindings guest b := by
  -- the scan goes from the latest to the first
  have hmem : ∀ {before after : List Binding}, ctx.bindings = before ++ b :: after →
      ∀ c, c ∈ before ∨ c = b ∨ c ∈ after → NormalPath c.guest := by
    intro before after hbs c hc
    refine hn c ?_
    rw [hbs]
    simpa only [List.mem_append, List.mem_cons] using hc
  rw [bestBinding, Pick.pick_eq_some_iff]
  constructor
  · rintro ⟨hb, before, after, hl, hlt, hle⟩
    have hbs : ctx.bindings = after.reverse ++ b :: before.reverse := by
      rw [← List.reverse_reverse ctx.bindings, hl]
      simp
    have hbn := hmem hbs b (.inr (.inl rfl))
    have hcov := (guestMatches_iff_covers hbn hg).1 hb
    refine ⟨hcov, after.reverse, before.reverse, hbs, fun c hc => ?_, fun c hc => ?_⟩
    · have hcn := hmem hbs c (.inl hc)
      exact (matches_le_iff hbn hcn hg hcov).1 (hle c (List.mem_reverse.1 hc))
    · have hcn := hmem hbs c (.inr (.inr hc))
      exact (matches_lt_iff hbn hcn hg hcov).1 (hlt c (List.mem_reverse.1 hc))
  · rintro ⟨hcov, before, after, hbs, hle, hlt⟩
    have hbn := hmem hbs b (.inr (.inl rfl))
    refine ⟨(guestMatches_iff_covers hbn hg).2 hcov, after.reverse, before.reverse, by simp [hbs],
      fun c hc => ?_, fun c hc => ?_⟩
    · have hc := List.mem_reverse.1 hc
      exact (matches_lt_iff hbn (hmem hbs c (.inr (.inr hc))) hg hcov).2 (hlt c hc)
    · have hc := List.mem_reverse.1 hc
      exact (matches_le_iff hbn (hmem hbs c (.inl hc)) hg hcov).2 (hle c hc)

theorem bestBinding_eq_none_iff (hn : ∀ b ∈ ctx.bindings, NormalPath b.guest) (hg : NormalPath guest) :
    bestBinding ctx guest = none ↔ ∀ b ∈ ctx.bindings, ¬b.Covers guest := by
  rw [bestBinding, Pick.pick_eq_none]
  simp only [List.mem_reverse]
  refine forall₂_congr fun b hb => ?_
  rw [← guestMatches_iff_covers (hn b hb) hg, Bool.not_eq_true]

/-- What is not covered lies below no mount point of its own name space. -/
theorem mountedBinding_none (ha : Attached ctx) (hg : NormalPath guest)
    (hnone : ∀ b ∈ ctx.bindings, ¬b.Covers guest) :
    mountedBinding ctx (ctx.root ++ guest) = none := by
  refine Pick.pick_eq_none.2 fun b hb => ?_
  have hb := List.mem_reverse.1 hb
  rw [← Bool.not_eq_true, Bool.and_eq_true, hasPrefix_iff_stem, ha.mount b hb]
  rintro ⟨-, hs⟩
  refine hnone b hb ((guestMatches_iff_covers (ha.normal b hb) hg).1 (guestMatches_iff.2 ?_))
  by_cases hr : b.guest = [slash]
  · exact .inl hr
  · rw [unlessRoot, if_neg hr] at hs
    obtain ⟨v, hv, hstem⟩ := hs.of_append (by simp)
    rw [List.append_cancel_left hv]
    exact .inr hstem

/-- **Where a path goes**: through the most specific binding, or below the root. -/
theorem mapToHost_specific (ha : Attached ctx) (hg : NormalPath guest) (hfit : JoinsFit ctx guest) :
    (∃ b, MostSpecific ctx.bindings guest b ∧
      mapToHost ctx ctx.root guest pathLen = orSlash (unlessRoot b.host ++ b.rest guest)) ∨
    (∀ b ∈ ctx.bindings, ¬b.Covers guest) ∧
      mapToHost ctx ctx.root guest pathLen = ctx.root ++ guest := by
  cases hb : bestBinding ctx guest with
  | some b =>
    have hspec := (bestBinding_iff ha.normal hg).1 hb
    refine .inl ⟨b, hspec, ?_⟩
    rw [mapToHost_best hb, snprintf_of_lt (hfit.bound b hspec)]
  | none =>
    have hnone := (bestBinding_eq_none_iff ha.normal hg).1 hb
    have hcut := snprintf_of_lt (hfit.rooted hnone)
    refine .inr ⟨hnone, ?_⟩
    rw [mapToHost_root hb (by rw [hcut]; exact mountedBinding_none ha hg hnone), hcut]

/-- A binding that does not cover a path takes no part in it. -/
theorem mapToHost_uncovered (ha : Attached ctx) (hg : NormalPath guest) (hfit : JoinsFit ctx guest)
    {before after : List Binding} (hbs : ctx.bindings = before ++ b :: after)
    (hb : ¬b.Covers guest) :
    mapToHost { ctx with bindings := before ++ after } ctx.root guest pathLen =
      mapToHost ctx ctx.root guest pathLen := by
  have hext : Extends b { ctx with bindings := before ++ after } ctx := ⟨before, after, rfl, hbs⟩
  refine (mapToHost_extends hext ?_).symm
  rintro (hbest | ⟨hbest, hmount⟩)
  · exact hb ((bestBinding_iff ha.normal hg).1 hbest).covers
  · have hnone := (bestBinding_eq_none_iff ha.normal hg).1 hbest
    rw [snprintf_of_lt (hfit.rooted hnone), mountedBinding_none ha hg hnone] at hmount
    cases hmount

/-- A name that merely begins with the guest point is none that it covers. -/
theorem not_covers_sibling (hb : NormalPath b.guest) (hg : NormalPath guest) (hne : b.guest ≠ [slash])
    {a : Byte} {rest : CStr} (hguest : guest = b.guest ++ a :: rest) (ha : a ≠ slash) :
    ¬b.Covers guest := by
  intro hc
  have hs := (guestMatches_iff.1 ((guestMatches_iff_covers hb hg).2 hc)).resolve_left hne
  obtain ⟨r, hr, hsep⟩ := hs
  rw [hguest] at hr
  exact ha (hsep a (by rw [← List.append_cancel_left hr]; rfl))

/-! ## The order of the bindings -/

theorem guest_eq_of_unlessRoot (hb : NormalPath b.guest) (hc : NormalPath c.guest)
    (h : unlessRoot b.guest = unlessRoot c.guest) : b.guest = c.guest := by
  have hne : ∀ {b : Binding}, NormalPath b.guest → b.guest ≠ [] := by
    rintro b ⟨cs, -, he⟩ h0
    have hhead := head?_pathStr cs
    rw [← he, h0] at hhead
    cases hhead
  unfold unlessRoot at h
  split at h <;> split at h
  · rename_i h1 h2
    rw [h1, h2]
  · exact absurd h.symm (hne hc)
  · exact absurd h (hne hb)
  · exact h

theorem guest_eq_slash (hb : NormalPath b.guest) (h : b.guest.length ≤ 1) : b.guest = [slash] := by
  obtain ⟨he, hw⟩ := hb.eq_pathStr
  rw [he] at h ⊢
  by_cases hp : words slash b.guest = []
  · rw [hp, pathStr_nil]
  · have hlt := length_pathStr_lt hw List.nil_prefix (List.length_pos_iff.2 hp)
    rw [pathStr_nil, List.length_singleton] at hlt
    omega

/-- Two stems of one length are the same. -/
theorem stem_eq_of_length {p q s : CStr} (hp : Stem slash p s) (hq : Stem slash q s)
    (h : p.length = q.length) : p = q :=
  (List.prefix_of_prefix_length_le hp.isPrefix hq.isPrefix (Nat.le_of_eq h)).eq_of_length h

theorem Reordered.bestBinding_eq {ctx' : Ctx} (h : Reordered ctx.bindings ctx'.bindings)
    (hn : ∀ b ∈ ctx.bindings, NormalPath b.guest) (guest : CStr) :
    bestBinding ctx' guest = bestBinding ctx guest := by
  refine Pick.pick_reorder Binding.guest (fun b _ c _ hbc => ?_)
    (fun b hb c hc hm hm' hl => ?_) fun g => ?_
  · rw [guestMatches, guestMatches, hbc]
    exact ⟨id, rfl⟩
  · have hbn := hn b (List.mem_reverse.1 hb)
    have hcn := hn c (List.mem_reverse.1 hc)
    obtain hr | hs := guestMatches_iff.1 hm
    · rw [hr, guest_eq_slash hcn (by rw [← hl, hr]; exact Nat.le_refl _)]
    · obtain hr' | hs' := guestMatches_iff.1 hm'
      · rw [hr', guest_eq_slash hbn (by rw [hl, hr']; exact Nat.le_refl _)]
      · exact stem_eq_of_length hs hs' hl
  · rw [List.filter_reverse, List.filter_reverse, h.order]

theorem Reordered.mountedBinding_eq {ctx' : Ctx} (h : Reordered ctx.bindings ctx'.bindings)
    (ha : Attached ctx) (out : CStr) : mountedBinding ctx' out = mountedBinding ctx out := by
  refine Pick.pick_reorder Binding.guest (fun b hb c hc hbc => ?_)
    (fun b hb c hc hm hm' hl => ?_) fun g => ?_
  · rw [ha.mount b (List.mem_reverse.1 hb), ha.mount c (List.mem_reverse.1 hc), hbc]
    exact ⟨id, rfl⟩
  · have hb := List.mem_reverse.1 hb
    have hc := List.mem_reverse.1 hc
    rw [Bool.and_eq_true, hasPrefix_iff_stem] at hm hm'
    have hmount := stem_eq_of_length hm.2 hm'.2 hl
    rw [ha.mount b hb, ha.mount c hc] at hmount
    exact guest_eq_of_unlessRoot (ha.normal b hb) (ha.normal c hc) (List.append_cancel_left hmount)
  · rw [List.filter_reverse, List.filter_reverse, h.order]

theorem Reordered.mapToHost_eq {ctx' : Ctx} (h : Reordered ctx.bindings ctx'.bindings)
    (ha : Attached ctx) (root guest : CStr) (outsz : Nat) :
    mapToHost ctx' root guest outsz = mapToHost ctx root guest outsz := by
  rw [mapToHost, mapToHost, h.bestBinding_eq ha.normal]
  simp only [h.mountedBinding_eq ha]

/-- Contexts that map every path alike translate alike. -/
theorem translatePathEx_congr {ctx ctx' : Ctx} (hmap : ∀ guest outsz,
      mapToHost ctx' root guest outsz = mapToHost ctx root guest outsz)
    (hun : unmapped ctx' root = unmapped ctx root) (rl : CStr → Option CStr) (follow : Bool)
    (guest : CStr) (outsz guestOutsz : Nat) :
    translatePathEx ⟨ctx', root, rl, follow⟩ guest outsz guestOutsz =
      translatePathEx ⟨ctx, root, rl, follow⟩ guest outsz guestOutsz := by
  have hstep : walkStep ⟨ctx', root, rl, follow⟩ = walkStep ⟨ctx, root, rl, follow⟩ := by
    funext s
    simp only [walkStep, hmap]
  have hrun : (walkLoop ⟨ctx', root, rl, follow⟩).run (walkStart guest) =
      (walkLoop ⟨ctx, root, rl, follow⟩).run (walkStart guest) :=
    (Loop.run_map (f := id) (g := id) (fun s => by
      rw [Sum.map_id_id]
      exact (congrFun hstep s).symm) (walkStart guest)).symm
  simp only [translatePathEx, unwalked, hun, hrun, hmap]

/-! ## The context that a guest starts with -/

variable {P : Platform w σ} {fs : σ} {base : Ctx}

theorem canonicalCtx_attached (hn : ∀ b ∈ base.bindings, NormalPath b.guest)
    (hfit : ∀ b ∈ base.bindings,
      ((canonicalCtx P fs base).root ++ unlessRoot b.guest).length < pathLen) :
    Attached (canonicalCtx P fs base) := by
  constructor
  · intro b hb
    obtain ⟨c, hc, rfl⟩ := List.mem_map.1 hb
    exact hn c hc
  · intro b hb
    obtain ⟨c, hc, rfl⟩ := List.mem_map.1 hb
    exact snprintf_of_lt (hfit c hc)

theorem Reordered.canonicalCtx (h : Reordered base.bindings bs) :
    Reordered (canonicalCtx P fs base).bindings
      (canonicalCtx P fs { base with bindings := bs }).bindings := by
  refine ⟨h.perm.map _, fun g => ?_⟩
  unfold Emuroot.canonicalCtx
  dsimp only
  rw [List.filter_map, List.filter_map]
  exact congrArg _ (h.order g)

/-- **Bindings have precedence by how specific they are.** In the context that a guest starts with,
a path goes through the binding with the longest guest point that covers it, the latest added of
equal ones, or else below the root; a binding whose guest point the path's name merely begins with
takes no part in that. Another order of the bindings, but for those of one guest point, translates
every path alike. -/
theorem binding_precedence (P : Platform w σ) (fs : σ) (base : Ctx)
    (hn : ∀ b ∈ base.bindings, NormalPath b.guest)
    (hfit : ∀ b ∈ base.bindings,
      ((canonicalCtx P fs base).root ++ unlessRoot b.guest).length < pathLen) :
    let ctx := canonicalCtx P fs base
    (∀ guest, NormalPath guest → JoinsFit ctx guest →
      ((∃ b, MostSpecific ctx.bindings guest b ∧
          mapToHost ctx ctx.root guest pathLen = orSlash (unlessRoot b.host ++ b.rest guest)) ∨
        (∀ b ∈ ctx.bindings, ¬b.Covers guest) ∧
          mapToHost ctx ctx.root guest pathLen = ctx.root ++ guest) ∧
      ∀ before b after, ctx.bindings = before ++ b :: after → b.guest ≠ [slash] →
        (∃ a rest, guest = b.guest ++ a :: rest ∧ a ≠ slash) →
        mapToHost { ctx with bindings := before ++ after } ctx.root guest pathLen =
          mapToHost ctx ctx.root guest pathLen) ∧
    ∀ bs, Reordered base.bindings bs → ∀ root rl follow guest outsz guestOutsz,
      translatePathEx ⟨canonicalCtx P fs { base with bindings := bs }, root, rl, follow⟩ guest outsz
          guestOutsz =
        translatePathEx ⟨ctx, root, rl, follow⟩ guest outsz guestOutsz := by
  have ha := canonicalCtx_attached hn hfit
  refine ⟨fun guest hg hjoin => ⟨mapToHost_specific ha hg hjoin, ?_⟩, ?_⟩
  · rintro before b after hbs hne ⟨a, rest, hguest, has⟩
    have hb := ha.normal b (by rw [hbs]; simp)
    exact mapToHost_uncovered ha hg hjoin hbs (not_covers_sibling hb hg hne hguest has)
  · intro bs h root rl follow guest outsz guestOutsz
    refine translatePathEx_congr (h.canonicalCtx.mapToHost_eq ha root) ?_ rl follow guest outsz guestOutsz
    have hempty : (canonicalCtx P fs { base with bindings := bs }).bindings.isEmpty = _ :=
      h.canonicalCtx.perm.isEmpty_eq
    rw [unmapped, unmapped, hempty]

/-- `-r /r -b /a:/usr -b /b:/usr/lib` -/
def usrBase : Ctx :=
  { Ctx.create with
    root := cstr "/r"
    bindings := [⟨cstr "/a", cstr "/usr", []⟩, ⟨cstr "/b", cstr "/usr/lib", []⟩] }

/-- The same with the bindings the other way round. -/
def usrSwapped : Ctx := { usrBase with bindings := usrBase.bindings.reverse }

theorem usrBase_normal : ∀ b ∈ usrBase.bindings, NormalPath b.guest := by
  intro b hb
  obtain rfl | hb := List.mem_cons.1 hb
  · exact ⟨[cstr "usr"], by decide, by decide⟩
  · rw [List.mem_singleton.1 hb]
    exact ⟨[cstr "usr", cstr "lib"], by decide, by decide⟩

theorem usrBase_joinsFit :
    JoinsFit (canonicalCtx linuxPlatform () usrBase) (cstr "/usr/lib/x") where
  bound := by
    intro b hb
    obtain ⟨before, after, hbs, -⟩ := hb.latest
    have hall : ∀ b ∈ (canonicalCtx linuxPlatform () usrBase).bindings,
        (unlessRoot b.host ++ b.rest (cstr "/usr/lib/x")).length < pathLen := by decide +kernel
    exact hall b (by rw [hbs]; simp)
  rooted := fun _ => by decide +kernel

theorem usrBase_reordered : Reordered usrBase.bindings usrSwapped.bindings where
  perm := List.reverse_perm _
  order := by
    intro g
    by_cases h1 : cstr "/usr" = g
    · subst h1
      decide +kernel
    · by_cases h2 : cstr "/usr/lib" = g
      · subst h2
        decide +kernel
      · simp [usrBase, usrSwapped, h1, h2]

/-- The path goes through one of the bindings, and in either order through the same. -/
theorem binding_precedence_usr :
    (∃ b, MostSpecific (canonicalCtx linuxPlatform () usrBase).bindings (cstr "/usr/lib/x") b ∧
      mapToHost (canonicalCtx linuxPlatform () usrBase) (cstr "/r") (cstr "/usr/lib/x") pathLen =
        orSlash (unlessRoot b.host ++ b.rest (cstr "/usr/lib/x"))) ∧
    ∀ rl follow guest,
      translatePathEx ⟨canonicalCtx linuxPlatform () usrSwapped, cstr "/r", rl, follow⟩ guest
          pathLen pathLen =
        translatePathEx ⟨canonicalCtx linuxPlatform () usrBase, cstr "/r", rl, follow⟩ guest
          pathLen pathLen := by
  obtain ⟨hmap, horder⟩ :=
    binding_precedence linuxPlatform () usrBase usrBase_normal (by decide +kernel)
  have hguest : NormalPath (cstr "/usr/lib/x") :=
    ⟨[cstr "usr", cstr "lib", cstr "x"], by decide, by decide⟩
  refine ⟨(hmap _ hguest usrBase_joinsFit).1.resolve_right fun hnone => ?_, fun rl follow guest =>
    horder _ usrBase_reordered _ rl follow guest pathLen pathLen⟩
  refine hnone.1 ⟨cstr "/a", cstr "/usr", cstr "/r/usr"⟩ (by decide +kernel) ?_
  exact (guestMatches_iff_covers ⟨[cstr "usr"], by decide, by decide⟩ hguest).1 (by decide +kernel)

end Emuroot
