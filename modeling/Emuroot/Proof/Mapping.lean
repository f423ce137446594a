import Emuroot.Proof.Walk

/-!
# Where guest paths lie on the host

`img_shape`: the host path of a guest path is a host directory and the components below it, cut to
the buffer. `below_img`: every component of it below that directory (`hostBase`) is the host path of
one of the guest path's own directories.
-/

namespace Emuroot

open Words

/-- The host directory that the path is mapped into: the binding's, or that of the root. -/
def hostBase (ctx : Ctx) (root guest : CStr) : CStr :=
  match bestBinding ctx guest with
  | some best => unlessRoot best.host
  | none =>
    match mountedBinding ctx (snprintf pathLen (root ++ guest)) with
    | some mounted => unlessRoot mounted.host ++ root.drop mounted.mount.length
    | none => root

variable {E : WalkEnv} {ctx : Ctx} {root guest : CStr} {cs : List CStr}

/-! ## Prefixes -/

theorem hasPrefix_iff_stem {s pre : CStr} : hasPrefix s pre = true ↔ Stem slash pre s := by
  rw [hasPrefix, Bool.and_eq_true, List.isPrefixOf_iff_prefix]
  constructor
  · rintro ⟨⟨r, rfl⟩, h⟩
    refine ⟨r, rfl, fun a ha => ?_⟩
    rw [List.drop_left, Option.mem_def.1 ha] at h
    simpa using h
  · rintro ⟨r, rfl, h⟩
    refine ⟨List.prefix_append pre r, ?_⟩
    rw [List.drop_left]
    cases hr : r.head? with
    | none => rfl
    | some a => simpa using h a hr

theorem guestMatches_iff {b : Binding} :
    guestMatches guest b = true ↔ b.guest = [slash] ∨ Stem slash b.guest guest := by
  rw [guestMatches, Bool.or_eq_true, hasPrefix_iff_stem, beq_iff_eq]

theorem getLast?_pathStr_ne (hw : ∀ c ∈ cs, IsWord slash c) (hne : cs ≠ []) :
    (pathStr cs).getLast? ≠ some slash := by
  rw [pathStr_of_ne hne]
  exact getLast?_glue_ne hw

/-- A stem ends where the guest path of some of the components does. -/
theorem stem_pathStr (hw : ∀ c ∈ cs, IsWord slash c) {v : CStr} (h : Stem slash v (pathStr cs))
    (hne : v ≠ []) (hl : v.getLast? ≠ some slash) :
    ∃ k, 1 ≤ k ∧ k ≤ cs.length ∧ v = pathStr (cs.take k) := by
  cases cs with
  | nil =>
    exfalso
    obtain hv | hv := Stem.of_singleton h
    · exact hne hv
    · exact hl (by rw [hv]; rfl)
  | cons c cs =>
    rw [pathStr_of_ne (by simp)] at h
    obtain ⟨k, hk, rfl⟩ := stem_glue hw h
    have hk0 : k ≠ 0 := by
      rintro rfl
      exact hne rfl
    exact ⟨k, Nat.one_le_iff_ne_zero.2 hk0, hk, (pathStr_of_ne (by simp [hk0])).symm⟩

/-- What is behind the guest prefix of the binding that a path is taken through. -/
def Binding.rest (b : Binding) (guest : CStr) : CStr :=
  guest.drop (if b.guest = [slash] then 0 else b.guest.length)

theorem Binding.exists_rest {b : Binding} (h : guestMatches guest b = true)
    (hg : guest.head? = some slash) :
    ∃ pre, guest = pre ++ b.rest guest ∧ (∀ a ∈ (b.rest guest).head?, a = slash) ∧
      (b.guest = [slash] ∧ pre = [] ∨ b.guest ≠ [slash] ∧ pre = b.guest) := by
  by_cases hr : b.guest = [slash]
  · refine ⟨[], ?_, ?_, .inl ⟨hr, rfl⟩⟩
    · simp [Binding.rest, hr]
    · simp [Binding.rest, hr, hg]
  · obtain ⟨r, rfl, hs⟩ := (guestMatches_iff.1 h).resolve_left hr
    have hrest : b.rest (b.guest ++ r) = r := by simp [Binding.rest, hr]
    exact ⟨b.guest, by rw [hrest], by rwa [hrest], .inr ⟨hr, rfl⟩⟩

theorem mapToHost_best {best : Binding} (h : bestBinding ctx guest = some best) (outsz : Nat) :
    mapToHost ctx root guest outsz =
      orSlash (snprintf outsz (unlessRoot best.host ++ best.rest guest)) := by
  rw [mapToHost, h]
  rfl

theorem mapToHost_root (h : bestBinding ctx guest = none) {outsz : Nat}
    (hm : mountedBinding ctx (snprintf outsz (root ++ guest)) = none) :
    mapToHost ctx root guest outsz = snprintf outsz (root ++ guest) := by
  rw [mapToHost, h]
  dsimp only
  rw [hm]

theorem mapToHost_mounted (h : bestBinding ctx guest = none) {m : Binding}
    (hm : mountedBinding ctx (snprintf pathLen (root ++ guest)) = some m) :
    mapToHost ctx root guest pathLen =
      orSlash (snprintf pathLen
        (unlessRoot m.host ++ (snprintf pathLen (root ++ guest)).drop m.mount.length)) := by
  rw [mapToHost, h]
  dsimp only
  rw [hm]
  dsimp only
  rw [snprintf, List.take_take]
  rfl

theorem mounted_stem {out : CStr} {m : Binding} (h : mountedBinding ctx out = some m) :
    m.mount.length > 1 ∧ Stem slash m.mount out := by
  have hm := (Pick.pick_mem h).2
  rw [Bool.and_eq_true, hasPrefix_iff_stem] at hm
  exact ⟨by simpa using hm.1, hm.2⟩

/-- The directories between a path and the guest prefix of its binding have the same binding. -/
theorem bestBinding_stem {best : Binding} (h : bestBinding ctx guest = some best) {v : CStr}
    (hv : Stem slash v guest) (hb : guestMatches v best = true) : bestBinding ctx v = some best := by
  refine Pick.pick_of_imp h (fun c _ hc => ?_) hb
  rw [guestMatches_iff] at hc ⊢
  exact hc.imp_right fun hs => hs.trans hv

theorem bestBinding_stem_none (h : bestBinding ctx guest = none) {v : CStr}
    (hv : Stem slash v guest) : bestBinding ctx v = none := by
  refine Pick.pick_eq_none.2 fun c hc => ?_
  have hn := Pick.pick_eq_none.1 h c hc
  rw [← Bool.not_eq_true, guestMatches_iff] at hn ⊢
  exact fun hs => hn (hs.imp_right fun hs => hs.trans hv)

theorem mountedBinding_stem {out : CStr} {m : Binding} (h : mountedBinding ctx out = some m) {v : CStr}
    (hv : Stem slash v out) (hm : Stem slash m.mount v) : mountedBinding ctx v = some m := by
  refine Pick.pick_of_imp h (fun c _ hc => ?_) ?_
  · rw [Bool.and_eq_true, hasPrefix_iff_stem] at hc ⊢
    exact ⟨hc.1, hc.2.trans hv⟩
  · rw [Bool.and_eq_true, hasPrefix_iff_stem]
    exact ⟨by simpa using (mounted_stem h).1, hm⟩

theorem mountedBinding_stem_none {out : CStr} (h : mountedBinding ctx out = none) {v : CStr}
    (hv : Stem slash v out) : mountedBinding ctx v = none := by
  refine Pick.pick_eq_none.2 fun c hc => ?_
  have hn := Pick.pick_eq_none.1 h c hc
  rw [← Bool.not_eq_true, Bool.and_eq_true, hasPrefix_iff_stem] at hn ⊢
  exact fun hs => hn ⟨hs.1, hs.2.trans hv⟩

/-! ## The shape of a host path -/

theorem words_pathStr (hw : ∀ c ∈ cs, IsWord slash c) : words slash (pathStr cs) = cs := by
  cases cs with
  | nil => rw [pathStr_nil, words_sep_cons, words_nil]
  | cons c cs => rw [pathStr_of_ne (by simp), words_glue hw]

theorem bestBinding_mem {best : Binding} (h : bestBinding ctx guest = some best) :
    best ∈ ctx.bindings ∧ guestMatches guest best = true :=
  have hm := Pick.pick_mem h
  ⟨List.mem_reverse.1 hm.1, hm.2⟩

theorem mountedBinding_mem {out : CStr} {m : Binding} (h : mountedBinding ctx out = some m) :
    m ∈ ctx.bindings := List.mem_reverse.1 (Pick.pick_mem h).1

/-- Below a mount point, what the buffers leave of the rest of the path. -/
theorem mounted_shape {m : Binding} (hb : bestBinding E.ctx (pathStr cs) = none)
    (hm : mountedBinding E.ctx (snprintf pathLen (E.root ++ pathStr cs)) = some m) :
    ∃ L k, E.img cs = orSlash ((unlessRoot m.host).take (pathLen - 1) ++ L.take k) ∧
      k ≤ pathLen - 1 - (unlessRoot m.host).length ∧ (∀ a ∈ L.head?, a = slash) ∧
      words slash L ⊆ words slash (E.root ++ pathStr cs) := by
  obtain ⟨r, hr, hrs⟩ := (mounted_stem hm).2
  have hdrop : (snprintf pathLen (E.root ++ pathStr cs)).drop m.mount.length = r := by
    rw [hr, List.drop_left]
  have himg : E.img cs =
      orSlash ((unlessRoot m.host).take (pathLen - 1) ++
        r.take (pathLen - 1 - (unlessRoot m.host).length)) := by
    rw [WalkEnv.img, mapToHost_mounted hb hm, hdrop, snprintf, List.take_append]
  cases hrc : r with
  | nil =>
    refine ⟨[], 0, ?_, Nat.zero_le _, by simp, by simp⟩
    rw [himg, hrc]
    simp
  | cons a r' =>
    have hL : r = ((E.root ++ pathStr cs).drop m.mount.length).take (pathLen - 1 - m.mount.length) := by
      rw [← hdrop, snprintf, List.drop_take]
    have hpre : E.root ++ pathStr cs = m.mount ++ (E.root ++ pathStr cs).drop m.mount.length := by
      have hp : m.mount <+: E.root ++ pathStr cs :=
        (hr ▸ List.prefix_append m.mount r).trans (List.take_prefix _ _)
      obtain ⟨t, ht⟩ := hp
      rw [← ht, List.drop_left]
    have hhd : ∀ b ∈ ((E.root ++ pathStr cs).drop m.mount.length).head?, b = slash := by
      intro b hb
      refine hrs b ?_
      have hne : pathLen - 1 - m.mount.length ≠ 0 := by
        intro h0
        rw [h0, List.take_zero] at hL
        rw [hL] at hrc
        cases hrc
      rw [hL, List.head?_take, if_neg hne]
      exact hb
    refine ⟨(E.root ++ pathStr cs).drop m.mount.length,
      min (pathLen - 1 - (unlessRoot m.host).length) (pathLen - 1 - m.mount.length), ?_,
      Nat.min_le_left _ _, hhd, ?_⟩
    · rw [himg, ← List.take_take, ← hL]
    · have hsub := words_drop_subset (q := m.mount) hhd
      rwa [← hpre] at hsub

/-- A host path is a host directory and components of the root and the guest path behind it, each
cut to what the buffer holds. -/
theorem img_shape (E : WalkEnv) (hw : ∀ c ∈ cs, IsWord slash c) :
    ∃ H L k, E.img cs = orSlash (H.take (pathLen - 1) ++ L.take k) ∧ k ≤ pathLen - 1 - H.length ∧
      (∀ a ∈ L.head?, a = slash) ∧ (H = E.root ∨ ∃ b ∈ E.ctx.bindings, H = unlessRoot b.host) ∧
      words slash L ⊆ words slash E.root ++ cs := by
  have hhead := head?_pathStr cs
  have hhead' : ∀ a ∈ (pathStr cs).head?, a = slash := fun a ha => by
    rw [hhead] at ha
    exact (Option.mem_some_iff.1 ha).symm
  have hall : words slash (E.root ++ pathStr cs) = words slash E.root ++ cs := by
    rw [words_append_of_head hhead', words_pathStr hw]
  cases hb : bestBinding E.ctx (pathStr cs) with
  | some best =>
    obtain ⟨hmem, hmatch⟩ := bestBinding_mem hb
    obtain ⟨pre, hg, hr, -⟩ := Binding.exists_rest hmatch hhead
    refine ⟨unlessRoot best.host, best.rest (pathStr cs), _, ?_, Nat.le_refl _, hr,
      .inr ⟨best, hmem, rfl⟩, ?_⟩
    · rw [WalkEnv.img, mapToHost_best hb, snprintf, List.take_append]
    · intro x hx
      refine List.mem_append_right _ ?_
      rw [← words_pathStr hw, hg]
      exact words_drop_subset hr hx
  | none =>
    cases hm : mountedBinding E.ctx (snprintf pathLen (E.root ++ pathStr cs)) with
    | none =>
      refine ⟨E.root, pathStr cs, _, ?_, Nat.le_refl _, hhead', .inl rfl, hall ▸ ?_⟩
      · have hne : (E.root ++ pathStr cs).take (pathLen - 1) ≠ [] := by
          intro h
          have hl := congrArg List.head? (List.take_eq_nil_iff.1 h |>.resolve_left (by decide))
          cases hroot : E.root <;> simp [hroot, hhead] at hl
        rw [WalkEnv.img, mapToHost_root hb hm, ← List.take_append, orSlash, if_neg hne, snprintf]
      · exact words_drop_subset hhead'
    | some m =>
      obtain ⟨L, n, himg, hn, hL, hsub⟩ := mounted_shape hb hm
      exact ⟨unlessRoot m.host, L, n, himg, hn, hL, .inr ⟨m, mountedBinding_mem hm, rfl⟩, hall ▸ hsub⟩

/-! ## Components below the base -/

theorem stem_orSlash {q t : CStr} (h : Stem slash q (orSlash t)) (hne : q ≠ [])
    (hl : q.getLast? ≠ some slash) : Stem slash q t := by
  by_cases ht : t = []
  · exfalso
    rw [ht] at h
    obtain hq | hq := Stem.of_singleton h
    · exact hne hq
    · exact hl (by rw [hq]; rfl)
  · rwa [orSlash, if_neg ht] at h

theorem orSlash_snprintf {q : CStr} (hne : q ≠ []) (hle : q.length ≤ pathLen - 1) :
    orSlash (snprintf pathLen q) = q := by
  rw [snprintf, List.take_of_length_le hle, orSlash, if_neg hne]

/-- A component below the base of a binding, as far as the path is not cut. -/
theorem below_best (hw : ∀ c ∈ cs, IsWord slash c) {best : Binding}
    (hb : bestBinding E.ctx (pathStr cs) = some best) {q : CStr}
    (hs : Stem slash q (unlessRoot best.host ++ best.rest (pathStr cs)))
    (hq : q.length ≤ pathLen - 1) (hlen : (unlessRoot best.host).length < q.length)
    (hl : q.getLast? ≠ some slash) : ∃ k, 1 ≤ k ∧ k ≤ cs.length ∧ q = E.img (cs.take k) := by
  obtain ⟨pre, hg, hr, hpre⟩ := Binding.exists_rest (bestBinding_mem hb).2 (head?_pathStr cs)
  obtain ⟨v, rfl, hv⟩ := hs.of_append (Nat.le_of_lt hlen)
  have hne : v ≠ [] := by
    rintro rfl
    simp at hlen
  have hvl : v.getLast? ≠ some slash := by rwa [List.getLast?_append_of_ne_nil _ hne] at hl
  have hstem : Stem slash (pre ++ v) (pathStr cs) := hg ▸ hv.append_left pre
  have hhead : ∀ a ∈ v.head?, a = slash := fun a ha => hr a (hv.head?_eq hne ▸ ha)
  have hlast : (pre ++ v).getLast? ≠ some slash := by rwa [List.getLast?_append_of_ne_nil _ hne]
  obtain ⟨k, hk, hkl, he⟩ := stem_pathStr hw hstem (by simp [hne]) hlast
  refine ⟨k, hk, hkl, ?_⟩
  have hmatch : guestMatches (pre ++ v) best = true := by
    rw [guestMatches_iff]
    obtain ⟨hroot, -⟩ | ⟨-, rfl⟩ := hpre
    · exact .inl hroot
    · exact .inr ⟨v, rfl, hhead⟩
  have hrest : best.rest (pre ++ v) = v := by
    obtain ⟨hroot, rfl⟩ | ⟨hroot, rfl⟩ := hpre <;> simp [Binding.rest, hroot]
  rw [WalkEnv.img, ← he, mapToHost_best (bestBinding_stem hb hstem hmatch), hrest,
    orSlash_snprintf (by simp [hne]) hq]

theorem below_root (hw : ∀ c ∈ cs, IsWord slash c) (hb : bestBinding E.ctx (pathStr cs) = none)
    (hm : mountedBinding E.ctx (snprintf pathLen (E.root ++ pathStr cs)) = none) {q : CStr}
    (hs : Stem slash q (E.root ++ pathStr cs))
    (ho : Stem slash q (snprintf pathLen (E.root ++ pathStr cs)))
    (hlen : E.root.length < q.length) (hl : q.getLast? ≠ some slash) :
    ∃ k, 1 ≤ k ∧ k ≤ cs.length ∧ q = E.img (cs.take k) := by
  obtain ⟨v, rfl, hv⟩ := hs.of_append (Nat.le_of_lt hlen)
  have hne : v ≠ [] := by
    rintro rfl
    simp at hlen
  have hvl : v.getLast? ≠ some slash := by rwa [List.getLast?_append_of_ne_nil _ hne] at hl
  obtain ⟨k, hk, hkl, he⟩ := stem_pathStr hw hv hne hvl
  have hcut : snprintf pathLen (E.root ++ v) = E.root ++ v :=
    List.take_of_length_le (ho.isPrefix.length_le.trans (length_snprintf_le _ _))
  refine ⟨k, hk, hkl, ?_⟩
  rw [WalkEnv.img, ← he, mapToHost_root (bestBinding_stem_none hb hv), hcut]
  rw [hcut]
  exact mountedBinding_stem_none hm ho

theorem below_mounted (hw : ∀ c ∈ cs, IsWord slash c) (hb : bestBinding E.ctx (pathStr cs) = none)
    {m : Binding} (hm : mountedBinding E.ctx (snprintf pathLen (E.root ++ pathStr cs)) = some m)
    {v : CStr} (hs : Stem slash (m.mount ++ v) (E.root ++ pathStr cs))
    (ho : Stem slash (m.mount ++ v) (snprintf pathLen (E.root ++ pathStr cs)))
    (hlen : E.root.length < (m.mount ++ v).length) (hne : v ≠ []) (hl : v.getLast? ≠ some slash)
    (hq : (unlessRoot m.host ++ v).length ≤ pathLen - 1) :
    ∃ k, 1 ≤ k ∧ k ≤ cs.length ∧ unlessRoot m.host ++ v = E.img (cs.take k) := by
  obtain ⟨u, hu, huv⟩ := hs.of_append (Nat.le_of_lt hlen)
  have hune : u ≠ [] := by
    rintro rfl
    rw [List.append_nil] at hu
    rw [hu] at hlen
    exact Nat.lt_irrefl _ hlen
  have hul : u.getLast? ≠ some slash := by
    rwa [← List.getLast?_append_of_ne_nil E.root hune, ← hu, List.getLast?_append_of_ne_nil _ hne]
  obtain ⟨k, hk, hkl, he⟩ := stem_pathStr hw huv hune hul
  obtain ⟨r, hr, hrs⟩ := (mounted_stem hm).2
  have hhead : ∀ a ∈ v.head?, a = slash := by
    obtain ⟨t, ht, -⟩ := ho
    rw [hr, List.append_assoc] at ht
    have hvr := List.append_cancel_left ht
    intro a ha
    refine hrs a ?_
    rw [hvr, Option.mem_def, List.head?_append, Option.mem_def.1 ha]
    rfl
  have hcut : snprintf pathLen (E.root ++ u) = m.mount ++ v := by
    rw [← hu]
    exact List.take_of_length_le (ho.isPrefix.length_le.trans (length_snprintf_le _ _))
  have hmount : mountedBinding E.ctx (snprintf pathLen (E.root ++ u)) = some m := by
    rw [hcut]
    exact mountedBinding_stem hm ho ⟨v, rfl, hhead⟩
  refine ⟨k, hk, hkl, ?_⟩
  rw [WalkEnv.img, ← he, mapToHost_mounted (bestBinding_stem_none hb huv) hmount, hcut,
    List.drop_left, orSlash_snprintf (by simp [hne]) hq]

/-- A list that is cut by less than one element is not cut. -/
theorem take_eq_of_lt {l : CStr} {n m : Nat} (h : m < (l.take n).length) (hl : l.length ≤ m + 1) :
    l.take n = l := by
  rw [List.length_take] at h
  exact List.take_of_length_le (by omega)

/-- The whole host path is its own last directory. -/
theorem below_whole {q : CStr} (he : q = E.img cs) (hcs : cs ≠ []) :
    ∃ k, 1 ≤ k ∧ k ≤ cs.length ∧ q = E.img (cs.take k) :=
  ⟨cs.length, List.length_pos_iff.2 hcs, Nat.le_refl _, by rwa [List.take_length]⟩

theorem below_img_best (hw : ∀ c ∈ cs, IsWord slash c) {best : Binding}
    (hb : bestBinding E.ctx (pathStr cs) = some best) {q : CStr} (hs : Stem slash q (E.img cs))
    (hlen : (unlessRoot best.host).length < q.length) (hl : q.getLast? ≠ some slash) :
    ∃ k, 1 ≤ k ∧ k ≤ cs.length ∧ q = E.img (cs.take k) := by
  have hne : q ≠ [] := by
    rintro rfl
    simp at hlen
  have himg : E.img cs = _ := mapToHost_best hb pathLen
  rw [himg] at hs
  have ht := stem_orSlash hs hne hl
  have hq := ht.isPrefix.length_le.trans (length_snprintf_le _ _)
  obtain hst | he := stem_take ht
  · exact below_best hw hb hst hq hlen hl
  · by_cases hcs : cs = []
    · subst hcs
      have hrest : (best.rest (pathStr [])).length ≤ 1 := by simp [Binding.rest]
      rw [he] at hlen
      have hfull := take_eq_of_lt hlen (by simp only [List.length_append]; omega)
      exact below_best hw hb (he.trans hfull ▸ .refl _) hq (he ▸ hlen) hl
    · refine below_whole ?_ hcs
      rw [himg, snprintf, ← he, orSlash, if_neg hne]

theorem below_img_root (hw : ∀ c ∈ cs, IsWord slash c) (hb : bestBinding E.ctx (pathStr cs) = none)
    (hm : mountedBinding E.ctx (snprintf pathLen (E.root ++ pathStr cs)) = none) {q : CStr}
    (hs : Stem slash q (E.img cs)) (hlen : E.root.length < q.length) (hl : q.getLast? ≠ some slash) :
    ∃ k, 1 ≤ k ∧ k ≤ cs.length ∧ q = E.img (cs.take k) := by
  have himg : E.img cs = _ := mapToHost_root hb hm
  rw [himg] at hs
  obtain hst | he := stem_take hs
  · exact below_root hw hb hm hst hs hlen hl
  · by_cases hcs : cs = []
    · subst hcs
      rw [he] at hlen
      have hfull := take_eq_of_lt hlen (by simp)
      exact below_root hw hb hm (he.trans hfull ▸ .refl _) hs (he ▸ hlen) hl
    · exact below_whole (he.trans himg.symm) hcs

theorem below_img_mounted (hw : ∀ c ∈ cs, IsWord slash c)
    (hb : bestBinding E.ctx (pathStr cs) = none) {m : Binding}
    (hm : mountedBinding E.ctx (snprintf pathLen (E.root ++ pathStr cs)) = some m) {q : CStr}
    (hs : Stem slash q (E.img cs))
    (hlen : (unlessRoot m.host ++ E.root.drop m.mount.length).length < q.length)
    (hl : q.getLast? ≠ some slash) : ∃ k, 1 ≤ k ∧ k ≤ cs.length ∧ q = E.img (cs.take k) := by
  have hne : q ≠ [] := by
    rintro rfl
    simp at hlen
  obtain ⟨r, hr, hrs⟩ := (mounted_stem hm).2
  have hdrop : (snprintf pathLen (E.root ++ pathStr cs)).drop m.mount.length = r := by
    rw [hr, List.drop_left]
  have himg : E.img cs = orSlash (snprintf pathLen (unlessRoot m.host ++ r)) := by
    rw [WalkEnv.img, mapToHost_mounted hb hm, hdrop]
  rw [List.length_append, List.length_drop] at hlen
  rw [himg] at hs
  have ht := stem_orSlash hs hne hl
  have hq := ht.isPrefix.length_le.trans (length_snprintf_le _ _)
  have hout : Stem slash (m.mount ++ r) (snprintf pathLen (E.root ++ pathStr cs)) := hr ▸ .refl _
  -- a stem of the moved path, with the stem of the path that it stands for
  have hmoved : ∀ v, q = unlessRoot m.host ++ v → Stem slash v r →
      Stem slash (m.mount ++ v) (E.root ++ pathStr cs) →
      ∃ k, 1 ≤ k ∧ k ≤ cs.length ∧ q = E.img (cs.take k) := by
    rintro v rfl hv hst
    have hvne : v ≠ [] := by
      rintro rfl
      rw [List.append_nil] at hlen
      omega
    rw [List.length_append] at hlen
    exact below_mounted hw hb hm hst ((hv.append_left _).trans hout)
      (by rw [List.length_append]; omega) hvne
      (by rwa [List.getLast?_append_of_ne_nil _ hvne] at hl) hq
  -- the whole of the moved path
  have hall : q = unlessRoot m.host ++ r → ∃ k, 1 ≤ k ∧ k ≤ cs.length ∧ q = E.img (cs.take k) := by
    intro he
    by_cases hcs : cs = []
    · subst hcs
      have hlong : E.root.length < (snprintf pathLen (E.root ++ pathStr [])).length := by
        rw [hr, List.length_append]
        rw [he, List.length_append] at hlen
        omega
      have hfull := take_eq_of_lt hlong (by simp)
      exact hmoved r he (.refl r) (hr.symm.trans hfull ▸ .refl _)
    · refine below_whole ?_ hcs
      rw [himg, ← he, orSlash_snprintf hne hq]
  obtain hst | he := stem_take ht
  · obtain ⟨v, hqv, hv⟩ := hst.of_append (by omega)
    obtain hst' | he' := stem_take ((hv.append_left m.mount).trans hout)
    · exact hmoved v hqv hv hst'
    · have hvr : v = r := List.append_cancel_left (he'.trans hr)
      exact hall (hvr ▸ hqv)
  · by_cases hcs : cs = []
    · subst hcs
      have hrl : r.length ≤ E.root.length + 1 - m.mount.length := by
        rw [← hdrop, List.length_drop, snprintf, List.length_take, List.length_append]
        simp only [pathStr_nil, List.length_singleton]
        omega
      rw [he] at hlen
      refine hall (he.trans (take_eq_of_lt hlen ?_))
      rw [List.length_append]
      omega
    · refine below_whole ?_ hcs
      rw [himg, snprintf, ← he, orSlash, if_neg hne]

/-- **Below its base a host path goes through the host paths of the guest path's directories.** -/
theorem below_img (E : WalkEnv) (hw : ∀ c ∈ cs, IsWord slash c) {q : CStr}
    (hs : Stem slash q (E.img cs)) (hlen : (hostBase E.ctx E.root (pathStr cs)).length < q.length)
    (hl : q.getLast? ≠ some slash) : ∃ k, 1 ≤ k ∧ k ≤ cs.length ∧ q = E.img (cs.take k) := by
  unfold hostBase at hlen
  cases hb : bestBinding E.ctx (pathStr cs) with
  | some best =>
    rw [hb] at hlen
    exact below_img_best hw hb hs hlen hl
  | none =>
    rw [hb] at hlen
    cases hm : mountedBinding E.ctx (snprintf pathLen (E.root ++ pathStr cs)) with
    | none =>
      dsimp only at hlen
      rw [hm] at hlen
      exact below_img_root hw hb hm hs hlen hl
    | some m =>
      dsimp only at hlen
      rw [hm] at hlen
      exact below_img_mounted hw hb hm hs hlen hl

end Emuroot
