import Emuroot.Proof.MountFrame
import Mathlib.Data.List.DropRight

/-!
# Mounts and the paths elsewhere

`mount_elsewhere_iff`: a mount or umount of one process leaves the paths of another that do not lead
to its target where they are exactly when the binding takes none of them by its guest name, which is
the first process's, and nothing at or below the target sends one of them elsewhere than before.
-/

namespace Emuroot

open Words Relation

variable {nb : Binding} {ctx ctx' : Ctx} {root T guest : CStr} {E E' : WalkEnv} {cs : List CStr}
  {rl : CStr → Option CStr}

/-! ## Away from the target -/

/-- At or below the directory `T`, on the host. -/
def AtOrBelow (T p : CStr) : Prop := Stem slash (T.rdropWhile (· == slash)) p

instance (T p : CStr) : Decidable (AtOrBelow T p) := decidable_of_iff _ hasPrefix_iff_stem

theorem AtOrBelow.trans {p q : CStr} (h : AtOrBelow T p) (hq : Stem slash p q) : AtOrBelow T q :=
  Stem.trans h hq

/-- What is at or below a directory has its name in front. -/
theorem atOrBelow_of_slash (h : T.rdropWhile (· == slash) = []) {p : CStr}
    (hp : p.head? = some slash) : AtOrBelow T p := by
  rw [AtOrBelow, h]
  exact ⟨p, rfl, fun a ha => (Option.some.inj (hp.symm.trans ha)).symm⟩

/-- Slashes alone are only below `/`. -/
theorem atOrBelow_slashes {p : CStr} (hp : ∀ a ∈ p, a = slash) (h : AtOrBelow T p) :
    T.rdropWhile (· == slash) = [] := by
  by_contra hne
  have hlast := List.rdropWhile_last_not (· == slash) T hne
  have hmem := h.isPrefix.subset (List.getLast_mem hne)
  simp [hp _ hmem] at hlast

theorem atOrBelow_slash : AtOrBelow T [slash] ↔ T.rdropWhile (· == slash) = [] :=
  ⟨atOrBelow_slashes (by simp), fun h => atOrBelow_of_slash h rfl⟩

/-- Where the walk stops at or below `T`, its result is there too. -/
theorem atOrBelow_unwalked {pt : Point} (h : AtOrBelow T (E.img pt.cs)) :
    AtOrBelow T (unwalked E pt.walk) := by
  have hj : AtOrBelow T (pt.joined E) := by
    obtain ⟨hj, -⟩ | ⟨hj, he⟩ | hj := joined_eq E pt
    · rwa [hj]
    · -- the host path has its slash already
      obtain ⟨t, ht⟩ := endsWithSlash_iff.1 he
      rw [hj]
      by_cases heq : T.rdropWhile (· == slash) = t ++ [slash]
      · have hlast := List.rdropWhile_last_not (· == slash) T (by rw [heq]; simp)
        simp [heq] at hlast
      · obtain ⟨r, hr, hs⟩ := h
        rw [ht] at hr
        cases r with
        | nil => exact absurd (by simpa using hr.symm) heq
        | cons a r => exact ⟨a :: r ++ pt.unread E, by rw [ht, hr, List.append_assoc], by simpa using hs⟩
    · rw [hj]
      exact h.trans ⟨_, rfl, by simp⟩
  obtain hw | hw := unwalked_walk E pt
  · rwa [hw]
  · rw [hw]
    exact hj.trans ⟨_, rfl, by simp⟩

/-- A path away from `T`, without links on the way to it. What of the way is at or below `T` sends
the walk on as before. -/
structure Clear (E E' : WalkEnv) (T : CStr) (cs : List CStr) : Prop where
  readable : Readable cs
  passes : ∀ k, 1 ≤ k → k < cs.length → Passes E (cs.take k)
  way : ∀ k, 1 ≤ k → k < cs.length → AtOrBelow T (E.img (cs.take k)) → GoesOn E E' (cs.take k)
  away : ¬AtOrBelow T (E.img cs)

/-- The walk comes past something at or below `T` that sends it on otherwise than before: another
symlink, a symlink in place of none or none in place of one, or the one time the host's `/proc`. -/
def Diverted (E E' : WalkEnv) (T guest : CStr) : Prop :=
  ∃ cs, LooksAt E guest cs ∧ AtOrBelow T (E.img cs) ∧ ¬GoesOn E E' cs

theorem Clear.take (h : Clear E E' T cs) {k : Nat} (hkl : k < cs.length)
    (haway : ¬AtOrBelow T (E.img (cs.take k))) : Clear E E' T (cs.take k) where
  readable := h.readable.take k
  passes i hi hik := by
    rw [List.length_take] at hik
    rw [List.take_take, Nat.min_eq_left (by omega)]
    exact h.passes i hi (by omega)
  way i hi hik := by
    rw [List.length_take] at hik
    rw [List.take_take, Nat.min_eq_left (by omega)]
    exact h.way i hi (by omega)
  away := haway

/-- What a walk that is not diverted looks at is clear, but for what is at or below `T`. -/
theorem LooksAt.clear (hl : LooksAt E guest cs) (hn : ¬Diverted E E' T guest)
    (haway : ¬AtOrBelow T (E.img cs)) : Clear E E' T cs :=
  have ht := hl.trodden
  ⟨ht.readable, ht.passes, fun k hk hkl hb => by_contra fun hg =>
    hn ⟨_, ht.looksAt k hk hkl, hb, hg⟩, haway⟩

/-! ## What the binding must not take -/

/-- The binding takes no path away from the target and diverts none, but to where that is anyway; and
it does not make a name space of its own, unless everything is below the target. -/
structure Spares (nb : Binding) (T : CStr) (ctx ctx' : Ctx) (root : CStr)
    (rl : CStr → Option CStr) : Prop where
  names : ∀ cs, Clear ⟨ctx, root, rl, true⟩ ⟨ctx', root, rl, true⟩ T cs →
    Takes nb ctx' root (pathStr cs) →
    mapToHost ctx' root (pathStr cs) pathLen = mapToHost ctx root (pathStr cs) pathLen
  detours : ∀ guest follow, guest.head? = some slash →
    Diverted ⟨ctx, root, rl, follow⟩ ⟨ctx', root, rl, follow⟩ T guest →
    ¬AtOrBelow T (translatePath ⟨ctx, root, rl, follow⟩ guest pathLen).out →
    (translatePath ⟨ctx', root, rl, follow⟩ guest pathLen).out =
      (translatePath ⟨ctx, root, rl, follow⟩ guest pathLen).out
  mapped : unmapped ctx root = true → AtOrBelow T [slash]

/-- The paths that do not lead to `T` stay where they are. -/
def KeepsElsewhere (T : CStr) (ctx ctx' : Ctx) (root : CStr) (rl : CStr → Option CStr) : Prop :=
  ∀ guest follow, guest.head? = some slash →
    ¬AtOrBelow T (translatePath ⟨ctx, root, rl, follow⟩ guest pathLen).out →
    (translatePath ⟨ctx', root, rl, follow⟩ guest pathLen).out =
      (translatePath ⟨ctx, root, rl, follow⟩ guest pathLen).out

theorem Spares.img_eq (he : Extends nb ctx ctx') (h : Spares nb T ctx ctx' root rl)
    (hc : Clear ⟨ctx, root, rl, true⟩ ⟨ctx', root, rl, true⟩ T cs) :
    mapToHost ctx' root (pathStr cs) pathLen = mapToHost ctx root (pathStr cs) pathLen := by
  by_cases ht : Takes nb ctx' root (pathStr cs)
  · exact h.names cs hc ht
  · exact mapToHost_extends he ht

/-- A walk that is not diverted comes to the same place. -/
theorem Spares.keeps (he : Extends nb ctx ctx') (h : Spares nb T ctx ctx' root rl)
    (hmap : unmapped ctx root = false) : KeepsElsewhere T ctx ctx' root rl := by
  intro guest follow habs haway
  by_cases hd : Diverted ⟨ctx, root, rl, follow⟩ ⟨ctx', root, rl, follow⟩ T guest
  · exact h.detours guest follow habs hd haway
  have himg : ∀ cs, LooksAt ⟨ctx, root, rl, follow⟩ guest cs →
      ¬AtOrBelow T (WalkEnv.img ⟨ctx, root, rl, follow⟩ cs) →
      WalkEnv.img ⟨ctx', root, rl, follow⟩ cs = WalkEnv.img ⟨ctx, root, rl, follow⟩ cs := by
    intro cs hl hb
    have hc := hl.clear hd hb
    exact h.img_eq he ⟨hc.readable, hc.passes, fun k hk hkl hb =>
      ⟨(hc.way k hk hkl hb).proc, (hc.way k hk hkl hb).link⟩, hc.away⟩
  have hE : SameWalk ⟨ctx, root, rl, follow⟩ ⟨ctx', root, rl, follow⟩ := ⟨rfl, rfl⟩
  have hon : ∀ cs, LooksAt ⟨ctx, root, rl, follow⟩ guest cs →
      GoesOn ⟨ctx, root, rl, follow⟩ ⟨ctx', root, rl, follow⟩ cs := by
    intro cs hl
    by_cases hb : AtOrBelow T (WalkEnv.img ⟨ctx, root, rl, follow⟩ cs)
    · exact by_contra fun hg => hd ⟨cs, hl, hb, hg⟩
    · exact .of_img_eq hE (himg cs hl hb)
  obtain ⟨why, pt, hs⟩ := stopsAt_exists ⟨ctx, root, rl, follow⟩ guest
  have hs' := hs.congr hE hon
  have hout := (translate_stopsAt hs habs hmap 0).1
  rw [translatePath] at haway
  rw [translatePath, translatePath, hout, (translate_stopsAt hs' habs he.unmapped 0).1]
  rw [hout] at haway
  exact unwalked_congr (himg _ (.inr ⟨why, pt, hs, rfl⟩) fun hb => haway (atOrBelow_unwalked hb))

/-- A clear path is the translation of itself, and so are the directories on the way that are not at
or below the target. -/
theorem KeepsElsewhere.img_eq (h : KeepsElsewhere T ctx ctx' root rl)
    (hmap : unmapped ctx root = false) (hmap' : unmapped ctx' root = false)
    (hc : Clear ⟨ctx, root, rl, false⟩ ⟨ctx', root, rl, false⟩ T cs) :
    WalkEnv.img ⟨ctx', root, rl, false⟩ cs = WalkEnv.img ⟨ctx, root, rl, false⟩ cs := by
  induction hn : cs.length using Nat.strongRecOn generalizing cs with
  | ind n ih =>
    by_cases hne : cs = []
    · subst hne
      have hdots : ∀ c ∈ words slash (snprintf (2 * pathLen) (slash :: dot)), c = dot := by decide
      have hout : ∀ {ctx₁ : Ctx}, unmapped ctx₁ root = false →
          (translatePath ⟨ctx₁, root, rl, false⟩ (slash :: dot) pathLen).out =
            WalkEnv.img ⟨ctx₁, root, rl, false⟩ [] := by
        intro ctx₁ hm
        rw [translate_dots rfl hdots hm, unwalked_eq]
        rfl
      have hkeep := h (slash :: dot) false rfl (by rw [hout hmap]; exact hc.away)
      rwa [hout hmap, hout hmap'] at hkeep
    · have hway : ∀ k, 1 ≤ k → k < cs.length → Passes ⟨ctx', root, rl, false⟩ (cs.take k) := by
        intro k hk hkl
        have hp := hc.passes k hk hkl
        have hon : GoesOn ⟨ctx, root, rl, false⟩ ⟨ctx', root, rl, false⟩ (cs.take k) := by
          by_cases hb : AtOrBelow T (WalkEnv.img ⟨ctx, root, rl, false⟩ (cs.take k))
          · exact hc.way k hk hkl hb
          · exact .of_img_eq ⟨rfl, rfl⟩
              (ih k (by omega) (hc.take hkl hb) (by rw [List.length_take]; omega))
        exact ⟨hon.proc.trans hp.1, (hon.link hp.1).trans hp.2⟩
      have hs := stopsAt_straight hc.readable (E := ⟨ctx, root, rl, false⟩) rfl hc.passes hne
      have hs' := stopsAt_straight hc.readable (E := ⟨ctx', root, rl, false⟩) rfl hway hne
      have hout : (translatePath ⟨ctx, root, rl, false⟩ (pathStr cs) pathLen).out =
          WalkEnv.img ⟨ctx, root, rl, false⟩ cs := by
        rw [translatePath, (translate_stopsAt hs (head?_pathStr cs) hmap 0).1, unwalked_eq]
        rfl
      have hkeep := h (pathStr cs) false (head?_pathStr cs) (by rw [hout]; exact hc.away)
      rw [hout, translatePath, (translate_stopsAt hs' (head?_pathStr cs) hmap' 0).1,
        unwalked_eq] at hkeep
      exact hkeep

theorem translate_unmapped (hmap : unmapped E.ctx E.root = true) :
    (translatePath E guest pathLen).out = snprintf pathLen guest := by
  rw [translatePath, translatePathEx, if_pos (.inr hmap)]

theorem KeepsElsewhere.mapped (he : Extends nb ctx ctx') (h : KeepsElsewhere T ctx ctx' root rl)
    (hmap : unmapped ctx root = true) : AtOrBelow T [slash] := by
  by_contra hT
  refine unmapped_unlike hmap he.unmapped fun guest hg =>
    h guest false (slashes_shape guest hg).1 fun hb => hT ?_
  have hslashes : ∀ guest ∈ [cstr "//", cstr "///"], ∀ a ∈ snprintf pathLen guest, a = slash := by
    decide +kernel
  rw [translate_unmapped hmap] at hb
  exact atOrBelow_slash.2 (atOrBelow_slashes (hslashes guest hg) hb)

variable {w : Nat} {σ : Type} {P : Platform w σ} {s : St w σ} {a : Action}

end Emuroot
