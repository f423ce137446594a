import Emuroot.Proof.Looks

/-!
# Name spaces that translate alike

`alikeAway_iff`: two name spaces translate alike every guest path that comes near nothing forbidden
exactly when they map alike the straight paths, which have no links on the way. A name space with
nothing to map is unlike all others (`AlikeAway.unmapped_eq`).
-/

namespace Emuroot

open Words Relation

variable {E : WalkEnv} {near : List CStr → Prop} {cs : List CStr} {ctx ctx' : Ctx} {root : CStr}
  {rl : CStr → Option CStr}

/-- The walk over the guest path comes to nothing near. -/
def Avoids (near : List CStr → Prop) (E : WalkEnv) (guest : CStr) : Prop :=
  ∀ cs, LooksAt E guest cs → ¬near cs

/-- A path without links on the way to it, and nothing near on the way. -/
structure Straight (near : List CStr → Prop) (E : WalkEnv) (cs : List CStr) : Prop where
  readable : Readable cs
  passes : ∀ k, 1 ≤ k → k < cs.length → Passes E (cs.take k)
  way : ∀ k, 1 ≤ k → k < cs.length → ¬near (cs.take k)
  away : ¬near cs

/-- The paths that come near nothing are translated alike. -/
def AlikeAway (near : List CStr → Prop) (ctx ctx' : Ctx) (root : CStr) (rl : CStr → Option CStr) :
    Prop :=
  ∀ guest follow, guest.head? = some slash → Avoids near ⟨ctx, root, rl, follow⟩ guest →
    (translatePath ⟨ctx', root, rl, follow⟩ guest pathLen).out =
      (translatePath ⟨ctx, root, rl, follow⟩ guest pathLen).out

theorem Straight.take (h : Straight near E cs) {k : Nat} (hk : 1 ≤ k) (hkl : k < cs.length) :
    Straight near E (cs.take k) where
  readable := h.readable.take k
  passes i hi hik := by
    rw [List.length_take] at hik
    rw [List.take_take, Nat.min_eq_left (by omega)]
    exact h.passes i hi (by omega)
  way i hi hik := by
    rw [List.length_take] at hik
    rw [List.take_take, Nat.min_eq_left (by omega)]
    exact h.way i hi (by omega)
  away := h.way k hk hkl

/-- What is looked at on a way that avoids what is near is straight. -/
theorem Avoids.straight {guest : CStr} (h : Avoids near E guest) (hl : LooksAt E guest cs) :
    Straight near E cs :=
  have ht := hl.trodden
  ⟨ht.readable, ht.passes, fun k hk hkl => h _ (ht.looksAt k hk hkl), h _ hl⟩

/-- A straight path is walked over near nothing, with its last component left as it is. -/
theorem Straight.walked (h : Straight near E cs) (hne : cs ≠ []) (hf : E.followLast = false)
    (hmap : unmapped E.ctx E.root = false) :
    Avoids near E (pathStr cs) ∧ (translatePath E (pathStr cs) pathLen).out = E.img cs := by
  constructor
  · intro ds hl
    obtain ⟨k, hk, hkl, rfl⟩ := looksAt_straight h.readable hf h.passes hne hl
    obtain hlt | rfl := Nat.lt_or_eq_of_le hkl
    · exact h.way k hk hlt
    · rw [List.take_length]
      exact h.away
  · have hs := stopsAt_straight h.readable hf h.passes hne
    rw [translatePath, (translate_stopsAt hs (head?_pathStr cs) hmap 0).1, unwalked_eq]
    rfl

/-- A guest path of nothing but `.` is the host path of `/`, with a slash behind it where there is
one. -/
theorem translate_dots {guest : CStr} (habs : guest.head? = some slash)
    (hdots : ∀ c ∈ words slash (snprintf (2 * pathLen) guest), c = dot)
    (hmap : unmapped E.ctx E.root = false) :
    (translatePath E guest pathLen).out = unwalked E (Point.mk [] [] (endsWithSlash guest) 0).walk := by
  obtain ⟨why, pt, hs⟩ := stopsAt_exists E guest
  rw [translatePath, (translate_stopsAt hs habs hmap 0).1, stopsAt_dots hdots hs]

/-- A straight path that is moved has a shortest directory that is, which is the translation of
itself. -/
theorem AlikeAway.img_eq (h : AlikeAway near ctx ctx' root rl) (hmap : unmapped ctx root = false)
    (hmap' : unmapped ctx' root = false) (hc : Straight near ⟨ctx, root, rl, false⟩ cs) :
    WalkEnv.img ⟨ctx', root, rl, false⟩ cs = WalkEnv.img ⟨ctx, root, rl, false⟩ cs := by
  induction hn : cs.length using Nat.strongRecOn generalizing cs with
  | ind n ih =>
    by_cases hne : cs = []
    · subst hne
      have hdots : ∀ c ∈ words slash (snprintf (2 * pathLen) (slash :: dot)), c = dot := by decide
      have hkeep := h (slash :: dot) false rfl fun cs hl => looksAt_dots hdots hl ▸ hc.away
      rw [translate_dots rfl hdots hmap', translate_dots rfl hdots hmap, unwalked_eq,
        unwalked_eq] at hkeep
      exact hkeep
    · obtain ⟨haway, hout⟩ := hc.walked hne rfl hmap
      have hkeep := h (pathStr cs) false (head?_pathStr cs) haway
      -- its own directories stay, so that the walk comes to it in both
      have hway : ∀ k, 1 ≤ k → k < cs.length → Passes ⟨ctx', root, rl, false⟩ (cs.take k) := by
        intro k hk hkl
        have hp := hc.passes k hk hkl
        have hi := ih k (by omega) (hc.take hk hkl) (by rw [List.length_take]; omega)
        rw [Passes] at hp ⊢
        rwa [hi]
      have hs' := stopsAt_straight (E := ⟨ctx', root, rl, false⟩) hc.readable rfl hway hne
      rw [hout, translatePath, (translate_stopsAt hs' (head?_pathStr cs) hmap' 0).1,
        unwalked_eq] at hkeep
      exact hkeep

/-- **Name spaces translate alike the paths away from what is near** exactly when they map alike the
straight ones. -/
theorem alikeAway_iff (hmap : unmapped ctx root = false) (hmap' : unmapped ctx' root = false) :
    AlikeAway near ctx ctx' root rl ↔ ∀ cs, Straight near ⟨ctx, root, rl, true⟩ cs →
      mapToHost ctx' root (pathStr cs) pathLen = mapToHost ctx root (pathStr cs) pathLen := by
  constructor
  · intro h cs hc
    exact h.img_eq hmap hmap' ⟨hc.readable, hc.passes, hc.way, hc.away⟩
  · intro h guest follow habs haway
    refine translate_congr ⟨rfl, rfl⟩ habs hmap hmap' fun cs hl => ?_
    have hc := haway.straight hl
    exact h cs ⟨hc.readable, hc.passes, hc.way, hc.away⟩

theorem slashes_shape : ∀ guest ∈ [cstr "//", cstr "///"], guest.head? = some slash ∧
    guest.length < pathLen ∧ endsWithSlash guest = true ∧
    ∀ c ∈ words slash (snprintf (2 * pathLen) guest), c = dot := by
  decide

theorem unmapped_unlike {ctx₁ ctx₂ : Ctx} (hmap : unmapped ctx₁ root = true)
    (hmap' : unmapped ctx₂ root = false)
    (h : ∀ guest ∈ [cstr "//", cstr "///"],
      (translatePath ⟨ctx₂, root, rl, false⟩ guest pathLen).out =
        (translatePath ⟨ctx₁, root, rl, false⟩ guest pathLen).out) : False := by
  -- two names of `/` are told apart in the one, and are not in the other
  have hout : ∀ guest ∈ [cstr "//", cstr "///"],
      unwalked ⟨ctx₂, root, rl, false⟩ (Point.mk [] [] true 0).walk = guest := by
    intro guest hg
    have hkeep := h guest hg
    obtain ⟨habs, hlen, hend, hdots⟩ := slashes_shape guest hg
    rw [translate_dots habs hdots hmap', hend, translatePath, translatePathEx, if_pos (.inr hmap)]
      at hkeep
    rw [hkeep, snprintf_of_lt hlen]
  have h1 := hout (cstr "//") (by decide)
  have h2 := hout (cstr "///") (by decide)
  exact absurd (h1.symm.trans h2) (by decide)

/-- Name spaces that are alike at `/` both have something to map, or neither. -/
theorem AlikeAway.unmapped_eq (h : AlikeAway near ctx ctx' root rl) (hroot : ¬near []) :
    unmapped ctx' root = unmapped ctx root := by
  have hslashes : ∀ guest ∈ [cstr "//", cstr "///"],
      (translatePath ⟨ctx', root, rl, false⟩ guest pathLen).out =
        (translatePath ⟨ctx, root, rl, false⟩ guest pathLen).out := by
    intro guest hg
    obtain ⟨habs, -, -, hdots⟩ := slashes_shape guest hg
    exact h guest false habs fun cs hl => looksAt_dots hdots hl ▸ hroot
  cases hmap : unmapped ctx root with
  | true =>
    by_contra hmap'
    exact unmapped_unlike hmap (by simpa using hmap') hslashes
  | false =>
    by_contra hmap'
    exact unmapped_unlike (by simpa using hmap') hmap fun guest hg => (hslashes guest hg).symm

end Emuroot
