import Emuroot.Lib.Resolver
import Emuroot.Proof.Looks

/-!
# The walk is the textbook resolver

The walk over a guest path and the resolver over its items in step (`Abreast`): `Abreast.turn` for a
round that goes on and `Abreast.halt` for the one that stops, as long as everything met fits its
buffer, lies outside of `/proc` and takes 40 links at most (`Smooth`). **`translate_resolves`**:
then the results of
`emuroot_translate_path_ex` are those of the resolver.
-/

namespace Emuroot

open Words Relation
open Resolver (Reading Reaches Resolves)

variable {E : WalkEnv} {pt pt' : Point} {why : Why} {guest : CStr} {r : Reading Byte}

/-- Guest paths, each looked up at its host path. -/
def WalkEnv.space (E : WalkEnv) : Resolver.Space Byte where
  sep := slash
  here := dot
  up := dotdot
  link cs := E.rl (E.img cs)
  followLast := E.followLast

/-- The path with a slash at its end, if there is none yet. -/
def withSlash (p : CStr) : CStr := if endsWithSlash p then p else p ++ [slash]

/-- The host path of a resolved path, with the slash that is left behind it. -/
def WalkEnv.hostOf (E : WalkEnv) (goal : List CStr × Bool) : CStr :=
  if goal.2 then withSlash (E.img goal.1) else E.img goal.1

/-- What the resolver meets next fits its buffer, and where it is looked up it is not under `/proc`
and no 41st link; and so does the host path that it leads to. -/
structure Smooth (E : WalkEnv) (r : Reading Byte) : Prop where
  fits : ∀ c ∈ r.items.head?, IsName c → c.length ≤ 255 ∧ (pathStr (r.dir ++ [c])).length < pathLen
  look : ∀ c ∈ r.items.head?, IsName c → (r.items.tail ≠ [] ∨ E.followLast = true) →
    underProc (E.img (r.dir ++ [c])) = false ∧
    ∀ target ∈ E.rl (E.img (r.dir ++ [c])),
      r.links < maxSymlinkHops ∧ target ≠ [] ∧ target.length < pathLen ∧
        (target ++ glue slash r.items.tail).length < 2 * pathLen
  goal : ∀ goal ∈ (Resolver.step E.space r).getRight?, (E.hostOf goal).length < pathLen

instance (E : WalkEnv) (r : Reading Byte) : Decidable (Smooth E r) :=
  decidable_of_iff (_ ∧ _ ∧ _) ⟨fun ⟨h1, h2, h3⟩ => ⟨h1, h2, h3⟩, fun h => ⟨h.fits, h.look, h.goal⟩⟩

/-! ## The two in step -/

/-- The walk stands where the resolver does, behind its empty items. -/
structure Abreast (pt : Point) (r : Reading Byte) : Prop where
  cs : pt.cs = r.dir
  hops : pt.hops = r.links
  text : pt.text.dropWhile (· == slash) = (glue slash r.items).dropWhile (· == slash)
  items : ∀ i ∈ r.items, slash ∉ i
  trailing : pt.trailing = r.ends
  read : r.items.head? ≠ some []

/-- A slash at the end of a text, and of its items. -/
theorem endsWithSlash_append_glue (l : CStr) {rest : List CStr} (hrest : ∀ i ∈ rest, slash ∉ i)
    (hne : l ++ glue slash rest ≠ []) (dir : List CStr) (n : Nat) (b : Bool) :
    endsWithSlash (l ++ glue slash rest) = Reading.ends ⟨dir, l.splitOn slash ++ rest, n, b⟩ := by
  have hlast := getLast?_splitOn slash hne
  rw [splitOn_append_glue l hrest] at hlast
  obtain ⟨w, hw⟩ := Option.ne_none_iff_exists'.1 (mt List.getLast?_eq_none_iff.1
    (List.append_ne_nil_of_left_ne_nil (List.splitOn_ne_nil slash l) rest))
  rw [hw, Option.some.injEq] at hlast
  rw [Reading.ends, hw, endsWithSlash, Bool.eq_iff_iff, beq_iff_eq, ← hlast]
  exact List.isEmpty_iff.symm

theorem dropWhile_glue (items : List CStr) :
    (glue slash items).dropWhile (· == slash) =
      (glue slash (items.dropWhile (· = []))).dropWhile (· == slash) := by
  induction items with
  | nil => rfl
  | cons c items ih =>
    by_cases hc : c = []
    · subst hc
      rw [glue_cons, List.singleton_append, List.dropWhile_cons_of_pos (by rfl), ih,
        List.dropWhile_cons_of_pos (by simp)]
    · rw [List.dropWhile_cons_of_neg (by simpa using hc)]

/-- Behind its empty items the resolver is in step with the walk. -/
theorem abreast_skip (E : WalkEnv) (pt : Point) (r : Reading Byte)
    (hcs : pt.cs = r.dir) (hops : pt.hops = r.links)
    (htext : pt.text.dropWhile (· == slash) = (glue slash r.items).dropWhile (· == slash))
    (hitems : ∀ i ∈ r.items, slash ∉ i) (htr : pt.trailing = r.ends) :
    ∃ r', Reaches E.space r r' ∧ Abreast pt r' := by
  obtain ⟨r', hr, hdir, hlinks, hends, hskip⟩ := Resolver.reaches_skip E.space r
  refine ⟨r', hr, hcs.trans hdir.symm, hops.trans hlinks.symm, ?_, fun i hi => ?_,
    htr.trans hends.symm, ?_⟩
  · rw [htext, hskip]
    exact dropWhile_glue r.items
  · rw [hskip] at hi
    exact hitems i ((List.dropWhile_sublist _).subset hi)
  · rw [hskip]
    intro h
    have := List.head?_dropWhile_not (fun i : CStr => decide (i = [])) r.items
    rw [h] at this
    simp at this

/-- What the walk reads next. -/
theorem Abreast.next (h : Abreast pt r) :
    r.items = [] ∧ nextComp pt.text = [] ∨
    ∃ c rest, r.items = c :: rest ∧ IsWord slash c ∧ nextComp pt.text = c.take 255 ∧
      afterComp pt.text = glue slash rest := by
  cases hitems : r.items with
  | nil =>
    refine .inl ⟨rfl, nextComp_eq_nil.2 ?_⟩
    rw [h.text, hitems]
    rfl
  | cons c rest =>
    have hc : IsWord slash c := by
      refine ⟨?_, h.items c (hitems ▸ List.mem_cons_self)⟩
      rintro rfl
      exact h.read (hitems ▸ rfl)
    refine .inr ⟨c, rest, rfl, hc, ?_⟩
    obtain ⟨a, t, rfl⟩ := List.exists_cons_of_ne_nil hc.ne_nil
    have ha : (a == slash) = false := by
      simpa using fun h : a = slash => hc.sep_not_mem (h ▸ List.mem_cons_self)
    have htext : pt.text.dropWhile (· == slash) = a :: t ++ glue slash rest := by
      rw [h.text, hitems, glue_cons, List.cons_append, List.dropWhile_cons_of_pos (by rfl),
        List.cons_append, List.dropWhile_cons_of_neg (by simp [ha])]
    have hall : ∀ x ∈ a :: t, (x != slash) = true := fun x hx => by
      simpa using fun h : x = slash => hc.sep_not_mem (h ▸ hx)
    have hglue : (glue slash rest).takeWhile (· != slash) = [] ∧
        (glue slash rest).dropWhile (· != slash) = glue slash rest := by
      cases rest with
      | nil => exact ⟨rfl, rfl⟩
      | cons d rest => exact ⟨rfl, rfl⟩
    rw [nextComp, afterComp, htext, List.takeWhile_append_of_pos hall, List.dropWhile_append_of_pos hall,
      hglue.1, hglue.2, List.append_nil]
    exact ⟨rfl, rfl⟩

/-- An item that is a name, and what the walk makes of it. -/
theorem Abreast.name (h : Abreast pt r) (hp : Smooth E r) {c : CStr} (hc : nextComp pt.text = c)
    (hn : IsName c) : ∃ rest, r.items = c :: rest ∧ afterComp pt.text = glue slash rest := by
  obtain ⟨-, h0⟩ | ⟨d, rest, hitems, hd, hnext, hafter⟩ := h.next
  · exact absurd (hc.symm.trans h0) hn.word.ne_nil
  · have hshort (e : CStr) (he : e.length < 255) (h0 : c ≠ e) : d ≠ e := by
      rintro rfl
      rw [List.take_of_length_le (Nat.le_of_lt he)] at hnext
      exact h0 (hc.symm.trans hnext)
    have hdn : IsName d := ⟨hd, hshort dot (by decide) hn.ne_dot, hshort dotdot (by decide) hn.ne_dotdot⟩
    obtain ⟨hlen, -⟩ := hp.fits d (hitems ▸ rfl) hdn
    rw [List.take_of_length_le hlen, hc] at hnext
    exact ⟨rest, hnext ▸ hitems, hafter⟩

/-- The walk takes the next component for the last one exactly if no text follows it. -/
theorem Abreast.isLast (h : Abreast pt r) {c : CStr} {rest : List CStr} (hitems : r.items = c :: rest)
    (hafter : afterComp pt.text = glue slash rest) : pt.isLast ↔ rest = [] := by
  constructor
  · rintro (h0 | ⟨hall, htr⟩)
    · rw [hafter] at h0
      exact glue_eq_nil.1 h0
    · by_contra hne
      have hfree : ∀ i ∈ rest, slash ∉ i := fun i hi => h.items i (hitems ▸ List.mem_cons_of_mem _ hi)
      have hglue : [] ++ glue slash rest ≠ [] := fun h0 => hne (glue_eq_nil.1 h0)
      -- slashes only, so the text ends with one
      have hend : endsWithSlash ([] ++ glue slash rest) = true := by
        obtain ⟨a, ha⟩ := Option.ne_none_iff_exists'.1 (mt List.getLast?_eq_none_iff.1 hglue)
        rw [hafter, List.all_eq_true] at hall
        rw [endsWithSlash, ha, beq_iff_eq, beq_iff_eq.1 (hall a (List.mem_of_getLast? ha))]
      have htrue : r.ends = true := by
        rw [endsWithSlash_append_glue [] hfree hglue r.dir r.links r.slash, List.splitOn_nil,
          List.singleton_append, Resolver.ends_cons _ r.dir _ _ _ r.links] at hend
        rw [← hend, show r = ⟨r.dir, c :: rest, r.links, r.slash⟩ by rw [← hitems],
          Resolver.ends_cons _ r.dir _ _ _ r.links]
        exact Resolver.ends_congr hne ..
      rw [h.trailing, htrue] at htr
      cases htr
  · rintro rfl
    exact .inl hafter

theorem step_name {dir rest : List CStr} {c : CStr} {n : Nat} {b : Bool} (hn : IsName c) :
    Resolver.step E.space ⟨dir, c :: rest, n, b⟩ =
      if rest = [] ∧ E.followLast = false then .inr (dir ++ [c], false)
      else
        match E.rl (E.img (dir ++ [c])) with
        | none => .inl ⟨dir ++ [c], rest, n, false⟩
        | some target =>
          .inl ⟨if target.head? = some slash then [] else dir, target.splitOn slash ++ rest, n + 1,
            false⟩ := by
  have hlink : E.space.link (dir ++ [c]) = E.rl (E.img (dir ++ [c])) := rfl
  unfold Resolver.step
  dsimp only
  rw [if_neg hn.word.ne_nil, if_neg (show c ≠ E.space.here from hn.ne_dot),
    if_neg (show c ≠ E.space.up from hn.ne_dotdot), hlink]
  cases E.rl (E.img (dir ++ [c])) with
  | none => rfl
  | some target => rfl

/-- What is still to be read. -/
theorem reading_eq {c : CStr} {rest : List CStr} (hitems : r.items = c :: rest) :
    r = ⟨r.dir, c :: rest, r.links, r.slash⟩ := by rw [← hitems]

/-- An item that is skipped or goes up. -/
theorem Abreast.item (h : Abreast pt r) {c : CStr} (hc : c.length < 255) (hne : c ≠ [])
    (hnext : nextComp pt.text = c) :
    ∃ rest, r.items = c :: rest ∧ afterComp pt.text = glue slash rest := by
  obtain ⟨-, h0⟩ | ⟨d, rest, hitems, -, hd, hafter⟩ := h.next
  · exact absurd (hnext.symm.trans h0) hne
  · have hlen := congrArg List.length (hd.symm.trans hnext)
    rw [List.length_take] at hlen
    rw [List.take_of_length_le (by omega)] at hd
    exact ⟨rest, by rw [hitems, ← hd, hnext], hafter⟩

theorem Abreast.trailing_eq (h : Abreast pt r) {c : CStr} {rest : List CStr}
    (hitems : r.items = c :: rest)
    (hne : c ≠ []) (dir : List CStr) (n : Nat) : pt.trailing = Reading.ends ⟨dir, rest, n, false⟩ := by
  rw [h.trailing, reading_eq hitems, Resolver.ends_cons r.dir dir c rest r.links n,
    List.isEmpty_eq_false_iff.2 hne]

/-- A link that the walk looks through is not the last item, or is to be followed. -/
theorem Abreast.looks (h : Abreast pt r) {c : CStr} {rest : List CStr} (hitems : r.items = c :: rest)
    (hafter : afterComp pt.text = glue slash rest) (hl : ¬(pt.isLast ∧ E.followLast = false)) :
    rest ≠ [] ∨ E.followLast = true := by
  by_contra hno
  rw [not_or, not_not, Bool.not_eq_true] at hno
  exact hl ⟨(h.isLast hitems hafter).2 hno.1, hno.2⟩

/-- The walk goes on, and the resolver with it. -/
theorem Abreast.turn (h : Abreast pt r) (hp : Smooth E r) (ht : Turn E pt pt') :
    ∃ r', Reaches E.space r r' ∧ Abreast pt' r' := by
  have hfree : ∀ {c rest}, r.items = c :: rest → ∀ i ∈ rest, slash ∉ i := fun hitems i hi =>
    h.items i (hitems ▸ List.mem_cons_of_mem _ hi)
  cases ht with
  | here hnext =>
    obtain ⟨rest, hitems, hafter⟩ := h.item (by decide) (by decide) hnext
    have hstep : Resolver.step E.space r = .inl ⟨r.dir, rest, r.links, false⟩ := by
      rw [reading_eq hitems]
      rfl
    obtain ⟨r', hreach, hread⟩ := abreast_skip E { pt with text := afterComp pt.text }
      ⟨r.dir, rest, r.links, false⟩ h.cs h.hops (by rw [hafter]) (hfree hitems)
      (h.trailing_eq hitems (by decide) r.dir r.links)
    exact ⟨r', .head hstep hreach, hread⟩
  | up hnext =>
    obtain ⟨rest, hitems, hafter⟩ := h.item (by decide) (by decide) hnext
    have hstep : Resolver.step E.space r = .inl ⟨r.dir.dropLast, rest, r.links, false⟩ := by
      rw [reading_eq hitems]
      rfl
    obtain ⟨r', hreach, hread⟩ := abreast_skip E
      { pt with cs := pt.cs.dropLast, text := afterComp pt.text }
      ⟨r.dir.dropLast, rest, r.links, false⟩ (congrArg List.dropLast h.cs) h.hops (by rw [hafter])
      (hfree hitems) (h.trailing_eq hitems (by decide) r.dir.dropLast r.links)
    exact ⟨r', .head hstep hreach, hread⟩
  | @down c hc hl hpr hrl =>
    obtain ⟨rest, hitems, hafter⟩ := h.name hp hc.comp hc.name
    rw [h.isLast hitems hafter] at hl
    have hstep : Resolver.step E.space r = .inl ⟨r.dir ++ [c], rest, r.links, false⟩ := by
      rw [h.cs] at hrl
      rw [reading_eq hitems, step_name hc.name, if_neg hl, hrl]
    obtain ⟨r', hreach, hread⟩ := abreast_skip E (pt.push c) ⟨r.dir ++ [c], rest, r.links, false⟩
      (congrArg (· ++ [c]) h.cs) h.hops (by rw [Point.push, hafter]) (hfree hitems)
      (h.trailing_eq hitems hc.name.word.ne_nil (r.dir ++ [c]) r.links)
    exact ⟨r', .head hstep hreach, hread⟩
  | @link c target hc hl hpr hrl hh =>
    obtain ⟨rest, hitems, hafter⟩ := h.name hp hc.comp hc.name
    have hlook := h.looks hitems hafter hl
    rw [h.isLast hitems hafter] at hl
    rw [h.cs] at hrl
    have hsmooth := hp.look c (hitems ▸ rfl) hc.name
    rw [hitems, List.tail_cons] at hsmooth
    obtain ⟨-, hne, hlen, htail⟩ := (hsmooth hlook).2 target hrl
    have hstep : Resolver.step E.space r = .inl ⟨if target.head? = some slash then [] else r.dir,
        target.splitOn slash ++ rest, r.links + 1, false⟩ := by
      rw [reading_eq hitems, step_name hc.name, if_neg hl, hrl]
    have htarget : target.take (pathLen - 1) = target := List.take_of_length_le (by omega)
    have hfollow : pt.follow target = ⟨if target.head? = some slash then [] else pt.cs,
        target ++ glue slash rest, endsWithSlash (target ++ glue slash rest), pt.hops + 1⟩ := by
      rw [Point.follow, htarget, hafter, snprintf_of_lt htail]
    obtain ⟨r', hreach, hread⟩ := abreast_skip E (pt.follow target)
      ⟨if target.head? = some slash then [] else r.dir, target.splitOn slash ++ rest, r.links + 1, false⟩
      (by rw [hfollow, h.cs]) (by rw [hfollow, h.hops])
      (by rw [hfollow, glue_append, glue_splitOn, List.cons_append, List.dropWhile_cons_of_pos (by rfl)])
      (fun i hi => (List.mem_append.1 hi).elim sep_not_mem_splitOn (hfree hitems i))
      (by rw [hfollow]; exact endsWithSlash_append_glue target (hfree hitems)
            (List.append_ne_nil_of_left_ne_nil hne _) _ _ _)
    exact ⟨r', .head hstep hreach, hread⟩

/-- The walk stops, and the resolver with it. -/
theorem Abreast.halt (h : Abreast pt r) (hg : pt.Good) (hp : Smooth E r) (hh : Halt E pt why pt') :
    Resolver.step E.space r = .inr (pt'.cs, pt'.trailing) ∧ pt'.text = [] := by
  have hlook : ∀ {c rest}, r.items = c :: rest → afterComp pt.text = glue slash rest →
      ¬(pt.isLast ∧ E.followLast = false) → r.items.tail ≠ [] ∨ E.followLast = true := by
    intro c rest hitems hafter hl
    rw [hitems, List.tail_cons]
    exact h.looks hitems hafter hl
  cases hh with
  | done h0 =>
    obtain ⟨hitems, -⟩ | ⟨c, rest, hitems, hc, hnext, -⟩ := h.next
    · have hends : r.ends = r.slash := by rw [Reading.ends, hitems]; rfl
      refine ⟨?_, rfl⟩
      rw [Resolver.step, hitems]
      dsimp only
      rw [h.cs, h.trailing, hends]
    · rw [hnext] at h0
      obtain h0 | h0 := List.take_eq_nil_iff.1 h0
      · exact absurd h0 (by decide)
      · exact absurd h0 hc.ne_nil
  | @last c hc hl hf =>
    obtain ⟨rest, hitems, hafter⟩ := h.name hp hc.comp hc.name
    have hrest : rest = [] := (h.isLast hitems hafter).1 hl
    subst hrest
    refine ⟨?_, hafter⟩
    have htr := h.trailing_eq hitems hc.name.word.ne_nil r.dir r.links
    rw [reading_eq hitems, step_name hc.name, if_pos ⟨rfl, hf⟩, Point.push, h.cs, htr]
    rfl
  | @proc c hc hl hpr =>
    obtain ⟨rest, hitems, hafter⟩ := h.name hp hc.comp hc.name
    have hsmooth := (hp.look c (hitems ▸ rfl) hc.name (hlook hitems hafter hl)).1
    rw [← h.cs, hpr] at hsmooth
    cases hsmooth
  | @hops c target hc hl hpr hrl hh =>
    obtain ⟨rest, hitems, hafter⟩ := h.name hp hc.comp hc.name
    rw [h.cs] at hrl
    have := ((hp.look c (hitems ▸ rfl) hc.name (hlook hitems hafter hl)).2 target hrl).1
    have := h.hops
    omega
  | @tooLong c hc hn hlen =>
    obtain ⟨rest, hitems, -⟩ := h.name hp hc hn
    obtain ⟨hshort, hfits⟩ := hp.fits c (hitems ▸ rfl) hn
    rw [← h.cs] at hfits
    exact absurd hlen (Nat.not_le_of_gt (fits_of_append hg.words hshort hfits))

/-! ## Whole walks -/

/-- The walk over a guest path and the resolver over its items start in step. -/
theorem abreast_start (habs : guest.head? = some slash) (hlen : guest.length < 2 * pathLen) :
    ∃ r, Reaches E.space (Resolver.start E.space guest) r ∧ Abreast (.start guest) r := by
  have hne : guest ≠ [] := by
    rintro rfl
    cases habs
  have htext : (snprintf (2 * pathLen) guest).dropWhile (· == slash) =
      (glue slash (guest.splitOn slash)).dropWhile (· == slash) := by
    rw [snprintf_of_lt hlen, glue_splitOn, List.dropWhile_cons_of_pos (by rfl)]
  have hnil : ∀ i ∈ ([] : List CStr), slash ∉ i := fun _ h => absurd h List.not_mem_nil
  have hend := endsWithSlash_append_glue guest hnil (by simpa using hne) [] 0 false
  rw [glue_nil, List.append_nil, List.append_nil] at hend
  exact abreast_skip E (.start guest) (Resolver.start E.space guest) rfl rfl htext
    (fun _ => sep_not_mem_splitOn) hend

/-- What is met on the way: every item that the resolver comes to fits. -/
def SmoothWay (E : WalkEnv) (guest : CStr) : Prop :=
  ∀ r, Reaches E.space (Resolver.start E.space guest) r → Smooth E r

/-- Wherever the walk is, the resolver has been. -/
theorem abreast_reached (habs : guest.head? = some slash) (hlen : guest.length < 2 * pathLen)
    (hway : SmoothWay E guest) (hp : ReflTransGen (Turn E) (.start guest) pt) :
    ∃ r, Reaches E.space (Resolver.start E.space guest) r ∧ Abreast pt r := by
  induction hp with
  | refl => exact abreast_start habs hlen
  | tail _ ht ih =>
    obtain ⟨r, hr, hread⟩ := ih
    obtain ⟨r', hr', hread'⟩ := hread.turn (hway r hr) ht
    exact ⟨r', ReflTransGen.trans hr hr', hread'⟩

/-- The walk stops where the resolver leads, where the host path fits, and leaves no text. -/
theorem stopsAt_resolves (habs : guest.head? = some slash) (hlen : guest.length < 2 * pathLen)
    (hway : SmoothWay E guest) (hs : StopsAt E guest why pt) :
    Resolves E.space (Resolver.start E.space guest) (pt.cs, pt.trailing) ∧ pt.text = [] ∧
      (E.hostOf (pt.cs, pt.trailing)).length < pathLen := by
  obtain ⟨p, hp, hh⟩ := hs
  obtain ⟨r, hr, hread⟩ := abreast_reached habs hlen hway hp
  obtain ⟨hstep, htext⟩ := hread.halt (reaches_good hp (.start guest)) (hway r hr) hh
  exact ⟨⟨r, hr, hstep⟩, htext, (hway r hr).goal _ (by rw [hstep]; rfl)⟩

theorem unwalked_resolved (htext : pt.text = [])
    (hfit : (E.hostOf (pt.cs, pt.trailing)).length < pathLen) :
    unwalked E pt.walk = E.hostOf (pt.cs, pt.trailing) := by
  have hjoin : pt.joined E = E.img pt.cs := if_pos htext
  rw [unwalked_eq, hjoin]
  unfold WalkEnv.hostOf withSlash at hfit ⊢
  dsimp only at hfit ⊢
  cases htr : pt.trailing with
  | false => rfl
  | true =>
    cases hend : endsWithSlash (E.img pt.cs) with
    | true => rfl
    | false =>
      rw [htr, hend] at hfit
      have hlen : (E.img pt.cs).length + 1 < pathLen := by simpa using hfit
      simp [hlen]

/-- **`emuroot_translate_path_ex` is the textbook resolver.** Where something is mapped, and the
resolution of an absolute guest path meets nothing under `/proc`, at most 40 links, and nothing that
exceeds its buffer, the resolver leads to one place: `out` is its host path, with a slash behind it
if one is left, `guestOut` is its guest path, and the result is 0 exactly if `out` is the guest
path. -/
theorem translate_resolves {E : WalkEnv} {guest : CStr} (habs : guest.head? = some slash)
    (hmap : unmapped E.ctx E.root = false) (hlen : guest.length < 2 * pathLen)
    (hway : SmoothWay E guest) :
    ∃ goal, (∀ goal', Resolves E.space (Resolver.start E.space guest) goal' ↔ goal' = goal) ∧
      ∀ outsz guestOutsz, (E.hostOf goal).length < outsz → (pathStr goal.1).length < guestOutsz →
        (translatePathEx E guest outsz guestOutsz).out = E.hostOf goal ∧
        (translatePathEx E guest outsz guestOutsz).guestOut = pathStr goal.1 ∧
        ((translatePathEx E guest outsz guestOutsz).differs = false ↔
          (translatePathEx E guest outsz guestOutsz).out = guest) := by
  obtain ⟨why, pt, hs⟩ := stopsAt_exists E guest
  obtain ⟨hres, htext, hfit⟩ := stopsAt_resolves habs hlen hway hs
  refine ⟨(pt.cs, pt.trailing), fun goal' => ⟨fun h => h.unique hres, fun h => h ▸ hres⟩, ?_⟩
  intro n m hn hm
  have hcond : ¬(guest.head? ≠ some slash ∨ unmapped E.ctx E.root) := by simp [habs, hmap]
  have hhost : unwalked E pt.walk = E.hostOf (pt.cs, pt.trailing) := unwalked_resolved htext hfit
  have htr : translatePathEx E guest n m =
      ⟨E.hostOf (pt.cs, pt.trailing), pathStr pt.cs, E.hostOf (pt.cs, pt.trailing) != guest⟩ := by
    rw [translatePathEx, if_neg hcond, run_of_stopsAt hs]
    dsimp only
    rw [hhost, snprintf_of_lt hn]
    exact congrArg (Translated.mk _ · _) (snprintf_of_lt hm)
  rw [htr]
  exact ⟨rfl, rfl, bne_eq_false_iff_eq⟩

/-- A path with a link, `..` and a slash left behind it. -/
theorem translate_resolves_link :
    let E : WalkEnv := ⟨{ Ctx.create with root := cstr "/r" }, cstr "/r",
      fun p => if p = cstr "/r/lib" then some (cstr "usr/lib/") else none, false⟩
    (translatePathEx E (cstr "/x/../lib/") pathLen pathLen).out = cstr "/r/usr/lib/" ∧
    ∃ goal, (∀ goal', Resolves E.space (Resolver.start E.space (cstr "/x/../lib/")) goal' ↔
      goal' = goal) ∧
      ∀ outsz guestOutsz, (E.hostOf goal).length < outsz → (pathStr goal.1).length < guestOutsz →
        (translatePathEx E (cstr "/x/../lib/") outsz guestOutsz).out = E.hostOf goal ∧
        (translatePathEx E (cstr "/x/../lib/") outsz guestOutsz).guestOut = pathStr goal.1 ∧
        ((translatePathEx E (cstr "/x/../lib/") outsz guestOutsz).differs = false ↔
          (translatePathEx E (cstr "/x/../lib/") outsz guestOutsz).out = cstr "/x/../lib/") :=
  ⟨by decide +kernel, translate_resolves (by decide +kernel) (by decide +kernel) (by decide +kernel)
    fun r hr => of_decide_eq_true
      (Steps.of_always (n := 10) (p := fun r => decide (Smooth _ r)) (by decide +kernel) hr)⟩

end Emuroot
