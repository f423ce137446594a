import Emuroot.Model.Path
import Mathlib.Logic.Relation

/-!
# The walk over a guest path, by its components

`Turn` and `Halt` say what a round of the walk can do, for a path so far given by its components
(`Point`). `stopsAt_exists` and `run_of_stopsAt`: every walk stops, and where it stops is what the
loop computes.
-/

namespace Emuroot

open Words

/-! ## Paths by their components -/

/-- A component that the walk can stand on. -/
structure IsName (c : CStr) : Prop where
  word : IsWord slash c
  ne_dot : c ≠ dot
  ne_dotdot : c ≠ dotdot

instance (c : CStr) : Decidable (IsName c) :=
  decidable_of_iff (c ≠ [] ∧ slash ∉ c ∧ c ≠ dot ∧ c ≠ dotdot)
    ⟨fun ⟨h1, h2, h3, h4⟩ => ⟨⟨h1, h2⟩, h3, h4⟩, fun h => ⟨h.word.1, h.word.2, h.2, h.3⟩⟩

/-- The guest path with the components `cs`. -/
def pathStr (cs : List CStr) : CStr := orSlash (glue slash cs)

/-- The host path of the guest path with the components `cs`. -/
def WalkEnv.img (E : WalkEnv) (cs : List CStr) : CStr :=
  mapToHost E.ctx E.root (pathStr cs) pathLen

@[simp] theorem pathStr_nil : pathStr [] = [slash] := rfl

theorem pathStr_of_ne {cs : List CStr} (h : cs ≠ []) : pathStr cs = glue slash cs :=
  if_neg fun hg => h (glue_eq_nil.1 hg)

theorem head?_pathStr (cs : List CStr) : (pathStr cs).head? = some slash := by
  cases cs with
  | nil => rfl
  | cons c cs => simp [pathStr_of_ne]

theorem pathStr_append {cs : List CStr} (h : ∀ d ∈ cs, IsWord slash d) (c : CStr) :
    pathStr (cs ++ [c]) = pathStr cs ++ (if (pathStr cs).length > 1 then [slash] else []) ++ c := by
  rw [pathStr_of_ne (by simp)]
  cases cs with
  | nil => simp
  | cons d cs =>
    have hd : d.length > 0 := List.length_pos_iff.2 (h d List.mem_cons_self).ne_nil
    rw [pathStr_of_ne (by simp), if_pos (by simp; omega)]
    simp

theorem length_pathStr_take_le (cs : List CStr) (k : Nat) :
    (pathStr (cs.take k)).length ≤ (pathStr cs).length := by
  by_cases h : cs.take k = []
  · rw [h]
    cases cs with
    | nil => exact Nat.le_refl _
    | cons c cs => simp [pathStr_of_ne]
  · rw [pathStr_of_ne h, pathStr_of_ne fun hcs => h (by simp [hcs])]
    exact (stem_glue_take cs k).isPrefix.length_le

theorem popComponent_pathStr {cs : List CStr} (h : ∀ c ∈ cs, IsWord slash c) :
    popComponent (pathStr cs) = pathStr cs.dropLast := by
  obtain rfl | ⟨ds, c, rfl⟩ := List.eq_nil_or_concat' cs
  · decide
  · have hc := (h c (by simp)).sep_not_mem
    have hr : strrchr (pathStr (ds ++ [c])) slash = some (glue slash ds).length := by
      rw [pathStr_of_ne (by simp), glue_append, glue_cons, glue_nil, List.append_nil]
      exact strrchr_append hc
    rw [List.dropLast_concat, popComponent, hr]
    cases ds with
    | nil => simp [pathStr_of_ne]
    | cons d ds =>
      have hlen : (glue slash (d :: ds)).length = (d ++ glue slash ds).length + 1 := by simp
      rw [hlen]
      show (pathStr _).take _ = _
      rw [← hlen, pathStr_of_ne (by simp), pathStr_of_ne (by simp), glue_append, List.take_left]

/-! ## The next component -/

/-- The next component of a text, cut to its buffer. -/
def nextComp (text : CStr) : CStr :=
  ((text.dropWhile (· == slash)).takeWhile (· != slash)).take 255

/-- What follows the next component. -/
def afterComp (text : CStr) : CStr := (text.dropWhile (· == slash)).dropWhile (· != slash)

theorem nextComp_eq_nil {text : CStr} : nextComp text = [] ↔ text.dropWhile (· == slash) = [] := by
  constructor
  · intro h
    by_contra hne
    have hhead : ∀ a ∈ (text.dropWhile (· == slash)).head?, a ≠ slash := fun a ha he =>
      head?_dropWhile_slash text (he ▸ ha)
    have hw := isWord_takeWhile hne hhead
    obtain h | h := List.take_eq_nil_iff.1 h
    · exact absurd h (by decide)
    · exact hw.ne_nil h
  · intro h
    rw [nextComp, h]
    rfl

theorem isWord_nextComp {text : CStr} (h : nextComp text ≠ []) : IsWord slash (nextComp text) := by
  refine ⟨h, fun hs => ?_⟩
  have := List.mem_takeWhile_imp (List.mem_of_mem_take hs)
  simp at this

/-- A place in the walk: the components so far and the text that is still to walk. -/
structure Point where
  cs : List CStr
  text : CStr
  trailing : Bool
  hops : Nat

namespace Point

/-- The loop's variables there. -/
def walk (pt : Point) : Walk := ⟨pt.text, pathStr pt.cs, pt.trailing, pt.hops⟩

/-- Where the walk over a guest path starts. -/
def start (guest : CStr) : Point := ⟨[], snprintf (2 * pathLen) guest, endsWithSlash guest, 0⟩

/-- The next component is the last one. -/
def isLast (pt : Point) : Prop :=
  afterComp pt.text = [] ∨ ((afterComp pt.text).all (· == slash) ∧ pt.trailing = false)

instance (pt : Point) : Decidable pt.isLast := inferInstanceAs (Decidable (_ ∨ _))

/-- `c` comes next, and fits behind the path so far. -/
structure Enters (pt : Point) (c : CStr) : Prop where
  comp : nextComp pt.text = c
  name : IsName c
  fits : (pathStr pt.cs).length + 1 + c.length < pathLen

/-- The place behind the next component. -/
def push (pt : Point) (c : CStr) : Point :=
  { pt with cs := pt.cs ++ [c], text := afterComp pt.text }

/-- The place from which a symlink's text and the rest are walked. -/
def follow (pt : Point) (link : CStr) : Point :=
  let target := link.take (pathLen - 1)
  let tail := snprintf (2 * pathLen) (target ++ afterComp pt.text)
  { cs := if target.head? = some slash then [] else pt.cs
    text := tail
    trailing := endsWithSlash tail
    hops := pt.hops + 1 }

/-- The components are names and fit the buffer. -/
structure Good (pt : Point) : Prop where
  names : ∀ c ∈ pt.cs, IsName c
  fits : (pathStr pt.cs).length < pathLen

end Point

/-- Why the walk stops: nothing left, a last component that is not followed, a host path under
`/proc`, the symlink-hop limit, the length check. -/
inductive Why
  | done | last | proc | hops | tooLong
  deriving DecidableEq

section
variable (E : WalkEnv)

/-- The walk goes on. -/
inductive Turn (pt : Point) : Point → Prop
  | here (h : nextComp pt.text = dot) : Turn pt { pt with text := afterComp pt.text }
  | up (h : nextComp pt.text = dotdot) :
      Turn pt { pt with cs := pt.cs.dropLast, text := afterComp pt.text }
  | down {c : CStr} (hc : pt.Enters c) (hl : ¬(pt.isLast ∧ E.followLast = false))
      (hp : underProc (E.img (pt.cs ++ [c])) = false) (hr : E.rl (E.img (pt.cs ++ [c])) = none) :
      Turn pt (pt.push c)
  | link {c link : CStr} (hc : pt.Enters c) (hl : ¬(pt.isLast ∧ E.followLast = false))
      (hp : underProc (E.img (pt.cs ++ [c])) = false)
      (hr : E.rl (E.img (pt.cs ++ [c])) = some link) (hh : pt.hops < maxSymlinkHops) :
      Turn pt (pt.follow link)

/-- The walk stops. -/
inductive Halt (pt : Point) : Why → Point → Prop
  | done (h : nextComp pt.text = []) : Halt pt .done { pt with text := [] }
  | tooLong {c : CStr} (hc : nextComp pt.text = c) (hn : IsName c)
      (hlen : pathLen ≤ (pathStr pt.cs).length + 1 + c.length) :
      Halt pt .tooLong { pt with text := afterComp pt.text }
  | last {c : CStr} (hc : pt.Enters c) (hl : pt.isLast) (hf : E.followLast = false) :
      Halt pt .last (pt.push c)
  | proc {c : CStr} (hc : pt.Enters c) (hl : ¬(pt.isLast ∧ E.followLast = false))
      (hp : underProc (E.img (pt.cs ++ [c])) = true) : Halt pt .proc (pt.push c)
  | hops {c link : CStr} (hc : pt.Enters c) (hl : ¬(pt.isLast ∧ E.followLast = false))
      (hp : underProc (E.img (pt.cs ++ [c])) = false)
      (hr : E.rl (E.img (pt.cs ++ [c])) = some link) (hh : maxSymlinkHops ≤ pt.hops) :
      Halt pt .hops { pt.push c with hops := pt.hops + 1 }

/-- The walk over a guest path stops at `pt`. -/
def StopsAt (guest : CStr) (why : Why) (pt : Point) : Prop :=
  ∃ p, Relation.ReflTransGen (Turn E) (.start guest) p ∧ Halt E p why pt

end

variable {E : WalkEnv} {pt pt' : Point} {why : Why}

/-! ## The loop takes these steps -/

theorem Point.Good.words (h : pt.Good) : ∀ c ∈ pt.cs, IsWord slash c := fun c hc => (h.names c hc).word

theorem Point.Good.start (guest : CStr) : (Point.start guest).Good :=
  ⟨by simp [Point.start], (by decide : (pathStr []).length < pathLen)⟩

theorem Point.Good.push (h : pt.Good) {c : CStr} (hc : pt.Enters c) : (pt.push c).Good := by
  constructor
  · intro d hd
    obtain hd | hd := List.mem_append.1 hd
    · exact h.names d hd
    · rw [List.mem_singleton.1 hd]
      exact hc.name
  · have hf := hc.fits
    show (pathStr (pt.cs ++ [c])).length < pathLen
    rw [pathStr_append h.words]
    simp only [List.length_append]
    split
    · simp
      omega
    · simp
      omega

theorem Point.Good.follow (h : pt.Good) (link : CStr) : (pt.follow link).Good := by
  unfold Point.follow
  dsimp only
  split
  · exact ⟨by simp, (by decide : (pathStr []).length < pathLen)⟩
  · exact ⟨h.names, h.fits⟩

theorem Turn.good (ht : Turn E pt pt') (h : pt.Good) : pt'.Good := by
  cases ht with
  | here => exact ⟨h.names, h.fits⟩
  | up =>
    refine ⟨fun c hc => h.names c (List.dropLast_subset _ hc), ?_⟩
    rw [List.dropLast_eq_take]
    exact Nat.lt_of_le_of_lt (length_pathStr_take_le pt.cs _) h.fits
  | down hc => exact h.push hc
  | link => exact h.follow _

theorem Halt.good (ht : Halt E pt why pt') (h : pt.Good) : pt'.Good := by
  cases ht with
  | done | tooLong => exact ⟨h.names, h.fits⟩
  | last hc | proc hc | hops hc => exact ⟨(h.push hc).names, (h.push hc).fits⟩

theorem walkStep_done (h : nextComp pt.text = []) :
    walkStep E pt.walk = .inr { pt with text := [] }.walk := by
  unfold walkStep
  exact if_pos (nextComp_eq_nil.1 h)

/-- A round with a component. -/
theorem walkStep_comp {p cur : CStr} {tr : Bool} {n : Nat} (h : nextComp p ≠ []) :
    walkStep E ⟨p, cur, tr, n⟩ =
      if nextComp p = dot then .inl ⟨afterComp p, cur, tr, n⟩
      else if nextComp p = dotdot then .inl ⟨afterComp p, popComponent cur, tr, n⟩
      else if cur.length + 1 + (nextComp p).length ≥ pathLen then .inr ⟨afterComp p, cur, tr, n⟩
      else
        let next := cur ++ (if cur.length > 1 then [slash] else []) ++ nextComp p
        if (afterComp p = [] ∨ ((afterComp p).all (· == slash) ∧ tr = false)) ∧
            E.followLast = false then .inr ⟨afterComp p, next, tr, n⟩
        else if underProc (mapToHost E.ctx E.root next pathLen) then .inr ⟨afterComp p, next, tr, n⟩
        else
          match E.rl (mapToHost E.ctx E.root next pathLen) with
          | none => .inl ⟨afterComp p, next, tr, n⟩
          | some link =>
            if n + 1 > maxSymlinkHops then .inr ⟨afterComp p, next, tr, n + 1⟩
            else
              let target := link.take (pathLen - 1)
              let tail := snprintf (2 * pathLen) (target ++ afterComp p)
              .inl ⟨tail, if target.head? = some slash then [slash] else popComponent next,
                endsWithSlash tail, n + 1⟩ := by
  unfold walkStep
  exact if_neg fun hp => h (nextComp_eq_nil.2 hp)

theorem popComponent_push {c : CStr} (hg : pt.Good) (hn : IsName c) :
    popComponent (pathStr (pt.cs ++ [c])) = pathStr pt.cs := by
  have hw : ∀ d ∈ pt.cs ++ [c], IsWord slash d := by
    intro d hd
    obtain hd | hd := List.mem_append.1 hd
    · exact hg.words d hd
    · rw [List.mem_singleton.1 hd]
      exact hn.word
  rw [popComponent_pathStr hw, List.dropLast_concat]

theorem Point.walk_follow (pt : Point) (link : CStr) :
    (pt.follow link).walk =
      { p := snprintf (2 * pathLen) (link.take (pathLen - 1) ++ afterComp pt.text)
        cur := if (link.take (pathLen - 1)).head? = some slash then [slash] else pathStr pt.cs
        trailingSlash := endsWithSlash (snprintf (2 * pathLen)
          (link.take (pathLen - 1) ++ afterComp pt.text))
        hops := pt.hops + 1 } := by
  simp only [Point.follow, Point.walk, apply_ite pathStr, pathStr_nil]

/-- A round with a name. -/
theorem walkStep_name {c : CStr} (hg : pt.Good) (hc : nextComp pt.text = c) (hn : IsName c) :
    walkStep E pt.walk =
      if (pathStr pt.cs).length + 1 + c.length ≥ pathLen then
        .inr { pt with text := afterComp pt.text }.walk
      else if pt.isLast ∧ E.followLast = false then .inr (pt.push c).walk
      else if underProc (E.img (pt.cs ++ [c])) then .inr (pt.push c).walk
      else
        match E.rl (E.img (pt.cs ++ [c])) with
        | none => .inl (pt.push c).walk
        | some link =>
          if pt.hops + 1 > maxSymlinkHops then .inr { pt.push c with hops := pt.hops + 1 }.walk
          else .inl (pt.follow link).walk := by
  subst hc
  rw [Point.walk, walkStep_comp hn.word.ne_nil, if_neg hn.ne_dot, if_neg hn.ne_dotdot]
  simp only [← pathStr_append hg.words, popComponent_push hg hn, Point.walk_follow]
  rfl

theorem Turn.step (ht : Turn E pt pt') (hg : pt.Good) : walkStep E pt.walk = .inl pt'.walk := by
  cases ht with
  | here h =>
    rw [Point.walk, walkStep_comp (h ▸ by decide : nextComp pt.text ≠ [])]
    exact if_pos h
  | up h =>
    rw [Point.walk, walkStep_comp (h ▸ by decide : nextComp pt.text ≠ []), h, if_neg (by decide),
      if_pos rfl, popComponent_pathStr hg.words]
    rfl
  | down hc hl hp hr =>
    rw [walkStep_name hg hc.comp hc.name, if_neg (by have := hc.fits; omega), if_neg hl,
      if_neg (by simp [hp]), hr]
  | link hc hl hp hr hh =>
    rw [walkStep_name hg hc.comp hc.name, if_neg (by have := hc.fits; omega), if_neg hl,
      if_neg (by simp [hp]), hr]
    exact if_neg (by omega)

theorem Halt.step (ht : Halt E pt why pt') (hg : pt.Good) : walkStep E pt.walk = .inr pt'.walk := by
  cases ht with
  | done h => exact walkStep_done h
  | tooLong hc hn hlen => rw [walkStep_name hg hc hn, if_pos hlen]
  | last hc hl hf =>
    rw [walkStep_name hg hc.comp hc.name, if_neg (by have := hc.fits; omega), if_pos ⟨hl, hf⟩]
  | proc hc hl hp =>
    rw [walkStep_name hg hc.comp hc.name, if_neg (by have := hc.fits; omega), if_neg hl, if_pos hp]
  | hops hc hl hp hr hh =>
    rw [walkStep_name hg hc.comp hc.name, if_neg (by have := hc.fits; omega), if_neg hl,
      if_neg (by simp [hp]), hr]
    exact if_pos (by omega)

/-- The rounds are covered. -/
theorem turn_or_halt (E : WalkEnv) (pt : Point) :
    (∃ pt', Turn E pt pt') ∨ ∃ why pt', Halt E pt why pt' := by
  by_cases h0 : nextComp pt.text = []
  · exact .inr ⟨_, _, .done h0⟩
  by_cases h1 : nextComp pt.text = dot
  · exact .inl ⟨_, .here h1⟩
  by_cases h2 : nextComp pt.text = dotdot
  · exact .inl ⟨_, .up h2⟩
  have hn : IsName (nextComp pt.text) := ⟨isWord_nextComp h0, h1, h2⟩
  by_cases hlen : (pathStr pt.cs).length + 1 + (nextComp pt.text).length < pathLen
  · have hc : pt.Enters (nextComp pt.text) := ⟨rfl, hn, hlen⟩
    by_cases hl : pt.isLast ∧ E.followLast = false
    · exact .inr ⟨_, _, .last hc hl.1 hl.2⟩
    cases hp : underProc (E.img (pt.cs ++ [nextComp pt.text])) with
    | true => exact .inr ⟨_, _, .proc hc hl hp⟩
    | false =>
      cases hr : E.rl (E.img (pt.cs ++ [nextComp pt.text])) with
      | none => exact .inl ⟨_, .down hc hl hp hr⟩
      | some link =>
        by_cases hh : pt.hops < maxSymlinkHops
        · exact .inl ⟨_, .link hc hl hp hr hh⟩
        · exact .inr ⟨_, _, .hops hc hl hp hr (Nat.le_of_not_lt hh)⟩
  · exact .inr ⟨_, _, .tooLong rfl hn (Nat.le_of_not_lt hlen)⟩

/-! ## Whole walks -/

theorem reaches_good {p : Point} (h : Relation.ReflTransGen (Turn E) pt p) (hg : pt.Good) :
    p.Good := by
  induction h with
  | refl => exact hg
  | tail _ ht ih => exact ht.good ih

theorem StopsAt.good {guest : CStr} (h : StopsAt E guest why pt) : pt.Good := by
  obtain ⟨p, hp, hh⟩ := h
  exact hh.good (reaches_good hp (.start guest))

/-- The loop comes by every place that its walk reaches. -/
theorem run_reaches {p : Point} (h : Relation.ReflTransGen (Turn E) pt p) (hg : pt.Good) :
    (walkLoop E).run pt.walk = (walkLoop E).run p.walk := by
  induction h using Relation.ReflTransGen.head_induction_on with
  | refl => rfl
  | head ht _ ih => exact ((walkLoop E).run_again (ht.step hg)).trans (ih (ht.good hg))

/-- Where the walk stops is what the loop computes. -/
theorem run_of_stopsAt {guest : CStr} (h : StopsAt E guest why pt) :
    (walkLoop E).run (walkStart guest) = pt.walk := by
  obtain ⟨p, hp, hh⟩ := h
  have hstart : walkStart guest = (Point.start guest).walk := rfl
  rw [hstart, run_reaches hp (.start guest)]
  exact (walkLoop E).run_leave (hh.step (reaches_good hp (.start guest)))

/-- A walk stops, wherever it goes on from. -/
theorem stops_from (E : WalkEnv) (hg : pt.Good) :
    ∃ p why pt', Relation.ReflTransGen (Turn E) pt p ∧ Halt E p why pt' := by
  have hend : ∀ n, ∀ pt : Point, walkMeasure pt.walk < n → pt.Good →
      ∃ p why pt', Relation.ReflTransGen (Turn E) pt p ∧ Halt E p why pt' := by
    intro n
    induction n with
    | zero => exact fun pt hn => absurd hn (Nat.not_lt_zero _)
    | succ n ih =>
      intro pt hn hg
      obtain ⟨pt', ht⟩ | ⟨why, pt', hh⟩ := turn_or_halt E pt
      · have hd : walkMeasure pt'.walk < walkMeasure pt.walk := walkStep_decreases (ht.step hg)
        obtain ⟨p, why, q, hp, hq⟩ := ih pt' (Nat.lt_of_lt_of_le hd (Nat.le_of_lt_succ hn)) (ht.good hg)
        exact ⟨p, why, q, .head ht hp, hq⟩
      · exact ⟨pt, why, pt', .refl, hh⟩
  exact hend _ pt (Nat.lt_succ_self _) hg

theorem stopsAt_exists (E : WalkEnv) (guest : CStr) : ∃ why pt, StopsAt E guest why pt := by
  obtain ⟨p, why, pt, hp, hh⟩ := stops_from E (.start guest)
  exact ⟨why, pt, p, hp, hh⟩

/-! ## What is written -/

theorem length_orSlash_le {s : CStr} {n : Nat} (h : s.length ≤ n) (hn : 1 ≤ n) :
    (orSlash s).length ≤ n := by
  unfold orSlash
  split
  · exact hn
  · exact h

theorem length_mapToHost_lt (ctx : Ctx) (root guest : CStr) :
    (mapToHost ctx root guest pathLen).length < pathLen := by
  have hcut : ∀ s, (snprintf pathLen s).length ≤ pathLen - 1 := length_snprintf_le pathLen
  have htake : ∀ s : CStr, (s.take (pathLen - 1)).length ≤ pathLen - 1 := fun s =>
    List.length_take_le _ s
  refine Nat.lt_of_le_of_lt (m := pathLen - 1) ?_ (by decide)
  unfold mapToHost
  dsimp only
  split
  · exact length_orSlash_le (hcut _) (by decide)
  · split
    · exact length_orSlash_le (htake _) (by decide)
    · exact hcut _

/-- The unread text, as far as the buffer takes it. -/
def Point.unread (E : WalkEnv) (pt : Point) : CStr :=
  (pt.text.dropWhile (· == slash)).take
    (pathLen - 1 - (E.img pt.cs).length - if endsWithSlash (E.img pt.cs) then 0 else 1)

/-- The host path with the unread text behind it. -/
def Point.joined (E : WalkEnv) (pt : Point) : CStr :=
  if pt.text = [] then E.img pt.cs
  else E.img pt.cs ++ snprintf (pathLen - (E.img pt.cs).length)
    ((if endsWithSlash (E.img pt.cs) then [] else [slash]) ++ pt.text.dropWhile (· == slash))

theorem unwalked_eq (E : WalkEnv) (pt : Point) :
    unwalked E pt.walk =
      if (pt.trailing && !endsWithSlash (pt.joined E) &&
        decide ((pt.joined E).length + 1 < pathLen)) = true then pt.joined E ++ [slash]
      else pt.joined E := rfl

theorem unwalked_walk (E : WalkEnv) (pt : Point) :
    unwalked E pt.walk = pt.joined E ∨ unwalked E pt.walk = pt.joined E ++ [slash] := by
  rw [unwalked_eq]
  split
  · exact .inr rfl
  · exact .inl rfl

theorem length_unwalked_lt (E : WalkEnv) (pt : Point) : (unwalked E pt.walk).length < pathLen := by
  have himg : (E.img pt.cs).length < pathLen := length_mapToHost_lt ..
  have hj : (pt.joined E).length < pathLen := by
    unfold Point.joined
    split
    · exact himg
    · have hs := length_snprintf_le (pathLen - (E.img pt.cs).length)
        ((if endsWithSlash (E.img pt.cs) then [] else [slash]) ++ pt.text.dropWhile (· == slash))
      rw [List.length_append]
      omega
  rw [unwalked_eq]
  split
  · rename_i h
    simp only [Bool.and_eq_true, decide_eq_true_eq] at h
    rw [List.length_append]
    exact h.2
  · exact hj

/-- What a translation writes, from where its walk stops. -/
theorem translate_stopsAt {guest : CStr} (h : StopsAt E guest why pt)
    (habs : guest.head? = some slash) (hmap : unmapped E.ctx E.root = false) (n : Nat) :
    (translatePathEx E guest pathLen n).out = unwalked E pt.walk ∧
    (translatePathEx E guest pathLen n).guestOut = snprintf n (pathStr pt.cs) := by
  have hcond : ¬(guest.head? ≠ some slash ∨ unmapped E.ctx E.root) := by simp [habs, hmap]
  unfold translatePathEx
  rw [if_neg hcond]
  dsimp only
  rw [run_of_stopsAt h]
  exact ⟨snprintf_of_lt (length_unwalked_lt E pt), rfl⟩

theorem endsWithSlash_iff {s : CStr} : endsWithSlash s = true ↔ ∃ t, s = t ++ [slash] := by
  rw [endsWithSlash, beq_iff_eq, List.getLast?_eq_some_iff]

/-- The unread text is behind the host path and a slash. -/
theorem joined_eq (E : WalkEnv) (pt : Point) :
    pt.joined E = E.img pt.cs ∧ pt.unread E = [] ∨
    pt.joined E = E.img pt.cs ++ pt.unread E ∧ endsWithSlash (E.img pt.cs) = true ∨
    pt.joined E = E.img pt.cs ++ slash :: pt.unread E := by
  unfold Point.joined Point.unread
  split
  · rename_i h
    exact .inl ⟨rfl, by simp [h]⟩
  · cases he : endsWithSlash (E.img pt.cs) with
    | true =>
      refine .inr (.inl ⟨?_, rfl⟩)
      simp only [if_true, List.nil_append, snprintf]
      congr 2
      omega
    | false =>
      simp only [Bool.false_eq_true, if_false, snprintf, List.singleton_append]
      cases hk : pathLen - (E.img pt.cs).length - 1 with
      | zero =>
        refine .inl ⟨by simp, ?_⟩
        rw [show pathLen - 1 - (E.img pt.cs).length - 1 = 0 by omega, List.take_zero]
      | succ k =>
        refine .inr (.inr ?_)
        rw [List.take_succ_cons, show pathLen - 1 - (E.img pt.cs).length - 1 = k by omega]

/-- The walk stops before the text is read: under `/proc`, at the hop limit, at the length check. -/
def Why.isEarly : Why → Prop
  | .done | .last => False
  | .proc | .hops | .tooLong => True

/-- Only slashes are left to read. -/
theorem Halt.slashes (h : Halt E pt' why pt) (hw : ¬why.isEarly) :
    pt.text.dropWhile (· == slash) = [] := by
  cases h with
  | done => rfl
  | last hc hl hf =>
    have hall : (afterComp pt'.text).all (· == slash) := by
      obtain h | h := hl
      · rw [h]
        rfl
      · exact h.1
    exact List.dropWhile_eq_nil_iff.2 (List.all_eq_true.1 hall)
  | proc | hops | tooLong => exact absurd trivial hw

theorem unread_eq_nil (h : Halt E pt' why pt) (hw : ¬why.isEarly) : pt.unread E = [] := by
  rw [Point.unread, h.slashes hw, List.take_nil]

/-- What is written is the host path and the words that are left unread. -/
theorem unwalked_eq_append (E : WalkEnv) (pt : Point) :
    ∃ r, unwalked E pt.walk = E.img pt.cs ++ r ∧ words slash r = words slash (pt.unread E) := by
  have hj : ∃ r, pt.joined E = E.img pt.cs ++ r ∧ words slash r = words slash (pt.unread E) := by
    obtain ⟨h, hu⟩ | ⟨h, -⟩ | h := joined_eq E pt
    · exact ⟨[], by rw [h, List.append_nil], by rw [hu]⟩
    · exact ⟨_, h, rfl⟩
    · exact ⟨_, h, words_sep_cons _⟩
  obtain ⟨r, hr, hw⟩ := hj
  obtain h | h := unwalked_walk E pt
  · exact ⟨r, h.trans hr, hw⟩
  · exact ⟨r ++ [slash], by rw [h, hr, List.append_assoc], by rw [words_append_sep_end, hw]⟩

theorem words_unwalked (E : WalkEnv) (pt : Point) :
    words slash (unwalked E pt.walk) = words slash (E.img pt.cs) ++ words slash (pt.unread E) := by
  have hj : words slash (pt.joined E) = words slash (E.img pt.cs) ++ words slash (pt.unread E) := by
    obtain ⟨h, hu⟩ | ⟨h, he⟩ | h := joined_eq E pt
    · rw [h, hu, words_nil, List.append_nil]
    · obtain ⟨t, ht⟩ := endsWithSlash_iff.1 he
      rw [h, ht, List.append_assoc, List.singleton_append, words_append_sep, words_append_sep_end]
    · rw [h, words_append_sep]
  obtain h | h := unwalked_walk E pt
  · rw [h, hj]
  · rw [h, words_append_sep_end, hj]

end Emuroot
