import Emuroot.Proof.Mapping

/-!
# What a walk looks at

`LooksAt E guest cs`: the walk over `guest` asks for the host path of `cs`. Two name spaces that
agree on the paths looked at translate the guest path alike (`translate_congr`), and a path without
links on the way is looked at by the walk over itself (`stopsAt_straight`, `looksAt_straight`).
-/

namespace Emuroot

open Words Relation

variable {E E' : WalkEnv} {pt pt' : Point} {why : Why} {guest : CStr} {cs ds : List CStr}

/-- The walk over the guest path asks where `cs` lies on the host. -/
def LooksAt (E : WalkEnv) (guest : CStr) (cs : List CStr) : Prop :=
  (∃ p c, ReflTransGen (Turn E) (.start guest) p ∧ p.Enters c ∧ cs = p.cs ++ [c]) ∨
  ∃ why pt, StopsAt E guest why pt ∧ cs = pt.cs

/-- The place where a walk stops. -/
theorem StopsAt.cs_eq {why' : Why} {pt' : Point} (hs : StopsAt E guest why pt)
    (hs' : StopsAt E guest why' pt') : pt'.cs = pt.cs := by
  have hwalk := congrArg Walk.cur ((run_of_stopsAt hs').symm.trans (run_of_stopsAt hs))
  rw [← words_pathStr hs'.good.words, ← words_pathStr hs.good.words]
  exact congrArg (words slash) hwalk

/-! ## Name spaces that agree -/

/-- The environments differ in what maps a path to the host only. -/
structure SameWalk (E E' : WalkEnv) : Prop where
  rl : E'.rl = E.rl
  followLast : E'.followLast = E.followLast

/-- What lies at `cs` sends the walk on alike: both times below `/proc`, the same symlink, or none. -/
structure GoesOn (E E' : WalkEnv) (cs : List CStr) : Prop where
  proc : underProc (E'.img cs) = underProc (E.img cs)
  link : underProc (E.img cs) = false → E'.rl (E'.img cs) = E.rl (E.img cs)

theorem GoesOn.of_img_eq (hE : SameWalk E E') (himg : E'.img cs = E.img cs) : GoesOn E E' cs :=
  ⟨by rw [himg], fun _ => by rw [himg, hE.rl]⟩

theorem Turn.congr (hE : SameWalk E E') (ht : Turn E pt pt')
    (hon : ∀ c, pt.Enters c → GoesOn E E' (pt.cs ++ [c])) : Turn E' pt pt' := by
  cases ht with
  | here h => exact .here h
  | up h => exact .up h
  | down hc hl hp hr =>
    rw [← hE.followLast] at hl
    exact .down hc hl ((hon _ hc).proc.trans hp) (((hon _ hc).link hp).trans hr)
  | link hc hl hp hr hh =>
    rw [← hE.followLast] at hl
    exact .link hc hl ((hon _ hc).proc.trans hp) (((hon _ hc).link hp).trans hr) hh

theorem Halt.congr (hE : SameWalk E E') (ht : Halt E pt why pt')
    (hon : ∀ c, pt.Enters c → GoesOn E E' (pt.cs ++ [c])) : Halt E' pt why pt' := by
  cases ht with
  | done h => exact .done h
  | tooLong hc hn hlen => exact .tooLong hc hn hlen
  | last hc hl hf => exact .last hc hl (hE.followLast.trans hf)
  | proc hc hl hp =>
    rw [← hE.followLast] at hl
    exact .proc hc hl ((hon _ hc).proc.trans hp)
  | hops hc hl hp hr hh =>
    rw [← hE.followLast] at hl
    exact .hops hc hl ((hon _ hc).proc.trans hp) (((hon _ hc).link hp).trans hr) hh

/-- Where the paths looked at send the walk on alike, it stops in the same place. -/
theorem StopsAt.congr (hE : SameWalk E E') (h : StopsAt E guest why pt)
    (hon : ∀ cs, LooksAt E guest cs → GoesOn E E' cs) : StopsAt E' guest why pt := by
  obtain ⟨p, hp, hh⟩ := h
  refine ⟨p, ?_, hh.congr hE fun c hc => hon _ (.inl ⟨p, c, hp, hc, rfl⟩)⟩
  clear hh
  induction hp with
  | refl => exact .refl
  | tail hq ht ih => exact ih.tail (ht.congr hE fun c hc => hon _ (.inl ⟨_, c, hq, hc, rfl⟩))

theorem unwalked_congr (himg : E'.img pt.cs = E.img pt.cs) :
    unwalked E' pt.walk = unwalked E pt.walk := by
  rw [unwalked_eq, unwalked_eq, Point.joined, Point.joined, himg]

/-- **Name spaces that agree on the paths looked at** translate a guest path alike. -/
theorem translate_congr (hE : SameWalk E E') (habs : guest.head? = some slash)
    (hmap : unmapped E.ctx E.root = false) (hmap' : unmapped E'.ctx E'.root = false)
    (himg : ∀ cs, LooksAt E guest cs → E'.img cs = E.img cs) :
    (translatePath E' guest pathLen).out = (translatePath E guest pathLen).out := by
  obtain ⟨why, pt, hs⟩ := stopsAt_exists E guest
  have hs' := hs.congr hE fun cs hl => .of_img_eq hE (himg cs hl)
  rw [translatePath, translatePath, (translate_stopsAt hs habs hmap 0).1,
    (translate_stopsAt hs' habs hmap' 0).1]
  exact unwalked_congr (himg _ (.inr ⟨why, pt, hs, rfl⟩))

/-! ## Straight walks -/

/-- Components that a walk reads as they are. -/
structure Readable (cs : List CStr) : Prop where
  names : ∀ c ∈ cs, IsName c
  short : ∀ c ∈ cs, c.length ≤ 255
  fits : (pathStr cs).length < pathLen

/-- The walk goes on behind `cs`. -/
def Passes (E : WalkEnv) (cs : List CStr) : Prop := underProc (E.img cs) = false ∧ E.rl (E.img cs) = none

theorem Readable.words (h : Readable cs) : ∀ c ∈ cs, IsWord slash c := fun c hc => (h.names c hc).word

theorem Readable.take (h : Readable cs) (k : Nat) : Readable (cs.take k) where
  names c hc := h.names c (List.mem_of_mem_take hc)
  short c hc := h.short c (List.mem_of_mem_take hc)
  fits := Nat.lt_of_le_of_lt (length_pathStr_take_le cs k) h.fits

theorem dropWhile_word {c : CStr} (hc : IsWord slash c) (r : CStr) :
    (slash :: c ++ r).dropWhile (· == slash) = c ++ r := by
  obtain ⟨a, c, rfl⟩ := List.exists_cons_of_ne_nil hc.ne_nil
  have ha : (a == slash) = false := by
    simpa using fun h : a = slash => hc.sep_not_mem (h ▸ List.mem_cons_self)
  rw [List.cons_append, List.dropWhile_cons, if_pos (by rfl), List.cons_append, List.dropWhile_cons,
    ha]
  rfl

/-- A word behind a slash, and what follows it. -/
theorem split_word {c r : CStr} (hc : IsWord slash c) (hr : ∀ a ∈ r.head?, a = slash) :
    ((slash :: c ++ r).dropWhile (· == slash)).takeWhile (· != slash) = c ∧
      afterComp (slash :: c ++ r) = r := by
  have hdrop := dropWhile_word hc r
  have hall : ∀ a ∈ c, (a != slash) = true := fun a ha => by
    simpa using fun h : a = slash => hc.sep_not_mem (h ▸ ha)
  have hrw : r.takeWhile (· != slash) = [] ∧ r.dropWhile (· != slash) = r := by
    cases r with
    | nil => exact ⟨rfl, rfl⟩
    | cons a r =>
      rw [hr a rfl]
      exact ⟨rfl, rfl⟩
  rw [afterComp, hdrop, List.takeWhile_append_of_pos hall, List.dropWhile_append_of_pos hall,
    hrw.1, hrw.2, List.append_nil]
  exact ⟨rfl, rfl⟩

theorem nextComp_word {c r : CStr} (hc : IsWord slash c) (hl : c.length ≤ 255)
    (hr : ∀ a ∈ r.head?, a = slash) :
    nextComp (slash :: c ++ r) = c ∧ afterComp (slash :: c ++ r) = r := by
  obtain ⟨hword, hafter⟩ := split_word hc hr
  rw [nextComp, hword, List.take_of_length_le hl]
  exact ⟨rfl, hafter⟩

theorem Readable.nil : Readable [] := ⟨by simp, by simp, (by decide : (pathStr []).length < pathLen)⟩

theorem Readable.push (h : Readable pt.cs) {c : CStr} (hc : pt.Enters c) : Readable (pt.cs ++ [c]) where
  names := (Point.Good.push ⟨h.names, h.fits⟩ hc).names
  short := by
    intro d hd
    obtain hd | hd := List.mem_append.1 hd
    · exact h.short d hd
    · rw [List.mem_singleton.1 hd, ← hc.comp]
      exact List.length_take_le _ _
  fits := (Point.Good.push ⟨h.names, h.fits⟩ hc).fits

/-- The next component of a path that is read as it is. -/
theorem next_straight (hcs : Readable cs) {j : Nat} (hj : j < cs.length) :
    nextComp (glue slash (cs.drop j)) = cs[j] ∧ afterComp (glue slash (cs.drop j)) =
      glue slash (cs.drop (j + 1)) := by
  rw [List.drop_eq_getElem_cons hj, glue_cons]
  exact nextComp_word (hcs.words _ (List.getElem_mem hj)) (hcs.short _ (List.getElem_mem hj))
    (head?_glue _)

/-- There is room for a component where there is room for the path with it. -/
theorem fits_of_append {c : CStr} (hw : ∀ d ∈ cs, IsWord slash d) (hc : c.length ≤ 255)
    (h : (pathStr (cs ++ [c])).length < pathLen) : (pathStr cs).length + 1 + c.length < pathLen := by
  rw [pathStr_append hw, List.length_append, List.length_append] at h
  split at h
  · simpa using h
  · simp only [pathLen]
    omega

/-- A path that the walk has come to: it has gone past the directories on the way. -/
structure Trodden (E : WalkEnv) (guest : CStr) (cs : List CStr) : Prop where
  readable : Readable cs
  passes : ∀ k, 1 ≤ k → k < cs.length → Passes E (cs.take k)
  looksAt : ∀ k, 1 ≤ k → k < cs.length → LooksAt E guest (cs.take k)

theorem Trodden.take (h : Trodden E guest cs) (k : Nat) : Trodden E guest (cs.take k) where
  readable := h.readable.take k
  passes i hi hk := by
    rw [List.length_take] at hk
    rw [List.take_take, Nat.min_eq_left (by omega)]
    exact h.passes i hi (by omega)
  looksAt i hi hk := by
    rw [List.length_take] at hk
    rw [List.take_take, Nat.min_eq_left (by omega)]
    exact h.looksAt i hi (by omega)

theorem Trodden.nil (E : WalkEnv) (guest : CStr) : Trodden E guest [] :=
  ⟨.nil, fun k _ h2 => absurd h2 (Nat.not_lt_zero k), fun k _ h2 => absurd h2 (Nat.not_lt_zero k)⟩

/-- All of the directories on the way to a path that the walk has gone past, and the path. -/
theorem Trodden.all (h : Trodden E guest cs) (hlast : cs ≠ [] → Passes E cs ∧ LooksAt E guest cs)
    {k : Nat} (hk : 1 ≤ k) (hkl : k ≤ cs.length) :
    Passes E (cs.take k) ∧ LooksAt E guest (cs.take k) := by
  obtain hlt | rfl := Nat.lt_or_eq_of_le hkl
  · exact ⟨h.passes k hk hlt, h.looksAt k hk hlt⟩
  · rw [List.take_length]
    exact hlast (List.length_pos_iff.1 hk)

theorem Trodden.snoc (h : Trodden E guest cs) (hlast : cs ≠ [] → Passes E cs ∧ LooksAt E guest cs)
    {c : CStr} (hr : Readable (cs ++ [c])) : Trodden E guest (cs ++ [c]) := by
  have hall : ∀ k, 1 ≤ k → k < (cs ++ [c]).length →
      Passes E ((cs ++ [c]).take k) ∧ LooksAt E guest ((cs ++ [c]).take k) := by
    intro k hk hkl
    rw [List.length_append, List.length_singleton] at hkl
    rw [List.take_append_of_le_length (Nat.le_of_lt_succ hkl)]
    exact h.all hlast hk (Nat.le_of_lt_succ hkl)
  exact ⟨hr, fun k hk hkl => (hall k hk hkl).1, fun k hk hkl => (hall k hk hkl).2⟩

/-- The walk has also gone past the path it stands on. -/
theorem reached_trodden (hp : ReflTransGen (Turn E) (.start guest) pt) :
    Trodden E guest pt.cs ∧ (pt.cs ≠ [] → Passes E pt.cs ∧ LooksAt E guest pt.cs) := by
  induction hp with
  | refl => exact ⟨.nil E guest, fun h => absurd rfl h⟩
  | @tail p q hp ht ih =>
    obtain ⟨hr, hlast⟩ := ih
    cases ht with
    | here => exact ⟨hr, hlast⟩
    | up =>
      dsimp only
      rw [List.dropLast_eq_take]
      refine ⟨hr.take _, fun hne => hr.all hlast ?_ (Nat.sub_le _ _)⟩
      by_contra h0
      exact hne (by rw [show p.cs.length - 1 = 0 by omega, List.take_zero])
    | @down c hc hl hpr hrl =>
      exact ⟨hr.snoc hlast (hr.readable.push hc), fun _ => ⟨⟨hpr, hrl⟩, .inl ⟨p, c, hp, hc, rfl⟩⟩⟩
    | link =>
      unfold Point.follow
      dsimp only
      split
      · exact ⟨.nil E guest, fun h => absurd rfl h⟩
      · exact ⟨hr, hlast⟩

/-- A path looked at is one that the walk has come to. -/
theorem LooksAt.trodden (h : LooksAt E guest cs) : Trodden E guest cs := by
  have hpush : ∀ {p c}, ReflTransGen (Turn E) (.start guest) p → p.Enters c →
      Trodden E guest (p.cs ++ [c]) := fun hp hc =>
    have ⟨hr, hlast⟩ := reached_trodden hp
    hr.snoc hlast (hr.readable.push hc)
  obtain ⟨p, c, hp, hc, rfl⟩ | ⟨why, pt, ⟨p, hp, hh⟩, rfl⟩ := h
  · exact hpush hp hc
  · cases hh with
    | done | tooLong => exact (reached_trodden hp).1
    | last hc | proc hc | hops hc => exact hpush hp hc

/-- A walk comes past components that are no links. -/
theorem reaches_straight {r : CStr} (htext : pt.text = glue slash ds ++ r)
    (hr : ∀ a ∈ r.head?, a = slash) (hds : Readable (pt.cs ++ ds))
    (hlast : E.followLast = true ∨ ¬r.all (· == slash))
    (hpass : ∀ k, 1 ≤ k → k ≤ ds.length → Passes E (pt.cs ++ ds.take k)) :
    ReflTransGen (Turn E) pt { pt with cs := pt.cs ++ ds, text := r } := by
  induction ds generalizing pt with
  | nil =>
    rw [List.append_nil]
    cases pt
    cases htext
    exact .refl
  | cons c ds ih =>
    have hname : IsName c := hds.names c (by simp)
    have hshort : c.length ≤ 255 := hds.short c (by simp)
    have hhead : ∀ a ∈ (glue slash ds ++ r).head?, a = slash := by
      intro a ha
      cases ds with
      | nil => exact hr a ha
      | cons d ds => simpa using ha.symm
    obtain ⟨hnext, hafter⟩ := nextComp_word hname.word hshort hhead
    rw [glue_cons, List.append_assoc] at htext
    have hpush : Readable (pt.cs ++ [c]) := by
      have := hds.take (pt.cs.length + 1)
      rwa [List.take_append, List.take_of_length_le (Nat.le_succ _), Nat.add_sub_cancel_left,
        List.take_succ_cons, List.take_zero] at this
    have henters : pt.Enters c :=
      ⟨by rw [htext]; exact hnext, hname,
        fits_of_append (fun d hd => hpush.words d (List.mem_append_left _ hd)) hshort hpush.fits⟩
    have hafter' : afterComp pt.text = glue slash ds ++ r := by rw [htext]; exact hafter
    have hnotLast : ¬(pt.isLast ∧ E.followLast = false) := by
      rintro ⟨hl, hf⟩
      have hall : (glue slash ds ++ r).all (· == slash) := by
        obtain h | h := hl
        · rw [hafter'] at h
          rw [h]
          rfl
        · rw [hafter'] at h
          exact h.1
      rw [List.all_append, Bool.and_eq_true] at hall
      obtain hf' | hr' := hlast
      · rw [hf] at hf'
        cases hf'
      · exact hr' hall.2
    obtain ⟨hp, hl⟩ := hpass 1 (Nat.le_refl 1) (by simp)
    rw [List.take_succ_cons, List.take_zero] at hp hl
    refine .head (.down henters hnotLast hp hl) ?_
    have h := ih (show (pt.push c).text = _ from hafter')
      (by simpa [Point.push] using hds) fun k hk hkl => by
      have := hpass (k + 1) (by omega) (by simpa using hkl)
      simpa [Point.push] using this
    simpa [Point.push] using h

theorem start_pathStr (hcs : Readable cs) (hne : cs ≠ []) :
    Point.start (pathStr cs) = ⟨[], glue slash cs, false, 0⟩ := by
  have hend : endsWithSlash (pathStr cs) = false := by
    rw [endsWithSlash, beq_eq_false_iff_ne]
    exact getLast?_pathStr_ne hcs.words hne
  have hfit := hcs.fits
  rw [Point.start, hend, snprintf_of_lt (by omega), pathStr_of_ne hne]

/-- The walk over a path of directories that are no links goes to its end. -/
theorem stopsAt_passed (hcs : Readable cs) (hf : E.followLast = true) (hne : cs ≠ [])
    (hpass : ∀ k, 1 ≤ k → k ≤ cs.length → Passes E (cs.take k)) :
    StopsAt E (pathStr cs) .done ⟨cs, [], false, 0⟩ := by
  have htext : (Point.mk [] (glue slash cs) false 0).text = glue slash cs ++ [] :=
    (List.append_nil _).symm
  rw [StopsAt, start_pathStr hcs hne]
  exact ⟨_, reaches_straight htext (by simp) (by simpa using hcs) (.inl hf) (by simpa using hpass),
    .done rfl⟩

section
variable (hcs : Readable cs) (hf : E.followLast = false)
  (hpass : ∀ k, 1 ≤ k → k < cs.length → Passes E (cs.take k))
include hcs hf hpass

/-- The walk over a path that has no links on the way, whose last component is left as it is. -/
theorem stopsAt_straight (hne : cs ≠ []) : StopsAt E (pathStr cs) .last ⟨cs, [], false, 0⟩ := by
  rw [StopsAt, start_pathStr hcs hne]
  obtain ⟨ds, c, rfl⟩ := (List.eq_nil_or_concat' cs).resolve_left hne
  have hname : IsName c := hcs.names c (by simp)
  have hshort : c.length ≤ 255 := hcs.short c (by simp)
  have hds : Readable ds := by simpa using hcs.take ds.length
  have hslash : ¬(slash :: c).all (· == slash) := by
    intro hall
    rw [List.all_eq_true] at hall
    obtain ⟨a, ha⟩ := List.exists_mem_of_ne_nil c hname.word.ne_nil
    exact hname.word.sep_not_mem (beq_iff_eq.1 (hall a (List.mem_cons_of_mem _ ha)) ▸ ha)
  have hreach : ReflTransGen (Turn E) ⟨[], glue slash (ds ++ [c]), false, 0⟩
      ⟨ds, slash :: c, false, 0⟩ := by
    refine reaches_straight (by simp) (by simp) (by simpa using hds) (.inr hslash) fun k hk hkl => ?_
    have := hpass k hk (by simp; omega)
    rwa [List.take_append_of_le_length hkl] at this
  refine ⟨_, hreach, ?_⟩
  obtain ⟨hnext, hafter⟩ := nextComp_word (r := []) hname.word hshort (by simp)
  rw [List.append_nil] at hnext hafter
  have hlast : Halt E ⟨ds, slash :: c, false, 0⟩ .last _ := .last
    ⟨hnext, hname, fits_of_append hds.words hshort hcs.fits⟩ (.inl hafter) hf
  simpa [Point.push, hafter] using hlast

/-- Such a walk goes from each component to the next. -/
theorem reached_straight (hne : cs ≠ []) {p : Point}
    (hp : ReflTransGen (Turn E) (.start (pathStr cs)) p) :
    ∃ j < cs.length, p = ⟨cs.take j, glue slash (cs.drop j), false, 0⟩ := by
  rw [start_pathStr hcs hne] at hp
  induction hp with
  | refl => exact ⟨0, List.length_pos_iff.2 hne, rfl⟩
  | tail _ ht ih =>
    obtain ⟨j, hj, rfl⟩ := ih
    obtain ⟨hnext, hafter⟩ := next_straight hcs hj
    have hname := hcs.names _ (List.getElem_mem hj)
    cases ht with
    | here h => exact absurd (hnext.symm.trans h) hname.ne_dot
    | up h => exact absurd (hnext.symm.trans h) hname.ne_dotdot
    | down hc hl =>
      obtain rfl := hc.comp.symm.trans hnext
      have hj' : j + 1 < cs.length := by
        refine Nat.lt_of_le_of_ne hj fun he => hl ⟨.inl ?_, hf⟩
        rw [hafter, he, List.drop_length, glue_nil]
      refine ⟨j + 1, hj', ?_⟩
      simp only [Point.push, hafter, List.take_succ_eq_append_getElem hj]
    | link hc hl hp hr =>
      obtain rfl := hc.comp.symm.trans hnext
      have hj' : j + 1 < cs.length := by
        refine Nat.lt_of_le_of_ne hj fun he => hl ⟨.inl ?_, hf⟩
        rw [hafter, he, List.drop_length, glue_nil]
      have := (hpass (j + 1) (by omega) hj').2
      rw [List.take_succ_eq_append_getElem hj, hr] at this
      cases this

/-- It looks at the directories on its way, and at the path itself. -/
theorem looksAt_straight (hne : cs ≠ []) (h : LooksAt E (pathStr cs) ds) :
    ∃ k, 1 ≤ k ∧ k ≤ cs.length ∧ ds = cs.take k := by
  have henters : ∀ {p c}, ReflTransGen (Turn E) (.start (pathStr cs)) p → p.Enters c →
      ∃ k, 1 ≤ k ∧ k ≤ cs.length ∧ p.cs ++ [c] = cs.take k := by
    intro p c hp hc
    obtain ⟨j, hj, rfl⟩ := reached_straight hcs hf hpass hne hp
    obtain rfl := hc.comp.symm.trans (next_straight hcs hj).1
    exact ⟨j + 1, by omega, hj, (List.take_succ_eq_append_getElem hj).symm⟩
  obtain ⟨p, c, hp, hc, rfl⟩ | ⟨why, pt, ⟨p, hp, hh⟩, rfl⟩ := h
  · exact henters hp hc
  · cases hh with
    | done h =>
      obtain ⟨j, hj, rfl⟩ := reached_straight hcs hf hpass hne hp
      rw [(next_straight hcs hj).1] at h
      exact absurd h (hcs.words _ (List.getElem_mem hj)).ne_nil
    | tooLong hc hn hlen =>
      obtain ⟨j, hj, rfl⟩ := reached_straight hcs hf hpass hne hp
      obtain rfl := hc.symm.trans (next_straight hcs hj).1
      have hfit := (hcs.take (j + 1)).fits
      rw [List.take_succ_eq_append_getElem hj] at hfit
      have := fits_of_append (hcs.take j).words (hcs.short _ (List.getElem_mem hj)) hfit
      exact absurd hlen (by simpa using this)
    | last hc hl hf => exact henters hp hc
    | proc hc hl hpr => exact henters hp hc
    | hops hc => exact henters hp hc

end

/-! ## Walks that stay at `/` -/

/-- A text's next component is its first word, cut to the buffer. -/
theorem words_text {text : CStr} (h : nextComp text ≠ []) :
    ∃ c, words slash text = c :: words slash (afterComp text) ∧ nextComp text = c.take 255 := by
  have hne : text.dropWhile (· == slash) ≠ [] := fun h0 => h (nextComp_eq_nil.2 h0)
  have hhead : ∀ a ∈ (text.dropWhile (· == slash)).head?, a ≠ slash := fun a ha he =>
    head?_dropWhile_slash text (he ▸ ha)
  refine ⟨_, ?_, rfl⟩
  rw [← words_dropWhile, words_eq_cons (isWord_takeWhile hne hhead)]
  rfl

theorem reached_dots (hg : ∀ c ∈ words slash (snprintf (2 * pathLen) guest), c = dot) {p : Point}
    (hp : ReflTransGen (Turn E) (.start guest) p) :
    p.cs = [] ∧ p.trailing = endsWithSlash guest ∧ p.hops = 0 ∧ ∀ c ∈ words slash p.text, c = dot := by
  induction hp with
  | refl => exact ⟨rfl, rfl, rfl, hg⟩
  | @tail p q _ ht ih =>
    obtain ⟨hcs, htr, hh, hw⟩ := ih
    have hdot : ∀ {c}, nextComp p.text = c → c ≠ [] → c = dot := by
      rintro c rfl hne
      obtain ⟨c, hc, hn⟩ := words_text hne
      rw [hn, hw c (hc ▸ List.mem_cons_self)]
      rfl
    have hafter : nextComp p.text ≠ [] → ∀ c ∈ words slash (afterComp p.text), c = dot := by
      intro hne c hc
      obtain ⟨d, hd, -⟩ := words_text hne
      exact hw c (hd ▸ List.mem_cons_of_mem _ hc)
    cases ht with
    | here h => exact ⟨hcs, htr, hh, hafter (h ▸ by decide)⟩
    | up h => exact absurd (hdot h (by decide)) (by decide)
    | down hc | link hc => exact absurd (hdot hc.comp hc.name.word.ne_nil) hc.name.ne_dot

/-- A walk over nothing but `.` stays at `/`. -/
theorem stopsAt_dots (hg : ∀ c ∈ words slash (snprintf (2 * pathLen) guest), c = dot)
    (h : StopsAt E guest why pt) : pt = ⟨[], [], endsWithSlash guest, 0⟩ := by
  obtain ⟨p, hp, hh⟩ := h
  obtain ⟨hcs, htr, hho, hw⟩ := reached_dots hg hp
  have hname : ∀ {c}, nextComp p.text = c → ¬IsName c := by
    rintro c rfl hn
    obtain ⟨d, hd, hd'⟩ := words_text hn.word.ne_nil
    rw [hw d (hd ▸ List.mem_cons_self)] at hd'
    exact hn.ne_dot (hd'.trans rfl)
  cases hh with
  | done h => rw [hcs, htr, hho]
  | tooLong hc hn => exact absurd hn (hname hc)
  | last hc | proc hc | hops hc => exact absurd hc.name (hname hc.comp)

theorem looksAt_dots (hg : ∀ c ∈ words slash (snprintf (2 * pathLen) guest), c = dot)
    (h : LooksAt E guest cs) : cs = [] := by
  obtain ⟨p, c, hp, hc, rfl⟩ | ⟨why, pt, hs, rfl⟩ := h
  · obtain ⟨-, -, -, hw⟩ := reached_dots hg hp
    obtain ⟨d, hd, hd'⟩ := words_text (hc.comp ▸ hc.name.word.ne_nil)
    rw [hw d (hd ▸ List.mem_cons_self), hc.comp] at hd'
    exact absurd (hd'.trans rfl) hc.name.ne_dot
  · rw [stopsAt_dots hg hs]

end Emuroot
