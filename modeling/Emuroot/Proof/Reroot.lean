import Emuroot.Proof.Looks
import Mathlib.Data.List.DropRight

/-!
# A directory as the root

Two walks in lockstep: over a guest path, and over the same path behind a directory of another name
space (`Under`). `stops_under`: on a host without symlinks they stop at the same component where they
come below the host's `/proc` together. `SameDir` says when the two name spaces put what a path goes
through in the same places on the host.
-/

namespace Emuroot

open Words Relation

variable {E E' : WalkEnv} {ctx : Ctx} {root top guest : CStr} {dn cs : List CStr}
  {pt pt' q q' : Point} {why : Why}

/-- The paths are the same up to trailing slashes. -/
def UpToSlash (p q : CStr) : Prop := p.rdropWhile (· == slash) = q.rdropWhile (· == slash)

theorem rdropWhile_eq_self {p : CStr} (h : p.getLast? ≠ some slash) :
    p.rdropWhile (· == slash) = p := by
  rw [List.rdropWhile_eq_self_iff]
  intro hne hs
  rw [List.getLast?_eq_some_getLast hne] at h
  exact h (congrArg some (beq_iff_eq.1 hs))

theorem rdropWhile_append {p q : CStr} (h : p.getLast? ≠ some slash ∨ ∃ a ∈ q, a ≠ slash) :
    (p ++ q).rdropWhile (· == slash) = p ++ q.rdropWhile (· == slash) := by
  induction q using List.reverseRecOn with
  | nil =>
    rw [List.append_nil, List.rdropWhile_nil, List.append_nil]
    exact rdropWhile_eq_self (h.resolve_right (by simp))
  | append_singleton q a ih =>
    rw [← List.append_assoc]
    by_cases ha : a = slash
    · subst ha
      rw [List.rdropWhile_concat_pos _ _ _ (by rfl), List.rdropWhile_concat_pos _ _ _ (by rfl)]
      refine ih (h.imp_right ?_)
      rintro ⟨b, hb, hne⟩
      exact ⟨b, (List.mem_append.1 hb).resolve_right fun h' => hne (List.mem_singleton.1 h'), hne⟩
    · rw [List.rdropWhile_concat_neg _ _ _ (by simpa using ha),
        List.rdropWhile_concat_neg _ _ _ (by simpa using ha), List.append_assoc]

theorem upToSlash_concat (p : CStr) : UpToSlash (p ++ [slash]) p :=
  List.rdropWhile_concat_pos _ _ _ (by rfl)

/-! ## Places on the host -/

/-- The host directory that a lookup goes to, and how much of the root and the path it stands
for. -/
def place (ctx : Ctx) (root guest : CStr) : CStr × Nat :=
  match bestBinding ctx guest with
  | some b => (unlessRoot b.host, root.length + if b.guest = [slash] then 0 else b.guest.length)
  | none =>
    match mountedBinding ctx (root ++ guest) with
    | some m => (unlessRoot m.host, m.mount.length)
    | none => ([], 0)

/-- A host path: what the place stands for is replaced by its directory. -/
def placed (at_ : CStr × Nat) (path : CStr) : CStr := at_.1 ++ path.drop at_.2

theorem mapToHost_place (hg : guest.head? = some slash) (hfit : (root ++ guest).length < pathLen) :
    mapToHost ctx root guest pathLen =
      orSlash (snprintf pathLen (placed (place ctx root guest) (root ++ guest))) := by
  have hcut : snprintf pathLen (root ++ guest) = root ++ guest := snprintf_of_lt hfit
  unfold place
  cases hb : bestBinding ctx guest with
  | some b =>
    rw [mapToHost_best hb, placed, List.drop_append, List.drop_eq_nil_of_le (Nat.le_add_right _ _),
      List.nil_append, Nat.add_sub_cancel_left]
    rfl
  | none =>
    cases hm : mountedBinding ctx (root ++ guest) with
    | some m => rw [mapToHost_mounted hb (hcut.symm ▸ hm), hcut]; rfl
    | none =>
      have hne : root ++ guest ≠ [] := by
        intro h
        simp [(List.append_eq_nil_iff.1 h).2] at hg
      rw [mapToHost_root hb (hcut.symm ▸ hm), hcut, placed, List.drop_zero, List.nil_append, hcut,
        orSlash, if_neg hne]

/-- The host path of the directory `dn`, without a trailing slash. -/
def dirPlaced (ctx : Ctx) (root : CStr) (dn : List CStr) : CStr :=
  placed (place ctx root (pathStr dn)) (root ++ glue slash dn)

theorem drop_append_length_add {α : Type*} (l r : List α) (n : Nat) :
    (l ++ r).drop (l.length + n) = r.drop n := by
  rw [List.drop_append, List.drop_eq_nil_of_le (Nat.le_add_right _ _), List.nil_append,
    Nat.add_sub_cancel_left]

theorem upToSlash_orSlash_snprintf (p : CStr) :
    UpToSlash (orSlash (snprintf pathLen (p ++ [slash]))) (orSlash (snprintf pathLen p)) := by
  by_cases hp : p = []
  · subst hp
    exact rfl
  by_cases hlen : p.length < pathLen - 1
  · have h1 : snprintf pathLen (p ++ [slash]) = p ++ [slash] := snprintf_of_lt (by simp; omega)
    have h2 : snprintf pathLen p = p := snprintf_of_lt (by omega)
    rw [h1, h2, orSlash, orSlash, if_neg (by simp), if_neg hp]
    exact upToSlash_concat p
  · rw [snprintf, snprintf, List.take_append_of_le_length (Nat.le_of_not_lt hlen)]
    exact rfl

theorem placed_concat (at_ : CStr × Nat) (p : CStr) :
    placed at_ (p ++ [slash]) = placed at_ p ++ [slash] ∨ placed at_ (p ++ [slash]) = placed at_ p := by
  obtain hlt | hle := Nat.lt_or_ge p.length at_.2
  · rw [placed, placed, List.drop_eq_nil_of_le (by simp; omega), List.drop_eq_nil_of_le (by omega)]
    exact .inr rfl
  · rw [placed, List.drop_append_of_le_length hle, ← List.append_assoc]
    exact .inl rfl

/-! ## Where the directories of a path lie -/

/-- The binding that takes the path, or the root, puts its directory `dn/cs.take k` at `host`. -/
inductive LiesAt (ctx : Ctx) (root : CStr) (dn cs : List CStr) : CStr → Nat → Prop
  | above (h : (place ctx root (pathStr (dn ++ cs))).2 ≤ (root ++ glue slash dn).length ∨ cs = []) :
      LiesAt ctx root dn cs (placed (place ctx root (pathStr (dn ++ cs))) (root ++ glue slash dn)) 0
  | below {k : Nat} (hk : k ≤ cs.length)
      (h : (place ctx root (pathStr (dn ++ cs))).2 =
        (root ++ glue slash dn).length + (glue slash (cs.take k)).length) :
      LiesAt ctx root dn cs (place ctx root (pathStr (dn ++ cs))).1 k

theorem LiesAt.le {host : CStr} {k : Nat} (h : LiesAt ctx root dn cs host k) : k ≤ cs.length := by
  cases h with
  | above => exact Nat.zero_le _
  | below hk => exact hk

/-- What follows the directory lies below it. -/
theorem LiesAt.dirPlaced_eq {host : CStr} {k : Nat} (h : LiesAt ctx root dn cs host k) :
    dirPlaced ctx root (dn ++ cs) = host ++ glue slash (cs.drop k) := by
  rw [dirPlaced, placed, glue_append, ← List.append_assoc]
  cases h with
  | above h =>
    obtain hle | rfl := h
    · rw [placed, List.drop_append_of_le_length hle, List.append_assoc, List.drop_zero]
    · rw [placed, glue_nil, List.append_nil, List.append_nil, List.drop_nil, glue_nil, List.append_nil]
  | @below k hk h =>
    have hcs : glue slash cs = glue slash (cs.take k) ++ glue slash (cs.drop k) := by
      rw [← glue_append, List.take_append_drop]
    rw [h, drop_append_length_add]
    nth_rewrite 1 [hcs]
    rw [List.drop_left]

/-- A path goes through a directory that is put somewhere. -/
theorem liesAt_exists (hw : ∀ c ∈ dn ++ cs, IsWord slash c) : ∃ host k, LiesAt ctx root dn cs host k := by
  by_cases hle : (place ctx root (pathStr (dn ++ cs))).2 ≤ (root ++ glue slash dn).length ∨ cs = []
  · exact ⟨_, _, .above hle⟩
  obtain ⟨hlt, hne⟩ := not_or.1 hle
  have hpath : pathStr (dn ++ cs) = glue slash dn ++ glue slash cs := by
    rw [pathStr_of_ne (by simp [hne]), glue_append]
  have hcs : ∀ c ∈ cs, IsWord slash c := fun c hc => hw c (List.mem_append_right _ hc)
  -- what is taken from the front ends with a component of `cs`
  have hbelow : ∃ k ≤ cs.length, (place ctx root (pathStr (dn ++ cs))).2 =
      (root ++ glue slash dn).length + (glue slash (cs.take k)).length := by
    unfold place at hlt ⊢
    cases hb : bestBinding ctx (pathStr (dn ++ cs)) with
    | some b =>
      rw [hb] at hlt
      dsimp only at hlt ⊢
      have hr : b.guest ≠ [slash] := by
        intro hr
        rw [if_pos hr, List.length_append] at hlt
        omega
      rw [if_neg hr, List.length_append] at hlt ⊢
      have hs := (guestMatches_iff.1 (bestBinding_mem hb).2).resolve_left hr
      rw [hpath] at hs
      obtain ⟨v, hv, hst⟩ := hs.of_append (by omega)
      obtain ⟨k, hk, rfl⟩ := stem_glue hcs hst
      exact ⟨k, hk, by rw [hv, List.length_append, Nat.add_assoc]⟩
    | none =>
      rw [hb] at hlt
      dsimp only at hlt ⊢
      cases hm : mountedBinding ctx (root ++ pathStr (dn ++ cs)) with
      | none =>
        rw [hm] at hlt
        exact absurd (Nat.zero_le _) hlt
      | some m =>
        rw [hm] at hlt
        dsimp only at hlt ⊢
        have hs := (mounted_stem hm).2
        rw [hpath, ← List.append_assoc] at hs
        obtain ⟨v, hv, hst⟩ := hs.of_append (Nat.le_of_not_le hlt)
        obtain ⟨k, hk, rfl⟩ := stem_glue hcs hst
        exact ⟨k, hk, by rw [hv, List.length_append]⟩
  obtain ⟨k, hk, h⟩ := hbelow
  exact ⟨_, k, .below hk h⟩

/-- In a name space with the root `top`, `cs` goes through the same directories of the host as
`dn/cs` does in the one with `root`: the one that is put somewhere deeper down is put where it lies in
the other name space. -/
def SameDir (ctx : Ctx) (root top : CStr) (dn cs : List CStr) : Prop :=
  ∃ host k host' k', LiesAt ctx root dn cs host k ∧ LiesAt ctx top [] cs host' k' ∧
    (k ≤ k' ∧ host' = host ++ glue slash ((cs.take k').drop k) ∨
      k' ≤ k ∧ host = host' ++ glue slash ((cs.take k).drop k'))

theorem glue_drop {i j : Nat} (hij : i ≤ j) (hj : j ≤ cs.length) :
    glue slash (cs.drop i) = glue slash ((cs.take j).drop i) ++ glue slash (cs.drop j) := by
  rw [← glue_append]
  congr 1
  have h := congrArg (List.drop i) (List.take_append_drop j cs)
  rw [List.drop_append_of_le_length (by rw [List.length_take]; omega)] at h
  exact h.symm

theorem append_glue_drop {host host' : CStr} {k k' : Nat} (hk : k ≤ k') (hle : k' ≤ cs.length) :
    host ++ glue slash (cs.drop k) = host' ++ glue slash (cs.drop k') ↔
      host' = host ++ glue slash ((cs.take k').drop k) := by
  rw [glue_drop hk hle, ← List.append_assoc]
  exact ⟨fun h => (List.append_cancel_right h).symm, fun h => by rw [h]⟩

/-- Then the paths themselves lie in the same place. -/
theorem sameDir_iff (hw : ∀ c ∈ dn ++ cs, IsWord slash c) :
    SameDir ctx root top dn cs ↔ dirPlaced ctx root (dn ++ cs) = dirPlaced ctx top cs := by
  constructor
  · rintro ⟨host, k, host', k', h, h', ⟨hk, heq⟩ | ⟨hk, heq⟩⟩
    · rw [h.dirPlaced_eq, show dirPlaced ctx top cs = _ from h'.dirPlaced_eq]
      exact (append_glue_drop hk h'.le).2 heq
    · rw [h.dirPlaced_eq, show dirPlaced ctx top cs = _ from h'.dirPlaced_eq]
      exact ((append_glue_drop hk h.le).2 heq).symm
  · intro heq
    have hcs : ∀ c ∈ [] ++ cs, IsWord slash c := fun c hc => hw c (List.mem_append_right _ hc)
    obtain ⟨host, k, h⟩ : ∃ host k, LiesAt ctx root dn cs host k := liesAt_exists hw
    obtain ⟨host', k', h'⟩ : ∃ host k, LiesAt ctx top [] cs host k := liesAt_exists hcs
    rw [h.dirPlaced_eq, show dirPlaced ctx top cs = _ from h'.dirPlaced_eq] at heq
    refine ⟨host, k, host', k', h, h', ?_⟩
    obtain hk | hk := Nat.le_total k k'
    · exact .inl ⟨hk, (append_glue_drop hk h'.le).1 heq⟩
    · exact .inr ⟨hk, (append_glue_drop hk h.le).1 heq.symm⟩

/-! ## Walks in lockstep -/

/-- No symlinks but those under `/proc`, which are left to the kernel. -/
def LinkFree (rl : CStr → Option CStr) : Prop := ∀ p, underProc p = false → rl p = none

/-- `pt` is `pt'` behind the directory `dn`. -/
structure Under (dn : List CStr) (pt pt' : Point) : Prop where
  cs : pt.cs = dn ++ pt'.cs
  text : pt.text.dropWhile (· == slash) = pt'.text.dropWhile (· == slash)
  trailing : pt.trailing = pt'.trailing

theorem Under.next_eq (h : Under dn pt pt') : nextComp pt.text = nextComp pt'.text := by
  rw [nextComp, nextComp, h.text]

theorem Under.after_eq (h : Under dn pt pt') : afterComp pt.text = afterComp pt'.text := by
  rw [afterComp, afterComp, h.text]

theorem Under.isLast (h : Under dn pt pt') : pt.isLast ↔ pt'.isLast := by
  rw [Point.isLast, Point.isLast, h.after_eq, h.trailing]

theorem length_pathStr_le_append (ds cs : List CStr) :
    (pathStr cs).length ≤ (pathStr (ds ++ cs)).length := by
  cases cs with
  | nil =>
    obtain ⟨a, l, h⟩ : ∃ a l, pathStr (ds ++ []) = a :: l := by
      have := head?_pathStr (ds ++ [])
      cases hp : pathStr (ds ++ []) with
      | nil => rw [hp] at this; cases this
      | cons a l => exact ⟨a, l, rfl⟩
    rw [h]
    simp
  | cons c cs =>
    rw [pathStr_of_ne (by simp), pathStr_of_ne (by simp), glue_append, List.length_append]
    exact Nat.le_add_left _ _

theorem Under.enters (hu : Under dn pt pt') {c : CStr} (hc : pt'.Enters c)
    (hfit : (pathStr (dn ++ pt'.cs)).length + 1 + c.length < pathLen) : pt.Enters c :=
  ⟨hu.next_eq.trans hc.comp, hc.name, hu.cs ▸ hfit⟩

theorem Under.push (hu : Under dn pt pt') (c : CStr) : Under dn (pt.push c) (pt'.push c) where
  cs := by rw [Point.push, Point.push, hu.cs, List.append_assoc]
  text := by rw [Point.push, Point.push, hu.after_eq]
  trailing := hu.trailing

section
variable (hfl : E'.followLast = E.followLast) (hE : LinkFree E.rl) (hE' : LinkFree E'.rl)
  (hu : Under dn pt pt')
  (hproc : ∀ c, pt'.Enters c → ¬(pt'.isLast ∧ E'.followLast = false) →
    underProc (E.img (dn ++ (pt'.cs ++ [c]))) = underProc (E'.img (pt'.cs ++ [c])))
  (hfit : ∀ c, pt'.Enters c → (pathStr (dn ++ pt'.cs)).length + 1 + c.length < pathLen)
include hfl hE hE' hu hproc hfit

theorem Under.turn (hup : nextComp pt'.text = dotdot → pt'.cs ≠ []) (ht : Turn E' pt' q') :
    ∃ q, Turn E pt q ∧ Under dn q q' := by
  cases ht with
  | here h => exact ⟨_, .here (hu.next_eq.trans h), hu.cs, by rw [hu.after_eq], hu.trailing⟩
  | up h =>
    refine ⟨_, .up (hu.next_eq.trans h), ?_, by rw [hu.after_eq], hu.trailing⟩
    rw [hu.cs, List.dropLast_append_of_ne_nil (hup h)]
  | @down c hc hl hp hr =>
    have hp' : underProc (E.img (pt.cs ++ [c])) = false := by
      rwa [hu.cs, List.append_assoc, hproc c hc hl]
    exact ⟨_, .down (hu.enters hc (hfit c hc)) (by rwa [hu.isLast, ← hfl]) hp' (hE _ hp'), hu.push c⟩
  | link hc hl hp hr hh =>
    rw [hE' _ hp] at hr
    cases hr

omit hE in
theorem Under.halt (ht : Halt E' pt' why q') :
    ∃ q, Halt E pt why q ∧ Under dn q q' ∧ q.text = q'.text := by
  cases ht with
  | done h => exact ⟨_, .done (hu.next_eq.trans h), ⟨hu.cs, rfl, hu.trailing⟩, rfl⟩
  | @tooLong c hc hn hlen =>
    refine ⟨_, .tooLong (hu.next_eq.trans hc) hn ?_, ⟨hu.cs, by rw [hu.after_eq], hu.trailing⟩,
      hu.after_eq⟩
    have := length_pathStr_le_append dn pt'.cs
    rw [hu.cs]
    omega
  | @last c hc hl hf =>
    exact ⟨_, .last (hu.enters hc (hfit c hc)) (hu.isLast.2 hl) (hfl ▸ hf), hu.push c, hu.after_eq⟩
  | @proc c hc hl hp =>
    have hp' : underProc (E.img (pt.cs ++ [c])) = true := by
      rwa [hu.cs, List.append_assoc, hproc c hc hl]
    exact ⟨_, .proc (hu.enters hc (hfit c hc)) (by rwa [hu.isLast, ← hfl]) hp', hu.push c, hu.after_eq⟩
  | hops hc hl hp hr hh =>
    rw [hE' _ hp] at hr
    cases hr

end

/-! ## Paths that stay below their start -/

/-- A component read behind others: `.` is skipped, and `..` takes the last one back. -/
def cleanStep (cs : List CStr) (c : CStr) : List CStr :=
  if c = dot then cs else if c = dotdot then cs.dropLast else cs ++ [c.take 255]

/-- Where the components of a path lead, without symlinks; at the start `..` stays. -/
def cleaned (ws : List CStr) : List CStr := ws.foldl cleanStep []

/-- No `..` of the path is read at its start. -/
def StaysBelow (guest : CStr) : Prop :=
  ∀ k, (words slash guest)[k]? = some dotdot → cleaned ((words slash guest).take k) ≠ []

theorem take_eq_dots {c d : CStr} (hd : d.length < 255) (h : c.take 255 = d) : c = d := by
  have hlen := congrArg List.length h
  rw [List.length_take] at hlen
  rwa [List.take_of_length_le (by omega)] at h

/-- Where a walk without symlinks stands, by the words it has read. -/
theorem reached_words (hE : LinkFree E.rl) (hlen : guest.length < 2 * pathLen) {p : Point}
    (hp : ReflTransGen (Turn E) (.start guest) p) :
    ∃ k, p.cs = cleaned ((words slash guest).take k) ∧
      words slash p.text = (words slash guest).drop k := by
  induction hp with
  | refl => exact ⟨0, rfl, by rw [Point.start, snprintf_of_lt hlen, List.drop_zero]⟩
  | @tail p q _ ht ih =>
    obtain ⟨k, hcs, hw⟩ := ih
    -- the word that is read, and those that are left
    have hread : nextComp p.text ≠ [] →
        ∃ c, nextComp p.text = c.take 255 ∧
          cleaned ((words slash guest).take (k + 1)) = cleanStep p.cs c ∧
          words slash (afterComp p.text) = (words slash guest).drop (k + 1) := by
      intro hne
      obtain ⟨c, hc, hn⟩ := words_text hne
      have hk : k < (words slash guest).length := by
        by_contra hk
        rw [hw, List.drop_eq_nil_of_le (Nat.le_of_not_lt hk)] at hc
        cases hc
      rw [hw, List.drop_eq_getElem_cons hk] at hc
      obtain ⟨hck, hrest⟩ := List.cons.inj hc
      refine ⟨c, hn, ?_, hrest.symm⟩
      rw [List.take_succ_eq_append_getElem hk, cleaned, List.foldl_concat, hck, hcs]
      rfl
    cases ht with
    | here h =>
      obtain ⟨c, hn, hc, hrest⟩ := hread (h ▸ by decide)
      refine ⟨k + 1, ?_, hrest⟩
      rw [hc, cleanStep, if_pos (take_eq_dots (by decide) (hn.symm.trans h))]
    | up h =>
      obtain ⟨c, hn, hc, hrest⟩ := hread (h ▸ by decide)
      have hdd := take_eq_dots (by decide) (hn.symm.trans h)
      refine ⟨k + 1, ?_, hrest⟩
      rw [hc, cleanStep, if_neg (by rw [hdd]; decide), if_pos hdd]
    | @down d hd =>
      obtain ⟨c, hn, hc, hrest⟩ := hread (hd.comp ▸ hd.name.word.ne_nil)
      have hcd : c.take 255 = d := hn.symm.trans hd.comp
      have h1 : c ≠ dot := fun h => hd.name.ne_dot (by rw [← hcd, h]; rfl)
      have h2 : c ≠ dotdot := fun h => hd.name.ne_dotdot (by rw [← hcd, h]; rfl)
      refine ⟨k + 1, ?_, hrest⟩
      rw [hc, cleanStep, if_neg h1, if_neg h2, hcd]
      rfl
    | link hc hl hp hr hh =>
      rw [hE _ hp] at hr
      cases hr

theorem StaysBelow.up (h : StaysBelow guest) (hE : LinkFree E.rl) (hlen : guest.length < 2 * pathLen)
    {p : Point} (hp : ReflTransGen (Turn E) (.start guest) p) (hup : nextComp p.text = dotdot) :
    p.cs ≠ [] := by
  obtain ⟨k, hcs, hw⟩ := reached_words hE hlen hp
  obtain ⟨c, hc, hn⟩ := words_text (hup ▸ by decide : nextComp p.text ≠ [])
  have hdd := take_eq_dots (by decide) (hn.symm.trans hup)
  rw [hcs]
  refine h k ?_
  rw [hw] at hc
  have h0 := congrArg (·[0]?) hc
  simp only [List.getElem?_drop, Nat.add_zero, List.getElem?_cons_zero] at h0
  rw [h0, hdd]

/-! ## A path behind another -/

theorem takeWhile_dropWhile_append (y t : CStr) :
    (y ++ slash :: t).takeWhile (· != slash) = y.takeWhile (· != slash) ∧
    (y ++ slash :: t).dropWhile (· != slash) = y.dropWhile (· != slash) ++ slash :: t := by
  induction y with
  | nil => exact ⟨rfl, rfl⟩
  | cons a y ih =>
    by_cases ha : (a != slash) = true
    · simp only [List.cons_append, List.takeWhile_cons, List.dropWhile_cons, ha, if_true]
      exact ⟨congrArg _ ih.1, ih.2⟩
    · simp only [List.cons_append, List.takeWhile_cons, List.dropWhile_cons, ha]
      exact ⟨rfl, rfl⟩

/-- What is read of a text does not depend on what follows behind a slash. -/
theorem next_append {text tail : CStr} (hne : nextComp text ≠ []) (ht : tail.head? = some slash) :
    nextComp (text ++ tail) = nextComp text ∧ afterComp (text ++ tail) = afterComp text ++ tail := by
  obtain ⟨t, rfl⟩ : ∃ t, tail = slash :: t := by
    cases tail with
    | nil => cases ht
    | cons a t => exact ⟨t, by rw [Option.some.inj ht]⟩
  have hdrop : (text.dropWhile (· == slash)).isEmpty = false := by
    rw [List.isEmpty_eq_false_iff]
    exact fun h => hne (nextComp_eq_nil.2 h)
  have happ : (text ++ slash :: t).dropWhile (· == slash) =
      text.dropWhile (· == slash) ++ slash :: t := by
    rw [List.dropWhile_append, hdrop]
    rfl
  obtain ⟨h1, h2⟩ := takeWhile_dropWhile_append (text.dropWhile (· == slash)) t
  rw [nextComp, afterComp, happ, h1, h2]
  exact ⟨rfl, rfl⟩

/-- The point with more text behind. -/
def Point.behind (pt : Point) (tail : CStr) (trailing : Bool) : Point :=
  { pt with text := pt.text ++ tail, trailing := trailing }

theorem Turn.hops_le (ht : Turn E pt pt') : pt.hops ≤ pt'.hops := by
  cases ht with
  | here | up | down => exact Nat.le_refl _
  | link => exact Nat.le_succ _

theorem reaches_hops_le (hp : ReflTransGen (Turn E) pt q) : pt.hops ≤ q.hops := by
  induction hp with
  | refl => exact Nat.le_refl _
  | tail _ ht ih => exact ih.trans ht.hops_le

/-- A tail that leaves no component the last one. -/
structure Behind (tail : CStr) (tr : Bool) : Prop where
  head : tail.head? = some slash
  last : ¬tail.all (· == slash) ∨ tr = true

theorem Behind.of_head {tail : CStr} (h : tail.head? = some slash) :
    Behind tail (endsWithSlash tail) := by
  refine ⟨h, ?_⟩
  have hne : tail ≠ [] := fun h0 => by simp [h0] at h
  by_cases hall : tail.all (· == slash)
  · refine .inr ?_
    rw [endsWithSlash, List.getLast?_eq_some_getLast hne]
    simpa using List.all_eq_true.1 hall _ (List.getLast_mem hne)
  · exact .inl hall

theorem Behind.not_isLast {tail : CStr} {tr : Bool} (h : Behind tail tr) (hne : nextComp pt.text ≠ []) :
    ¬(pt.behind tail tr).isLast := by
  intro hl
  rw [Point.isLast, Point.behind, (next_append hne h.head).2] at hl
  obtain hl | ⟨hall, htr⟩ := hl
  · have hhead := h.head
    rw [(List.append_eq_nil_iff.1 hl).2] at hhead
    cases hhead
  · rw [List.all_append, Bool.and_eq_true] at hall
    obtain h | h := h.last
    · exact h hall.2
    · exact absurd (htr.symm.trans h) (by decide)

theorem Behind.enters {tail : CStr} {tr : Bool} (h : Behind tail tr) {c : CStr} (hc : pt.Enters c) :
    (pt.behind tail tr).Enters c ∧
      (pt.behind tail tr).push c = (pt.push c).behind tail tr := by
  obtain ⟨h1, h2⟩ := next_append (hc.comp ▸ hc.name.word.ne_nil : nextComp pt.text ≠ []) h.head
  refine ⟨⟨h1.trans hc.comp, hc.name, hc.fits⟩, ?_⟩
  rw [Point.push, show afterComp (pt.behind tail tr).text = afterComp pt.text ++ tail from h2]
  rfl

/-- A walk without symlinks goes the same way when there is more behind. -/
theorem reaches_behind {tail : CStr} {tr : Bool} (ht : Behind tail tr)
    (hp : ReflTransGen (Turn { E with followLast := true }) pt q) (hfree : q.hops = pt.hops) :
    ReflTransGen (Turn E) (pt.behind tail tr) (q.behind tail tr) := by
  induction hp with
  | refl => exact .refl
  | @tail p q hp hturn ih =>
    have hle := reaches_hops_le hp
    have hle' := hturn.hops_le
    refine (ih (by omega)).tail ?_
    cases hturn with
    | here h =>
      obtain ⟨h1, h2⟩ := next_append (h ▸ by decide : nextComp p.text ≠ []) ht.head
      have hs : Turn E (p.behind tail tr) _ := .here (h1.trans h)
      rwa [show afterComp (p.behind tail tr).text = afterComp p.text ++ tail from h2] at hs
    | up h =>
      obtain ⟨h1, h2⟩ := next_append (h ▸ by decide : nextComp p.text ≠ []) ht.head
      have hs : Turn E (p.behind tail tr) _ := .up (h1.trans h)
      rwa [show afterComp (p.behind tail tr).text = afterComp p.text ++ tail from h2] at hs
    | @down c hc hl hpr hr =>
      obtain ⟨hc', hpush⟩ := ht.enters hc
      rw [← hpush]
      exact .down hc' (fun h => ht.not_isLast (hc.comp ▸ hc.name.word.ne_nil) h.1) hpr hr
    | link =>
      have : p.hops + 1 = pt.hops := hfree
      omega

theorem endsWithSlash_append {p tail : CStr} (h : tail ≠ []) :
    endsWithSlash (p ++ tail) = endsWithSlash tail := by
  rw [endsWithSlash, endsWithSlash, List.getLast?_append_of_ne_nil _ h]

theorem start_behind {front tail : CStr} (ht : tail ≠ []) (hlen : (front ++ tail).length < 2 * pathLen) :
    (Point.start front).behind tail (endsWithSlash tail) = Point.start (front ++ tail) := by
  have hfront : front.length < 2 * pathLen := by
    rw [List.length_append] at hlen
    omega
  rw [Point.behind, Point.start, Point.start, snprintf_of_lt hfront, snprintf_of_lt hlen,
    endsWithSlash_append ht]

/-- The walk over a path in front of another comes to where the path in front leads. -/
theorem reaches_front {front : CStr} (h : StopsAt { E with followLast := true } front .done pt)
    (hfree : pt.hops = 0) :
    ∃ slashes, nextComp slashes = [] ∧ ∀ tail : CStr, tail.head? = some slash →
      (front ++ tail).length < 2 * pathLen →
      ReflTransGen (Turn E) (.start (front ++ tail))
        ⟨pt.cs, slashes ++ tail, endsWithSlash tail, 0⟩ := by
  obtain ⟨p, hp, hh⟩ := h
  cases hh with
  | done hd =>
    refine ⟨p.text, hd, fun tail ht hlen => ?_⟩
    have hr := reaches_behind (Behind.of_head ht) hp hfree
    rw [start_behind (fun h0 => by simp [h0] at ht) hlen, Point.behind] at hr
    rwa [show p.hops = 0 from hfree] at hr

theorem upToSlash_unwalked (E : WalkEnv) (pt : Point) :
    UpToSlash (unwalked E pt.walk) (pt.joined E) := by
  obtain h | h := unwalked_walk E pt
  · rw [h]
    exact rfl
  · rw [h]
    exact upToSlash_concat _

end Emuroot
