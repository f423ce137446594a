import Emuroot.Proof.Looks

/-!
# Host paths as names

Where root, bindings and links are proper names, a translation writes an absolute path without NUL
(`translate_absolute`, `translate_noNul`). A last component that is no symlink makes no difference
to whether a last symlink is followed (`translate_unfollowed`).
-/

namespace Emuroot

open Words Relation

variable {E : WalkEnv} {pt pt' : Point} {why : Why} {guest : CStr} {cs : List CStr}

/-- The root and the bindings have absolute paths, and no name has a NUL in it. -/
structure ProperNames (E : WalkEnv) : Prop where
  root : ∀ a ∈ E.root.head?, a = slash
  hosts : ∀ b ∈ E.ctx.bindings, b.host.head? = some slash
  guests : ∀ b ∈ E.ctx.bindings, b.guest.head? = some slash
  rootNul : 0 ∉ E.root
  hostsNul : ∀ b ∈ E.ctx.bindings, 0 ∉ b.host
  guestsNul : ∀ b ∈ E.ctx.bindings, 0 ∉ b.guest
  links : ∀ path text, E.rl path = some text → 0 ∉ text

/-- Without bindings it takes the root and the links. -/
theorem ProperNames.bare (hb : E.ctx.bindings = []) (hr : ∀ a ∈ E.root.head?, a = slash)
    (h0 : 0 ∉ E.root) (hl : ∀ path text, E.rl path = some text → 0 ∉ text) : ProperNames E where
  root := hr
  hosts b h := by
    rw [hb] at h
    cases h
  guests b h := by
    rw [hb] at h
    cases h
  rootNul := h0
  hostsNul b h := by
    rw [hb] at h
    cases h
  guestsNul b h := by
    rw [hb] at h
    cases h
  links := hl

/-! ## Absolute -/

/-- A path that begins with a slash, if at all, and others behind it. -/
theorem head?_append_slash {p q : CStr} (hp : ∀ a ∈ p.head?, a = slash)
    (hq : ∀ a ∈ q.head?, a = slash) : ∀ a ∈ (p ++ q).head?, a = slash := by
  intro a ha
  rw [List.head?_append] at ha
  cases hh : p.head? with
  | some b =>
    rw [hh] at ha
    cases ha
    exact hp a hh
  | none =>
    rw [hh] at ha
    exact hq a ha

theorem head?_orSlash {p : CStr} (hp : ∀ a ∈ p.head?, a = slash) :
    (orSlash p).head? = some slash := by
  unfold orSlash
  split
  · rfl
  · rename_i hne
    obtain ⟨a, l, rfl⟩ := List.exists_cons_of_ne_nil hne
    exact congrArg some (hp a rfl)

theorem head?_take_slash {p : CStr} (hp : ∀ a ∈ p.head?, a = slash) (n : Nat) :
    ∀ a ∈ (p.take n).head?, a = slash := by
  intro a ha
  rw [List.head?_take] at ha
  split at ha
  · cases ha
  · exact hp a ha

theorem head?_unlessRoot {p : CStr} (h : p.head? = some slash) :
    ∀ a ∈ (unlessRoot p).head?, a = slash := by
  unfold unlessRoot
  split
  · simp
  · intro a ha
    rw [h] at ha
    exact (Option.mem_some_iff.1 ha).symm

/-- A path behind an absolute directory is absolute. -/
theorem head?_behind {base : CStr} (h : base.head? = some slash) (path : CStr) :
    (unlessRoot base ++ slash :: path).head? = some slash := by
  rw [List.head?_append]
  cases hu : (unlessRoot base).head? with
  | none => rfl
  | some a =>
    rw [head?_unlessRoot h a hu]
    rfl

theorem head?_img (hE : ProperNames E) (hw : ∀ c ∈ cs, IsWord slash c) :
    (E.img cs).head? = some slash := by
  obtain ⟨H, L, k, himg, -, hL, hH, -⟩ := img_shape E hw
  have hHs : ∀ a ∈ H.head?, a = slash := by
    obtain rfl | ⟨b, hb, rfl⟩ := hH
    · exact hE.root
    · exact head?_unlessRoot (hE.hosts b hb)
  rw [himg]
  exact head?_orSlash (head?_append_slash (head?_take_slash hHs _) (head?_take_slash hL _))

/-- **A translation is an absolute path.** -/
theorem translate_absolute (hE : ProperNames E) (habs : guest.head? = some slash) :
    (translatePath E guest pathLen).out.head? = some slash := by
  by_cases hun : unmapped E.ctx E.root = true
  · rw [translatePath, translatePathEx, if_pos (.inr hun)]
    exact (List.head?_take ..).trans habs
  · obtain ⟨why, pt, hs⟩ := stopsAt_exists E guest
    obtain ⟨r, hr, -⟩ := unwalked_eq_append E pt
    rw [translatePath, (translate_stopsAt hs habs (by simpa using hun) 0).1, hr, List.head?_append,
      head?_img hE hs.good.words]
    rfl

/-! ## Without NUL -/

theorem unlessRoot_noNul {p : CStr} (h : 0 ∉ p) : 0 ∉ unlessRoot p := by
  unfold unlessRoot
  split
  · exact List.not_mem_nil
  · exact h

theorem orSlash_noNul {p : CStr} (h : 0 ∉ p) : 0 ∉ orSlash p := by
  unfold orSlash
  split
  · decide
  · exact h

/-- No NUL in the components and the text. -/
structure Point.Clean (pt : Point) : Prop where
  cs : ∀ c ∈ pt.cs, 0 ∉ c
  text : 0 ∉ pt.text

theorem afterComp_subset (text : CStr) : afterComp text ⊆ text := fun _ ha =>
  (List.dropWhile_sublist _).subset ((List.dropWhile_sublist _).subset ha)

theorem nextComp_subset (text : CStr) : nextComp text ⊆ text := fun _ ha =>
  (List.dropWhile_sublist _).subset ((List.takeWhile_sublist _).subset (List.mem_of_mem_take ha))

theorem Point.Clean.push (h : pt.Clean) {c : CStr} (hc : pt.Enters c) : (pt.push c).Clean where
  cs d hd := by
    obtain hd | hd := List.mem_append.1 hd
    · exact h.cs d hd
    · rw [List.mem_singleton.1 hd, ← hc.comp]
      exact fun h0 => h.text (nextComp_subset _ h0)
  text h0 := h.text (afterComp_subset _ h0)

theorem Turn.clean (hE : ProperNames E) (ht : Turn E pt pt') (h : pt.Clean) : pt'.Clean := by
  have hafter : 0 ∉ afterComp pt.text := fun h0 => h.text (afterComp_subset _ h0)
  cases ht with
  | here => exact ⟨h.cs, hafter⟩
  | up => exact ⟨fun c hc => h.cs c (List.dropLast_subset _ hc), hafter⟩
  | down hc => exact h.push hc
  | link hc hl hp hr hh =>
    have hlink := hE.links _ _ hr
    refine ⟨fun c hc => ?_, fun h0 => ?_⟩
    · unfold Point.follow at hc
      dsimp only at hc
      split at hc
      · cases hc
      · exact h.cs c hc
    · obtain h0 | h0 := List.mem_append.1 (List.mem_of_mem_take h0)
      · exact hlink (List.mem_of_mem_take h0)
      · exact hafter h0

theorem Halt.clean (ht : Halt E pt why pt') (h : pt.Clean) : pt'.Clean := by
  cases ht with
  | done => exact ⟨h.cs, List.not_mem_nil⟩
  | tooLong => exact ⟨h.cs, fun h0 => h.text (afterComp_subset _ h0)⟩
  | last hc | proc hc | hops hc => exact ⟨(h.push hc).cs, (h.push hc).text⟩

theorem StopsAt.clean (hE : ProperNames E) (h : StopsAt E guest why pt) (h0 : 0 ∉ guest) :
    pt.Clean := by
  obtain ⟨p, hp, hh⟩ := h
  refine hh.clean ?_
  clear hh
  induction hp with
  | refl => exact ⟨by simp [Point.start], fun hm => h0 (List.mem_of_mem_take hm)⟩
  | tail _ ht ih => exact ht.clean hE ih

theorem img_noNul (hE : ProperNames E) (hw : ∀ c ∈ cs, IsWord slash c) (h0 : ∀ c ∈ cs, 0 ∉ c) :
    0 ∉ E.img cs := by
  obtain ⟨H, L, k, himg, -, -, hH, hL⟩ := img_shape E hw
  have hHn : 0 ∉ H := by
    obtain rfl | ⟨b, hb, rfl⟩ := hH
    · exact hE.rootNul
    · exact unlessRoot_noNul (hE.hostsNul b hb)
  have hLn : 0 ∉ L := by
    intro hm
    obtain ⟨c, hc, h0c⟩ := exists_word hm (by decide : (0 : Byte) ≠ slash)
    obtain hc | hc := List.mem_append.1 (hL hc)
    · exact hE.rootNul (mem_of_mem_words hc h0c)
    · exact h0 c hc h0c
  rw [himg]
  refine orSlash_noNul fun hm => ?_
  obtain hm | hm := List.mem_append.1 hm
  · exact hHn (List.mem_of_mem_take hm)
  · exact hLn (List.mem_of_mem_take hm)

/-- **A translation has no NUL in it.** -/
theorem translate_noNul (hE : ProperNames E) (habs : guest.head? = some slash) (h0 : 0 ∉ guest) :
    0 ∉ (translatePath E guest pathLen).out := by
  by_cases hun : unmapped E.ctx E.root = true
  · rw [translatePath, translatePathEx, if_pos (.inr hun)]
    exact fun hm => h0 (List.mem_of_mem_take hm)
  · obtain ⟨why, pt, hs⟩ := stopsAt_exists E guest
    have hclean := hs.clean hE h0
    obtain ⟨r, hr, hwords⟩ := unwalked_eq_append E pt
    rw [translatePath, (translate_stopsAt hs habs (by simpa using hun) 0).1, hr]
    intro hm
    obtain hm | hm := List.mem_append.1 hm
    · exact img_noNul hE hs.good.words hclean.cs hm
    · obtain ⟨c, hc, h0c⟩ := exists_word hm (by decide : (0 : Byte) ≠ slash)
      rw [hwords] at hc
      have hu := List.mem_of_mem_take (mem_of_mem_words hc h0c)
      exact hclean.text ((List.dropWhile_sublist _).subset hu)

/-! ## The last symlink -/

/-- The text ends with a slash as the walk has noted. -/
def Point.Tidy (pt : Point) : Prop := pt.trailing = endsWithSlash pt.text

theorem endsWithSlash_afterComp {text : CStr} (h : nextComp text ≠ []) :
    endsWithSlash (afterComp text) = endsWithSlash text := by
  have hne : text.dropWhile (· == slash) ≠ [] := fun h0 => h (nextComp_eq_nil.2 h0)
  have hhead : ∀ a ∈ (text.dropWhile (· == slash)).head?, a ≠ slash := fun a ha he =>
    head?_dropWhile_slash text (he ▸ ha)
  have hword := isWord_takeWhile hne hhead
  have htext : text = text.takeWhile (· == slash) ++
      ((text.dropWhile (· == slash)).takeWhile (· != slash) ++ afterComp text) := by
    rw [afterComp, List.takeWhile_append_dropWhile, List.takeWhile_append_dropWhile]
  conv_rhs => rw [htext, endsWithSlash, List.getLast?_append_of_ne_nil _ (by simp [hword.ne_nil])]
  by_cases ha : afterComp text = []
  · rw [ha, List.append_nil]
    symm
    rw [show endsWithSlash [] = false from rfl, beq_eq_false_iff_ne]
    intro hl
    exact hword.sep_not_mem (List.mem_of_getLast? hl)
  · rw [List.getLast?_append_of_ne_nil _ ha]
    rfl

theorem Turn.tidy (ht : Turn E pt pt') (h : pt.Tidy) : pt'.Tidy := by
  have hafter : nextComp pt.text ≠ [] → pt.trailing = endsWithSlash (afterComp pt.text) := fun hn =>
    h.trans (endsWithSlash_afterComp hn).symm
  cases ht with
  | here hd => exact hafter (hd ▸ by decide)
  | up hd => exact hafter (hd ▸ by decide)
  | down hc => exact hafter (hc.comp ▸ hc.name.word.ne_nil)
  | link => rfl

theorem reached_tidy (hlen : guest.length < 2 * pathLen)
    (hp : ReflTransGen (Turn E) (.start guest) pt) : pt.Tidy := by
  induction hp with
  | refl => rw [Point.Tidy, Point.start, snprintf_of_lt hlen]
  | tail _ ht ih => exact ht.tidy ih

/-- At a last component the walk has nothing behind it. -/
theorem Point.Tidy.last (h : pt.Tidy) {c : CStr} (hc : pt.Enters c) (hl : pt.isLast) :
    afterComp pt.text = [] ∧ pt.trailing = false := by
  have hends : pt.trailing = endsWithSlash (afterComp pt.text) :=
    h.trans (endsWithSlash_afterComp (hc.comp ▸ hc.name.word.ne_nil)).symm
  obtain hnil | ⟨hall, htr⟩ := hl
  · exact ⟨hnil, by rw [hends, hnil]; rfl⟩
  · refine ⟨?_, htr⟩
    by_contra hne
    have hlast : (afterComp pt.text).getLast? = some slash := by
      rw [List.getLast?_eq_some_getLast hne]
      have := List.all_eq_true.1 hall _ (List.getLast_mem hne)
      simpa using this
    rw [hends, endsWithSlash, hlast] at htr
    exact absurd htr (by decide)

/-- A walk that stops at a last component has come to its end. -/
theorem unwalked_last (hs : StopsAt E guest .last pt) (hlen : guest.length < 2 * pathLen) :
    unwalked E pt.walk = E.img pt.cs := by
  obtain ⟨p, hp, hh⟩ := hs
  cases hh with
  | last hc hl =>
    obtain ⟨hnil, htr⟩ := (reached_tidy hlen hp).last hc hl
    rw [unwalked_eq, Point.joined, Point.push, if_pos hnil, htr]
    rfl

theorem Turn.following (ht : Turn E pt pt') : Turn { E with followLast := true } pt pt' := by
  cases ht with
  | here h => exact .here h
  | up h => exact .up h
  | down hc _ hp hr => exact .down hc (by simp) hp hr
  | link hc _ hp hr hh => exact .link hc (by simp) hp hr hh

/-- **A path whose last component is no symlink** is translated alike, followed or not. -/
theorem translate_unfollowed (habs : guest.head? = some slash) (hlen : guest.length < 2 * pathLen)
    (hr : E.rl (translatePath E guest pathLen).out = none) :
    (translatePath { E with followLast := true } guest pathLen).out =
      (translatePath E guest pathLen).out := by
  by_cases hun : unmapped E.ctx E.root = true
  · rw [translatePath, translatePath, translatePathEx, translatePathEx, if_pos (.inr hun),
      if_pos (.inr hun)]
  have hmap : unmapped E.ctx E.root = false := by simpa using hun
  obtain ⟨why, pt, p, hp, hh⟩ := stopsAt_exists E guest
  have hout := (translate_stopsAt ⟨p, hp, hh⟩ habs hmap 0).1
  have hp' : ReflTransGen (Turn { E with followLast := true }) (.start guest) p := by
    clear hh hout
    induction hp with
    | refl => exact .refl
    | tail _ ht ih => exact ih.tail ht.following
  -- it is enough that the walk that follows stops in the same place
  have hsame : ∀ {why'}, StopsAt { E with followLast := true } guest why' pt →
      (translatePath { E with followLast := true } guest pathLen).out =
        (translatePath E guest pathLen).out := by
    intro why' hs
    rw [translatePath, translatePath, hout, (translate_stopsAt hs habs hmap 0).1]
    exact unwalked_congr rfl
  cases hh with
  | done h => exact hsame ⟨p, hp', .done h⟩
  | tooLong hc hn hl => exact hsame ⟨p, hp', .tooLong hc hn hl⟩
  | proc hc _ hu => exact hsame ⟨p, hp', .proc hc (by simp) hu⟩
  | hops hc _ hu hr hh => exact hsame ⟨p, hp', .hops hc (by simp) hu hr hh⟩
  | @last c hc hl hf =>
    obtain ⟨hnil, htr⟩ := (reached_tidy hlen hp).last hc hl
    have himg : unwalked E (p.push c).walk = E.img (p.cs ++ [c]) :=
      unwalked_last ⟨p, hp, .last hc hl hf⟩ hlen
    cases hu : underProc (E.img (p.cs ++ [c])) with
    | true => exact hsame ⟨p, hp', .proc hc (by simp) hu⟩
    | false =>
      have hrl : E.rl (E.img (p.cs ++ [c])) = none := by
        rw [← himg, ← hout]
        exact hr
      have hdone : Halt { E with followLast := true } (p.push c) .done (p.push c) := by
        have h : Halt { E with followLast := true } (p.push c) .done _ :=
          .done (by rw [Point.push, hnil]; rfl)
        rwa [show ({ p.push c with text := [] } : Point) = p.push c by
          rw [Point.push, hnil]] at h
      exact hsame ⟨p.push c, hp'.tail (.down hc (by simp) hu hrl), hdone⟩

end Emuroot
