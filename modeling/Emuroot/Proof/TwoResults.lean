import Emuroot.Proof.Reroot

/-!
# The two results of a translation

`guestOut` is the path of the components walked, `out` the host path of the same components with the
text behind them that was not read. A path walked has no links on its way, so `guestOut` is read
again as it is (`translate_guestOut`), and **`results_agree_iff`**: the two results name one file
exactly if the walk stopped short of no text.
-/

namespace Emuroot

open Words Relation

variable {E : WalkEnv} {pt pt' : Point} {why : Why} {guest : CStr} {cs : List CStr}

/-! ## Stopping short -/

/-- The text that is put behind the host path of `cs`, as far as the buffer takes it. -/
def WalkEnv.behind (E : WalkEnv) (cs : List CStr) (text : CStr) : CStr :=
  (text.dropWhile (· == slash)).take
    (pathLen - 1 - (E.img cs).length - if endsWithSlash (E.img cs) then 0 else 1)

/-- The next component of the place is one that the walk leaves to the kernel, and text behind it:
its path does not fit, it lies under `/proc`, or it is the 41st symlink. -/
inductive LeavesText (E : WalkEnv) (pt : Point) : Prop
  | tooLong {c : CStr} (hc : nextComp pt.text = c) (hn : IsName c)
      (hlen : pathLen ≤ (pathStr pt.cs).length + 1 + c.length)
      (hrest : E.behind pt.cs (afterComp pt.text) ≠ [])
  | proc {c : CStr} (hc : pt.Enters c) (hp : underProc (E.img (pt.cs ++ [c])) = true)
      (hrest : E.behind (pt.cs ++ [c]) (afterComp pt.text) ≠ [])
  | hops {c link : CStr} (hc : pt.Enters c) (hp : underProc (E.img (pt.cs ++ [c])) = false)
      (hr : E.rl (E.img (pt.cs ++ [c])) = some link) (hh : maxSymlinkHops ≤ pt.hops)
      (hrest : E.behind (pt.cs ++ [c]) (afterComp pt.text) ≠ [])

/-- Resolving the guest path comes to such a place. -/
def StopsShort (E : WalkEnv) (guest : CStr) : Prop :=
  ∃ pt, ReflTransGen (Turn E) (.start guest) pt ∧ LeavesText E pt

theorem Halt.unread_ne_nil (hh : Halt E pt' why pt) (hf : E.followLast = true)
    (hu : pt.unread E ≠ []) : LeavesText E pt' := by
  have hnot : ¬(pt'.isLast ∧ E.followLast = false) := by simp [hf]
  cases hh with
  | done h => exact absurd (unread_eq_nil (.done h) id) hu
  | last hc hl hlast => exact absurd (unread_eq_nil (.last hc hl hlast) id) hu
  | proc hc hl hp => exact .proc hc hp hu
  | hops hc hl hp hr hh => exact .hops hc hp hr hh hu
  | tooLong hc hn hlen => exact .tooLong hc hn hlen hu

theorem LeavesText.halt (h : LeavesText E pt) (hf : E.followLast = true) :
    ∃ why pt', Halt E pt why pt' ∧ pt'.unread E ≠ [] := by
  have hnot : ¬(pt.isLast ∧ E.followLast = false) := by simp [hf]
  cases h with
  | tooLong hc hn hlen hrest => exact ⟨_, _, .tooLong hc hn hlen, hrest⟩
  | proc hc hp hrest => exact ⟨_, _, .proc hc hnot hp, hrest⟩
  | hops hc hp hr hh hrest => exact ⟨_, _, .hops hc hnot hp hr hh, hrest⟩

/-- Where the walk stops there is text left exactly if it stops short. -/
theorem stopsShort_iff (hf : E.followLast = true) :
    StopsShort E guest ↔ ∃ why pt, StopsAt E guest why pt ∧ pt.unread E ≠ [] := by
  constructor
  · rintro ⟨p, hp, hl⟩
    obtain ⟨why, pt, hh, hu⟩ := hl.halt hf
    exact ⟨why, pt, ⟨p, hp, hh⟩, hu⟩
  · rintro ⟨why, pt, ⟨p, hp, hh⟩, hu⟩
    exact ⟨p, hp, hh.unread_ne_nil hf hu⟩

/-! ## Up to trailing slashes -/

/-- More than slashes behind a path makes another path. -/
theorem not_upToSlash_append {p q : CStr} (h : ∃ a ∈ q, a ≠ slash) : ¬UpToSlash p (p ++ q) := by
  intro he
  have hlen := congrArg List.length he
  have hle : (p.rdropWhile (· == slash)).length ≤ p.length := (List.rdropWhile_prefix _ p).length_le
  have hpos : q.rdropWhile (· == slash) ≠ [] := by
    obtain ⟨a, ha, hne⟩ := h
    rw [Ne, List.rdropWhile_eq_nil_iff]
    exact fun hall => hne (by simpa using hall a ha)
  have := List.length_pos_iff.2 hpos
  rw [rdropWhile_append (.inr h), List.length_append] at hlen
  omega

theorem exists_unread (h : pt.unread E ≠ []) : ∃ a ∈ pt.unread E, a ≠ slash := by
  obtain ⟨a, t, ht⟩ := List.exists_cons_of_ne_nil h
  refine ⟨a, ht ▸ List.mem_cons_self, fun ha => head?_dropWhile_slash pt.text ?_⟩
  have hhead : (pt.unread E).head? = some slash := by rw [ht, ha]; rfl
  rwa [Point.unread, List.head?_take, if_neg] at hhead
  intro h0
  rw [Point.unread, h0, List.take_zero] at h
  exact h rfl

/-- The host path of the components walked is what is written, exactly if no text is left. -/
theorem upToSlash_img_iff (E : WalkEnv) (pt : Point) :
    UpToSlash (E.img pt.cs) (unwalked E pt.walk) ↔ pt.unread E = [] := by
  have hj : UpToSlash (E.img pt.cs) (pt.joined E) ↔ pt.unread E = [] := by
    constructor
    · intro h
      by_contra hu
      have hex := exists_unread hu
      obtain ⟨-, h0⟩ | ⟨he, -⟩ | he := joined_eq E pt
      · exact hu h0
      · exact not_upToSlash_append hex (he ▸ h)
      · obtain ⟨a, ha, hne⟩ := hex
        exact not_upToSlash_append ⟨a, List.mem_cons_of_mem _ ha, hne⟩ (he ▸ h)
    · intro hu
      obtain ⟨he, -⟩ | ⟨he, -⟩ | he := joined_eq E pt
      · exact congrArg _ he.symm
      · rw [he, hu, List.append_nil]
        exact rfl
      · rw [he, hu]
        exact (upToSlash_concat _).symm
  have hs : UpToSlash (unwalked E pt.walk) (pt.joined E) := upToSlash_unwalked E pt
  rw [← hj]
  exact ⟨fun h => h.trans hs, fun h => h.trans hs.symm⟩

/-! ## The resolved guest path -/

/-- The walk over `/` ends at once. -/
theorem stopsAt_root (E : WalkEnv) : StopsAt E (pathStr []) .done ⟨[], [], true, 0⟩ :=
  ⟨_, .refl, .done rfl⟩

/-- The resolved guest path, read again with its last component left alone, leads to the host path
of its components. -/
theorem translate_guestOut {ctx : Ctx} {root : CStr} {rl : CStr → Option CStr}
    (hmap : unmapped ctx root = false) (h : Trodden ⟨ctx, root, rl, true⟩ guest cs) :
    UpToSlash (translatePathEx ⟨ctx, root, rl, false⟩ (pathStr cs) pathLen pathLen).out
      (WalkEnv.img ⟨ctx, root, rl, true⟩ cs) := by
  have himg : WalkEnv.img ⟨ctx, root, rl, true⟩ cs = WalkEnv.img ⟨ctx, root, rl, false⟩ cs := rfl
  obtain ⟨why, pt, hs, hcs, hu⟩ : ∃ why pt, StopsAt ⟨ctx, root, rl, false⟩ (pathStr cs) why pt ∧
      pt.cs = cs ∧ pt.unread ⟨ctx, root, rl, false⟩ = [] := by
    by_cases hne : cs = []
    · subst hne
      exact ⟨_, _, stopsAt_root _, rfl, List.take_nil⟩
    · exact ⟨_, _, stopsAt_straight h.readable rfl h.passes hne, rfl, List.take_nil⟩
  rw [(translate_stopsAt hs (head?_pathStr cs) hmap pathLen).1, himg, ← hcs]
  exact ((upToSlash_img_iff _ pt).2 hu).symm

/-- **The two results of a translation name one file** exactly if nothing is mapped, or resolving
the path with its last component looked through does not stop short of text. -/
theorem results_agree_iff (ctx : Ctx) (root : CStr) (rl : CStr → Option CStr) {guest : CStr}
    (habs : guest.head? = some slash) :
    let first := translatePathEx ⟨ctx, root, rl, true⟩ guest pathLen pathLen
    UpToSlash (translatePathEx ⟨ctx, root, rl, false⟩ first.guestOut pathLen pathLen).out first.out ↔
      unmapped ctx root = true ∨ ¬StopsShort ⟨ctx, root, rl, true⟩ guest := by
  intro first
  cases hmap : unmapped ctx root with
  | true =>
    have hcut : snprintf pathLen (snprintf pathLen guest) = snprintf pathLen guest :=
      List.take_of_length_le (length_snprintf_le _ _)
    have hfirst : first = ⟨snprintf pathLen guest, snprintf pathLen guest, false⟩ :=
      if_pos (.inr hmap)
    have hsecond (g : CStr) : (translatePathEx ⟨ctx, root, rl, false⟩ g pathLen pathLen).out =
        snprintf pathLen g := by rw [translatePathEx, if_pos (.inr hmap)]
    rw [hsecond, hfirst, hcut]
    exact iff_of_true rfl (.inl rfl)
  | false =>
    obtain ⟨why, pt, hs, hiff⟩ : ∃ why pt, StopsAt ⟨ctx, root, rl, true⟩ guest why pt ∧
        (pt.unread ⟨ctx, root, rl, true⟩ = [] ↔ ¬StopsShort ⟨ctx, root, rl, true⟩ guest) := by
      by_cases hshort : StopsShort ⟨ctx, root, rl, true⟩ guest
      · obtain ⟨why, pt, hs, hu⟩ := (stopsShort_iff rfl).1 hshort
        exact ⟨why, pt, hs, iff_of_false hu (not_not_intro hshort)⟩
      · obtain ⟨why, pt, hs⟩ := stopsAt_exists ⟨ctx, root, rl, true⟩ guest
        refine ⟨why, pt, hs, iff_of_true ?_ hshort⟩
        by_contra hu
        exact hshort ((stopsShort_iff rfl).2 ⟨why, pt, hs, hu⟩)
    obtain ⟨hout, hguest⟩ := translate_stopsAt hs habs hmap pathLen
    have htrod : Trodden ⟨ctx, root, rl, true⟩ guest pt.cs :=
      LooksAt.trodden (.inr ⟨why, pt, hs, rfl⟩)
    have hagain := translate_guestOut hmap htrod
    rw [snprintf_of_lt hs.good.fits] at hguest
    rw [show first.guestOut = pathStr pt.cs from hguest, show first.out = unwalked _ pt.walk from hout,
      ← hiff, ← upToSlash_img_iff, Bool.false_eq_true, false_or]
    exact ⟨fun h => hagain.symm.trans h, fun h => hagain.trans h⟩

/-- With `/proc` bound, a path below `/proc/self`: the walk stops at `/proc/self`, and the host path
has the rest behind it. -/
theorem results_differ :
    let ctx := { Ctx.create with
      root := cstr "/r", bindings := [⟨cstr "/proc", cstr "/proc", cstr "/r/proc"⟩] }
    let first :=
      translatePathEx ⟨ctx, ctx.root, fun _ => none, true⟩ (cstr "/proc/self/fd") pathLen pathLen
    first.out = cstr "/proc/self/fd" ∧ first.guestOut = cstr "/proc/self" ∧
    ¬UpToSlash (translatePathEx ⟨ctx, ctx.root, fun _ => none, false⟩ first.guestOut pathLen pathLen).out
      first.out := by
  unfold UpToSlash
  decide +kernel

/-- A path through a link to a directory. -/
theorem results_agree_link :
    let ctx := { Ctx.create with root := cstr "/r" }
    let rl : CStr → Option CStr := fun p => if p = cstr "/r/lib" then some (cstr "usr/lib") else none
    let first := translatePathEx ⟨ctx, ctx.root, rl, true⟩ (cstr "/lib/x/") pathLen pathLen
    first.guestOut = cstr "/usr/lib/x" ∧
    (UpToSlash (translatePathEx ⟨ctx, ctx.root, rl, false⟩ first.guestOut pathLen pathLen).out
        first.out ↔
      unmapped ctx ctx.root = true ∨ ¬StopsShort ⟨ctx, ctx.root, rl, true⟩ (cstr "/lib/x/")) :=
  ⟨by decide +kernel, results_agree_iff _ _ _ rfl⟩

end Emuroot
