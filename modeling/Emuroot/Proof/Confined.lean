import Emuroot.Proof.Mapping

/-!
# `..` in host paths

`translate_confined_iff`: the host path of a guest path has no `..` component exactly when the walk
over the guest path leaves none behind. `translate_escapes`: under `/proc` it can.
-/

namespace Emuroot

open Words

variable {E : WalkEnv} {pt : Point} {cs : List CStr}

/-- Nothing of the host path at `pt` goes up: no text that an early stop leaves unread does, and the
path of the components is not cut to the buffer right behind the dots of one of them. -/
structure KeepsIn (E : WalkEnv) (why : Why) (pt : Point) : Prop where
  unread : why.isEarly → dotdot ∉ words slash (pt.unread E)
  uncut : ¬slash :: dotdot <:+ E.img pt.cs

theorem dotdot_mem_of_suffix {s : CStr} (h : slash :: dotdot <:+ s) : dotdot ∈ words slash s := by
  have hw : IsWord slash dotdot := ⟨by decide, by decide⟩
  obtain ⟨u, rfl⟩ := h
  rw [words_append_sep, words_of_isWord hw]
  exact List.mem_append_right _ (List.mem_singleton_self _)

/-- A `..` of a text cut short that has none ends it. -/
theorem suffix_of_dotdot_mem_take {s : CStr} {n : Nat} (h : dotdot ∈ words slash (s.take n))
    (hs : dotdot ∉ words slash s) (hne : s.take n ≠ dotdot) : slash :: dotdot <:+ s.take n := by
  obtain h | h | h := mem_words_take h
  · exact absurd h hs
  · exact h
  · exact absurd h.symm hne

theorem words_orSlash (s : CStr) : words slash (orSlash s) = words slash s := by
  unfold orSlash
  split
  · rename_i h
    rw [h]
    rfl
  · rfl

theorem words_unlessRoot (s : CStr) : words slash (unlessRoot s) = words slash s := by
  unfold unlessRoot
  split
  · rename_i h
    rw [h]
    rfl
  · rfl

/-- A host path goes up only where it is cut short. -/
theorem suffix_of_dotdot_mem_img (hroot : dotdot ∉ words slash E.root)
    (hbind : ∀ b ∈ E.ctx.bindings, dotdot ∉ words slash b.host) (hn : ∀ c ∈ cs, IsName c)
    (h : dotdot ∈ words slash (E.img cs)) : slash :: dotdot <:+ E.img cs := by
  obtain ⟨H, L, k, himg, hk, hhead, hH, hL⟩ := img_shape E fun c hc => (hn c hc).word
  have hHup : dotdot ∉ words slash H := by
    obtain rfl | ⟨b, hb, rfl⟩ := hH
    · exact hroot
    · rw [words_unlessRoot]
      exact hbind b hb
  have hLup : dotdot ∉ words slash L := by
    intro hm
    obtain hm | hm := List.mem_append.1 (hL hm)
    · exact hroot hm
    · exact (hn _ hm).ne_dotdot rfl
  have hne : ∀ {t : CStr}, t ≠ [] → orSlash t = t := fun ht => if_neg ht
  rw [himg, words_orSlash] at h
  cases hLk : L.take k with
  | nil =>
    rw [hLk, List.append_nil] at h himg
    have hcut : H.take (pathLen - 1) ≠ dotdot := by
      intro he
      have hlen := congrArg List.length he
      rw [List.length_take, show dotdot.length = 2 from rfl] at hlen
      have hle : H.length ≤ pathLen - 1 := by
        simp only [pathLen] at hlen ⊢
        omega
      rw [List.take_of_length_le hle] at h
      exact hHup h
    have hs := suffix_of_dotdot_mem_take h hHup hcut
    rw [himg, hne fun h0 => by simp [h0] at hs]
    exact hs
  | cons a l =>
    have hk0 : k ≠ 0 := by
      rintro rfl
      cases hLk
    have ha : a = slash := by
      refine hhead a ?_
      have := congrArg List.head? hLk
      rwa [List.head?_take, if_neg hk0] at this
    have hwhole : H.take (pathLen - 1) = H := List.take_of_length_le (by omega)
    rw [hwhole, words_append_of_head (by simp [hLk, ha]), List.mem_append] at h
    have hcut : L.take k ≠ dotdot := by
      rw [hLk, ha]
      intro he
      cases he
    have hs := suffix_of_dotdot_mem_take (h.resolve_left hHup) hLup hcut
    rw [himg, hwhole, hne (by simp [hLk])]
    exact hs.trans (List.suffix_append H _)

/-- **The host path of an absolute guest path has no `..` component** exactly when the walk leaves
none behind. -/
theorem translate_confined_iff {guest : CStr} (habs : guest.head? = some slash)
    (hne : E.root ≠ []) (hroot : dotdot ∉ words slash E.root)
    (hbind : ∀ b ∈ E.ctx.bindings, dotdot ∉ words slash b.host) (n : Nat) :
    dotdot ∉ words slash (translatePathEx E guest pathLen n).out ↔
      ∀ why pt, StopsAt E guest why pt → KeepsIn E why pt := by
  have hmap : unmapped E.ctx E.root = false := by simp [unmapped, hne]
  have hout : ∀ {why pt}, StopsAt E guest why pt →
      (dotdot ∉ words slash (translatePathEx E guest pathLen n).out ↔ KeepsIn E why pt) := by
    intro why pt hs
    rw [(translate_stopsAt hs habs hmap n).1, words_unwalked, List.mem_append, not_or]
    constructor
    · rintro ⟨himg, hun⟩
      exact ⟨fun _ => hun, fun hc => himg (dotdot_mem_of_suffix hc)⟩
    · intro hk
      refine ⟨fun hm => hk.uncut (suffix_of_dotdot_mem_img hroot hbind hs.good.names hm), ?_⟩
      by_cases hw : why.isEarly
      · exact hk.unread hw
      · obtain ⟨p, -, hh⟩ := hs
        rw [unread_eq_nil hh hw]
        exact List.not_mem_nil
  constructor
  · exact fun h why pt hs => (hout hs).1 h
  · intro h
    obtain ⟨why, pt, hs⟩ := stopsAt_exists E guest
    exact (hout hs).2 (h why pt hs)

/-! ## Under `/proc` -/

/-- A root at `/r` with the host's `/proc` bound, and no symlinks. -/
def procJail : WalkEnv where
  ctx :=
    { Ctx.create with
      root := cstr "/r"
      bindings := [⟨cstr "/proc", cstr "/proc", []⟩] }
  root := cstr "/r"
  rl := fun _ => none
  followLast := true

theorem translate_confined_etc :
    dotdot ∉ words slash (translatePathEx procJail (cstr "/../etc") pathLen 0).out ∧
    ∀ why pt, StopsAt procJail (cstr "/../etc") why pt → KeepsIn procJail why pt := by
  have hout : dotdot ∉ words slash (translatePathEx procJail (cstr "/../etc") pathLen 0).out := by
    decide +kernel
  exact ⟨hout,
    (translate_confined_iff (by decide) (by decide) (by decide) (by decide) 0).1 hout⟩

/-- The `..` behind a place under `/proc` are the host's. -/
theorem translate_escapes :
    (translatePathEx procJail (cstr "/proc/self/../../etc/passwd") pathLen 0).out =
      cstr "/proc/self/../../etc/passwd" ∧
    dotdot ∈ words slash
      (translatePathEx procJail (cstr "/proc/self/../../etc/passwd") pathLen 0).out := by
  decide +kernel

end Emuroot
