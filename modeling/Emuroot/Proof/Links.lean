import Emuroot.Proof.Mapping

/-!
# Symlinks in host paths

`translate_unlinked_iff`: of the components of a host path that lie below the root or the binding
host, those that the walk has passed are no symlinks. What the hop limit and the length check leave
behind may be: `translate_keeps_link`.
-/

namespace Emuroot

open Words

variable {E : WalkEnv} {pt pt' : Point} {why : Why} {cs : List CStr}

/-! ## The components walked -/

/-- The host paths of the directories on the way to `cs` are no symlinks. -/
def Resolved (E : WalkEnv) (cs : List CStr) : Prop :=
  ∀ k, 1 ≤ k → k ≤ cs.length → E.rl (E.img (cs.take k)) = none

theorem Resolved.nil (E : WalkEnv) : Resolved E [] := fun _ h1 h2 =>
  absurd (Nat.le_trans h1 h2) (by decide)

theorem Resolved.dropLast (h : Resolved E cs) : Resolved E cs.dropLast := by
  intro k h1 hk
  rw [List.length_dropLast] at hk
  rw [List.dropLast_eq_take, List.take_take, Nat.min_eq_left hk]
  exact h k h1 (hk.trans (Nat.sub_le _ _))

theorem Resolved.push (h : Resolved E cs) {c : CStr} (hc : E.rl (E.img (cs ++ [c])) = none) :
    Resolved E (cs ++ [c]) := by
  intro k h1 hk
  rw [List.length_append, List.length_singleton] at hk
  obtain hk | rfl := Nat.le_or_eq_of_le_succ hk
  · rw [List.take_append_of_le_length hk]
    exact h k h1 hk
  · rwa [List.take_of_length_le (by simp)]

theorem Turn.resolved (ht : Turn E pt pt') (h : Resolved E pt.cs) : Resolved E pt'.cs := by
  cases ht with
  | here => exact h
  | up => exact h.dropLast
  | down hc hl hp hr => exact h.push hr
  | link =>
    unfold Point.follow
    dsimp only
    split
    · exact .nil E
    · exact h

/-- Where the walk stops only the last component may be a symlink: one that was not looked at, one
under `/proc`, or the one that is a symlink too many. -/
theorem StopsAt.resolved {guest : CStr} (h : StopsAt E guest why pt) :
    Resolved E pt.cs ∨
    Resolved E pt.cs.dropLast ∧
      (why = .last ∧ E.followLast = false ∨ why = .proc ∧ underProc (E.img pt.cs) ∨ why = .hops) := by
  obtain ⟨p, hp, hh⟩ := h
  have hres : Resolved E p.cs := by
    clear hh
    induction hp with
    | refl => exact .nil E
    | tail _ ht ih => exact ht.resolved ih
  have hpush : ∀ c, Resolved E (p.push c).cs.dropLast := by
    intro c
    rw [Point.push, List.dropLast_concat]
    exact hres
  cases hh with
  | done | tooLong => exact .inl hres
  | last hc hl hf => exact .inr ⟨hpush _, .inl ⟨rfl, hf⟩⟩
  | proc hc hl hu => exact .inr ⟨hpush _, .inr (.inl ⟨rfl, hu⟩)⟩
  | hops => exact .inr ⟨hpush _, .inr (.inr rfl)⟩

/-! ## The components of a host path -/

/-- `q` is a host path up to one of its components below `base`. -/
structure Below (base out q : CStr) : Prop where
  stem : Stem slash q out
  longer : base.length < q.length
  ends : q.getLast? ≠ some slash

/-- `q` is no symlink, or the last component of a path that is not to be followed. -/
def Passable (E : WalkEnv) (out q : CStr) : Prop :=
  E.rl q = none ∨ E.followLast = false ∧ words slash (out.drop q.length) = []

/-- Every component below the root or the binding host can be passed. -/
def Unlinked (E : WalkEnv) (tr : Translated) : Prop :=
  underProc tr.out = false →
    ∀ q, Below (hostBase E.ctx E.root tr.guestOut) tr.out q → Passable E tr.out q

/-- The components that the hop limit and the length check leave for the kernel can be passed: the
symlink too many, and those behind the walk. -/
def LeftUnlinked (E : WalkEnv) (why : Why) (pt : Point) : Prop :=
  underProc (unwalked E pt.walk) = false →
    ∀ q, Below (hostBase E.ctx E.root (pathStr pt.cs)) (unwalked E pt.walk) q →
      why = .hops ∧ q = E.img pt.cs ∨
        (why = .hops ∨ why = .tooLong) ∧ (E.img pt.cs).length < q.length →
      Passable E (unwalked E pt.walk) q

theorem underProc_append {s : CStr} (h : underProc s = true) (r : CStr) :
    underProc (s ++ r) = true := by
  rw [underProc, beq_iff_eq] at h ⊢
  have hlen := congrArg List.length h
  have h6 : (cstr "/proc/").length = 6 := by decide
  rw [List.length_take, h6] at hlen
  rw [List.take_append_of_le_length (by omega), h]

/-- Nothing but slashes comes behind a path that is read to its end. -/
theorem Below.length_le {base s r q : CStr} (h : Below base (s ++ r) q) (hr : words slash r = []) :
    q.length ≤ s.length := by
  by_contra hlt
  obtain ⟨v, rfl, hv⟩ := h.stem.of_append (Nat.le_of_not_le hlt)
  have hne : v ≠ [] := by
    rintro rfl
    simp at hlt
  refine h.ends ?_
  rw [List.getLast?_append_of_ne_nil _ hne, List.getLast?_eq_some_getLast hne]
  exact congrArg some
    (eq_sep_of_words_eq_nil hr _ (hv.isPrefix.subset (List.getLast_mem hne)))

/-- **Of the components below the root or the binding host none is a symlink**, but for a last one
that is not to be followed, exactly when what the hop limit or the length check leaves is not. -/
theorem translate_unlinked_iff {guest : CStr} (habs : guest.head? = some slash)
    (hmap : unmapped E.ctx E.root = false) :
    Unlinked E (translatePathEx E guest pathLen pathLen) ↔
      ∀ why pt, StopsAt E guest why pt → LeftUnlinked E why pt := by
  have hiff : ∀ {why pt}, StopsAt E guest why pt →
      (Unlinked E (translatePathEx E guest pathLen pathLen) ↔ LeftUnlinked E why pt) := by
    intro why pt hs
    obtain ⟨hout, hguest⟩ := translate_stopsAt hs habs hmap pathLen
    rw [snprintf_of_lt hs.good.fits] at hguest
    rw [Unlinked, hout, hguest]
    refine ⟨fun h hp q hq _ => h hp q hq, fun h hp q hq => ?_⟩
    obtain ⟨r, hr, hw⟩ := unwalked_eq_append E pt
    have hproc : why ≠ .proc := by
      rintro rfl
      obtain ⟨p, -, hh⟩ := hs
      cases hh with
      | proc hc hl hu => exact absurd (hr ▸ underProc_append hu r) (by simp [hp])
    by_cases hle : q.length ≤ (E.img pt.cs).length
    · -- the walk has passed this component
      have hst : Stem slash q (E.img pt.cs) := hq.stem.of_prefix (hr ▸ List.prefix_append _ r) hle
      obtain ⟨k, hk, hkl, rfl⟩ := below_img E hs.good.words hst hq.longer hq.ends
      obtain hres | ⟨hres, hlast⟩ := hs.resolved
      · exact .inl (hres k hk hkl)
      obtain hkl | rfl := Nat.lt_or_eq_of_le hkl
      · have hkd := hres k hk (by rw [List.length_dropLast]; omega)
        rw [List.dropLast_eq_take, List.take_take, Nat.min_eq_left (by omega)] at hkd
        exact .inl hkd
      · rw [List.take_length] at hq ⊢
        obtain ⟨rfl, hf⟩ | ⟨rfl, -⟩ | rfl := hlast
        · obtain ⟨p, -, hh⟩ := hs
          refine .inr ⟨hf, ?_⟩
          rw [hr, List.drop_left, hw, unread_eq_nil hh (by simp [Why.isEarly]), words_nil]
        · exact absurd rfl hproc
        · exact h hp _ hq (.inl ⟨rfl, rfl⟩)
    · by_cases hwhy : why.isEarly
      · refine h hp q hq (.inr ⟨?_, Nat.lt_of_not_le hle⟩)
        cases why with
        | done | last => exact absurd hwhy (by simp [Why.isEarly])
        | proc => exact absurd rfl hproc
        | hops => exact .inl rfl
        | tooLong => exact .inr rfl
      · obtain ⟨p, -, hh⟩ := hs
        rw [unread_eq_nil hh hwhy, words_nil] at hw
        rw [hr] at hq
        exact absurd (hq.length_le hw) hle
  constructor
  · exact fun h why pt hs => (hiff hs).1 h
  · intro h
    obtain ⟨why, pt, hs⟩ := stopsAt_exists E guest
    exact (hiff hs).2 (h why pt hs)

/-! ## A symlink too many -/

/-- A root at `/r` in which `/l` links to itself. -/
def loopJail : WalkEnv where
  ctx := { Ctx.create with root := cstr "/r" }
  root := cstr "/r"
  rl := fun host => if host = cstr "/r/l" then some (cstr "/l") else none
  followLast := true

theorem translate_unlinked_dir :
    (translatePathEx loopJail (cstr "/d/f") pathLen pathLen).out = cstr "/r/d/f" ∧
    ∀ why pt, StopsAt loopJail (cstr "/d/f") why pt → LeftUnlinked loopJail why pt := by
  have hout : (translatePathEx loopJail (cstr "/d/f") pathLen pathLen).out = cstr "/r/d/f" := by
    decide +kernel
  refine ⟨hout, (translate_unlinked_iff (by decide) (by decide)).1 fun _ q hq => .inl (if_neg ?_)⟩
  rintro rfl
  exact absurd (hout ▸ hq.stem.isPrefix) (by decide)

/-- The symlink that is one too many is left to the kernel, which follows it from the real root. -/
theorem translate_keeps_link :
    (translatePathEx loopJail (cstr "/l") pathLen pathLen).out = cstr "/r/l" ∧
    ¬Unlinked loopJail (translatePathEx loopJail (cstr "/l") pathLen pathLen) := by
  have hout : (translatePathEx loopJail (cstr "/l") pathLen pathLen).out = cstr "/r/l" := by
    decide +kernel
  have hguest : (translatePathEx loopJail (cstr "/l") pathLen pathLen).guestOut = cstr "/l" := by
    decide +kernel
  refine ⟨hout, fun h => ?_⟩
  rw [Unlinked, hout, hguest] at h
  have hbelow : Below (hostBase loopJail.ctx loopJail.root (cstr "/l")) (cstr "/r/l") (cstr "/r/l") :=
    ⟨.refl _, by decide +kernel, by decide⟩
  obtain hr | ⟨hf, -⟩ := h (by decide) _ hbelow
  · exact absurd hr (by decide)
  · exact absurd hf (by decide)

end Emuroot
