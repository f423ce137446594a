import Emuroot.Proof.EntryFrame

/-!
# The entry of a call of the path table

`onEntry_tame`: a call whose action leaves its paths alone notes a chown, and then its paths are
rewritten. `rewritePathArg_reads`: what is left for the kernel to read in the place of a path is the
path as given, when its translation is no different, or the translation.
-/

namespace Emuroot

variable {w : Nat} {σ : Type} {P : Platform w σ}

/-- Calls with a way of their own through the entry, or another base for their path. -/
def otherCalls : List Sys := [.bind, .connect, .sendto, .execve, .openat2, .inotify_add_watch]

/-- The actions that leave the paths to be rewritten. -/
def tameActions : List (Option Action) :=
  [none, some .chown, some .stat2, some .stat3, some .readlink]

/-- The action that the table has for a call. -/
def tableAction (lp64 : Bool) (x : Sys) : Option Action :=
  (actionTable.find? fun d => (!d.lp64Only || lp64) && decide (d.nr = x)).map (·.action)

/-! ## The entry as a whole -/

/-- The state of a tame call once a chown is noted. -/
def chownNoted (P : Platform w σ) (s : St w σ) : St w σ :=
  if s.ctx.hasFakeIds ∧ P.actionOf (s.sysno P) = some .chown then
    noteChown P (resetCall P s) (s.sysno P) (findPathSyscall P.nr (s.sysno P))
  else resetCall P s

/-- A call of the path table whose action is tame: a chown is noted, and paths are rewritten. -/
theorem onEntry_tame {s : St w σ} {y : Sys} {d : PathSyscall} (hy : P.nr.is y (s.sysno P))
    (hn : y ∉ otherCalls) (hd : findPathSyscall P.nr (s.sysno P) = some d)
    (ha : P.actionOf (s.sysno P) ∈ tameActions) :
    onEntry P s = rewriteTable P (chownNoted P s) (s.sysno P) d := by
  have hpaths : ∀ u : St w σ, rewritePaths P u (s.sysno P) = rewriteTable P u (s.sysno P) d := by
    intro u
    have hnot : ∀ z ∈ otherCalls, P.nr.is z (s.sysno P) = false := by
      intro z hz
      rw [Numbers.is_eq hy]
      exact decide_eq_false fun he => hn (he ▸ hz)
    unfold rewritePaths
    rw [hnot .bind (by decide), hnot .connect (by decide), hnot .sendto (by decide), hd]
    rfl
  unfold chownNoted
  cases hact : P.actionOf (s.sysno P) with
  | none =>
    rw [if_neg (by simp)]
    exact (onEntry_noAction hact).trans (hpaths _)
  | some a =>
    have htame : a ∈ [Action.chown, .stat2, .stat3, .readlink] := by
      rw [hact] at ha
      simpa [tameActions] using ha
    have hmem : ∀ b ∈ [Action.chown, .stat2, .stat3, .readlink],
        (b ≠ .chroot ∧ b ≠ .mount ∧ b ≠ .umount) ∧ b ≠ .execve := by decide
    have hplain : Plain P (s.sysno P) a := ⟨hact, (hmem a htame).1, (hmem a htame).2⟩
    have hent : plainEntry P s a =
        if s.ctx.hasFakeIds ∧ some a = some .chown then
          noteChown P (resetCall P s) (s.sysno P) (findPathSyscall P.nr (s.sysno P))
        else resetCall P s := by
      have hneutral : neutralizeIdChange P (resetCall P s) (some a) = resetCall P s := by
        revert htame
        cases a <;> first | (intro _; rfl) | (intro h; exact absurd h (by decide))
      unfold plainEntry identityEntry
      rw [hneutral]
      by_cases hf : s.ctx.hasFakeIds <;> simp [hf, St.sysno]
    rw [← hent]
    exact hplain.onEntry_eq.trans (hpaths _)

/-! ## What the kernel reads in the place of a path -/

variable {s : St w σ} {n : Nat} {given guest path : CStr}

/-- Argument `n` points to a path. -/
def Reads (P : Platform w σ) (s : St w σ) (n : Nat) (path : CStr) : Prop :=
  s.arg P n ≠ 0 ∧ s.mem.HoldsString (s.arg P n) path

theorem Reads.read (h : Reads P s n given) (hlen : given.length < pathLen) :
    guestReadStr s.mem (s.arg P n) pathLen = some given :=
  guestReadStr_of_holds h.2 (by decide) hlen

theorem Reads.givenPath_eq (h : Reads P s n given) (hne : given ≠ []) (hlen : given.length < pathLen) :
    givenPath P s n = some given := by
  rw [givenPath, if_neg h.1, h.read hlen]
  exact Option.filter_eq_some_iff.2 ⟨rfl, by simpa using hne⟩

theorem length_translate_lt (E : WalkEnv) (guest : CStr) :
    (translatePath E guest pathLen).out.length < pathLen := by
  have hpos : 0 < pathLen := by decide
  have hle := length_snprintf_le pathLen
  unfold translatePath translatePathEx
  split
  · exact Nat.lt_of_le_of_lt (hle guest) (by omega)
  · exact Nat.lt_of_le_of_lt (hle _) (by omega)

/-- A path that was put in the guest is there to be read, or the argument is null. -/
theorem repoint_reads (h0 : 0 ∉ path) (hlen : path.length < pathLen)
    (hnull : (repoint P s n path).arg P n ≠ 0) : Reads P (repoint P s n path) n path := by
  have hw : pathLen ≤ 2 ^ w :=
    Nat.le_trans (by decide : pathLen ≤ 2 ^ 32) (P.arch.two_pow_le (Nat.le_refl _))
  refine ⟨hnull, ?_⟩
  revert hnull
  unfold repoint failClosed
  generalize scratch s (path.length + 1) = q
  obtain ⟨addr, s1⟩ := q
  dsimp only
  split
  · intro hnull
    exact (hnull (arg_setArg ..)).elim
  split
  · rename_i hok
    intro
    rw [arg_setArg]
    refine Memory.holdsString_write h0 ?_ (by omega)
    rwa [guestWrite, List.length_append] at hok
  · intro hnull
    exact (hnull (arg_setArg ..)).elim

/-- **What the kernel reads for a path**: the translation, or the path as given when its translation
is no different. -/
theorem rewritePathArg_reads {x : Int} {follow : Bool} {which : Nat} (hn : n ≠ 0)
    (hr : Reads P s n given) (hne : given ≠ []) (hlen : given.length < pathLen)
    (hstrict : given.head? = some slash ∨ strictOpenat2 P s x n = false)
    (hg : absoluteGuestPath P s (dirfdSlot P.nr x n) given (2 * pathLen) = some guest)
    (h0 : 0 ∉ (translatePath (s.walkEnv P follow) guest pathLen).out)
    (ha : Reads P (rewritePathArg P s x n follow which) n path) :
    path = (translatePath (s.walkEnv P follow) guest pathLen).out ∨
    path = given ∧ (unmapped s.ctx s.t.root = true ∨
      (translatePath (s.walkEnv P follow) guest pathLen).differs = false) := by
  rw [rewritePathArg_eq] at ha
  by_cases hun : unmapped s.ctx s.t.root = true
  · rw [if_pos (.inr (.inl hun))] at ha
    exact .inr ⟨ha.2.unique hr.2, .inl hun⟩
  rw [if_neg (not_or.2 ⟨hn, not_or.2 ⟨hun, hr.1⟩⟩), hr.read hlen] at ha
  dsimp only at ha
  rw [if_neg hne, if_neg fun h => h.1 (hstrict.resolve_right (by simp [h.2])), hg] at ha
  dsimp only at ha
  unfold rewriteGuest at ha
  extract_lets s1 r s2 at ha
  have hs2 : s2.mem = s.mem ∧ s2.arg P n = s.arg P n := by
    simp only [s2, s1]
    split <;> split <;> exact ⟨rfl, rfl⟩
  have hrout : r = translatePath (s.walkEnv P follow) guest pathLen := by
    simp only [r, s1]
    split <;> rfl
  split at ha
  · refine .inl ?_
    have hread := repoint_reads (s := s2) (hrout ▸ h0) (hrout ▸ length_translate_lt _ _) ha.1
    exact (ha.2.unique hread.2).trans (congrArg Translated.out hrout)
  · rename_i hd
    refine .inr ⟨?_, .inr ?_⟩
    · have hread : Reads P s2 n given := ⟨hs2.2 ▸ hr.1, hs2.1 ▸ hs2.2 ▸ hr.2⟩
      exact ha.2.unique hread.2
    · rw [← hrout]
      simpa using hd

end Emuroot
