import Emuroot.Proof.HostNames
import Emuroot.Proof.TableEntry

/-!
# The files that the kernel finds for a guest

`Lookups` is what the kernel finds under the paths that a guest process gives it, which is what the
engine's own stat and lstat find under absolute paths. `Spells`: a path that the guest gives is one
path for the kernel and one of the guest's name space. `rewritten_found`: the path that is left for
the kernel names the file that the engine finds under the translation.
-/

namespace Emuroot

variable {w : Nat} {σ : Type}

/-! ## What the kernel finds -/

section
variable (P : Platform w σ)

/-- The engine's own stat, or its lstat. -/
def Platform.look (fs : σ) (path : CStr) (follow : Bool) : Option Stat :=
  if follow then P.stat fs path else P.lstat fs path

/-- The link to a directory in `/proc` has its path: it has not been removed since. -/
structure Standing (fs : σ) (pid : Nat) (fd : Int) (base : CStr) : Prop where
  link : P.readlink fs (baseLink pid fd) = some base
  fits : base.length < pathLen
  absolute : base.head? = some slash
  there : P.stat fs base = P.stat fs (baseLink pid fd)

/-- The kernel's lookups for a guest process. A relative path starts from the directory of a
descriptor (`AT_FDCWD`: the working directory). An absolute path names the same file for the guest
and for the engine, unless it leads through the links that `/proc` shows each process of its own. -/
structure Lookups (pid : Nat) where
  find : σ → Int → CStr → Bool → Option Stat
  own : σ → CStr → Bool → Prop
  absolute : ∀ {fs fd path follow}, path.head? = some slash → ¬own fs path follow →
    find fs fd path follow = P.look fs path follow
  relative : ∀ {fs fd path follow base}, path.head? ≠ some slash → path ≠ [] →
    Standing P fs pid fd base →
    find fs fd path follow = find fs fd (unlessRoot base ++ slash :: path) follow
  /-- with `AT_EMPTY_PATH`, and without a path -/
  descriptor : ∀ {fs fd follow}, 0 ≤ fd → find fs fd [] follow = P.stat fs (baseLink pid fd)
  notLink : ∀ {fs path}, P.readlink fs path = none → P.stat fs path = P.lstat fs path
  noFile : ∀ {fs path}, P.lstat fs path = none → P.readlink fs path = none

/-- The directory argument of a call, as the kernel takes it. -/
def St.dirfd (s : St w σ) (slot : Nat) : Int :=
  if slot ≠ 0 then ((s.arg P slot).setWidth 32).toInt else AT_FDCWD

/-- A path from a directory on, if it is relative. -/
def fromDir (dir path : CStr) : CStr :=
  if path.head? = some slash then path else unlessRoot dir ++ slash :: path

/-- `given` is `host` for the kernel, and `guest` in the name space of the guest. -/
inductive Spells (ctx : Ctx) (root : CStr) (pid : Nat) (fs : σ) (fd : Int) (given : CStr) :
    CStr → CStr → Prop
  | absolute (h : given.head? = some slash) : Spells ctx root pid fs fd given given given
  | relative {base guestBase : CStr} (h : given.head? ≠ some slash) (hb : Standing P fs pid fd base)
      (hg : hostToGuest ctx root base pathLen = some guestBase) :
      Spells ctx root pid fs fd given (unlessRoot base ++ slash :: given)
        (unlessRoot guestBase ++ slash :: given)

end

/-- A host on which every process sees the same. -/
def Lookups.ofHost (P : Platform w σ) (pid : Nat)
    (h1 : ∀ {fs path}, P.readlink fs path = none → P.stat fs path = P.lstat fs path)
    (h2 : ∀ {fs path}, P.lstat fs path = none → P.readlink fs path = none) : Lookups P pid where
  find fs fd path follow :=
    if path.head? = some slash then P.look fs path follow
    else if path = [] then P.stat fs (baseLink pid fd)
    else
      match P.readlink fs (baseLink pid fd) with
      | none => none
      | some base => P.look fs (unlessRoot base ++ slash :: path) follow
  own _ _ _ := False
  absolute h _ := if_pos h
  relative {fs fd path follow base} h hne hb := by
    rw [if_neg h, if_neg hne, hb.link, if_pos (head?_behind hb.absolute path)]
  descriptor _ := rfl
  notLink := h1
  noFile := h2

variable {P : Platform w σ} {ctx : Ctx} {root : CStr} {pid : Nat} {fs : σ} {fd : Int}
  {given host guest path : CStr} {follow : Bool}

/-! ## The two spellings -/

theorem Spells.find (K : Lookups P pid) (h : Spells P ctx root pid fs fd given host guest)
    (hne : given ≠ []) (follow : Bool) : K.find fs fd given follow = K.find fs fd host follow := by
  cases h with
  | absolute => rfl
  | relative h hb => exact K.relative h hne hb

theorem hostToGuest_unmapped (h : unmapped ctx root = true) (base : CStr) (n : Nat) :
    hostToGuest ctx root base n = none := by
  simp only [unmapped, Bool.and_eq_true, List.isEmpty_iff] at h
  have hb : hostBinding ctx base = none := by
    rw [hostBinding, h.2]
    rfl
  rw [hostToGuest, hb, h.1]
  rfl

/-- A directory that has a name is in a name space. -/
theorem Spells.mapped (h : Spells P ctx root pid fs fd given host guest)
    (hrel : given.head? ≠ some slash) : unmapped ctx root = false := by
  cases h with
  | absolute h => exact (hrel h).elim
  | relative _ _ hg =>
    by_contra hun
    rw [hostToGuest_unmapped (by simpa using hun)] at hg
    cases hg

theorem length_hostToGuest_lt {base g : CStr} (h : hostToGuest ctx root base pathLen = some g) :
    g.length < pathLen := by
  have hcut : ∀ s : CStr, (orSlash (snprintf pathLen s)).length ≤ pathLen - 1 := fun s =>
    length_orSlash_le (length_snprintf_le ..) (by decide)
  refine Nat.lt_of_le_of_lt (m := pathLen - 1) ?_ (by decide)
  unfold hostToGuest at h
  split at h
  · cases h
    exact hcut _
  · split at h
    · cases h
      exact hcut _
    · cases h

/-- The guest's name of the working directory, `/` where it has none. -/
def cwdName (P : Platform w σ) (s : St w σ) : CStr :=
  let named := (P.readlinkBuf s.fs (baseLink s.t.pid AT_FDCWD)).bind fun base =>
    if base = [] then none else hostToGuest s.ctx s.t.root base pathLen
  named.getD [slash]

theorem cwdName_eq (s : St w σ) : cwdName P s = if realCwd P s = [] then [slash] else
    (hostToGuest s.ctx s.t.root (realCwd P s) pathLen).getD [slash] := by
  unfold cwdName realCwd
  cases P.readlinkBuf s.fs (baseLink s.t.pid AT_FDCWD) with
  | none => rfl
  | some base =>
    dsimp only [Option.bind_some, Option.getD_some]
    split <;> rfl

theorem length_cwdName (s : St w σ) : (cwdName P s).length < pathLen := by
  rw [cwdName_eq]
  split
  · decide
  · cases hn : hostToGuest s.ctx s.t.root (realCwd P s) pathLen with
    | none => exact (by decide : [slash].length < pathLen)
    | some name => exact length_hostToGuest_lt hn

theorem Spells.length_lt (h : Spells P ctx root pid fs fd given host guest)
    (hlen : given.length < pathLen) : guest.length < 2 * pathLen := by
  cases h with
  | absolute => omega
  | @relative base guestBase _ _ hg =>
    have hb := length_hostToGuest_lt hg
    have hu : (unlessRoot guestBase).length ≤ guestBase.length := by
      unfold unlessRoot
      split
      · exact Nat.zero_le _
      · exact Nat.le_refl _
    rw [List.length_append, List.length_cons]
    omega

/-- The engine takes the path for what it is in the guest's name space. -/
theorem Spells.absoluteGuestPath {s : St w σ} {slot : Nat}
    (h : Spells P s.ctx s.t.root s.t.pid s.fs (s.dirfd P slot) given host guest)
    (hlen : given.length < pathLen) :
    absoluteGuestPath P s slot given (2 * pathLen) = some guest := by
  have hfit := h.length_lt hlen
  unfold Emuroot.absoluteGuestPath
  cases h with
  | absolute h =>
    rw [if_pos h, snprintf_of_lt hfit]
  | @relative base guestBase h hb hg =>
    have hbuf : P.readlinkBuf s.fs (baseLink s.t.pid (s.dirfd P slot)) = some base := by
      have hle : base.length ≤ pathLen - 1 := Nat.le_pred_of_lt hb.fits
      rw [Platform.readlinkBuf, hb.link, Option.map_some, List.take_of_length_le hle]
    have hnil : base ≠ [] := fun h0 => by
      have := hb.absolute
      rw [h0] at this
      cases this
    rw [if_neg h]
    dsimp only
    rw [show (if slot ≠ 0 then ((s.arg P slot).setWidth 32).toInt else AT_FDCWD) = s.dirfd P slot
      from rfl, hbuf]
    dsimp only
    rw [if_neg hnil, hg]
    dsimp only
    rw [snprintf_of_lt hfit]

/-- The guest's name for a host path is an absolute one. -/
theorem hostToGuest_absolute (hguests : ∀ b ∈ ctx.bindings, b.guest.head? = some slash)
    {base g : CStr} (h : hostToGuest ctx root base pathLen = some g) : g.head? = some slash := by
  -- what is behind a prefix begins with a slash
  have hrest : ∀ {p : CStr}, hasPrefix base p = true → ∀ a ∈ (base.drop p.length).head?, a = slash := by
    intro p hp
    obtain ⟨r, hr, hhead⟩ := hasPrefix_iff_stem.1 hp
    rwa [hr, List.drop_left]
  have hcut : ∀ {p : CStr}, (∀ a ∈ p.head?, a = slash) →
      (orSlash (snprintf pathLen p)).head? = some slash := fun hp => head?_orSlash (head?_take_slash hp _)
  unfold hostToGuest at h
  split at h
  · rename_i best hbest
    obtain ⟨hmem, hmatch⟩ := Pick.pick_mem hbest
    rw [Bool.and_eq_true] at hmatch
    cases h
    exact hcut (head?_append_slash (head?_unlessRoot (hguests best hmem)) (hrest hmatch.2))
  · split at h
    · rename_i hroot
      cases h
      exact hcut (hrest hroot.2)
    · cases h

theorem hostToGuest_proper {E : WalkEnv} (hE : ProperNames E) {base g : CStr}
    (h0 : 0 ∉ base) (h : hostToGuest E.ctx E.root base pathLen = some g) :
    g.head? = some slash ∧ 0 ∉ g := by
  refine ⟨hostToGuest_absolute hE.guests h, ?_⟩
  have hdrop : ∀ n, 0 ∉ base.drop n := fun n hm => h0 (List.mem_of_mem_drop hm)
  have hcut : ∀ {p : CStr}, 0 ∉ p → 0 ∉ orSlash (snprintf pathLen p) := fun hp0 =>
    orSlash_noNul fun hm => hp0 (List.mem_of_mem_take hm)
  unfold hostToGuest at h
  split at h
  · rename_i best hbest
    cases h
    refine hcut fun hm => ?_
    rcases List.mem_append.1 hm with hm | hm
    · exact unlessRoot_noNul (hE.guestsNul best (Pick.pick_mem hbest).1) hm
    · exact hdrop _ hm
  · split at h
    · cases h
      exact hcut (hdrop _)
    · cases h

/-- The guest's name for a path is an absolute one without NUL. -/
theorem Spells.proper {E : WalkEnv} (hE : ProperNames E) (hrl : E.rl = P.readlink fs)
    (h : Spells P E.ctx E.root pid fs fd given host guest) (h0 : 0 ∉ given) :
    guest.head? = some slash ∧ 0 ∉ guest := by
  cases h with
  | absolute h => exact ⟨h, h0⟩
  | @relative base guestBase h hb hg =>
    have hbase : 0 ∉ base := hE.links _ _ (hrl ▸ hb.link)
    obtain ⟨hhead, hnul⟩ := hostToGuest_proper hE hbase hg
    refine ⟨head?_behind hhead given, fun hm => ?_⟩
    obtain hm | hm := List.mem_append.1 hm
    · exact unlessRoot_noNul hnul hm
    · exact h0 ((List.mem_cons.1 hm).resolve_left (by decide))

/-! ## The path that is left for the kernel -/

/-- The calls whose paths come right after their directory. -/
def dirCalls : List Sys := [.openat, .openat2, .mkdirat, .unlinkat, .newfstatat, .fstatat64, .statx,
  .readlinkat, .fchmodat, .fchmodat2, .fchownat, .utimensat, .futimesat, .faccessat, .faccessat2,
  .mknodat, .renameat, .renameat2, .linkat, .symlinkat]

/-- The argument with the directory of a path, as the kernel takes it; 0 is the working
directory. -/
def dirSlot (y : Sys) (n : Nat) : Nat := if y ∈ dirCalls then n - 1 else 0

/-- `dirfd_slot` is right but for the second path of rename and link. -/
theorem dirfdSlot_eq {N : Numbers} {x : Int} {d : PathSyscall} (hd : d ∈ pathTable)
    (hx : N.is d.nr x) {n : Nat} (hn : n = d.slot1 ∨ n = d.slot2 ∧ d.nr ≠ .rename ∧ d.nr ≠ .link) :
    dirfdSlot N x n = dirSlot d.nr n := by
  have htable : ∀ d ∈ pathTable, ∀ n,
      n = d.slot1 ∨ n = d.slot2 ∧ d.nr ≠ .rename ∧ d.nr ≠ .link →
      (if n < 2 then 0 else if .symlink = d.nr then 0 else if .inotify_add_watch = d.nr then 0
        else n - 1) = dirSlot d.nr n := by
    have hslots : ∀ d ∈ pathTable, ∀ n ∈ [d.slot1, d.slot2],
        n = d.slot1 ∨ n = d.slot2 ∧ d.nr ≠ .rename ∧ d.nr ≠ .link →
        (if n < 2 then 0 else if .symlink = d.nr then 0 else if .inotify_add_watch = d.nr then 0
          else n - 1) = dirSlot d.nr n := by decide
    exact fun d hd n hn => hslots d hd n (by obtain rfl | ⟨rfl, -⟩ := hn <;> simp) hn
  rw [← htable d hd n hn, dirfdSlot, Numbers.is_eq hx, Numbers.is_eq hx]
  simp only [decide_eq_true_eq]

/-- A translation that is no different is the guest path. -/
theorem translate_same {E : WalkEnv} (habs : guest.head? = some slash)
    (hun : unmapped E.ctx E.root = false)
    (hd : (translatePath E guest pathLen).differs = false) :
    (translatePath E guest pathLen).out = guest := by
  obtain ⟨why, pt, hs⟩ := stopsAt_exists E guest
  rw [translatePath, (translate_stopsAt hs habs hun 0).1]
  rw [translatePath, translatePathEx, if_neg (by simp [habs, hun])] at hd
  dsimp only at hd
  rw [run_of_stopsAt hs] at hd
  simpa using hd

/-- **The path left for the kernel names the file that its translation names**, where a path left as
it is has one name for the kernel and the guest. The host may have changed since, to `fs`. -/
theorem rewritten_found {s : St w σ} (K : Lookups P s.t.pid) {x : Int} {n which : Nat} (hn : n ≠ 0)
    (hE : ProperNames (s.walkEnv P follow)) (hr : Reads P s n given) (hne : given ≠ [])
    (hlen : given.length < pathLen)
    (hstrict : given.head? = some slash ∨ strictOpenat2 P s x n = false)
    (hs : Spells P s.ctx s.t.root s.t.pid s.fs (s.dirfd P (dirfdSlot P.nr x n)) given host guest)
    (hsame : host = guest ∨ (translatePath (s.walkEnv P follow) guest pathLen).differs = true)
    (ha : Reads P (rewritePathArg P s x n follow which) n path)
    (hs' : Spells P s.ctx s.t.root s.t.pid fs fd given host guest) (last : Bool) :
    K.find fs fd path last =
      K.find fs fd (translatePath (s.walkEnv P follow) guest pathLen).out last := by
  obtain ⟨habs, h0⟩ := hs.proper (E := s.walkEnv P follow) hE rfl hr.2.1
  obtain rfl | ⟨rfl, hkept⟩ := rewritePathArg_reads hn hr hne hlen hstrict (hs.absoluteGuestPath hlen)
    (translate_noNul hE habs h0) ha
  · rfl
  · -- the path is as given, and so is its translation
    rw [hs'.find K hne]
    congr 1
    cases hmap : unmapped s.ctx s.t.root with
    | true =>
      cases hs with
      | absolute =>
        rw [translatePath, translatePathEx, if_pos (.inr hmap)]
        exact (snprintf_of_lt hlen).symm
      | relative _ _ hg => exact absurd (hg.symm.trans (hostToGuest_unmapped hmap _ _)) (by simp)
    | false =>
      have hd := hkept.resolve_left (by simp [hmap])
      rw [translate_same (E := s.walkEnv P follow) habs hmap hd]
      exact hsame.resolve_right (by simp [hd])

end Emuroot
