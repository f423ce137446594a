import Mathlib.Data.Nat.Bitwise
import Emuroot.Model.Linux
import Emuroot.Proof.Lookups

/-!
# The inode that is recorded

`recorded_inode`: where the path of a chown or of a creation is absolute, or starts from a directory
of the guest's name space, the inode that the engine finds for itself is the one of the file that
the kernel acts on. For a path from anywhere else the engine takes its own answer to the path as
given, from its own working directory: `chown_elsewhere`.
-/

namespace Emuroot

variable {w : Nat} {σ : Type}

def AT_EMPTY_PATH : Nat := 0x1000

/-- The calls of the chown family with a path. -/
def chownPathCalls : List Sys := [.chown, .chown32, .lchown, .lchown32, .fchownat]

/-- The calls that are looked at for a creation. -/
def creatingCalls : List Sys :=
  [.open, .openat, .creat, .mkdir, .mkdirat, .mknod, .mknodat, .symlink, .symlinkat]

def notedCalls : List Sys := chownPathCalls ++ creatingCalls

section
variable (P : Platform w σ)

/-- Whether an open with these flags follows a last symlink. -/
def opensLink (flags : Word w) : Bool :=
  !flag flags P.oNofollow && !(flag flags O_CREAT && flag flags O_EXCL)

/-- Whether the kernel follows a last symlink in the path of the call. -/
def kernelFollows (s : St w σ) : Sys → Bool
  | .chown | .chown32 | .creat => true
  | .fchownat => !flag (s.arg P 5) AT_SYMLINK_NOFOLLOW
  | .open => opensLink P (s.arg P 2)
  | .openat => opensLink P (s.arg P 3)
  | _ => false

/-- The directory that the path of the call starts from. -/
def St.base (s : St w σ) (y : Sys) (d : PathSyscall) : Int := s.dirfd P (dirSlot y d.slot1)

/-- The host path that the path of the call has, with a last symlink followed or not. -/
def St.hostOf (s : St w σ) (guest : CStr) (follow : Bool) : CStr :=
  (translatePath (s.walkEnv P follow) guest pathLen).out

/-- A process is about to make call `y` with the path `given`, which is the kernel's `host` and the
guest's `guest`: an absolute path, or one from a directory of the guest's name space. A path that is
left as it is has one name for both. -/
structure Known (s : St w σ) (y : Sys) (d : PathSyscall) (given host guest : CStr) : Prop where
  noted : y ∈ notedCalls
  call : P.nr.is y (s.sysno P)
  entry : pathTable.find? (fun e => e.nr = y) = some d
  reads : Reads P s d.slot1 given
  nonempty : given ≠ []
  fits : given.length < pathLen
  spells : Spells P s.ctx s.t.root s.t.pid s.fs (s.base P y d) given host guest
  same : host = guest ∨
    (translatePath (s.walkEnv P (kernelFollows P s y)) guest pathLen).differs = true
  proper : ProperNames (s.walkEnv P true)

end

variable {P : Platform w σ} {s : St w σ} {y : Sys} {d : PathSyscall} {given host guest path : CStr}
  {fs : σ}

/-! ## What the tables have for these calls -/

theorem notedCalls_entries : ∀ y ∈ notedCalls,
    ((pathTable.find? fun e => e.nr = y).any fun d =>
      d.nr = y ∧ d.slot2 = 0 ∧ d.slot1 ≠ 0 ∧ y ∉ otherCalls) = true ∧
    (∀ lp64, tableAction lp64 y ∈ tameActions) ∧
    ∀ lp64, tableAction lp64 y = some .chown ↔ y ∈ chownPathCalls := by
  decide

theorem Known.findPathSyscall_eq (h : Known P s y d given host guest) :
    findPathSyscall P.nr (s.sysno P) = some d :=
  (findPathSyscall_of_is h.call).trans h.entry

theorem Known.slots (h : Known P s y d given host guest) :
    d.nr = y ∧ d.slot2 = 0 ∧ d.slot1 ≠ 0 ∧ y ∉ otherCalls := by
  have ht := (notedCalls_entries y h.noted).1
  rw [h.entry] at ht
  simpa using ht

theorem Known.mem (h : Known P s y d given host guest) : d ∈ pathTable :=
  List.mem_of_find?_eq_some h.entry

theorem Known.action (h : Known P s y d given host guest) :
    P.actionOf (s.sysno P) = tableAction (lp64 w) y := actionOf_of_is h.call

/-- Both flags of an exclusive creation. -/
theorem creat_excl (n : Nat) :
    n &&& (O_CREAT ||| O_EXCL) = O_CREAT ||| O_EXCL ↔ n &&& O_CREAT ≠ 0 ∧ n &&& O_EXCL ≠ 0 := by
  have hbit : ∀ i, n &&& 2 ^ i ≠ 0 ↔ n.testBit i = true := fun i => by
    rw [Nat.and_two_pow]
    cases n.testBit i <;> simp
  rw [show O_CREAT = 2 ^ 6 from rfl, show O_EXCL = 2 ^ 7 from rfl, hbit, hbit]
  constructor
  · intro h
    have hset : ∀ i, (2 ^ 6 ||| 2 ^ 7 : Nat).testBit i = true → n.testBit i = true := fun i hi => by
      rw [← h, Nat.testBit_and, Bool.and_eq_true] at hi
      exact hi.1
    exact ⟨hset 6 (by decide), hset 7 (by decide)⟩
  · rintro ⟨h6, h7⟩
    refine Nat.eq_of_testBit_eq fun i => ?_
    rw [Nat.testBit_and, Nat.testBit_or, Nat.testBit_two_pow, Nat.testBit_two_pow]
    by_cases hi : 6 = i
    · simp [← hi, h6]
    · by_cases hi7 : 7 = i
      · simp [← hi7, h7]
      · simp [hi, hi7]

/-- The engine follows a last symlink as the kernel does. -/
theorem Known.followLast_eq (h : Known P s y d given host guest) :
    followLast P s d = kernelFollows P s y := by
  have hopen : ∀ flags : Word w, (!flag flags P.oNofollow &&
      flags.toNat &&& (O_CREAT ||| O_EXCL) != O_CREAT ||| O_EXCL) = opensLink P flags := by
    intro flags
    have hbits := creat_excl flags.toNat
    unfold opensLink flag
    by_cases hb : flags.toNat &&& (O_CREAT ||| O_EXCL) = O_CREAT ||| O_EXCL
    · obtain ⟨hc, he⟩ := hbits.1 hb
      simp [hb, hc, he]
    · have hn := fun hc he => hb (hbits.2 ⟨hc, he⟩)
      by_cases hc : flags.toNat &&& O_CREAT = 0
      · simp [hb, hc]
      · simp [hb, not_not.1 (hn hc)]
  have hentry := h.entry
  have hmem := h.noted
  simp only [notedCalls, chownPathCalls, creatingCalls, List.cons_append, List.nil_append,
    List.mem_cons, List.not_mem_nil, or_false] at hmem
  obtain rfl | rfl | rfl | rfl | rfl | rfl | rfl | rfl | rfl | rfl | rfl | rfl | rfl | rfl := hmem <;>
    cases hentry <;> first | rfl | exact hopen _

/-! ## The entry -/

/-- The state in which the path comes to be rewritten. -/
def notedState (P : Platform w σ) (s : St w σ) (d : PathSyscall) : St w σ :=
  noteCreation P (chownNoted P s) (s.sysno P) d

/-- The state at the entry with these notes for the exit. -/
def withNotes (P : Platform w σ) (s : St w σ) (chown : Option Chown) (created : CStr) : St w σ :=
  { resetCall P s with t := { (resetCall P s).t with chown := chown, created := created } }

theorem chownNoted_eq (s : St w σ) : chownNoted P s = withNotes P s (chownNoted P s).t.chown [] := by
  unfold chownNoted noteChown
  dsimp only
  repeat' split
  all_goals rfl

theorem notedState_eq (s : St w σ) (d : PathSyscall) :
    ∃ created, notedState P s d = withNotes P s (chownNoted P s).t.chown created := by
  unfold notedState noteCreation
  dsimp only
  rw [chownNoted_eq s]
  repeat' split
  all_goals exact ⟨_, rfl⟩

theorem Known.onEntry_eq (h : Known P s y d given host guest) :
    onEntry P s =
      rewritePathArg P (notedState P s d) (s.sysno P) d.slot1 (kernelFollows P s y) 0 := by
  obtain ⟨-, hz, -, hother⟩ := h.slots
  have htame := (notedCalls_entries y h.noted).2.1 (lp64 w)
  obtain ⟨created, hu⟩ := notedState_eq (P := P) s d
  have hfollow : followLast P (notedState P s d) d = kernelFollows P s y := by
    rw [hu, ← h.followLast_eq]
    rfl
  rw [onEntry_tame h.call hother h.findPathSyscall_eq (h.action ▸ htame), rewriteTable, hz,
    ← hfollow, rewritePathArg_eq _ _ _ 0, if_pos (.inl rfl)]
  rfl

theorem ProperNames.any {follow follow' : Bool} (h : ProperNames (s.walkEnv P follow)) :
    ProperNames (s.walkEnv P follow') :=
  ⟨h.root, h.hosts, h.guests, h.rootNul, h.hostsNul, h.guestsNul, h.links⟩

theorem Known.base_eq (h : Known P s y d given host guest) :
    s.base P y d = s.dirfd P (dirfdSlot P.nr (s.sysno P) d.slot1) := by
  obtain ⟨hnr, -⟩ := h.slots
  rw [dirfdSlot_eq h.mem (by rw [hnr]; exact h.call) (.inl rfl), hnr]
  rfl

theorem Known.guest_proper (h : Known P s y d given host guest) :
    guest.head? = some slash ∧ 0 ∉ guest :=
  h.spells.proper (E := s.walkEnv P true) h.proper rfl h.reads.2.1

/-- **What the kernel finds under the path that is left for it** is what the host path names. -/
theorem Known.found (K : Lookups P s.t.pid) (h : Known P s y d given host guest)
    (hr : Reads P (onEntry P s) d.slot1 path)
    (hs : Spells P s.ctx s.t.root s.t.pid fs (s.base P y d) given host guest) {last : Bool}
    (hown : ¬K.own fs (s.hostOf P guest (kernelFollows P s y)) last) :
    K.find fs (s.base P y d) path last =
      P.look fs (s.hostOf P guest (kernelFollows P s y)) last := by
  obtain ⟨hnr, -, hn, -⟩ := h.slots
  obtain ⟨created, hu⟩ := notedState_eq (P := P) s d
  have hstrict : strictOpenat2 P (notedState P s d) (s.sysno P) d.slot1 = false := by
    have hne : Sys.openat2 ≠ y := fun he => absurd (he ▸ h.noted) (by decide)
    rw [strictOpenat2, Numbers.is_eq h.call, decide_eq_false hne]
    rfl
  have hspell := h.spells
  rw [h.base_eq] at hspell
  rw [h.onEntry_eq] at hr
  rw [hu] at hr hstrict
  have hfound := rewritten_found (s := withNotes P s _ created) K hn h.proper.any h.reads h.nonempty
    h.fits (.inr hstrict) hspell h.same hr hs last
  exact hfound.trans (K.absolute (translate_absolute h.proper.any h.guest_proper.1) hown)

/-! ## A chown -/

theorem Known.hostPathArg_eq (h : Known P s y d given host guest) (follow : Bool) :
    hostPathArg P (resetCall P s) (s.sysno P) d.slot1 follow = some (s.hostOf P guest follow) := by
  have hspell := h.spells
  rw [h.base_eq] at hspell
  have hgiven : givenPath P (resetCall P s) d.slot1 = some given :=
    Reads.givenPath_eq (s := resetCall P s) h.reads h.nonempty h.fits
  have habs := Spells.absoluteGuestPath (s := resetCall P s) hspell h.fits
  rw [hostPathArg, hgiven]
  dsimp only
  rw [habs]
  rfl

/-- What is noted is the file that the engine's own stat finds. -/
theorem entry_chown (hf : s.ctx.hasFakeIds) (ha : P.actionOf (s.sysno P) = some .chown) :
    (onEntry P s).t.chown.map Chown.key =
      (chownStat P (resetCall P s) (s.sysno P) (findPathSyscall P.nr (s.sysno P))).map Stat.key := by
  have hplain : Plain P (s.regs P.arch.sysno).toInt .chown := ⟨ha, by decide, by decide⟩
  have hc := congrArg Tracee.chown hplain.onEntry.t
  replace hc : (onEntry P s).t.chown = (plainEntry P s .chown).t.chown := hc
  have hnote : plainEntry P s .chown =
      noteChown P (resetCall P s) (s.sysno P) (findPathSyscall P.nr (s.sysno P)) := if_pos hf
  rw [hc, hnote, noteChown]
  cases chownStat P (resetCall P s) (s.sysno P) (findPathSyscall P.nr (s.sysno P)) <;> rfl

theorem Known.chownStat_eq (h : Known P s y d given host guest) :
    chownStat P (resetCall P s) (s.sysno P) (findPathSyscall P.nr (s.sysno P)) =
      P.look s.fs (s.hostOf P guest (kernelFollows P s y)) (kernelFollows P s y) := by
  have hfollow : followLast P (resetCall P s) d = kernelFollows P s y := h.followLast_eq
  rw [h.findPathSyscall_eq, chownStat, hfollow, h.hostPathArg_eq]
  rfl

/-- **A chown by path** is noted for the file that the kernel acts on. -/
theorem chown_path (K : Lookups P s.t.pid) (hf : s.ctx.hasFakeIds)
    (h : Known P s y d given host guest) (hy : y ∈ chownPathCalls)
    (hr : Reads P (onEntry P s) d.slot1 path)
    (hown : ¬K.own s.fs (s.hostOf P guest (kernelFollows P s y)) (kernelFollows P s y)) :
    (onEntry P s).t.chown.map Chown.key =
      (K.find s.fs (s.base P y d) path (kernelFollows P s y)).map Stat.key := by
  have ha : P.actionOf (s.sysno P) = some .chown :=
    h.action.trans (((notedCalls_entries y h.noted).2.2 _).2 hy)
  rw [entry_chown hf ha, h.chownStat_eq, h.found K hr h.spells hown]

/-- The descriptor in the first argument is the file that the engine looks at. -/
theorem chownStat_descriptor (K : Lookups P s.t.pid) (hfd : 0 ≤ s.dirfd P 1) {e : Option PathSyscall}
    (he : ∀ d ∈ e, hostPathArg P (resetCall P s) (s.sysno P) d.slot1
      (followLast P (resetCall P s) d) = none) :
    chownStat P (resetCall P s) (s.sysno P) e = K.find s.fs (s.dirfd P 1) [] true := by
  have hlink : baseLink s.t.pid (s.dirfd P 1) =
      snprintf 64 (cstr "/proc/" ++ decimal s.t.pid ++ cstr "/fd/" ++ decimal (s.dirfd P 1)) :=
    if_neg fun h => by rw [h] at hfd; exact absurd hfd (by decide)
  rw [K.descriptor hfd, hlink]
  cases e with
  | none => rfl
  | some d =>
    unfold chownStat
    dsimp only
    rw [he d rfl]
    rfl

theorem chown_descriptor (K : Lookups P s.t.pid) (hf : s.ctx.hasFakeIds)
    (hy : y = .fchown ∨ y = .fchown32) (hx : P.nr.is y (s.sysno P)) (hfd : 0 ≤ s.dirfd P 1) :
    (onEntry P s).t.chown.map Chown.key = (K.find s.fs (s.dirfd P 1) [] true).map Stat.key := by
  have htable : ∀ lp64, ∀ y, y = Sys.fchown ∨ y = .fchown32 →
      tableAction lp64 y = some .chown ∧ (pathTable.find? fun e => e.nr = y) = none := by
    rintro lp64 y (rfl | rfl) <;> revert lp64 <;> decide
  have ha : P.actionOf (s.sysno P) = some .chown := (actionOf_of_is hx).trans (htable (lp64 w) y hy).1
  rw [entry_chown hf ha, findPathSyscall_of_is hx, (htable (lp64 w) y hy).2,
    chownStat_descriptor K hfd (by simp)]

/-- `fchownat(fd, "", ..., AT_EMPTY_PATH)` -/
theorem chown_empty (K : Lookups P s.t.pid) (hf : s.ctx.hasFakeIds) (hx : P.nr.is .fchownat (s.sysno P))
    (hr : Reads P s 2 []) (hfd : 0 ≤ s.dirfd P 1) :
    (onEntry P s).t.chown.map Chown.key = (K.find s.fs (s.dirfd P 1) [] true).map Stat.key := by
  have ha : P.actionOf (s.sysno P) = some .chown := by
    refine (actionOf_of_is hx).trans ?_
    cases lp64 w <;> rfl
  have hentry : findPathSyscall P.nr (s.sysno P) = some ⟨.fchownat, 2, 0, .at, 5⟩ :=
    (findPathSyscall_of_is hx).trans rfl
  have hgiven : givenPath P (resetCall P s) 2 = none := by
    have hread : guestReadStr (resetCall P s).mem ((resetCall P s).arg P 2) pathLen = some [] :=
      Reads.read (s := resetCall P s) hr (by decide)
    rw [givenPath, hread]
    split <;> rfl
  rw [entry_chown hf ha, hentry, chownStat_descriptor K hfd]
  rintro d ⟨⟩
  rw [hostPathArg, hgiven]

/-- **A relative path from elsewhere** is noted for what the engine itself finds under it. -/
theorem chown_elsewhere (hf : s.ctx.hasFakeIds) (hy : y ∈ chownPathCalls) (hx : P.nr.is y (s.sysno P))
    (hd : pathTable.find? (fun e => e.nr = y) = some d) (hr : Reads P s d.slot1 given)
    (hne : given ≠ []) (hlen : given.length < pathLen)
    (hout : absoluteGuestPath P s (dirfdSlot P.nr (s.sysno P) d.slot1) given (2 * pathLen) = none) :
    (onEntry P s).t.chown.map Chown.key = (P.look s.fs given (followLast P s d)).map Stat.key := by
  have hnoted : y ∈ notedCalls := List.mem_append_left _ hy
  have ha : P.actionOf (s.sysno P) = some .chown :=
    (actionOf_of_is hx).trans (((notedCalls_entries y hnoted).2.2 _).2 hy)
  have hgiven : givenPath P (resetCall P s) d.slot1 = some given :=
    Reads.givenPath_eq (s := resetCall P s) hr hne hlen
  have hhost : ∀ follow, hostPathArg P (resetCall P s) (s.sysno P) d.slot1 follow = some given := by
    intro follow
    have hnone : absoluteGuestPath P (resetCall P s) (dirfdSlot P.nr (s.sysno P) d.slot1) given
        (2 * pathLen) = none := hout
    rw [hostPathArg, hgiven]
    dsimp only
    rw [hnone]
    exact congrArg some (snprintf_of_lt hlen)
  rw [entry_chown hf ha, (findPathSyscall_of_is hx).trans hd, chownStat, hhost]
  rfl

/-! ## A creation -/

/-- The note of a creation: the host path without a last symlink followed, if there is nothing
yet. -/
theorem entry_created (h : Known P s y d given host guest) :
    (onEntry P s).t.created =
      if s.ctx.hasFakeIds = true ∧
          ¬(s.t.creds.fsuid = s.ctx.fakeUid ∧ s.t.creds.fsgid = s.ctx.fakeGid) ∧
          createsFile P s (s.sysno P) = true ∧ P.lstat s.fs (s.hostOf P guest false) = none then
        s.hostOf P guest false
      else [] := by
  have hframe := rewritePathArg_frame (P := P) (notedState P s d) (s.sysno P) d.slot1
    (kernelFollows P s y) 0
  have hc := congrArg Tracee.created hframe.t
  replace hc : (onEntry P s).t.created = (notedState P s d).t.created := h.onEntry_eq ▸ hc
  have hhost : hostPathArg P (withNotes P s (chownNoted P s).t.chown []) (s.sysno P) d.slot1 false =
      some (s.hostOf P guest false) := h.hostPathArg_eq false
  have hcreates : createsFile P (withNotes P s (chownNoted P s).t.chown []) (s.sysno P) =
      createsFile P s (s.sysno P) := rfl
  rw [hc, notedState, chownNoted_eq s, noteCreation, hhost, hcreates]
  dsimp only [withNotes, resetCall]
  by_cases hfake : s.ctx.hasFakeIds = true
  · by_cases hids : s.t.creds.fsuid = s.ctx.fakeUid ∧ s.t.creds.fsgid = s.ctx.fakeGid
    · simp [hfake, hids]
    · by_cases hcr : createsFile P s (s.sysno P) = true
      · simp only [hfake, hcr, hids, Option.isNone_iff_eq_none]
        simp [hids]
      · simp [hfake, hids, hcr]
  · simp [hfake]

/-- Where the last component is no symlink, there is one host path. -/
theorem hostOf_eq (h : Known P s y d given host guest)
    (hnew : P.readlink s.fs (s.hostOf P guest false) = none) (follow : Bool) :
    s.hostOf P guest follow = s.hostOf P guest false := by
  cases follow with
  | false => rfl
  | true =>
    exact translate_unfollowed (E := s.walkEnv P false) h.guest_proper.1 (h.spells.length_lt h.fits)
      hnew

/-- What the engine finds under the host path of a creation, followed or not, once the host is
`fs`. -/
theorem look_created (K : Lookups P s.t.pid) (h : Known P s y d given host guest)
    (hr : Reads P (onEntry P s) d.slot1 path)
    (hs : Spells P s.ctx s.t.root s.t.pid fs (s.base P y d) given host guest)
    (hnew : P.readlink s.fs (s.hostOf P guest false) = none)
    (hquiet : kernelFollows P s y = true → P.readlink fs (s.hostOf P guest false) = none)
    (hown : ¬K.own fs (s.hostOf P guest (kernelFollows P s y)) (kernelFollows P s y)) :
    K.find fs (s.base P y d) path (kernelFollows P s y) = P.lstat fs (s.hostOf P guest false) := by
  rw [h.found K hr hs hown, hostOf_eq h hnew]
  cases hf : kernelFollows P s y with
  | false => rfl
  | true => exact K.notLink (hquiet hf)

/-- **The path noted for a creation** names, at the exit, the file that the kernel acts on. -/
theorem created_names (K : Lookups P s.t.pid) (h : Known P s y d given host guest)
    (hcr : (onEntry P s).t.created ≠ []) (hr : Reads P (onEntry P s) d.slot1 path)
    (hs : Spells P s.ctx s.t.root s.t.pid fs (s.base P y d) given host guest)
    (hquiet : ∀ p, kernelFollows P s y = true → P.readlink s.fs p = none → P.readlink fs p = none)
    (hown : ¬K.own fs (s.hostOf P guest (kernelFollows P s y)) (kernelFollows P s y)) :
    P.lstat fs (onEntry P s).t.created =
      K.find fs (s.base P y d) path (kernelFollows P s y) := by
  rw [entry_created h] at hcr ⊢
  split at hcr
  · rename_i hcond
    have hnew := K.noFile hcond.2.2.2
    rw [if_pos hcond]
    exact (look_created K h hr hs hnew (fun hf => hquiet _ hf hnew) hown).symm
  · exact (hcr rfl).elim

/-! ## Both -/

/-- **The inode that is recorded is that of the file the kernel acts on**, for a path that is
absolute or starts from a directory of the name space, and for a descriptor; a chown by any other
relative path is recorded for what the engine itself finds under it. -/
theorem recorded_inode (K : Lookups P s.t.pid) (hf : s.ctx.hasFakeIds) :
    (∀ y d given host guest path, Known P s y d given host guest →
      Reads P (onEntry P s) d.slot1 path →
      (y ∈ chownPathCalls →
        ¬K.own s.fs (s.hostOf P guest (kernelFollows P s y)) (kernelFollows P s y) →
        (onEntry P s).t.chown.map Chown.key =
          (K.find s.fs (s.base P y d) path (kernelFollows P s y)).map Stat.key) ∧
      ∀ fs, (onEntry P s).t.created ≠ [] →
        Spells P s.ctx s.t.root s.t.pid fs (s.base P y d) given host guest →
        (∀ p, kernelFollows P s y = true → P.readlink s.fs p = none → P.readlink fs p = none) →
        ¬K.own fs (s.hostOf P guest (kernelFollows P s y)) (kernelFollows P s y) →
        P.lstat fs (onEntry P s).t.created =
          K.find fs (s.base P y d) path (kernelFollows P s y)) ∧
    (∀ y, (y = .fchown ∨ y = .fchown32) ∨
        y = .fchownat ∧ Reads P s 2 [] ∧ flag (s.arg P 5) AT_EMPTY_PATH = true →
      P.nr.is y (s.sysno P) → 0 ≤ s.dirfd P 1 →
      (onEntry P s).t.chown.map Chown.key = (K.find s.fs (s.dirfd P 1) [] true).map Stat.key) ∧
    ∀ y d given, y ∈ chownPathCalls → P.nr.is y (s.sysno P) →
      pathTable.find? (fun e => e.nr = y) = some d → Reads P s d.slot1 given → given ≠ [] →
      given.length < pathLen →
      absoluteGuestPath P s (dirfdSlot P.nr (s.sysno P) d.slot1) given (2 * pathLen) = none →
      (onEntry P s).t.chown.map Chown.key = (P.look s.fs given (followLast P s d)).map Stat.key := by
  refine ⟨fun y d given host guest path h hr => ⟨fun hy hown => chown_path K hf h hy hr hown,
      fun fs hcr hs hquiet hown => created_names K h hcr hr hs hquiet hown⟩,
    fun y hy hx hfd => ?_, fun y d given hy hx hd hr hne hlen hout =>
      chown_elsewhere hf hy hx hd hr hne hlen hout⟩
  obtain hy | ⟨rfl, hr, -⟩ := hy
  · exact chown_descriptor K hf hy hx hfd
  · exact chown_empty K hf hx hr hfd

/-! ## A chown in the working directory -/

/-- A host on which the guest is in `/w`, and the engine in a directory that has an `f` too. -/
def twoDirs : Platform 64 Unit :=
  let look (path : CStr) : Option Stat :=
    if path = cstr "/w/f" then some ⟨8, 5, 1000, 1000, 0o100644⟩
    else if path = cstr "f" then some ⟨8, 9, 1000, 1000, 0o100644⟩
    else if path = cstr "/w" ∨ path = cstr "/proc/7/cwd" then some ⟨8, 2, 1000, 1000, 0o40755⟩
    else none
  { linuxPlatform with
    readlink := fun _ path => if path = cstr "/proc/7/cwd" then some (cstr "/w") else none
    stat := fun _ => look
    lstat := fun _ => look }

def twoDirsLookups : Lookups twoDirs 7 :=
  .ofHost twoDirs 7 (fun _ => rfl) fun {fs path} h => by
    by_cases hp : path = cstr "/proc/7/cwd"
    · subst hp
      exact absurd (show twoDirs.lstat () (cstr "/proc/7/cwd") = none from h) (by decide +kernel)
    · exact if_neg hp

/-- `chown(path, 5, 5)` by a process of the fake root, with nothing mapped. -/
def chownCall (path : String) : St 64 Unit :=
  linuxCall { Ctx.create with hasFakeIds := true } [] 92 [8192, 5, 5] [(8192, cstr path)]

/-- The guest gives `/w/f` away, and another `f` is recorded, the one where emuroot was started. -/
theorem chown_wrong_inode :
    Standing twoDirs () 7 AT_FDCWD (cstr "/w") ∧
    Reads twoDirs (onEntry twoDirs (chownCall "f")) 1 (cstr "f") ∧
    (twoDirsLookups.find () AT_FDCWD (cstr "f") true).map Stat.key = some ⟨8, 5⟩ ∧
    (onEntry twoDirs (chownCall "f")).t.chown.map Chown.key = some ⟨8, 9⟩ :=
  ⟨⟨by decide +kernel, by decide +kernel, by decide +kernel, by decide +kernel⟩,
    ⟨by decide +kernel, by decide +kernel, by decide +kernel⟩, by decide +kernel, by decide +kernel⟩

/-- `chown("f", 5, 5)` where `/w` is the root, and the working directory of the guest. -/
def chownInRoot : St 64 Unit :=
  linuxCall { Ctx.create with root := cstr "/w", hasFakeIds := true } (cstr "/w") 92 [8192, 5, 5]
    [(8192, cstr "f")]

/-- There the guest's file is recorded. -/
theorem recorded_inode_rooted :
    Reads twoDirs (onEntry twoDirs chownInRoot) 1 (cstr "/w/f") ∧
    (onEntry twoDirs chownInRoot).t.chown.map Chown.key =
      (twoDirsLookups.find () AT_FDCWD (cstr "/w/f") true).map Stat.key ∧
    (onEntry twoDirs chownInRoot).t.chown.map Chown.key = some ⟨8, 5⟩ := by
  have hlinks : ∀ path text, twoDirs.readlink () path = some text → 0 ∉ text := by
    intro path text h
    have h' : (if path = cstr "/proc/7/cwd" then some (cstr "/w") else none) = some text := h
    split at h'
    · cases h'
      decide
    · cases h'
  have hproper : ProperNames (chownInRoot.walkEnv twoDirs true) :=
    .bare rfl (by decide +kernel) (by decide +kernel) hlinks
  have hbase : Standing twoDirs () 7 AT_FDCWD (cstr "/w") :=
    ⟨by decide +kernel, by decide +kernel, by decide +kernel, by decide +kernel⟩
  have hknown : Known twoDirs chownInRoot .chown ⟨.chown, 1, 0, .follow, 0⟩ (cstr "f")
      (cstr "/w/f") (cstr "/f") :=
    { noted := by decide
      call := (by decide +kernel : linuxNumbers.is .chown 92 = true)
      entry := by decide
      reads := ⟨by decide +kernel, by decide +kernel, by decide +kernel⟩
      nonempty := by decide +kernel
      fits := by decide +kernel
      spells := .relative (by decide) hbase (by decide +kernel : _ = some (cstr "/"))
      same := .inr (by decide +kernel)
      proper := hproper }
  have hr : Reads twoDirs (onEntry twoDirs chownInRoot) 1 (cstr "/w/f") :=
    ⟨by decide +kernel, by decide +kernel, by decide +kernel⟩
  exact ⟨hr, ((recorded_inode twoDirsLookups rfl).1 _ _ _ _ _ _ hknown hr).1 (by decide) id,
    by decide +kernel⟩

end Emuroot
