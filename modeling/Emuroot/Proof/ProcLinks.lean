import Emuroot.Proof.ReportedPaths
import Emuroot.Proof.TableEntry

/-!
# The links of `/proc`, by any spelling

`entry_marks`: a readlink is taken for one of `/proc` by the text of its path, joined to where the
path starts, and not by where it leads. `proc_link_iff`: when what is reported for a link below `/proc`
is what is due for the link, whatever the path it is reached by.
-/

namespace Emuroot

variable {w : Nat} {σ : Type}

section
variable (P : Platform w σ)

/-- The slot of the path of a readlink or a readlinkat. -/
def linkSlot (s : St w σ) : Nat := if P.nr.is .readlinkat (s.sysno P) then 2 else 1

/-- The path of the call, joined to where it starts, if it is to be translated. -/
def joinedLink (s : St w σ) : Option CStr :=
  if unmapped s.ctx s.t.root then none
  else (givenPath P s (linkSlot P s)).bind fun given =>
    absoluteGuestPath P s (dirfdSlot P.nr (s.sysno P) (linkSlot P s)) given (2 * pathLen)

/-- The path of a program link. -/
def isExeLink (path : CStr) : Bool := (cstr "/exe").isSuffixOf path

/-- A readlink that is entered in `s`, run by the kernel on memory `m`, and left in `s'`: for the
directory and the path that the entry leaves it, the kernel's lookup `K` finds the link `link` below
`/proc`, with the text `host`, for which the guest has a name. -/
structure ProcLinkCall (K : Word w → CStr → Option (CStr × CStr)) (m : Memory w) (s s' : St w σ)
    (path link host : CStr) : Prop extends ReadlinkRan P m s' host where
  call : isReadlink P.nr (s.sysno P) = true
  reads : Reads P (onEntry P s) (linkSlot P s) path
  found : K ((onEntry P s).arg P 1) path = some (link, host)
  below : underProc link = true
  named : (namedAs s'.ctx s'.t.root host).isSome = true
  kept : s'.t = (onEntry P s).t

/-- What is due for the link: the program that runs through a loader, or the name of the text. -/
def dueAnswer (s : St w σ) (link host : CStr) : CStr :=
  if isExeLink link ∧ s.t.exe ≠ [] then s.t.exe else shownAs s.ctx s.t.root host

/-- The joined path begins with `/proc/`, and ends as the link does where a program runs through a
loader, and the answer fits. Where it begins otherwise, the text shows as itself; and where it ends
otherwise, the two answers are the same, as far as they are written. -/
def SpellingFits (m : Memory w) (s s' : St w σ) (link host : CStr) : Prop :=
  let size := linkSize P s'
  let answer := (dueAnswer s' link host).take size
  let text := host.take (linkTaken P s')
  let written := fun a : CStr =>
    a.take (if m.canWrite (linkBuf P s') (min a.length size) then size else text.length)
  match (joinedLink P s).filter underProc with
  | none => text = answer
  | some guest =>
    if s'.t.exe = [] ∨ isExeLink guest = isExeLink link then ReadlinkFits P m s' host
    else if isExeLink guest then written s'.t.exe = answer
    else
      match namedAs s'.ctx s'.t.root text with
      | none => text = answer
      | some name => written (snprintf pathLen name) = answer

end

variable {P : Platform w σ} {m : Memory w} {s s' : St w σ} {path link host : CStr}

/-! ## The entry -/

theorem onEntry_readlink (h : isReadlink P.nr (s.sysno P) = true) :
    onEntry P s = rewritePathArg P (resetCall P s) (s.sysno P) (linkSlot P s) false 0 := by
  have hcall : ∀ (y : Sys) (n : Nat), P.nr.is y (s.sysno P) = true → y ∉ otherCalls →
      findPathSyscall P.nr (s.sysno P) = some ⟨y, n, 0, .noFollow, 0⟩ →
      P.actionOf (s.sysno P) = some .readlink → linkSlot P s = n →
      onEntry P s = rewritePathArg P (resetCall P s) (s.sysno P) (linkSlot P s) false 0 := by
    intro y n hy hn hd ha hslot
    have hmade : createsFile P (resetCall P s) (s.sysno P) = false := not_createsFile ha _
    have hnote : noteCreation P (resetCall P s) (s.sysno P) ⟨y, n, 0, .noFollow, 0⟩ =
        resetCall P s := by
      unfold noteCreation
      rw [hmade]
      split <;> rfl
    have hchown : chownNoted P s = resetCall P s := by
      unfold chownNoted
      exact if_neg fun h => by rw [ha] at h; cases h.2
    rw [onEntry_tame hy hn hd (by rw [ha]; decide), hchown]
    unfold rewriteTable
    dsimp only
    rw [hnote, hslot]
    exact if_pos (.inl rfl)
  unfold isReadlink at h
  rw [Bool.or_eq_true] at h
  rcases h with h | h
  · have ha : P.actionOf (s.sysno P) = _ := actionOf_of_is h
    refine hcall .readlink 1 h (by decide) (findPathSyscall_of_is h) ?_ ?_
    · rw [ha]
      cases lp64 w <;> decide
    · rw [linkSlot, Numbers.is_eq h]
      rfl
  · have ha : P.actionOf (s.sysno P) = _ := actionOf_of_is h
    refine hcall .readlinkat 2 h (by decide) (findPathSyscall_of_is h) ?_ ?_
    · rw [ha]
      cases lp64 w <;> decide
    · rw [linkSlot, h]
      rfl

theorem repoint_t (s : St w σ) (slot : Nat) (host : CStr) :
    ∃ top, (repoint P s slot host).t = { s.t with scratchTop := top } := by
  have hs : ∃ top, (scratch s (host.length + 1)).2.t = { s.t with scratchTop := top } := by
    unfold scratch
    dsimp only
    split
    · exact ⟨s.t.scratchTop, rfl⟩
    · exact ⟨_, rfl⟩
  unfold repoint
  generalize scratch s (host.length + 1) = q at hs ⊢
  obtain ⟨addr, s1⟩ := q
  dsimp only at hs ⊢
  split
  · exact hs
  · split
    · exact hs
    · exact hs

/-- What `rewrite_path_arg` notes of a path that it has joined. -/
theorem rewriteGuest_marks {s : St w σ} {x : Int} (hx : isReadlink P.nr x = true)
    (hreset : s.t.procLink = false ∧ s.t.procLinkExe = false) (slot : Nat) (guest : CStr) :
    (rewriteGuest P s x slot false 0 guest).t.procLink = underProc guest ∧
      (rewriteGuest P s x slot false 0 guest).t.procLinkExe = (underProc guest && isExeLink guest) := by
  have hkeep : ∀ (u : St w σ) (b : Bool) (host : CStr),
      (if b then repoint P u slot host else u).t.procLink = u.t.procLink ∧
        (if b then repoint P u slot host else u).t.procLinkExe = u.t.procLinkExe := by
    intro u b host
    obtain ⟨top, ht⟩ := repoint_t (P := P) u slot host
    cases b with
    | false => exact ⟨rfl, rfl⟩
    | true =>
      rw [if_pos rfl, ht]
      exact ⟨rfl, rfl⟩
  unfold rewriteGuest
  extract_lets s1 r s2
  have h12 : s2.t = s1.t := by
    simp only [s2]
    split <;> rfl
  obtain ⟨hl, he⟩ := hkeep s2 r.differs r.out
  rw [hl, he, h12]
  simp only [s1, hx]
  cases hp : underProc guest with
  | false => exact hreset
  | true => exact ⟨rfl, rfl⟩

/-- **What the entry notes of a readlink.** -/
theorem entry_marks (h : isReadlink P.nr (s.sysno P) = true) :
    (onEntry P s).t.procLink = (joinedLink P s).any underProc ∧
      (onEntry P s).t.procLinkExe = (joinedLink P s).any fun g => underProc g && isExeLink g := by
  have hslot : linkSlot P s ≠ 0 := by
    unfold linkSlot
    split <;> decide
  have hstrict : strictOpenat2 P (resetCall P s) (s.sysno P) (linkSlot P s) = false := by
    have hno : P.nr.is .openat2 (s.sysno P) = false := by
      unfold isReadlink at h
      rw [Bool.or_eq_true] at h
      rcases h with h | h
      · rw [Numbers.is_eq h]
        rfl
      · rw [Numbers.is_eq h]
        rfl
    simp [strictOpenat2, hno]
  have hjoin : joinedLink P (resetCall P s) = joinedLink P s := rfl
  rw [onEntry_readlink h, rewritePathArg_eq, ← hjoin]
  unfold joinedLink givenPath
  have hreset : (resetCall P s).t.procLink = false ∧ (resetCall P s).t.procLinkExe = false :=
    ⟨rfl, rfl⟩
  have hnumber : linkSlot P (resetCall P s) = linkSlot P s := rfl
  have hsys : (resetCall P s).sysno P = s.sysno P := rfl
  rw [hnumber, hsys]
  generalize resetCall P s = u at hstrict hreset ⊢
  by_cases hun : unmapped u.ctx u.t.root = true
  · rw [if_pos (.inr (.inl hun)), if_pos hun]
    exact hreset
  by_cases harg : u.arg P (linkSlot P s) = 0
  · rw [if_pos (.inr (.inr harg)), if_neg hun, if_pos harg]
    exact hreset
  rw [if_neg (not_or.2 ⟨hslot, not_or.2 ⟨hun, harg⟩⟩), if_neg hun, if_neg harg]
  cases guestReadStr u.mem (u.arg P (linkSlot P s)) pathLen with
  | none =>
    dsimp only
    split <;> exact hreset
  | some given =>
    dsimp only
    by_cases hne : given = []
    · rw [if_pos hne, Option.filter_some, if_neg (by simpa using hne)]
      exact hreset
    rw [if_neg hne, if_neg fun hs => absurd hstrict (by simp [hs.2]), Option.filter_some,
      if_pos (by simpa using hne), Option.bind_some]
    cases absoluteGuestPath P u (dirfdSlot P.nr (s.sysno P) (linkSlot P s)) given (2 * pathLen) with
    | none => exact hreset
    | some guest => exact rewriteGuest_marks h hreset _ guest

/-! ## The exit -/

namespace ProcLinkCall

variable {K : Word w → CStr → Option (CStr × CStr)}

/-- A link whose spelling the entry does not go by. -/
theorem unmarked (h : ProcLinkCall P K m s s' path link host)
    (hj : (joinedLink P s).filter underProc = none) : s'.t.procLink = false := by
  rw [h.kept, (entry_marks h.call).1]
  cases hg : joinedLink P s with
  | none => rfl
  | some guest =>
    rw [hg, Option.filter_some] at hj
    split at hj
    · cases hj
    · rename_i hp
      exact Bool.eq_false_iff.2 hp

/-- One whose spelling it goes by. -/
theorem marked (h : ProcLinkCall P K m s s' path link host) {guest : CStr}
    (hj : (joinedLink P s).filter underProc = some guest) :
    ReadlinkDone P m s' host ∧ s'.t.procLinkExe = isExeLink guest := by
  obtain ⟨hg, hp⟩ := Option.filter_eq_some_iff.1 hj
  obtain ⟨hmark, hexe⟩ := entry_marks h.call
  rw [hg, Option.any_some] at hmark hexe
  rw [hp, Bool.true_and] at hexe
  exact ⟨⟨h.toReadlinkRan, by rw [h.kept, hmark, hp]⟩, by rw [h.kept, hexe]⟩

theorem due_le (h : ProcLinkCall P K m s s' path link host) :
    (dueAnswer s' link host).length ≤ 2 * pathLen := by
  have hexe := h.exe
  unfold dueAnswer
  split
  · omega
  · exact h.toReadlinkRan.shown_le

end ProcLinkCall

/-- **The links of `/proc`**: what is due for a link is reported just when its spelling is one that
the entry goes by, and fits. -/
theorem proc_link_iff {K : Word w → CStr → Option (CStr × CStr)}
    (h : ProcLinkCall P K m s s' path link host) :
    LinkReported P m s' (onExit P s') (dueAnswer s' link host) ↔ SpellingFits P m s s' link host := by
  unfold SpellingFits
  dsimp only
  cases hj : (joinedLink P s).filter underProc with
  | none => exact h.toReadlinkRan.unmarked_iff (h.unmarked hj) h.due_le
  | some guest =>
    obtain ⟨hdone, hmark⟩ := h.marked hj
    dsimp only
    by_cases hsame : s'.t.exe = [] ∨ isExeLink guest = isExeLink link
    · have hdue : dueAnswer s' link host = linkAnswer s' host := by
        unfold dueAnswer linkAnswer
        rw [hmark]
        rcases hsame with he | he
        · rw [if_neg fun hc => hc.2 he, if_neg fun hc => hc.2 he]
        · rw [he]
      rw [if_pos hsame, hdue]
      exact readlink_iff hdone
    obtain ⟨hexe, hkind⟩ := not_or.1 hsame
    rw [if_neg hsame]
    by_cases hg : isExeLink guest = true
    · rw [if_pos hg]
      exact hdone.found_iff h.exe (if_pos ⟨hmark.trans hg, hexe⟩) h.due_le
    rw [if_neg hg]
    have hfound : foundAnswer s' (host.take (linkTaken P s')) =
        (namedAs s'.ctx s'.t.root (host.take (linkTaken P s'))).map (snprintf pathLen) :=
      if_neg fun hc => hg (hmark.symm.trans hc.1)
    cases hn : namedAs s'.ctx s'.t.root (host.take (linkTaken P s')) with
    | none =>
      rw [hn] at hfound
      exact hdone.left_iff hfound h.due_le
    | some name =>
      rw [hn] at hfound
      have hlen : (snprintf pathLen name).length < pathLen := by
        rw [snprintf, List.length_take]
        exact Nat.lt_succ_of_le (Nat.min_le_left _ _)
      exact hdone.found_iff hlen hfound h.due_le

/-! ## Two spellings -/

/-- A root at `/r` with the host's `/proc` bound. -/
def procCtx : Ctx :=
  { Ctx.create with
    root := cstr "/r"
    bindings := [⟨cstr "/proc", cstr "/proc", cstr "/r/proc"⟩] }

/-- `readlink(given, 4096, 64)` -/
def readlinkCall (given : CStr) : St 64 Unit :=
  linuxCall procCtx procCtx.root 89 [8192, 4096, 64] [(8192, given ++ [0])]

def readlinkEntered (given : CStr) : St 64 Unit := onEntry linuxPlatform (readlinkCall given)

/-- The working directory of the process, as the kernel has it. -/
def cwdLink : Word 64 → CStr → Option (CStr × CStr) := fun _ path =>
  if path = cstr "/proc/self/cwd" then some (cstr "/proc/7/cwd", cstr "/r/etc") else none

/-- The kernel has written it. -/
def readlinkReturned (given : CStr) : St 64 Unit :=
  let s := readlinkEntered given
  { s with
    regs := s.regs.put x86_64.ret 6
    mem := { s.mem with toMemory := s.mem.write 4096 (cstr "/r/etc") } }

/-- The call reads the link of the working directory. -/
def CwdCall (given : CStr) : Prop :=
  ProcLinkCall linuxPlatform cwdLink (readlinkEntered given).mem.toMemory (readlinkCall given)
    (readlinkReturned given) (cstr "/proc/self/cwd") (cstr "/proc/7/cwd") (cstr "/r/etc")

/-- It is answered with what is due. -/
def CwdReported (given : CStr) : Prop :=
  LinkReported linuxPlatform (readlinkEntered given).mem.toMemory (readlinkReturned given)
    (onExit linuxPlatform (readlinkReturned given))
    (dueAnswer (readlinkReturned given) (cstr "/proc/7/cwd") (cstr "/r/etc"))

theorem cwdCall_of {given : CStr}
    (hcall : isReadlink linuxNumbers ((readlinkCall given).sysno linuxPlatform) = true ∧
      linuxPlatform.actionOf (readlinkEntered given).t.sysno = some .readlink)
    (hr : (readlinkEntered given).arg linuxPlatform (linkSlot linuxPlatform (readlinkCall given)) ≠ 0 ∧
      (readlinkEntered given).mem.read ((readlinkEntered given).arg linuxPlatform
        (linkSlot linuxPlatform (readlinkCall given))) 15 = cstr "/proc/self/cwd" ++ [0])
    (hctx : (readlinkEntered given).ctx.bindings = procCtx.bindings)
    (hexe : (readlinkEntered given).t.exe = [])
    (hnamed : (namedAs (readlinkReturned given).ctx (readlinkReturned given).t.root
      (cstr "/r/etc")).isSome = true)
    (hbuf : linkSize linuxPlatform (readlinkReturned given) = 64 ∧
      linkBuf linuxPlatform (readlinkReturned given) = 4096)
    (hwrote : (readlinkEntered given).mem.canWrite 4096 6 = true) : CwdCall given := by
  have htaken : linkTaken linuxPlatform (readlinkReturned given) = 64 := by
    simp [linkTaken, hbuf.1]
  have htext : (cstr "/r/etc").take 64 = cstr "/r/etc" := by decide
  have hctx' : (readlinkReturned given).ctx.bindings = procCtx.bindings := hctx
  refine ⟨⟨⟨by decide, by decide, ?_⟩, hcall.2, ?_, ?_, ?_, ?_, ?_⟩, hcall.1,
    ⟨hr.1, by decide, hr.2⟩, rfl, by decide, hnamed, rfl⟩
  · rw [hctx']
    decide
  · exact (congrArg List.length hexe).trans_lt (by decide)
  · rw [htaken]
    decide
  · rw [htaken, htext, hbuf.2]
    exact hwrote
  · rw [htaken, htext, hbuf.2]
    rfl
  · rw [htaken, htext]
    exact Regs.put_self (readlinkEntered given).regs x86_64.ret 6

theorem plain_spelling : CwdReported (cstr "/proc/self/cwd") := by
  have hcall : CwdCall (cstr "/proc/self/cwd") := by
    apply cwdCall_of
    all_goals decide +kernel
  have hj : (joinedLink linuxPlatform (readlinkCall (cstr "/proc/self/cwd"))).filter underProc =
      some (cstr "/proc/self/cwd") := by decide +kernel
  have hexe : (readlinkReturned (cstr "/proc/self/cwd")).t.exe = [] := by decide +kernel
  refine (proc_link_iff hcall).2 ?_
  unfold SpellingFits
  dsimp only
  rw [hj]
  dsimp only
  rw [if_pos (.inl hexe)]
  decide +kernel

/-- With one more slash the process sees where its root is on the host. -/
theorem doubled_slash : CwdCall (cstr "//proc/self/cwd") ∧ ¬CwdReported (cstr "//proc/self/cwd") := by
  have hcall : CwdCall (cstr "//proc/self/cwd") := by
    apply cwdCall_of
    all_goals decide +kernel
  have hj : (joinedLink linuxPlatform (readlinkCall (cstr "//proc/self/cwd"))).filter underProc =
      none := by decide +kernel
  refine ⟨hcall, fun h => ?_⟩
  have he := (hcall.toReadlinkRan.unmarked_iff (hcall.unmarked hj) hcall.due_le).1 h
  revert he
  decide +kernel

end Emuroot
