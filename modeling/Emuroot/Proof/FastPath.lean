import Emuroot.Lib.Runs
import Emuroot.Model.Linux
import Emuroot.Model.Ptrace
import Emuroot.Proof.EntryFrame

/-!
# The seccomp fast path against full tracing

`guestStep` lets a guest event happen under either way of tracing. `fastPath_agrees`: a run stopped
only at the calls that `traced_syscalls` lists ends like the run stopped at every call, if no
execveat of the run has a path that is to be rewritten (`StaysPut`): execveat is handled at the
entry and not listed.
-/

namespace Emuroot

variable {w : Nat} {σ : Type}

/-- The tracer, the guest, and the signals passed on so far. -/
structure Machine (w : Nat) (σ : Type) where
  e : Engine w
  W : World w σ
  sent : List Nat

/-- What happens in a guest run. The guest's own doing and the kernel's are functions of what the
guest can observe. -/
inductive GuestEvent (w : Nat) (σ : Type)
  | runs (f : World w σ → World w σ)
  | enters (pid : Nat)
  | leaves (pid : Nat)
  | reports (pid : Nat) (st : WaitStatus)

/-- The starting point of a run. -/
def Machine.start (ctx : Ctx) (rootPid : Nat) (W : World w σ) : Machine w σ :=
  ⟨engineStart ctx rootPid, W, []⟩

section
variable (P : Platform w σ)

/-- A status reaches the event loop. -/
def Machine.wait (seccomp : Bool) (m : Machine w σ) (pid : Nat) (st : WaitStatus) : Machine w σ :=
  let r := waitStep P seccomp m.e m.W pid st
  ⟨r.1, r.2.1, m.sent ++ [r.2.2]⟩

/-- A status that both ways of tracing are told of. -/
def Machine.told (seccomp : Bool) (m : Machine w σ) (pid : Nat) (stop : Stop) : Machine w σ :=
  { m.wait P seccomp pid (.stopped stop) with sent := m.sent }

/-- A guest event under full tracing or under the filter. -/
def guestStep (seccomp : Bool) (m : Machine w σ) : GuestEvent w σ → Machine w σ
  | .runs f => { m with W := f m.W }
  | .enters pid =>
    if seccomp then
      if (m.W.regs pid).any (seccompTraces P) then m.told P seccomp pid seccompStop else m
    else m.told P seccomp pid syscallStop
  | .leaves pid =>
    if (traceeFind m.e.tab pid).any (resumesToSyscall seccomp) then m.told P seccomp pid syscallStop
    else m
  | .reports pid st => m.wait P seccomp pid st

/-- The call at the stop is no execveat with a path to rewrite: nothing is mapped, there is no path
that could be read, or the path is that of the same file on the host. -/
def StaysPut (s : St w σ) : Prop :=
  unmapped s.ctx s.t.root = true ∨
  givenPath P s 2 = none ∧
    (s.arg P 2 = 0 ∨ guestReadStr s.mem (s.arg P 2) pathLen ≠ none ∨ s.mem.errno = EFAULT) ∨
  ∃ given, givenPath P s 2 = some given ∧
    ∀ guest ∈ absoluteGuestPath P s (dirfdSlot P.nr (s.regs P.arch.sysno).toInt 2) given (2 * pathLen),
      (translatePath (s.walkEnv P true) guest pathLen).differs = false

/-- What can happen next: a process enters a call when it is in none and leaves the one that it is
in; the registers of a stopped process can be read. -/
def Offered (m : Machine w σ) : GuestEvent w σ → Prop
  | .runs _ => True
  | .enters pid => ∃ t, traceeFind m.e.tab pid = some t ∧ t.inSyscall = false ∧ (m.W.regs pid).isSome
  | .leaves pid => ∃ t, traceeFind m.e.tab pid = some t ∧ t.inSyscall = true
  | .reports _ st =>
    ∀ stop, st = .stopped stop → stop.sig ≠ SIGTRAP ||| 0x80 ∧ stop.event ≠ PTRACE_EVENT_SECCOMP

/-- An execveat that the event enters has no path to rewrite. -/
def ExecveatStays (m : Machine w σ) : GuestEvent w σ → Prop
  | .enters pid => ∀ t regs, traceeFind m.e.tab pid = some t → m.W.regs pid = some regs →
      P.nr.is .execveat (regs P.arch.sysno).toInt → StaysPut P (stopState m.e m.W t.toTracee regs)
  | _ => True

/-- A step under full tracing. -/
def FullStep (m : Machine w σ) (ev : GuestEvent w σ) (m' : Machine w σ) : Prop :=
  Offered m ev ∧ ExecveatStays P m ev ∧ m' = guestStep P false m ev

end

/-- What lasts of a record beyond the call that it is in. -/
def Traced.identity (t : Traced w) : Nat × Creds × CStr × CStr := (t.pid, t.creds, t.root, t.exe)

/-- The guest sees the same and the engine goes on the same. -/
structure SameOutcome (m m' : Machine w σ) : Prop where
  W : m'.W = m.W
  ctx : m'.e.ctx = m.e.ctx
  sent : m'.sent = m.sent
  tab : m'.e.tab.map Traced.identity = m.e.tab.map Traced.identity

variable {P : Platform w σ}

/-! ## Calls that are not listed -/

theorem mem_tracedSyscalls {lp64 : Bool} {N : Numbers} {sysno : Int} :
    sysno ∈ tracedSyscalls N lp64 ↔
      (∃ d ∈ pathTable, N.is d.nr sysno) ∨
      (∃ d ∈ actionTable, (!d.lp64Only || lp64) = true ∧ N.is d.nr sysno) ∨
      ∃ x ∈ [Sys.execve, .bind, .connect, .sendto], N.is x sysno := by
  simp [tracedSyscalls, Numbers.is_iff, and_assoc]

/-- A number that the filter lets through is on no list. -/
theorem not_traced {regs : Regs w} (h : seccompTraces P regs = false) :
    (regs P.arch.sysno).toInt ∉ tracedSyscalls P.nr (lp64 w) := by
  intro hm
  have hne := List.any_eq_false.1 h _ hm
  have hw : 32 ≤ w := by obtain h | h := P.arch.bits <;> omega
  have heq : BitVec.ofInt 32 (regs P.arch.sysno).toInt = (regs P.arch.sysno).setWidth 32 :=
    BitVec.signExtend_eq_setWidth_of_le _ hw
  simp [heq] at hne

/-- The fake root is given no permission for an execveat. -/
theorem grantAccess_execveat {s : St w σ} {sysno : Int} (hx : P.nr.is .execveat sysno)
    (host : CStr) : grantAccess P s sysno 0 host = s := by
  have hd : dacFor P s sysno 0 = .none := by simp [dacFor, Numbers.is_eq hx]
  rw [grantAccess, hd]
  simp [ensureDac]

theorem rewritePathArg_staysPut {s : St w σ} (hx : P.nr.is .execveat (s.regs P.arch.sysno).toInt)
    (h : StaysPut P s) : rewritePathArg P s (s.regs P.arch.sysno).toInt 2 true 0 = s := by
  unfold rewritePathArg
  split
  · rfl
  rename_i h0
  obtain ⟨-, hmap, harg⟩ : 2 ≠ 0 ∧ ¬unmapped s.ctx s.t.root = true ∧ ¬s.arg P 2 = 0 := by
    simpa only [not_or] using h0
  have hgiven : givenPath P s 2 = (guestReadStr s.mem (s.arg P 2) pathLen).filter (· ≠ []) :=
    if_neg harg
  obtain hu | ⟨hnone, hread⟩ | ⟨given, hsome, hsame⟩ := h
  · exact absurd hu hmap
  · rw [hgiven] at hnone
    cases hr : guestReadStr s.mem (s.arg P 2) pathLen with
    | none =>
      obtain hz | hz | hz := hread
      · exact absurd hz harg
      · exact absurd hr hz
      · exact if_neg fun hne => hne hz
    | some given =>
      rw [hr] at hnone
      have : given = [] := by simpa [Option.filter_eq_none_iff] using hnone
      exact if_pos this
  · rw [hgiven, Option.filter_eq_some_iff] at hsome
    obtain ⟨hr, hne⟩ := hsome
    have hstrict : strictOpenat2 P s (s.regs P.arch.sysno).toInt 2 = false := by
      simp [strictOpenat2, Numbers.is_eq hx]
    have hlink : isReadlink P.nr (s.regs P.arch.sysno).toInt = false := by
      simp [isReadlink, Numbers.is_eq hx]
    rw [hr]
    dsimp only
    rw [if_neg (by simpa using hne), if_neg (by simp [hstrict])]
    split
    · rfl
    · rename_i guest hguest
      simp only [hlink, Bool.and_false, grantAccess_execveat hx, ite_self, hsame guest hguest,
        Bool.false_eq_true, if_false]

/-- The entry of a call that is not listed only notes the call. -/
theorem onEntry_unlisted {s : St w σ}
    (h : (s.regs P.arch.sysno).toInt ∉ tracedSyscalls P.nr (lp64 w))
    (hx : P.nr.is .execveat (s.regs P.arch.sysno).toInt → StaysPut P s) :
    onEntry P s = resetCall P s ∧ P.actionOf (s.regs P.arch.sysno).toInt = none := by
  simp only [mem_tracedSyscalls, not_or, not_exists, not_and] at h
  obtain ⟨hp, ha, hex⟩ := h
  have hact : P.actionOf (s.regs P.arch.sysno).toInt = none := by
    refine Option.map_eq_none_iff.2 (List.find?_eq_none.2 fun d hd => ?_)
    rw [Bool.and_eq_true, not_and]
    exact ha d hd
  have hpath : findPathSyscall P.nr (s.regs P.arch.sysno).toInt = none :=
    List.find?_eq_none.2 hp
  simp only [List.forall_mem_cons, Bool.not_eq_true] at hex
  obtain ⟨hexec, hbind, hconn, hsend, -⟩ := hex
  refine ⟨(onEntry_noAction hact).trans ?_, hact⟩
  unfold rewritePaths
  simp only [hbind, hconn, hsend, hpath, hexec, Bool.false_eq_true, if_false]
  split
  · rename_i hea
    exact rewritePathArg_staysPut (s := resetCall P s) hea (hx hea)
  · rfl

/-! ## The records of one process -/

/-- The records of a process: `t` under full tracing, `t'` under the filter. They are the same
within a listed call; a call that is not listed has nothing to do at its exit. -/
structure SameRecord (P : Platform w σ) (t t' : Traced w) : Prop where
  pid : t.pid = t'.pid
  root : t.root = t'.root
  creds : t.creds = t'.creds
  exe : t.exe = t'.exe
  fresh : t.fresh = t'.fresh
  listed : t'.awaitingExit = true → t.inSyscall = true ∧ t.toTracee = t'.toTracee
  skipped : t.inSyscall = true → t'.awaitingExit = false →
    t.created = [] ∧ P.actionOf t.sysno = none

/-- The engines under the two ways of tracing. -/
structure SameEngine (P : Platform w σ) (e e' : Engine w) : Prop where
  ctx : e.ctx = e'.ctx
  tab : List.Forall₂ (SameRecord P) e.tab e'.tab
  nodup : (e'.tab.map (·.pid)).Nodup

namespace SameRecord

variable {t t' c c' : Traced w}

theorem new (ctx : Ctx) (pid : Nat) : SameRecord P (traceeNew ctx pid none) (traceeNew ctx pid none) :=
  ⟨rfl, rfl, rfl, rfl, rfl, by simp [traceeNew], by simp [traceeNew]⟩

theorem inherit (hc : SameRecord P c c') (h : SameRecord P t t') :
    SameRecord P (traceeInherit c t) (traceeInherit c' t') := by
  refine ⟨hc.pid, h.root, h.creds, h.exe, hc.fresh, fun ha => ?_, hc.skipped⟩
  obtain ⟨hin, heq⟩ := hc.listed ha
  refine ⟨hin, ?_⟩
  simp only [traceeInherit, heq, h.root, h.creds, h.exe]

theorem identity_eq (h : SameRecord P t t') : t.identity = t'.identity := by
  simp only [Traced.identity, h.pid, h.creds, h.root, h.exe]

/-- What a handler is given is the same but for what the entry of a call sets anew. -/
theorem resetCall_eq (h : SameRecord P t t') {e e' : Engine w} (he : e.ctx = e'.ctx)
    (W : World w σ) (regs : Regs w) :
    resetCall P (stopState e W t.toTracee regs) = resetCall P (stopState e' W t'.toTracee regs) := by
  simp only [resetCall, stopState, he, h.pid, h.root, h.creds, h.exe]
  rfl

end SameRecord

theorem onEntry_congr {s s' : St w σ} (h : resetCall P s = resetCall P s') :
    onEntry P s = onEntry P s' := by
  unfold onEntry
  rw [h]

namespace SameEngine

variable {e e' : Engine w} {t t' : Traced w}

theorem key_eq (a b : Traced w) (h : SameRecord P a b) : a.pid = b.pid := h.pid

theorem find (h : SameEngine P e e') (pid : Nat) :
    Option.Rel (SameRecord P) (traceeFind e.tab pid) (traceeFind e'.tab pid) :=
  Table.forall₂_find key_eq h.tab pid

theorem find_some (h : SameEngine P e e') {pid : Nat} (hf : traceeFind e.tab pid = some t) :
    ∃ t', traceeFind e'.tab pid = some t' ∧ SameRecord P t t' := by
  have hrel := h.find pid
  rw [hf] at hrel
  generalize traceeFind e'.tab pid = q at hrel ⊢
  cases hrel with
  | @some _ t' ht => exact ⟨t', rfl, ht⟩

theorem put (h : SameEngine P e e') (ht : SameRecord P t t') {c c' : Ctx} (hc : c = c') :
    SameEngine P ⟨traceePut e.tab t, c⟩ ⟨traceePut e'.tab t', c'⟩ := by
  refine ⟨hc, Table.forall₂_put key_eq h.tab ht, ?_⟩
  show ((Table.put _ e'.tab t').map _).Nodup
  rw [Table.map_key_put]
  exact h.nodup

/-- A change of one record only. -/
theorem putLeft (h : SameEngine P e e') {pid : Nat} (hf : traceeFind e'.tab pid = some t')
    (ht : SameRecord P t t') : SameEngine P ⟨traceePut e.tab t, e.ctx⟩ e' := by
  have hself : traceePut e'.tab t' = e'.tab :=
    Table.put_self h.nodup ((traceeFind_pid hf).symm ▸ hf)
  have hput := h.put ht h.ctx
  rwa [hself] at hput

theorem add (h : SameEngine P e e') (ht : SameRecord P t t') (hf : traceeFind e'.tab t'.pid = none) :
    SameEngine P ⟨e.tab ++ [t], e.ctx⟩ ⟨e'.tab ++ [t'], e'.ctx⟩ :=
  ⟨h.ctx, List.rel_append h.tab (.cons ht .nil), Table.nodup_append h.nodup hf⟩

theorem remove (h : SameEngine P e e') (pid : Nat) :
    SameEngine P ⟨traceeRemove e.tab pid, e.ctx⟩ ⟨traceeRemove e'.tab pid, e'.ctx⟩ :=
  ⟨h.ctx, Table.forall₂_remove key_eq h.tab pid, Table.nodup_remove h.nodup pid⟩

theorem findOrAdd (h : SameEngine P e e') (pid : Nat) :
    SameEngine P (findOrAdd e pid).1 (findOrAdd e' pid).1 ∧
    SameRecord P (Emuroot.findOrAdd e pid).2 (Emuroot.findOrAdd e' pid).2 := by
  have hf := h.find pid
  unfold Emuroot.findOrAdd
  generalize hq : traceeFind e.tab pid = q, hq' : traceeFind e'.tab pid = q' at hf
  cases hf with
  | some ht => exact ⟨h, ht⟩
  | none =>
    rw [h.ctx]
    exact ⟨h.ctx ▸ h.add (.new e'.ctx pid) hq', .new e'.ctx pid⟩

/-- A stop that is no syscall stop is handled alike. -/
theorem otherStop (h : SameEngine P e e') (ht : SameRecord P t t') (W : World w σ) {stop : Stop}
    (hs : stop.sig ≠ SIGTRAP ||| 0x80 ∧ stop.event ≠ PTRACE_EVENT_SECCOMP) :
    SameEngine P (handleStop P false e W t stop).1 (handleStop P true e' W t' stop).1 ∧
    (handleStop P false e W t stop).2.1 = W ∧ (handleStop P true e' W t' stop).2.1 = W ∧
    (handleStop P false e W t stop).2.2 = (handleStop P true e' W t' stop).2.2 := by
  unfold handleStop
  rw [if_neg hs.1, if_neg hs.1, if_neg hs.2, if_neg hs.2]
  by_cases hfork : stop.event = PTRACE_EVENT_FORK ∨ stop.event = PTRACE_EVENT_VFORK ∨
      stop.event = PTRACE_EVENT_CLONE
  · rw [if_pos hfork, if_pos hfork]
    have hf := h.find stop.msg
    generalize hq : traceeFind e.tab stop.msg = q, hq' : traceeFind e'.tab stop.msg = q' at hf
    cases hf with
    | some hc => exact ⟨h.put (hc.inherit ht) h.ctx, rfl, rfl, rfl⟩
    | none =>
      have hnew : SameRecord P (traceeNew e.ctx stop.msg (some t))
          (traceeNew e'.ctx stop.msg (some t')) := h.ctx ▸ (SameRecord.new e.ctx stop.msg).inherit ht
      exact ⟨h.add hnew hq', rfl, rfl, rfl⟩
  rw [if_neg hfork, if_neg hfork, ht.fresh]
  split
  · have hseen : SameRecord P { t with fresh := false } { t' with fresh := false } :=
      ⟨ht.pid, ht.root, ht.creds, ht.exe, rfl, ht.listed, ht.skipped⟩
    exact ⟨h.put hseen h.ctx, rfl, rfl, rfl⟩
  · split <;> exact ⟨h, rfl, rfl, rfl⟩

end SameEngine

/-! ## Syscall stops -/

theorem withRegs_some {f : St w σ → St w σ} {e : Engine w} {W : World w σ} {t : Tracee w}
    {regs : Regs w} (h : W.regs t.pid = some regs) :
    withRegs f e W t =
      ((f (stopState e W t regs)).t, (f (stopState e W t regs)).ctx,
        { W with
          regs := Function.update W.regs t.pid (some (f (stopState e W t regs)).regs)
          mem := Function.update W.mem (W.space t.pid) (f (stopState e W t regs)).mem
          fs := (f (stopState e W t regs)).fs }) := by
  unfold withRegs
  rw [h]

/-- Of the engine a handler is given the context only. -/
theorem withRegs_ctx {e e' : Engine w} (h : e.ctx = e'.ctx) (f : St w σ → St w σ) (W : World w σ)
    (t : Tracee w) : withRegs f e W t = withRegs f e' W t := by
  unfold withRegs stopState
  rw [h]

/-- A handler that changes the record only leaves the guest alone. -/
theorem withRegs_still {f : St w σ → St w σ} {e : Engine w} {W : World w σ} {t u : Tracee w}
    {regs : Regs w} (h : W.regs t.pid = some regs)
    (hf : f (stopState e W t regs) = { stopState e W t regs with t := u }) :
    withRegs f e W t = (u, e.ctx, W) := by
  rw [withRegs_some h, hf]
  simp only [stopState, ← h, Function.update_eq_self]

/-- The handling of a call's entry, under full tracing and under the filter. -/
theorem handleStop_entry (e : Engine w) (W : World w σ) {t : Traced w} (h : t.inSyscall = false) :
    ∃ lastEntry, handleStop P false e W t syscallStop =
      ((commit e { t with inSyscall := true, lastEntry := lastEntry }
          (withRegs (onEntry P) e W t.toTracee)).1,
        (commit e { t with inSyscall := true, lastEntry := lastEntry }
          (withRegs (onEntry P) e W t.toTracee)).2, 0) := by
  unfold handleStop
  rw [if_pos (show syscallStop.sig = SIGTRAP ||| 0x80 from rfl), h]
  exact ⟨_, rfl⟩

theorem handleStop_filtered (e : Engine w) (W : World w σ) (t : Traced w) :
    handleStop P true e W t seccompStop =
      ((commit e { t with awaitingExit := true } (withRegs (onEntry P) e W t.toTracee)).1,
        (commit e { t with awaitingExit := true } (withRegs (onEntry P) e W t.toTracee)).2, 0) := rfl

/-- The handling of a call's exit. -/
theorem handleStop_exit (e : Engine w) (W : World w σ) {t : Traced w} (h : t.inSyscall = true) :
    handleStop P false e W t syscallStop =
      ((commit e { t with inSyscall := false } (withRegs (onExit P) e W t.toTracee)).1,
        (commit e { t with inSyscall := false } (withRegs (onExit P) e W t.toTracee)).2, 0) := by
  unfold handleStop
  rw [if_pos (show syscallStop.sig = SIGTRAP ||| 0x80 from rfl), h]
  rfl

theorem handleStop_awaited (e : Engine w) (W : World w σ) {t : Traced w} (h : t.awaitingExit = true) :
    handleStop P true e W t syscallStop =
      ((commit e { t with awaitingExit := false } (withRegs (onExit P) e W t.toTracee)).1,
        (commit e { t with awaitingExit := false } (withRegs (onExit P) e W t.toTracee)).2, 0) := by
  unfold handleStop
  rw [if_pos (show syscallStop.sig = SIGTRAP ||| 0x80 from rfl), h]
  rfl

/-- The exit of a call that is not listed has nothing to do. -/
theorem onExit_skipped {s : St w σ} (hc : s.t.created = []) (ha : P.actionOf s.t.sysno = none) :
    onExit P s = s := by
  unfold onExit onExitAt commitCreated
  dsimp only
  rw [if_pos hc, ha]

theorem told_of_find {seccomp : Bool} {m : Machine w σ} {pid : Nat} {t : Traced w}
    (h : traceeFind m.e.tab pid = some t) (stop : Stop) :
    m.told P seccomp pid stop =
      ⟨(handleStop P seccomp m.e m.W t stop).1, (handleStop P seccomp m.e m.W t stop).2.1, m.sent⟩ := by
  unfold Machine.told Machine.wait waitStep findOrAdd
  rw [h]

/-- The two runs so far. -/
structure Together (P : Platform w σ) (m m' : Machine w σ) : Prop where
  e : SameEngine P m.e m'.e
  W : m.W = m'.W
  sent : m.sent = m'.sent

variable {m m' : Machine w σ}

theorem Together.enters (h : Together P m m') {pid : Nat} (ho : Offered m (.enters pid))
    (hx : ExecveatStays P m (.enters pid)) :
    Together P (guestStep P false m (.enters pid)) (guestStep P true m' (.enters pid)) := by
  obtain ⟨t, hf, hin, hregs⟩ := ho
  obtain ⟨regs, hr⟩ := Option.isSome_iff_exists.1 hregs
  obtain ⟨t', hf', ht⟩ := h.e.find_some hf
  have hpid := traceeFind_pid hf
  have hrt : m.W.regs t.pid = some regs := hpid ▸ hr
  have hrt' : m'.W.regs t'.pid = some regs := by rw [← h.W, ← ht.pid, hrt]
  have hreset := ht.resetCall_eq h.e.ctx m.W regs
  obtain ⟨last, hfull⟩ := handleStop_entry (P := P) m.e m.W hin
  have hstep : guestStep P false m (.enters pid) = _ := told_of_find hf syscallStop
  rw [hstep, hfull]
  simp only [guestStep, if_true, ← h.W, hr, Option.any_some]
  cases htr : seccompTraces P regs with
  | true =>
    -- a listed call: the same entry on both sides
    rw [if_pos rfl, told_of_find hf', handleStop_filtered, withRegs_some hrt, withRegs_some hrt',
      ← h.W, ← onEntry_congr hreset]
    refine ⟨h.e.put ?_ rfl, ?_, h.sent⟩
    · exact ⟨rfl, rfl, rfl, rfl, ht.fresh, fun _ => ⟨rfl, rfl⟩, fun _ hn => nomatch hn⟩
    · show World.mk _ _ _ _ = World.mk _ _ _ _
      rw [ht.pid]
  | false =>
    obtain ⟨hstill, hact⟩ := onEntry_unlisted (s := stopState m.e m.W t.toTracee regs)
      (not_traced htr) (hx t regs hf hr)
    rw [if_neg (by simp), withRegs_still hrt hstill]
    refine ⟨h.e.putLeft hf' ?_, h.W, h.sent⟩
    refine ⟨ht.pid, ht.root, ht.creds, ht.exe, ht.fresh, fun ha => ?_, fun _ _ => ⟨rfl, hact⟩⟩
    rw [(ht.listed ha).1] at hin
    cases hin

theorem Together.leaves (h : Together P m m') {pid : Nat} (ho : Offered m (.leaves pid)) :
    Together P (guestStep P false m (.leaves pid)) (guestStep P true m' (.leaves pid)) := by
  obtain ⟨t, hf, hin⟩ := ho
  obtain ⟨t', hf', ht⟩ := h.e.find_some hf
  have hfull : guestStep P false m (.leaves pid) = m.told P false pid syscallStop := by
    simp [guestStep, hf, resumesToSyscall]
  rw [hfull, told_of_find hf, handleStop_exit _ _ hin]
  simp only [guestStep, hf', Option.any_some]
  cases haw : t'.awaitingExit with
  | true =>
    -- a listed call: the same exit on both sides
    obtain ⟨-, hrec⟩ := ht.listed haw
    have hrun : withRegs (onExit P) m.e m.W t.toTracee = withRegs (onExit P) m'.e m'.W t'.toTracee := by
      rw [withRegs_ctx h.e.ctx, hrec, h.W]
    rw [if_pos (by simp [resumesToSyscall, haw]), told_of_find hf', handleStop_awaited _ _ haw, hrun]
    refine ⟨h.e.put ?_ rfl, rfl, h.sent⟩
    exact ⟨rfl, rfl, rfl, rfl, ht.fresh, (nomatch ·), (nomatch ·)⟩
  | false =>
    obtain ⟨hc, ha⟩ := ht.skipped hin haw
    have hrun : withRegs (onExit P) m.e m.W t.toTracee = (t.toTracee, m.e.ctx, m.W) := by
      cases hr : m.W.regs t.pid with
      | none =>
        unfold withRegs
        rw [hr]
      | some regs => exact withRegs_still hr (onExit_skipped hc ha)
    rw [if_neg (by simp [resumesToSyscall, haw]), hrun]
    refine ⟨h.e.putLeft hf' ?_, h.W, h.sent⟩
    exact ⟨ht.pid, ht.root, ht.creds, ht.exe, ht.fresh, fun hn => by simp [haw] at hn, (nomatch ·)⟩

theorem Together.reports (h : Together P m m') {pid : Nat} {st : WaitStatus}
    (ho : Offered m (.reports pid st)) :
    Together P (guestStep P false m (.reports pid st)) (guestStep P true m' (.reports pid st)) := by
  obtain ⟨he, ht⟩ := h.e.findOrAdd pid
  simp only [guestStep, Machine.wait, waitStep]
  generalize findOrAdd m.e pid = q, findOrAdd m'.e pid = q' at he ht
  obtain ⟨e, t⟩ := q
  obtain ⟨e', t'⟩ := q'
  cases st with
  | exited | signaled => exact ⟨he.remove pid, h.W, by rw [h.sent]⟩
  | continued => exact ⟨he, h.W, by rw [h.sent]⟩
  | stopped stop =>
    obtain ⟨hs, hw, hw', hsig⟩ := he.otherStop ht m.W (ho stop rfl)
    dsimp only
    rw [← h.W, ← h.sent]
    exact ⟨hs, hw.trans hw'.symm, by rw [hsig]⟩

/-! ## Runs -/

theorem Together.step (h : Together P m m') {ev : GuestEvent w σ} (ho : Offered m ev)
    (hx : ExecveatStays P m ev) : Together P (guestStep P false m ev) (guestStep P true m' ev) := by
  cases ev with
  | runs f => exact ⟨h.e, congrArg f h.W, h.sent⟩
  | enters pid => exact h.enters ho hx
  | leaves pid => exact h.leaves ho
  | reports pid st => exact h.reports ho

theorem Together.start (ctx : Ctx) (rootPid : Nat) (W : World w σ) :
    Together P (.start ctx rootPid W) (.start ctx rootPid W) := by
  have ht : SameRecord P { traceeNew ctx rootPid none with fresh := false }
      ({ traceeNew ctx rootPid none with fresh := false } : Traced w) :=
    ⟨rfl, rfl, rfl, rfl, rfl, by simp [traceeNew], by simp [traceeNew]⟩
  exact ⟨⟨rfl, .cons ht .nil, by simp [Machine.start, engineStart]⟩, rfl, rfl⟩

theorem Together.outcome (h : Together P m m') : SameOutcome m m' := by
  refine ⟨h.W.symm, h.e.ctx.symm, h.sent.symm, ?_⟩
  have htab := h.e.tab.imp fun a b hab => hab.identity_eq
  have hmap := List.forall₂_map_left_iff.2 (List.forall₂_map_right_iff.2 htab)
  rw [List.forall₂_eq_eq_eq] at hmap
  exact hmap.symm

/-- **The fast path agrees with full tracing** on every run without an execveat to rewrite. -/
theorem fastPath_agrees {ctx : Ctx} {rootPid : Nat} {W : World w σ} {evs : List (GuestEvent w σ)}
    (h : Run (FullStep P) (.start ctx rootPid W) evs m) :
    SameOutcome m (evs.foldl (guestStep P true) (.start ctx rootPid W)) := by
  have hstep : ∀ s ev s' t, Together P s t → FullStep P s ev s' →
      ∃ t', t' = guestStep P true t ev ∧ Together P s' t' := by
    rintro s ev s' t ht ⟨ho, hx, rfl⟩
    exact ⟨_, rfl, ht.step ho hx⟩
  obtain ⟨m', hr, hm⟩ := h.sim hstep (Together.start ctx rootPid W)
  rw [← hr.eq_foldl]
  exact hm.outcome

/-! ## An execveat -/

def jailCtx : Ctx := { Ctx.create with root := cstr "/r" }

/-- Process 7 is about to make call `nr`, whose second argument is `"/etc"`. -/
def atCall (nr : Word 64) : World 64 Unit where
  regs := fun pid =>
    if pid = 7 then
      some fun i => if i = 15 then nr else if i = 13 then 4096 else if i = 19 then 65536 else 0
    else none
  space := fun pid => pid
  mem := fun _ =>
    { byte := fun a => some ((cstr "/etc" ++ [0]).getD (a.toNat - 4096) 0)
      writable := fun _ => true
      errno := 0 }
  fs := ()

/-- `openat` -/
theorem fastPath_agrees_openat :
    SameOutcome (guestStep linuxPlatform false (.start jailCtx 7 (atCall 257)) (.enters 7))
      ([.enters 7].foldl (guestStep linuxPlatform true) (.start jailCtx 7 (atCall 257))) := by
  refine fastPath_agrees (.cons ⟨⟨_, rfl, rfl, rfl⟩, ?_, rfl⟩ (.nil _))
  intro t regs _ hr hx
  cases hr
  exact absurd hx (by decide +kernel)

/-- Only full tracing sees an execveat. -/
theorem execveat_unseen :
    Offered (.start jailCtx 7 (atCall 322)) (.enters 7) ∧
    ¬SameOutcome (guestStep linuxPlatform false (.start jailCtx 7 (atCall 322)) (.enters 7))
      (guestStep linuxPlatform true (.start jailCtx 7 (atCall 322)) (.enters 7)) := by
  refine ⟨⟨_, rfl, rfl, rfl⟩, fun h => ?_⟩
  have hreg := congrArg (fun W : World 64 Unit => (W.regs 7).map (· 13)) h.W
  exact absurd hreg (by decide +kernel)

end Emuroot
