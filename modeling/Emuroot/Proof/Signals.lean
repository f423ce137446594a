import Emuroot.Proof.LiveTable

/-!
# Signals of the guest and stops of the tracing

`signalStep` runs the event loop over stops that are labelled with what they are due to, and keeps
beside it which tasks have their initial SIGSTOP still to come. `signals_transparent_iff`: the runs in
which every signal of the guest is passed on, nothing of the tracing's own is, and the flag `fresh`
says of every task what the kernel does, are the `Unmixed` ones.
-/

namespace Emuroot

variable {w : Nat} {σ : Type}

def SIGTSTP : Nat := 20
def SIGTTIN : Nat := 21
def SIGTTOU : Nat := 22

/-- What a stop is due to: tracing, the delivery of a signal, or one that has stopped the group. A
signal is pending but once, so that one of the guest's may be `merged` into one that is posted for
the tracer. -/
inductive Cause
  | syscall
  | event (number msg : Nat)
  | initial (merged : Bool)
  | execTrap (merged : Bool)
  | signal (sig : Nat)
  | group (sig : Nat)

def Cause.stop : Cause → Stop
  | .syscall => syscallStop
  | .event number msg => ⟨SIGTRAP, number, msg⟩
  | .initial _ => ⟨SIGSTOP, 0, 0⟩
  | .execTrap _ => ⟨SIGTRAP, 0, 0⟩
  | .signal sig => ⟨sig, 0, 0⟩
  | .group sig => ⟨sig, 0, 0⟩

/-- The task is to be resumed with this signal, or with none (0). What it is resumed with from a
group stop is ignored. -/
def Cause.Passes : Cause → Nat → Prop
  | .syscall, r => r = 0
  | .event _ _, r => r = 0
  | .initial merged, r => r = if merged then SIGSTOP else 0
  | .execTrap merged, r => r = if merged then SIGTRAP else 0
  | .signal sig, r => r = sig
  | .group _, _ => True

/-- The session, and the tasks whose initial SIGSTOP is still to come. -/
structure Signalled (w : Nat) (σ : Type) extends Tracing w σ where
  due : Nat → Bool

/-- `sigcont`: a SIGCONT is sent, which discards what is pending that would stop the task. -/
inductive SignalEvent (w : Nat) (σ : Type)
  | tracing (ev : TracingEvent w σ)
  | stops (pid : Nat) (cause : Cause)
  | sigcont (pid : Nat)

/-- The flag that the event loop finds for the task; a record that it adds has it set. -/
def freshFlag (tab : List (Traced w)) (pid : Nat) : Bool := (traceeFind tab pid).all (·.fresh)

section
variable (P : Platform w σ) (seccomp : Bool)

def signalStep (s : Signalled w σ) : SignalEvent w σ → Signalled w σ
  | .tracing ev =>
    { toTracing := tracingStep P seccomp s.toTracing ev
      due :=
        match ev with
        | .clones _ child _ => Function.update s.due child true
        | _ => s.due }
  | .stops pid cause =>
    { toTracing := tracingStep P seccomp s.toTracing (.reports pid (.stopped cause.stop))
      due :=
        match cause with
        | .initial _ => Function.update s.due pid false
        | _ => s.due }
  | .sigcont pid => { s with due := Function.update s.due pid false }

/-- What can happen next. A task runs nothing of its own before its initial stop, and of two SIGSTOPs
it takes the initial one first. -/
def SignalOffered (s : Signalled w σ) : SignalEvent w σ → Prop
  | .tracing ev =>
    TracingOffered s.toTracing ev ∧
      match ev with
      | .clones parent _ _ => s.due parent = false
      | .threadExecs tid => s.due tid = false ∧ s.due (s.leader tid) = false
      | .reports _ (.stopped _) => False
      | _ => True
  | .stops pid cause =>
    TracingOffered s.toTracing (.reports pid (.stopped cause.stop) : TracingEvent w σ) ∧
      match cause with
      | .syscall => s.due pid = false
      | .event number _ => number ≠ 0 ∧ s.due pid = false
      | .initial _ => s.due pid = true
      | .execTrap _ => s.due pid = false
      | .signal sig => 1 ≤ sig ∧ sig ≤ 64 ∧ (sig = SIGSTOP → s.due pid = false)
      | .group sig => sig ∈ [SIGSTOP, SIGTSTP, SIGTTIN, SIGTTOU]
  | .sigcont pid => s.ended = false ∧ s.live pid = true

/-- The task is resumed as it is to be. -/
def Passed (s : Signalled w σ) : SignalEvent w σ → Prop
  | .stops pid cause => cause.Passes (waitStep P seccomp s.e s.W pid (.stopped cause.stop)).2.2
  | _ => True

/-- The event loop takes a SIGSTOP for the initial one where it is. -/
structure FlagsRight (s : Signalled w σ) : Prop where
  nodup : (s.e.tab.map (·.pid)).Nodup
  fresh : ∀ pid, s.live pid = true → freshFlag s.e.tab pid = s.due pid

/-- The guest has no SIGTRAP, and no SIGSTOP, SIGCONT or stop of the group before a task's initial
stop; and a task that is new finds no record of an earlier one's that has had it. -/
def Unmixed (s : Signalled w σ) : SignalEvent w σ → Prop
  | .tracing (.clones _ child _) => freshFlag s.e.tab child = true
  | .tracing _ => True
  | .stops pid cause =>
    match cause with
    | .syscall | .event _ _ => True
    | .initial merged => merged = false
    | .execTrap merged => merged = false
    | .signal sig => sig ≠ SIGTRAP
    | .group sig => sig = SIGSTOP → s.due pid = false
  | .sigcont pid => s.due pid = false

/-- The session at its start, with the first task's initial stop behind it. -/
def Signalled.start (ctx : Ctx) (rootPid : Nat) (W : World w σ) : Signalled w σ where
  toTracing := .start ctx rootPid W
  due := fun _ => false

def SignalStep (s : Signalled w σ) (ev : SignalEvent w σ) (s' : Signalled w σ) : Prop :=
  SignalOffered s ev ∧ s' = signalStep P seccomp s ev

end

variable {P : Platform w σ} {seccomp : Bool} {tab : List (Traced w)} {e : Engine w} {t : Traced w}
  {pid q : Nat} {stop : Stop} {W : World w σ} {s : Signalled w σ} {cause : Cause}

/-! ## The flag -/

theorem freshFlag_of_find (h : traceeFind tab pid = some t) : freshFlag tab pid = t.fresh := by
  rw [freshFlag, h]
  rfl

theorem freshFlag_of_none (hnone : traceeFind tab pid = none) : freshFlag tab pid = true := by
  rw [freshFlag, hnone]
  rfl

theorem freshFlag_append (hnew : t.fresh = true) (q : Nat) :
    freshFlag (tab ++ [t]) q = freshFlag tab q := by
  have happ : traceeFind (tab ++ [t]) q =
      (traceeFind tab q).or (if t.pid = q then some t else none) := Table.find_append t
  rw [freshFlag, happ, freshFlag]
  cases hq : traceeFind tab q with
  | some u => rfl
  | none =>
    rw [Option.none_or]
    split
    · exact hnew
    · rfl

theorem freshFlag_put {u : Traced w} (h : traceeFind tab t.pid = some u) (q : Nat) :
    freshFlag (traceePut tab t) q = if q = t.pid then t.fresh else freshFlag tab q := by
  rw [freshFlag, traceeFind_put]
  split
  · rename_i hq
    rw [hq, h]
    rfl
  · rfl

theorem freshFlag_put_same {u : Traced w} (h : traceeFind tab t.pid = some u)
    (hf : t.fresh = u.fresh) (q : Nat) : freshFlag (traceePut tab t) q = freshFlag tab q := by
  rw [freshFlag_put h]
  split
  · rename_i hq
    rw [hf, hq, freshFlag_of_find h]
  · rfl

theorem freshFlag_remove (hn : (tab.map (·.pid)).Nodup) (h : q ≠ pid) :
    freshFlag (traceeRemove tab pid) q = freshFlag tab q := by
  have hf : traceeFind (traceeRemove tab pid) q = if q = pid then none else traceeFind tab q :=
    Table.find_remove hn pid q
  rw [freshFlag, hf, if_neg h, freshFlag]

theorem traceeNew_fresh (ctx : Ctx) (pid : Nat) (parent : Option (Traced w)) :
    (traceeNew ctx pid parent).fresh = true := by
  unfold traceeNew
  cases parent <;> rfl

theorem findOrAdd_fresh (e : Engine w) (pid : Nat) :
    (findOrAdd e pid).2.fresh = freshFlag e.tab pid := by
  unfold findOrAdd
  split
  · rename_i h
    exact (freshFlag_of_find h).symm
  · rename_i h
    rw [freshFlag_of_none h, traceeNew_fresh]

theorem freshFlag_findOrAdd (e : Engine w) (pid q : Nat) :
    freshFlag (findOrAdd e pid).1.tab q = freshFlag e.tab q := by
  unfold findOrAdd
  split
  · rfl
  · exact freshFlag_append (traceeNew_fresh ..) q

/-- A stop that is not a SIGSTOP leaves the flags. -/
theorem freshFlag_handleStop (hf : traceeFind e.tab t.pid = some t) (hs : stop.sig ≠ SIGSTOP)
    (W : World w σ) (q : Nat) :
    freshFlag (handleStop P seccomp e W t stop).1.tab q = freshFlag e.tab q := by
  have hcommit : ∀ (u : Traced w) (r : Tracee w × Ctx × World w σ), u.fresh = t.fresh →
      r.1.pid = t.pid → freshFlag (commit e u r).1.tab q = freshFlag e.tab q := by
    intro u r hu hr
    refine freshFlag_put_same (t := { u with toTracee := r.1 }) (u := t) ?_ hu q
    rw [← hf]
    exact congrArg _ hr
  unfold handleStop
  split
  · split
    · split
      · exact hcommit _ _ rfl (withRegs_pid onExit_pid e W t.toTracee)
      · exact hcommit _ _ rfl (withRegs_pid onEntry_pid e W t.toTracee)
    · split
      · exact hcommit _ _ rfl (withRegs_pid onExit_pid e W t.toTracee)
      · rfl
  split
  · exact hcommit _ _ rfl (withRegs_pid onEntry_pid e W t.toTracee)
  split
  · split
    · rename_i c hc
      have hpid : c.pid = stop.msg := traceeFind_pid hc
      exact freshFlag_put_same (t := traceeInherit c t) (u := c)
        ((congrArg _ hpid).trans hc) rfl q
    · exact freshFlag_append (traceeNew_fresh ..) q
  rw [if_neg fun h => hs h.1]
  split <;> rfl

/-- The flag of a task that has had a SIGSTOP is down. -/
theorem freshFlag_sigstop (hf : traceeFind e.tab t.pid = some t) (W : World w σ) (q : Nat) :
    freshFlag (handleStop P seccomp e W t ⟨SIGSTOP, 0, 0⟩).1.tab q =
      if q = t.pid then false else freshFlag e.tab q := by
  have hflag := freshFlag_of_find hf
  unfold handleStop
  rw [if_neg (by decide), if_neg (by decide), if_neg (by decide)]
  by_cases ht : t.fresh = true
  · rw [if_pos ⟨rfl, ht⟩]
    exact freshFlag_put (t := { t with fresh := false }) hf q
  · rw [if_neg fun h => ht h.2, if_pos (by decide)]
    split
    · rename_i hq
      exact hq ▸ hflag.trans (Bool.eq_false_iff.2 ht)
    · rfl

/-- What a signal is passed on as. -/
theorem passed_signal {sig : Nat} (hs : sig ≤ 64) (e : Engine w) (W : World w σ) (t : Traced w) :
    (handleStop P seccomp e W t ⟨sig, 0, 0⟩).2.2 =
      if sig = SIGSTOP ∧ t.fresh = true ∨ sig = SIGTRAP then 0 else sig := by
  have hno : sig ≠ SIGTRAP ||| 0x80 := by
    rintro rfl
    exact absurd hs (by decide)
  have hfork : ¬(0 = PTRACE_EVENT_FORK ∨ 0 = PTRACE_EVENT_VFORK ∨ 0 = PTRACE_EVENT_CLONE) := by
    decide
  unfold handleStop
  rw [if_neg hno, if_neg (show ¬0 = PTRACE_EVENT_SECCOMP by decide), if_neg hfork]
  by_cases hstop : sig = SIGSTOP ∧ t.fresh = true
  · rw [if_pos hstop, if_pos (.inl hstop)]
  · rw [if_neg hstop]
    by_cases htrap : sig = SIGTRAP
    · rw [if_neg (not_not.2 htrap), if_pos (.inr htrap)]
    · rw [if_pos htrap, if_neg (not_or.2 ⟨hstop, htrap⟩)]

/-- The tracing's own stops are not passed on. -/
theorem passed_trap (hs : stop.sig = SIGTRAP ||| 0x80 ∨ stop.sig = SIGTRAP) (e : Engine w)
    (W : World w σ) (t : Traced w) : (handleStop P seccomp e W t stop).2.2 = 0 := by
  unfold handleStop
  split
  · repeat' split
    all_goals rfl
  · rename_i hno
    have htrap := hs.resolve_left hno
    split
    · rfl
    split
    · split <;> rfl
    rw [if_neg fun h => absurd (htrap.symm.trans h.1) (by decide), if_neg (not_not.2 htrap)]

theorem merged_iff {sig : Nat} (hs : sig ≠ 0) {merged : Bool} :
    0 = (if merged then sig else 0) ↔ merged = false := by
  cases merged with
  | false => simp
  | true => simpa using hs.symm

/-! ## One step -/

theorem stops_e (s : Signalled w σ) (pid : Nat) (cause : Cause) :
    (signalStep P seccomp s (.stops pid cause)).e =
      (handleStop P seccomp (findOrAdd s.e pid).1 s.W (findOrAdd s.e pid).2 cause.stop).1 := by
  unfold signalStep tracingStep
  dsimp only
  rw [if_neg fun h => Bool.noConfusion h.1]
  split <;> rfl

theorem stops_live (s : Signalled w σ) (pid : Nat) (cause : Cause) :
    (signalStep P seccomp s (.stops pid cause)).live = s.live := by
  unfold signalStep tracingStep
  dsimp only
  rw [if_neg fun h => Bool.noConfusion h.1]
  split <;> rfl

theorem stops_flag (s : Signalled w σ) (pid : Nat) (cause : Cause) (q : Nat) :
    freshFlag (signalStep P seccomp s (.stops pid cause)).e.tab q =
      if cause.stop.sig = SIGSTOP ∧ q = pid then false else freshFlag s.e.tab q := by
  rw [stops_e]
  have hfind := findOrAdd_self s.e pid
  by_cases hs : cause.stop.sig = SIGSTOP
  · have htrap : ¬SIGTRAP = SIGSTOP := by decide
    have hstop : cause.stop = ⟨SIGSTOP, 0, 0⟩ := by
      cases cause with
      | syscall => exact absurd hs (by decide)
      | event => exact (htrap hs).elim
      | initial => rfl
      | execTrap => exact (htrap hs).elim
      | signal => exact congrArg (fun sig => Stop.mk sig 0 0) hs
      | group => exact congrArg (fun sig => Stop.mk sig 0 0) hs
    rw [hstop, freshFlag_sigstop hfind, findOrAdd_pid, freshFlag_findOrAdd]
    simp
  · rw [freshFlag_handleStop hfind hs, freshFlag_findOrAdd, if_neg fun h => hs h.1]

namespace FlagsRight

theorem start (ctx : Ctx) (rootPid : Nat) (W : World w σ) : FlagsRight (.start ctx rootPid W) where
  nodup := (FamilyInv.start ctx rootPid W).nodup
  fresh pid h := by
    have hp : pid = rootPid := of_decide_eq_true h
    subst hp
    have hfind : traceeFind (engineStart (w := w) ctx pid).tab pid =
        some { traceeNew ctx pid none with fresh := false } := by
      unfold traceeFind Table.find engineStart
      rw [List.find?_cons_of_pos (by simp [traceeNew])]
    exact freshFlag_of_find hfind

/-- A stop at which the flag of the task falls just when its initial stop is behind it. -/
theorem stops_iff (h : FlagsRight s) (hlive : s.live pid = true) :
    FlagsRight (signalStep P seccomp s (.stops pid cause)) ↔
      (if cause.stop.sig = SIGSTOP then false else s.due pid) =
        (signalStep P seccomp s (.stops pid cause)).due pid := by
  have hn : ((signalStep P seccomp s (.stops pid cause)).e.tab.map (·.pid)).Nodup := by
    rw [stops_e]
    exact handleStop_nodup (findOrAdd_nodup h.nodup pid) s.W _ cause.stop
  have hdue : ∀ q, q ≠ pid → (signalStep P seccomp s (.stops pid cause)).due q = s.due q := by
    intro q hq
    unfold signalStep
    cases cause with
    | initial => exact Function.update_of_ne hq ..
    | _ => rfl
  have hflag : freshFlag (signalStep P seccomp s (.stops pid cause)).e.tab pid =
      if cause.stop.sig = SIGSTOP then false else s.due pid := by
    rw [stops_flag, h.fresh pid hlive]
    simp
  constructor
  · intro h'
    rw [← hflag]
    exact h'.fresh pid (by rwa [stops_live])
  · intro he
    refine ⟨hn, fun q hq => ?_⟩
    rw [stops_live] at hq
    by_cases hqp : q = pid
    · rw [hqp, hflag, he]
    · rw [stops_flag, if_neg fun hc => hqp hc.2, hdue q hqp]
      exact h.fresh q hq

/-- The tasks that there are have the flag and the initial stop that they had. -/
theorem kept (h : FlagsRight s) {s' : Signalled w σ} (hn : (s'.e.tab.map (·.pid)).Nodup)
    (hlive : ∀ q, s'.live q = true → s.live q = true ∧ freshFlag s'.e.tab q = freshFlag s.e.tab q)
    (hdue : s'.due = s.due) : FlagsRight s' := by
  refine ⟨hn, fun q hq => ?_⟩
  obtain ⟨hold, hflag⟩ := hlive q hq
  rw [hflag, hdue, h.fresh q hold]

/-- A task has ended. -/
theorem reaped (h : FlagsRight s) {s' : Signalled w σ} (hn : (s'.e.tab.map (·.pid)).Nodup)
    (hlive : s'.live = Function.update s.live pid false)
    (htab : ∀ q, q ≠ pid → freshFlag s'.e.tab q = freshFlag s.e.tab q)
    (hdue : s'.due = s.due) : FlagsRight s' := by
  refine h.kept hn (fun q hq => ?_) hdue
  rw [hlive] at hq
  have hne : q ≠ pid := by
    rintro rfl
    rw [Function.update_self] at hq
    cases hq
  rw [Function.update_of_ne hne] at hq
  exact ⟨hq, htab q hne⟩

/-- A new task's flag is up where it has no record, or one with the flag up. -/
theorem clones_iff (h : FlagsRight s) {parent child : Nat} {thread : Bool}
    (hdead : s.live child = false) :
    FlagsRight (signalStep P seccomp s (.tracing (.clones parent child thread))) ↔
      freshFlag s.e.tab child = true := by
  constructor
  · intro h'
    have hc := h'.fresh child (Function.update_self ..)
    exact hc.trans (Function.update_self ..)
  · intro hc
    refine ⟨h.nodup, fun q hq => ?_⟩
    change Function.update s.live child true q = true at hq
    change freshFlag s.e.tab q = Function.update s.due child true q
    by_cases hqc : q = child
    · subst hqc
      rw [Function.update_self, hc]
    · rw [Function.update_of_ne hqc] at hq ⊢
      exact h.fresh q hq

theorem ends (h : FlagsRight s) {st : WaitStatus} (hst : st.isEnd = true) :
    FlagsRight (signalStep P seccomp s (.tracing (.reports pid st))) := by
  have hn := findOrAdd_nodup h.nodup pid
  have hfirst : FlagsRight { s with
      toTracing := { s.toTracing.reap pid with e := (findOrAdd s.e pid).1, ended := true } } :=
    h.reaped hn rfl (fun q _ => freshFlag_findOrAdd s.e pid q) rfl
  have hother : FlagsRight { s with
      toTracing := { s.toTracing.reap pid with
        e := ⟨traceeRemove (findOrAdd s.e pid).1.tab pid, (findOrAdd s.e pid).1.ctx⟩ } } := by
    refine h.reaped (Table.nodup_remove hn pid) rfl (fun q hq => ?_) rfl
    exact (freshFlag_remove hn hq).trans (freshFlag_findOrAdd s.e pid q)
  unfold signalStep tracingStep
  dsimp only
  split
  · exact hfirst
  · cases st with
    | exited n => exact hother
    | signaled n => exact hother
    | stopped stop => cases hst
    | continued => cases hst

theorem interrupted (h : FlagsRight s) (got : Option (Nat × WaitStatus)) :
    FlagsRight (signalStep P seccomp s (.tracing (.interrupted got))) := by
  cases got with
  | none => exact h.kept h.nodup (fun q hq => ⟨hq, rfl⟩) rfl
  | some x =>
    unfold signalStep tracingStep
    dsimp only
    split
    · exact h.reaped h.nodup rfl (fun _ _ => rfl) rfl
    · exact h.kept h.nodup (fun q hq => ⟨hq, rfl⟩) rfl

theorem tracing_iff (h : FlagsRight s) {ev : TracingEvent w σ} (ho : SignalOffered s (.tracing ev)) :
    FlagsRight (signalStep P seccomp s (.tracing ev)) ↔ Unmixed s (.tracing ev) := by
  cases ev with
  | runs f => exact iff_of_true (h.kept h.nodup (fun q hq => ⟨hq, rfl⟩) rfl) trivial
  | clones parent child thread => exact h.clones_iff ho.1.2.2.2.1
  | reports pid st =>
    refine iff_of_true ?_ trivial
    cases st with
    | exited n => exact h.ends rfl
    | signaled n => exact h.ends rfl
    | stopped stop => exact ho.2.elim
    | continued =>
      exact h.kept (findOrAdd_nodup h.nodup pid)
        (fun q hq => ⟨hq, freshFlag_findOrAdd s.e pid q⟩) rfl
  | threadExecs tid =>
    exact iff_of_true (h.reaped h.nodup rfl (fun _ _ => rfl) rfl) trivial
  | interrupted got => exact iff_of_true (h.interrupted got) trivial

theorem sigcont_iff (h : FlagsRight s) (hlive : s.live pid = true) :
    FlagsRight (signalStep P seccomp s (.sigcont pid)) ↔ s.due pid = false := by
  constructor
  · intro h'
    have hflag : freshFlag s.e.tab pid = false := (h'.fresh pid hlive).trans (Function.update_self ..)
    rw [← h.fresh pid hlive, hflag]
  · intro hdue
    have hsame : Function.update s.due pid false = s.due := by
      rw [← hdue, Function.update_eq_self]
    exact h.kept h.nodup (fun q hq => ⟨hq, rfl⟩) hsame

/-- What a stop is answered with, and what it does to the flag. -/
theorem stop_iff (h : FlagsRight s) (ho : SignalOffered s (.stops pid cause)) :
    Passed P seccomp s (.stops pid cause) ∧ FlagsRight (signalStep P seccomp s (.stops pid cause)) ↔
      Unmixed s (.stops pid cause) := by
  have hlive : s.live pid = true := ho.1.2.1
  have hfresh : (findOrAdd s.e pid).2.fresh = s.due pid :=
    (findOrAdd_fresh s.e pid).trans (h.fresh pid hlive)
  obtain ⟨-, ho⟩ := ho
  have htrap : ¬SIGTRAP = SIGSTOP := by decide
  let resumed (stop : Stop) : Nat :=
    (handleStop P seccomp (findOrAdd s.e pid).1 s.W (findOrAdd s.e pid).2 stop).2.2
  rw [h.stops_iff hlive]
  cases cause with
  | syscall => exact iff_of_true ⟨passed_trap (.inl rfl) .., if_neg (by decide)⟩ trivial
  | event number msg => exact iff_of_true ⟨passed_trap (.inr rfl) .., if_neg htrap⟩ trivial
  | initial merged =>
    have hpass : resumed ⟨SIGSTOP, 0, 0⟩ = 0 :=
      (passed_signal (by decide) ..).trans (if_pos (.inl ⟨rfl, hfresh.trans ho⟩))
    have hflag : (if SIGSTOP = SIGSTOP then false else s.due pid) =
        Function.update s.due pid false pid := by simp
    refine (and_iff_left hflag).trans ?_
    show resumed ⟨SIGSTOP, 0, 0⟩ = _ ↔ _
    rw [hpass]
    exact merged_iff (by decide)
  | execTrap merged =>
    have hpass : resumed ⟨SIGTRAP, 0, 0⟩ = 0 := passed_trap (.inr rfl) ..
    refine (and_iff_left (if_neg htrap)).trans ?_
    show resumed ⟨SIGTRAP, 0, 0⟩ = _ ↔ _
    rw [hpass]
    exact merged_iff (by decide)
  | signal sig =>
    obtain ⟨hpos, hle, hdue⟩ := ho
    have hpass : resumed ⟨sig, 0, 0⟩ = if sig = SIGTRAP then 0 else sig := by
      refine (passed_signal hle ..).trans (if_congr (or_iff_right fun hstop => ?_) rfl rfl)
      have hup := hstop.2
      rw [hfresh, hdue hstop.1] at hup
      cases hup
    have hflag : (if sig = SIGSTOP then false else s.due pid) = s.due pid := by
      split
      · rename_i hstop
        exact (hdue hstop).symm
      · rfl
    refine (and_iff_left hflag).trans ?_
    show resumed ⟨sig, 0, 0⟩ = sig ↔ sig ≠ SIGTRAP
    rw [hpass]
    split <;> omega
  | group sig =>
    refine (and_iff_right trivial).trans ?_
    show (if sig = SIGSTOP then false else s.due pid) = s.due pid ↔
      (sig = SIGSTOP → s.due pid = false)
    by_cases hstop : sig = SIGSTOP
    · rw [if_pos hstop]
      exact ⟨fun he _ => he.symm, fun he => (he hstop).symm⟩
    · rw [if_neg hstop]
      exact iff_of_true rfl fun hs => (hstop hs).elim

/-- **One step.** -/
theorem step_iff (h : FlagsRight s) {ev : SignalEvent w σ} (ho : SignalOffered s ev) :
    Passed P seccomp s ev ∧ FlagsRight (signalStep P seccomp s ev) ↔ Unmixed s ev := by
  cases ev with
  | tracing ev => exact (and_iff_right trivial).trans (h.tracing_iff ho)
  | stops pid cause => exact h.stop_iff ho
  | sigcont pid => exact (and_iff_right trivial).trans (h.sigcont_iff ho.2)

end FlagsRight

/-- Where the flag of a task that is running is wrong, its next SIGSTOP is answered wrongly. -/
theorem mistaken (hr : s.ended = false) (hlive : s.live pid = true) (hm : s.message pid = none)
    (hflag : freshFlag s.e.tab pid ≠ s.due pid) :
    ∃ cause, SignalOffered s (.stops pid cause) ∧ ¬Passed P seccomp s (.stops pid cause) := by
  have hstop : TracingOffered s.toTracing (.reports pid (.stopped ⟨SIGSTOP, 0, 0⟩) :
      TracingEvent w σ) := ⟨hr, hlive, hm⟩
  have hpass : (handleStop P seccomp (findOrAdd s.e pid).1 s.W (findOrAdd s.e pid).2
      ⟨SIGSTOP, 0, 0⟩).2.2 = _ := passed_signal (by decide) ..
  rw [findOrAdd_fresh] at hpass
  cases hdue : s.due pid with
  | true =>
    rw [hdue] at hflag
    refine ⟨.initial false, ⟨hstop, hdue⟩, fun h => ?_⟩
    rw [if_neg (by simpa [SIGSTOP, SIGTRAP] using hflag)] at hpass
    exact absurd (hpass.symm.trans h) (by decide)
  | false =>
    rw [hdue] at hflag
    refine ⟨.signal SIGSTOP, ⟨hstop, by decide, by decide, fun _ => hdue⟩, fun h => ?_⟩
    rw [if_pos (.inl ⟨rfl, by simpa using hflag⟩)] at hpass
    exact absurd (hpass.symm.trans h) (by decide)

/-- **Signals are transparent** in the unmixed runs: those are the runs in which every stop is
answered as it is to be and the flags stay right; and where the flag of a running task is wrong, its
next SIGSTOP is answered wrongly. -/
theorem signals_transparent_iff (P : Platform w σ) (seccomp : Bool) (ctx : Ctx) (rootPid : Nat)
    (W : World w σ) (evs : List (SignalEvent w σ)) (s : Signalled w σ) :
    (Run (fun s ev s' => SignalStep P seccomp s ev s' ∧ (Passed P seccomp s ev ∧ FlagsRight s'))
        (.start ctx rootPid W) evs s ↔
      Run (fun s ev s' => SignalStep P seccomp s ev s' ∧ Unmixed s ev) (.start ctx rootPid W) evs s) ∧
    ∀ pid, s.ended = false → s.live pid = true → s.message pid = none →
      freshFlag s.e.tab pid ≠ s.due pid →
      ∃ cause, SignalOffered s (.stops pid cause) ∧ ¬Passed P seccomp s (.stops pid cause) :=
  ⟨Run.iff_of_post (fun _ _ _ h ⟨ho, he⟩ => he ▸ h.step_iff ho) (fun _ _ _ h => h.2)
    (.start ctx rootPid W), fun _ => mistaken⟩

/-! ## Two runs -/

def signalsFrom (evs : List (SignalEvent 64 Unit)) : Signalled 64 Unit :=
  evs.foldl (signalStep linuxPlatform true) (.start Ctx.create 1 atExecve)

/-- Process 1 forks process 2, which reports first, and is stopped by another's SIGSTOP. -/
def stoppedChild : List (SignalEvent 64 Unit) :=
  [.tracing (.clones 1 2 false), .stops 2 (.initial false), .stops 1 (.event PTRACE_EVENT_FORK 2),
    .stops 2 (.signal SIGSTOP)]

theorem stopped_child_passed :
    Run (fun s ev s' => SignalStep linuxPlatform true s ev s' ∧
        (Passed linuxPlatform true s ev ∧ FlagsRight s'))
      (.start Ctx.create 1 atExecve) stoppedChild (signalsFrom stoppedChild) := by
  refine (signals_transparent_iff linuxPlatform true Ctx.create 1 atExecve _ _).1.2 ?_
  exact .cons ⟨⟨⟨⟨rfl, by decide⟩, rfl⟩, rfl⟩, rfl⟩
    (.cons ⟨⟨⟨⟨rfl, rfl, rfl⟩, rfl⟩, rfl⟩, rfl⟩
    (.cons ⟨⟨⟨⟨rfl, rfl, 2, rfl, .inl rfl⟩, by decide, rfl⟩, rfl⟩, trivial⟩
    (.cons ⟨⟨⟨⟨rfl, rfl, rfl⟩, by decide, by decide, fun _ => rfl⟩, rfl⟩,
      (by decide : SIGSTOP ≠ SIGTRAP)⟩ (.nil _))))

/-- A program sends itself a SIGTRAP. -/
theorem sigtrap_absorbed :
    Run (SignalStep linuxPlatform true) (.start Ctx.create 1 atExecve) [.stops 1 (.signal SIGTRAP)]
        (signalsFrom [.stops 1 (.signal SIGTRAP)]) ∧
      ¬Passed linuxPlatform true (.start Ctx.create 1 atExecve) (.stops 1 (.signal SIGTRAP)) := by
  constructor
  · exact .cons ⟨⟨⟨rfl, rfl, rfl⟩, by decide, by decide, fun _ => rfl⟩, rfl⟩ (.nil _)
  · intro h
    exact absurd ((passed_trap (.inr rfl) ..).symm.trans h) (by decide)

end Emuroot
