import Emuroot.Proof.Parity

/-!
# The table and the tasks that exist

`tracingStep` runs the event loop to its end, over tasks that clone, stop, exec and end in any
order, and keeps beside it which of them exist. `table_exact_iff`: the table has one record for a
task, and none for a task that no longer exists, in every state of exactly the runs in which no
thread but a leader execs, no child is gone at its parent's fork event, and the loop does not end
over the end of a task (`Clean`).
-/

namespace Emuroot

variable {w : Nat} {σ : Type}

/-- The session, and what the kernel knows of the tasks: which exist (a task does until its end has
been reported), the leaders of their groups, and the child in the message of a fork event that is
not reported yet. `ended` is set when the loop is left. -/
structure Tracing (w : Nat) (σ : Type) where
  e : Engine w
  W : World w σ
  rootPid : Nat
  live : Nat → Bool
  leader : Nat → Nat
  message : Nat → Option Nat
  ended : Bool

/-- `interrupted` is a signal to the tracer, with the status that the wait has then returned, if
any. -/
inductive TracingEvent (w : Nat) (σ : Type)
  | runs (f : World w σ → World w σ)
  | clones (parent child : Nat) (thread : Bool)
  | reports (pid : Nat) (st : WaitStatus)
  | threadExecs (tid : Nat)
  | interrupted (got : Option (Nat × WaitStatus))

def WaitStatus.isEnd : WaitStatus → Bool
  | .exited _ | .signaled _ => true
  | _ => false

section
variable (P : Platform w σ) (seccomp : Bool)

/-- The kernel has let go of the task. -/
def Tracing.reap (s : Tracing w σ) (pid : Nat) : Tracing w σ :=
  { s with
    live := Function.update s.live pid false
    message := Function.update s.message pid none }

def tracingStep (s : Tracing w σ) : TracingEvent w σ → Tracing w σ
  | .runs f => { s with W := f s.W }
  | .clones parent child thread =>
    { s with
      live := Function.update s.live child true
      leader := Function.update s.leader child (if thread then s.leader parent else child)
      message := Function.update s.message parent (some child) }
  | .reports pid st =>
    if st.isEnd ∧ pid = s.rootPid then
      { s.reap pid with e := (findOrAdd s.e pid).1, ended := true }
    else
      let r := waitStep P seccomp s.e s.W pid st
      let s := { s with e := r.1, W := r.2.1 }
      match st with
      | .exited _ | .signaled _ => s.reap pid
      | .continued => s
      | .stopped stop =>
        if stop.isFork then { s with message := Function.update s.message pid none } else s
  -- the thread goes on under the leader's id, and nothing is reported of its own
  | .threadExecs tid => { s.reap tid with message := Function.update s.message (s.leader tid) none }
  | .interrupted got =>
    match got with
    | some (pid, st) => { (if st.isEnd then s.reap pid else s) with ended := true }
    | none => { s with ended := true }

/-- What can happen next. The message of a fork event cannot be read from a parent killed meanwhile;
the child is 0 then. -/
def TracingOffered (s : Tracing w σ) (ev : TracingEvent w σ) : Prop :=
  s.ended = false ∧
    match ev with
    | .runs _ => True
    | .clones parent child _ =>
      s.live parent = true ∧ s.message parent = none ∧ s.live child = false ∧ child ≠ 0
    | .reports pid st =>
      s.live pid = true ∧
        match st with
        | .exited _ | .signaled _ => True
        | .continued => s.message pid = none
        | .stopped stop =>
          if stop.isFork then ∃ c, s.message pid = some c ∧ (stop.msg = c ∨ stop.msg = 0)
          else s.message pid = none
    | .threadExecs tid =>
      s.leader tid ≠ tid ∧ s.live tid = true ∧ s.live (s.leader tid) = true ∧ s.message tid = none
    | .interrupted got => ∀ x ∈ got, s.live x.1 = true

/-- There is a record for the task. -/
def recorded (tab : List (Traced w)) (pid : Nat) : Bool := (traceeFind tab pid).isSome

/-- One record for a task, and none for a task that no longer exists. -/
structure TableExact (s : Tracing w σ) : Prop where
  nodup : (s.e.tab.map (·.pid)).Nodup
  live : ∀ pid, recorded s.e.tab pid = true → s.live pid = true

/-- The step leaves no record of a task that does not exist. -/
def Clean (s : Tracing w σ) : TracingEvent w σ → Prop
  | .reports pid (.exited _) | .reports pid (.signaled _) => pid ≠ s.rootPid
  | .reports _ (.stopped stop) => stop.isFork → s.live stop.msg = true
  | .threadExecs tid => recorded s.e.tab tid = false
  | .interrupted (some (pid, st)) => st.isEnd = true → recorded s.e.tab pid = false
  | _ => True

/-- The session at its start. -/
def Tracing.start (ctx : Ctx) (rootPid : Nat) (W : World w σ) : Tracing w σ where
  e := engineStart ctx rootPid
  W := W
  rootPid := rootPid
  live := fun pid => pid = rootPid
  leader := fun pid => pid
  message := fun _ => none
  ended := false

def TracingStep (s : Tracing w σ) (ev : TracingEvent w σ) (s' : Tracing w σ) : Prop :=
  TracingOffered s ev ∧ s' = tracingStep P seccomp s ev

/-- The tasks that the loop kills at its end. -/
def killed (s : Tracing w σ) : List Nat := s.e.tab.map (·.pid)

end

variable {P : Platform w σ} {seccomp : Bool} {tab : List (Traced w)} {e : Engine w} {t : Traced w}
  {pid q : Nat} {stop : Stop} {W : World w σ} {s : Tracing w σ}

/-! ## Which tasks have a record -/

theorem mem_pids : pid ∈ tab.map (·.pid) ↔ recorded tab pid = true := by
  have hnone : traceeFind tab pid = none ↔ ∀ t ∈ tab, t.pid ≠ pid := Table.find_eq_none
  rw [recorded, Option.isSome_iff_ne_none, Ne, hnone]
  simp

theorem recorded_eq_identOf (tab : List (Traced w)) (pid : Nat) :
    recorded tab pid = (identOf tab pid).isSome := by
  rw [recorded, identOf, Option.isSome_map]

theorem recorded_findOrAdd (e : Engine w) (pid q : Nat) :
    recorded (findOrAdd e pid).1.tab q = true ↔ q = pid ∨ recorded e.tab q = true := by
  unfold findOrAdd
  split
  · rename_i t h
    constructor
    · exact .inr
    · rintro (rfl | hq)
      · rw [recorded, h]
        rfl
      · exact hq
  · simp [← mem_pids, traceeNew_pid, or_comm]

theorem recorded_put (tab : List (Traced w)) (t : Traced w) (q : Nat) :
    recorded (traceePut tab t) q = recorded tab q := by
  rw [recorded, traceeFind_put]
  split
  · exact Option.isSome_map ..
  · rfl

theorem recorded_remove (hn : (tab.map (·.pid)).Nodup) (pid q : Nat) :
    recorded (traceeRemove tab pid) q = true ↔ q ≠ pid ∧ recorded tab q = true := by
  have hf : traceeFind (traceeRemove tab pid) q = if q = pid then none else traceeFind tab q :=
    Table.find_remove hn pid q
  rw [recorded, hf]
  split <;> simp_all [recorded]

/-- A stop adds the record of the child at a fork event, and no other. -/
theorem recorded_handleStop (e : Engine w) (W : World w σ) (t : Traced w) (stop : Stop) (q : Nat) :
    recorded (handleStop P seccomp e W t stop).1.tab q = true ↔
      stop.isFork ∧ q = stop.msg ∨ recorded e.tab q = true := by
  by_cases hs : stop.isSyscall
  · have hnf : ¬stop.isFork := fun hf => hf.1 hs
    rw [or_iff_right fun h => hnf h.1]
    obtain h | ⟨u, -, h⟩ := handleStop_syscall (P := P) hs e W t
    · rw [h]
    · rw [h, recorded_put]
  by_cases hf : stop.isFork
  · rw [recorded_eq_identOf, handleStop_fork hf, recorded_eq_identOf]
    split <;> simp_all
  · rw [or_iff_right fun h => hf h.1]
    obtain h | h := handleStop_other (P := P) hs hf e W t
    · rw [h]
    · rw [h, recorded_put]

/-! ## One step -/

namespace TableExact

theorem start (ctx : Ctx) (rootPid : Nat) (W : World w σ) : TableExact (.start ctx rootPid W) where
  nodup := (FamilyInv.start ctx rootPid W).nodup
  live pid h := by
    have hmem := mem_pids.2 h
    simpa [Tracing.start, engineStart, traceeNew] using hmem

/-- Where the records are those from before and `c`'s, and the tasks those from before. -/
theorem added (h : TableExact s) {s' : Tracing w σ} (hn : (s'.e.tab.map (·.pid)).Nodup) {p : Prop}
    {c : Nat} (htab : ∀ q, recorded s'.e.tab q = true ↔ p ∧ q = c ∨ q = pid ∨ recorded s.e.tab q = true)
    (hpid : s.live pid = true) (hlive : s'.live = s.live) :
    TableExact s' ↔ (p → s.live c = true) := by
  constructor
  · intro h' hp
    rw [← hlive]
    exact h'.live c ((htab c).2 (.inl ⟨hp, rfl⟩))
  · intro hc
    refine ⟨hn, fun q hq => ?_⟩
    rw [hlive]
    obtain ⟨hp, rfl⟩ | rfl | hq := (htab q).1 hq
    · exact hc hp
    · exact hpid
    · exact h.live q hq

/-- Where a task is let go of with no change to the records. -/
theorem reaped (h : TableExact s) {s' : Tracing w σ} (htab : s'.e.tab = s.e.tab)
    (hlive : s'.live = Function.update s.live pid false) :
    TableExact s' ↔ recorded s.e.tab pid = false := by
  constructor
  · intro h'
    by_contra hr
    have hl := h'.live pid (by rw [htab]; simpa using hr)
    rw [hlive, Function.update_self] at hl
    cases hl
  · intro hr
    refine ⟨htab ▸ h.nodup, fun q hq => ?_⟩
    rw [htab] at hq
    have hne : q ≠ pid := by
      rintro rfl
      rw [hr] at hq
      cases hq
    rw [hlive, Function.update_of_ne hne]
    exact h.live q hq

/-- Nothing changes but what the tasks are at. -/
theorem same (h : TableExact s) {s' : Tracing w σ} (htab : s'.e.tab = s.e.tab)
    (hlive : ∀ q, s.live q = true → s'.live q = true) : TableExact s' :=
  ⟨htab ▸ h.nodup, fun q hq => hlive q (h.live q (htab ▸ hq))⟩

/-- A stop adds at most the record of the child. -/
theorem stopped_iff (h : TableExact s) (hlive : s.live pid = true) :
    TableExact (tracingStep P seccomp s (.reports pid (.stopped stop))) ↔
      (stop.isFork → s.live stop.msg = true) := by
  have hn : ((handleStop P seccomp (findOrAdd s.e pid).1 s.W (findOrAdd s.e pid).2
      stop).1.tab.map (·.pid)).Nodup := handleStop_nodup (findOrAdd_nodup h.nodup pid) s.W _ stop
  have htab : ∀ q, recorded (handleStop P seccomp (findOrAdd s.e pid).1 s.W (findOrAdd s.e pid).2
      stop).1.tab q = true ↔ stop.isFork ∧ q = stop.msg ∨ q = pid ∨ recorded s.e.tab q = true := by
    intro q
    rw [recorded_handleStop, recorded_findOrAdd]
  unfold tracingStep
  dsimp only
  rw [if_neg fun hc => Bool.noConfusion hc.1]
  split
  · exact h.added hn htab hlive rfl
  · exact h.added hn htab hlive rfl

/-- The end of a task other than the first one takes its record. -/
theorem ended (h : TableExact s) {s' : Tracing w σ}
    (htab : s'.e.tab = traceeRemove (findOrAdd s.e pid).1.tab pid)
    (hlive : s'.live = Function.update s.live pid false) : TableExact s' := by
  have hn := findOrAdd_nodup h.nodup pid
  refine ⟨htab ▸ Table.nodup_remove hn pid, fun q hq => ?_⟩
  rw [htab, recorded_remove hn, recorded_findOrAdd] at hq
  obtain ⟨hne, hq⟩ := hq
  rw [hlive, Function.update_of_ne hne]
  exact h.live q (hq.resolve_left hne)

/-- The end of the first task leaves its record. -/
theorem first_ended {s' : Tracing w σ} (htab : s'.e.tab = (findOrAdd s.e pid).1.tab)
    (hlive : s'.live = Function.update s.live pid false) : ¬TableExact s' := by
  intro h'
  have hl := h'.live pid (by rw [htab, recorded_findOrAdd]; exact .inl rfl)
  rw [hlive, Function.update_self] at hl
  cases hl

/-- **The clean steps are those that keep the table exact.** -/
theorem step_iff (h : TableExact s) {ev : TracingEvent w σ} (ho : TracingOffered s ev) :
    TableExact (tracingStep P seccomp s ev) ↔ Clean s ev := by
  obtain ⟨-, ho⟩ := ho
  have hends : ∀ (pid : Nat) (st : WaitStatus), (∃ n, st = .exited n ∨ st = .signaled n) →
      (TableExact (tracingStep P seccomp s (.reports pid st)) ↔ pid ≠ s.rootPid) := by
    rintro pid st ⟨n, hst⟩
    by_cases hroot : pid = s.rootPid
    · refine iff_of_false ?_ (not_not.2 hroot)
      obtain rfl | rfl := hst
      all_goals
        rw [tracingStep, if_pos ⟨rfl, hroot⟩]
        exact first_ended rfl rfl
    · refine iff_of_true ?_ hroot
      obtain rfl | rfl := hst
      all_goals
        rw [tracingStep, if_neg fun hc => hroot hc.2]
        exact h.ended rfl rfl
  cases ev with
  | runs f => exact iff_of_true (h.same rfl fun _ hq => hq) trivial
  | clones parent child thread =>
    refine iff_of_true (h.same rfl fun q hq => ?_) trivial
    show Function.update s.live child true q = true
    rw [Function.update_apply]
    split
    · rfl
    · exact hq
  | reports pid st =>
    cases st with
    | exited n => exact hends _ _ ⟨n, .inl rfl⟩
    | signaled n => exact hends _ _ ⟨n, .inr rfl⟩
    | stopped stop => exact h.stopped_iff ho.1
    | continued =>
      have hn : ((tracingStep P seccomp s (.reports pid .continued)).e.tab.map (·.pid)).Nodup :=
        findOrAdd_nodup h.nodup pid
      have htab : ∀ q, recorded (tracingStep P seccomp s (.reports pid .continued)).e.tab q = true ↔
          False ∧ q = 0 ∨ q = pid ∨ recorded s.e.tab q = true := by
        intro q
        rw [false_and, false_or]
        exact recorded_findOrAdd s.e pid q
      exact (h.added hn htab ho.1 rfl).trans ⟨fun _ => trivial, fun _ => False.elim⟩
  | threadExecs tid => exact h.reaped rfl rfl
  | interrupted got =>
    cases got with
    | none => exact iff_of_true (h.same rfl fun _ hq => hq) trivial
    | some x =>
      obtain ⟨pid, st⟩ := x
      by_cases hst : st.isEnd = true
      · have hr : TableExact (tracingStep P seccomp s (.interrupted (some (pid, st)))) ↔
            recorded s.e.tab pid = false := by
          unfold tracingStep
          dsimp only
          rw [if_pos hst]
          exact h.reaped rfl rfl
        exact hr.trans ⟨fun hf _ => hf, fun hf => hf hst⟩
      · refine iff_of_true ?_ fun hc => (hst hc).elim
        unfold tracingStep
        dsimp only
        rw [if_neg hst]
        exact h.same rfl fun _ hq => hq

/-- A new task has no record yet, and the tasks that are killed at the end exist. -/
theorem guests (h : TableExact s) :
    (∀ parent child thread, TracingOffered s (.clones parent child thread : TracingEvent w σ) →
      traceeFind s.e.tab child = none) ∧ ∀ pid ∈ killed s, s.live pid = true := by
  refine ⟨fun parent child thread ho => ?_, fun pid hp => h.live pid (mem_pids.1 hp)⟩
  have hdead : s.live child = false := ho.2.2.2.1
  by_contra hf
  have hl := h.live child (Option.isSome_iff_ne_none.2 hf)
  rw [hdead] at hl
  cases hl

end TableExact

/-- **The table is exactly the guest** in every state of the clean runs, and only of those. -/
theorem table_exact_iff (P : Platform w σ) (seccomp : Bool) (ctx : Ctx) (rootPid : Nat) (W : World w σ)
    (evs : List (TracingEvent w σ)) (s : Tracing w σ) :
    (Run (fun s ev s' => TracingStep P seccomp s ev s' ∧ TableExact s') (.start ctx rootPid W) evs s ↔
      Run (fun s ev s' => TracingStep P seccomp s ev s' ∧ Clean s ev) (.start ctx rootPid W) evs s) ∧
    (TableExact s → (s.e.tab.map (·.pid)).Nodup ∧ (∀ pid ∈ killed s, s.live pid = true) ∧
      ∀ parent child thread, TracingOffered s (.clones parent child thread : TracingEvent w σ) →
        traceeFind s.e.tab child = none) :=
  ⟨Run.iff_of_keeps (fun _ _ _ h ⟨ho, he⟩ => he ▸ h.step_iff ho) (.start ctx rootPid W),
    fun h => ⟨h.nodup, h.guests.2, h.guests.1⟩⟩

/-! ## Records that stay -/

def tracingFrom (evs : List (TracingEvent 64 Unit)) : Tracing 64 Unit :=
  evs.foldl (tracingStep linuxPlatform true) (.start Ctx.create 1 atExecve)

def cloneStop : Stop := ⟨SIGTRAP, PTRACE_EVENT_CLONE, 2⟩

/-- Process 1 forks process 2, which ends. -/
def forkedAndEnded : List (TracingEvent 64 Unit) :=
  [.clones 1 2 false, .reports 1 (.stopped forkStop), .reports 2 (.stopped initialStop),
    .reports 2 (.exited 0)]

theorem table_exact_fork :
    Run (fun s ev s' => TracingStep linuxPlatform true s ev s' ∧ TableExact s')
      (.start Ctx.create 1 atExecve) forkedAndEnded (tracingFrom forkedAndEnded) := by
  refine (table_exact_iff linuxPlatform true Ctx.create 1 atExecve _ _).1.2 ?_
  exact .cons ⟨⟨⟨rfl, by decide⟩, rfl⟩, trivial⟩
    (.cons ⟨⟨⟨rfl, rfl, 2, rfl, .inl rfl⟩, rfl⟩, fun _ => rfl⟩
    (.cons ⟨⟨⟨rfl, rfl, rfl⟩, rfl⟩, fun hf => absurd hf (by decide : ¬initialStop.isFork)⟩
    (.cons ⟨⟨⟨rfl, rfl, trivial⟩, rfl⟩, (by decide : (2 : Nat) ≠ 1)⟩ (.nil _))))

/-- Thread 2 of process 1 execs. -/
def threadGone : List (TracingEvent 64 Unit) :=
  [.clones 1 2 true, .reports 1 (.stopped cloneStop), .reports 2 (.stopped initialStop), .threadExecs 2]

/-- Process 2 ends before the fork event of process 1 is reported. -/
def childGone : List (TracingEvent 64 Unit) :=
  [.clones 1 2 false, .reports 2 (.signaled 9), .reports 1 (.stopped forkStop)]

/-- Three ways to a record of a task that does not exist: the thread that has exec'd, whose record
the next task with its id takes over, so that the new task's initial stop is passed on to it; the
child that is gone at the fork event; and the first process, at its end. -/
theorem table_not_exact :
    (Run (TracingStep linuxPlatform true) (.start Ctx.create 1 atExecve) threadGone
        (tracingFrom threadGone) ∧
      ¬TableExact (tracingFrom threadGone) ∧
      TracingOffered (tracingFrom threadGone) (.clones 1 2 false : TracingEvent 64 Unit) ∧
      (waitStep linuxPlatform true (tracingFrom (threadGone ++ [.clones 1 2 false])).e atExecve 2
        (.stopped initialStop)).2.2 = SIGSTOP) ∧
    (Run (TracingStep linuxPlatform true) (.start Ctx.create 1 atExecve) childGone
        (tracingFrom childGone) ∧
      ¬TableExact (tracingFrom childGone)) ∧
    (Run (TracingStep linuxPlatform true) (.start Ctx.create 1 atExecve) [.reports 1 (.exited 0)]
        (tracingFrom [.reports 1 (.exited 0)]) ∧
      killed (tracingFrom [.reports 1 (.exited 0)]) = [1] ∧
      (tracingFrom [.reports 1 (.exited 0)]).live 1 = false) := by
  refine ⟨⟨?_, fun h => ?_, ⟨rfl, by decide⟩, by decide +kernel⟩, ⟨?_, fun h => ?_⟩, ?_, rfl, rfl⟩
  · exact .cons ⟨⟨rfl, by decide⟩, rfl⟩ (.cons ⟨⟨rfl, rfl, 2, rfl, .inl rfl⟩, rfl⟩
      (.cons ⟨⟨rfl, rfl, rfl⟩, rfl⟩ (.cons ⟨⟨rfl, by decide⟩, rfl⟩ (.nil _))))
  · exact absurd (h.live 2 (by decide +kernel)) (by decide)
  · exact .cons ⟨⟨rfl, by decide⟩, rfl⟩ (.cons ⟨⟨rfl, rfl, trivial⟩, rfl⟩
      (.cons ⟨⟨rfl, rfl, 2, rfl, .inl rfl⟩, rfl⟩ (.nil _)))
  · exact absurd (h.live 2 (by decide +kernel)) (by decide)
  · exact .cons ⟨⟨rfl, rfl, trivial⟩, rfl⟩ (.nil _)

end Emuroot
