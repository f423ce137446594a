import Emuroot.Proof.FastPath
import Emuroot.Proof.Parity
import Emuroot.Proof.ProcLinks
import Emuroot.Proof.ProgramName

/-!
# The programs in the records

`programStep` runs the event loop over tasks that fork, exec and read links, with what the kernel
runs for each of them beside it. `ProgramsInv.step`: in the steps that meet `Minded`, the record of
each task has the program that the task runs through a loader, and of its call under way what the
entry has made of it.
-/

namespace Emuroot

variable {w : Nat} {σ : Type}

/-- What the kernel runs for a task: the text of its link to the program, and the guest's name of
the program that a loader runs. -/
structure Program where
  name : Option CStr
  image : CStr

/-- What the record of the task is to have. -/
def Program.exe (p : Program) : CStr := p.name.getD []

/-- A link that the kernel has found: the task whose program it leads to, if it is such a link, and
its text. -/
structure FoundLink where
  owner : Option Nat
  text : CStr

/-- What comes of a call. -/
inductive Outcome
  | execs (p : Program)
  | reads (found : FoundLink)
  | other

/-- What the task runs from then on. -/
def Outcome.program : Outcome → Program → Program
  | .execs p, _ => p
  | _, p => p

/-- The tasks, what they run, and the states in which the entries of their calls were handled. -/
structure Programs (w : Nat) (σ : Type) extends Tasks w σ where
  phase : Nat → Phase
  program : Nat → Program
  entered : Nat → Option (St w σ)

/-- An event, and for the end of a call what has come of it. -/
structure ProgramEvent (w : Nat) (σ : Type) where
  ev : TaskEvent w σ
  out : Outcome := .other

section
variable (P : Platform w σ) (seccomp : Bool)

/-- What the handler of the task's next syscall stop is given. -/
def Programs.handed (s : Programs w σ) (pid : Nat) : Option (St w σ) :=
  (s.W.regs pid).map (stopState (findOrAdd s.e pid).1 s.W (s.record pid).toTracee)

def programStep (s : Programs w σ) (x : ProgramEvent w σ) : Programs w σ :=
  let s' := { s with toTasks := taskStep P seccomp s.toTasks x.ev }
  match x.ev with
  | .clones parent child _ =>
    { s' with
      phase := Function.update s.phase child (.awaits parent)
      program := Function.update s.program child (s.program parent) }
  | .enters pid listed =>
    { s' with
      entered := Function.update s.entered pid (if !seccomp || listed then s.handed pid else none) }
  | .leaves pid =>
    { s' with program := Function.update s.program pid (x.out.program (s.program pid)) }
  | .reports _ stop =>
    if stop.isFork then { s' with phase := Function.update s.phase stop.msg .known } else s'
  | .ends pid _ => { s' with phase := endPhase s.phase pid }
  | _ => s'

/-- The program behind an exec whose entry was handled in `u`, if it was. -/
def StartedAs (u : Option (St w σ)) (p : Program) : Prop :=
  ∀ name, p.name = some name ↔ ∃ v q, u = some v ∧ ByLoader P v q ∧ GivenAs P v q name

/-- The call is an exec. -/
def IsExec (regs : Regs w) : Prop :=
  P.nr.is .execve (regs P.arch.sysno).toInt = true ∨ P.nr.is .execveat (regs P.arch.sysno).toInt = true

/-- What can come of the call of the task. An exec has left the group with one task, and succeeds
with 0. -/
def CallEnds (s : Programs w σ) (pid : Nat) : Outcome → Prop
  | .execs p =>
    (∃ c regs, s.place pid = .inside c ∧ c.regs = some regs ∧ IsExec P regs) ∧
      (∀ regs, s.W.regs pid = some regs → regs P.arch.ret = 0) ∧ StartedAs P (s.entered pid) p ∧
      ∀ q, q ≠ pid → s.leader q = s.leader pid → s.place q = .absent
  | .reads found =>
    (∃ c regs, s.place pid = .inside c ∧ c.regs = some regs ∧
      isReadlink P.nr (regs P.arch.sysno).toInt = true) ∧
      (∃ v m, s.handed pid = some v ∧ ReadlinkRan P m v found.text) ∧
      ∀ q, found.owner = some q → s.place q ≠ .absent ∧ found.text = (s.program q).image
  | .other =>
    ∀ c regs regs', s.place pid = .inside c → c.regs = some regs → IsExec P regs →
      s.W.regs pid = some regs' → regs' P.arch.ret ≠ 0

/-- What can happen next. A parent is halted at its fork until the event is reported. -/
def ProgramOffered (s : Programs w σ) (x : ProgramEvent w σ) : Prop :=
  TaskOffered P s.toTasks x.ev ∧
    match x.ev with
    | .clones parent _ _ => ∀ c, s.phase c ≠ .awaits parent
    | .enters pid _ => ∀ c, s.phase c ≠ .awaits pid
    | .leaves pid => (∀ c, s.phase c ≠ .awaits pid) ∧ CallEnds P s pid x.out
    | .reports pid stop =>
      if stop.isFork then s.phase stop.msg = .awaits pid else ∀ c, s.phase c ≠ .awaits pid
    | _ => True

/-- The path of the readlink under way begins with `/proc/`. -/
def Programs.spelledProc (s : Programs w σ) (pid : Nat) : Bool :=
  ((s.entered pid).bind (joinedLink P)).any underProc

/-- It ends like a program's link besides. -/
def Programs.spelledExe (s : Programs w σ) (pid : Nat) : Bool :=
  ((s.entered pid).bind (joinedLink P)).any fun path => underProc path && isExeLink path

/-- What is due for a link: the program, or else the text, which is shown to the guest as its own
where the path begins with `/proc/`. -/
def Programs.due (s : Programs w σ) (pid : Nat) (v : St w σ) (found : FoundLink) : CStr :=
  let shown := shownAs v.ctx v.t.root found.text
  match found.owner with
  | some q => (s.program q).name.getD shown
  | none => if s.spelledProc P pid then shown else found.text

/-- The answer to a readlink, as the step leaves it, is the one due. -/
def Truthful (s : Programs w σ) (x : ProgramEvent w σ) (s' : Programs w σ) : Prop :=
  match x.ev, x.out with
  | .leaves pid, .reads found => ∀ v m, s.handed pid = some v → ReadlinkRan P m v found.text →
      ∃ u, s'.W.regs pid = some u.regs ∧ s'.W.mem (s.W.space pid) = u.mem ∧
        LinkReported P m v u (s.due P pid v found)
  | _, _ => True

/-- The path of a program's link begins with `/proc/`; where it ends like one too, the caller runs
through a loader as the same program as the other task, or neither does; and where it does not, the
other does not. The path of another link ends otherwise, unless the caller does not run through a
loader. The answer can be written. -/
structure AsksRight (s : Programs w σ) (pid : Nat) (found : FoundLink) : Prop where
  owned : ∀ q, found.owner = some q →
    s.spelledProc P pid = true ∧
      if s.spelledExe P pid then (s.program pid).name = (s.program q).name
      else (s.program q).name = none
  other : found.owner = none → s.spelledExe P pid = true → (s.program pid).name = none
  fits : ∀ v m, s.handed pid = some v → ReadlinkRan P m v found.text →
    if s.spelledProc P pid then ReadlinkFits P m v found.text
    else found.text.take (linkTaken P v) = found.text.take (linkSize P v)

/-- No thread but a leader execs, and calls are read at their entries and execs at their exits. A
task's calls and forks come after its parent's fork event. What runs through a loader makes no
execveat. -/
def Minded (s : Programs w σ) (x : ProgramEvent w σ) : Prop :=
  KeepsStep s.toTasks x.ev ∧
    match x.ev with
    | .enters pid _ => s.phase pid = .known
    | .reports pid stop => stop.isFork → s.phase pid = .known
    | .leaves pid =>
      match x.out with
      | .execs _ => (s.W.regs pid).isSome ∧ ∀ c regs, s.place pid = .inside c → c.regs = some regs →
          P.nr.is .execveat (regs P.arch.sysno).toInt = true → (s.program pid).name = none
      | .reads found => AsksRight P s pid found
      | .other => True
    | _ => True

/-- The session at its start. The first program is run by the kernel. -/
def Programs.start (ctx : Ctx) (rootPid : Nat) (W : World w σ) (image : CStr) : Programs w σ where
  toTasks := .start seccomp ctx rootPid W
  phase := fun pid => if pid = rootPid then .known else .gone
  program := fun _ => ⟨none, image⟩
  entered := fun _ => none

def MindedStep (s : Programs w σ) (x : ProgramEvent w σ) (s' : Programs w σ) : Prop :=
  ProgramOffered P s x ∧ Minded P s x ∧ s' = programStep P seccomp s x

end

variable {P : Platform w σ} {seccomp : Bool} {tab : List (Traced w)} {e : Engine w} {W : World w σ}
  {pid q : Nat} {t : Tracee w} {stop : Stop}

/-! ## The records -/

/-- The record of a task, as the handlers see it. -/
def traceeIn (tab : List (Traced w)) (pid : Nat) : Option (Tracee w) :=
  (traceeFind tab pid).map (·.toTracee)

theorem traceeIn_put (tab : List (Traced w)) (u : Traced w) (q : Nat) :
    traceeIn (traceePut tab u) q =
      if q = u.pid then (traceeIn tab q).map fun _ => u.toTracee else traceeIn tab q := by
  unfold traceeIn
  rw [traceeFind_put]
  split
  · rw [Option.map_map, Option.map_map]
    rfl
  · rfl

theorem traceeIn_append (h : traceeIn tab q = some t) (u : Traced w) :
    traceeIn (tab ++ [u]) q = some t := by
  obtain ⟨v, hv, rfl⟩ := Option.map_eq_some_iff.1 h
  have happ : traceeFind (tab ++ [u]) q = _ := Table.find_append u
  have hf : Table.find (fun t : Traced w => t.pid) tab q = some v := hv
  rw [traceeIn, happ, hf]
  rfl

theorem findOrAdd_traceeIn (h : traceeIn e.tab q = some t) (pid : Nat) :
    traceeIn (findOrAdd e pid).1.tab q = some t := by
  unfold findOrAdd
  split
  · exact h
  · exact traceeIn_append h _

theorem findOrAdd_of_traceeIn (h : traceeIn e.tab pid = some t) :
    (findOrAdd e pid).1 = e ∧ (findOrAdd e pid).2.toTracee = t := by
  obtain ⟨u, hu, rfl⟩ := Option.map_eq_some_iff.1 h
  rw [findOrAdd_of_find hu]
  exact ⟨rfl, rfl⟩

theorem traceeIn_pid (h : traceeIn tab pid = some t) : t.pid = pid := by
  obtain ⟨u, hu, rfl⟩ := Option.map_eq_some_iff.1 h
  exact traceeFind_pid hu

/-- A handler's result in the table. -/
theorem traceeIn_handled (h : traceeIn e.tab pid = some t) {u : Traced w} (hu : u.pid = pid) (q : Nat) :
    traceeIn (traceePut e.tab u) q = if q = pid then some u.toTracee else traceeIn e.tab q := by
  rw [traceeIn_put, hu]
  split
  · rename_i hq
    rw [hq, h]
    rfl
  · rfl

section
variable {s : Tasks w σ} (h : TasksInv P seccomp s) (ht : traceeIn s.e.tab pid = some t)
include h ht

/-- Entering a call changes the record of the task, if emuroot is stopped at it. -/
theorem enters_traceeIn (hp : s.place pid = .user) (listed : Bool) (q : Nat) :
    traceeIn (taskStep P seccomp s (.enters pid listed)).e.tab q =
      if q = pid ∧ (!seccomp || listed) = true then some (withRegs (onEntry P) s.e s.W t).1
      else traceeIn s.e.tab q := by
  have hstep := h.stepped_of_user hp
  have hin : (s.record pid).inCall seccomp = false := by
    rw [h.record_inCall, hp]
    rfl
  obtain ⟨he, hrec⟩ := findOrAdd_of_traceeIn ht
  obtain ⟨u, hu, -, hut, htab⟩ := handleStop_enters (P := P) s.e s.W hin
  have hseen : (!seccomp || listed) = true →
      (taskStep P seccomp s (.enters pid listed)).e.tab = traceePut s.e.tab u := by
    intro hs
    rw [← htab, ← he]
    cases seccomp with
    | false => simp [taskStep, Tasks.atSyscall, hstep, entryStop, Tasks.move, Tasks.wait, waitStep,
        Tasks.record]
    | true =>
      have hl : listed = true := by simpa using hs
      simp [taskStep, Tasks.atSyscall, hstep, hl, entryStop, Tasks.move, Tasks.wait, waitStep,
        Tasks.record]
  by_cases hs : (!seccomp || listed) = true
  · rw [hseen hs, traceeIn_handled ht (hu.trans (findOrAdd_pid s.e pid)), hut,
      show (s.record pid).toTracee = t from hrec]
    simp only [hs, and_true]
  · have hsame : (taskStep P seccomp s (.enters pid listed)).e.tab = s.e.tab := by
      simp only [Bool.or_eq_true, not_or, Bool.not_eq_true'] at hs
      have hs1 : seccomp = true := by simpa using hs.1
      subst hs1
      simp [taskStep, Tasks.atSyscall, hstep, hs.2, Tasks.move]
    rw [hsame, if_neg fun hq => hs hq.2]

/-- Leaving a call does too. -/
theorem leaves_traceeIn {c : Entered w} (hp : s.place pid = .inside c) (q : Nat) :
    traceeIn (taskStep P seccomp s (.leaves pid)).e.tab q =
      if q = pid ∧ c.seen = true then some (withRegs (onExit P) s.e s.W t).1
      else traceeIn s.e.tab q := by
  have hstep := h.stepped_of_inside hp
  obtain ⟨he, hrec⟩ := findOrAdd_of_traceeIn ht
  cases hc : c.seen with
  | true =>
    have hin : (s.record pid).inCall seccomp = true := by
      rw [h.record_inCall, hp]
      exact hc
    obtain ⟨⟨u, hu, -, hut, htab⟩, -⟩ := handleStop_leaves (P := P) s.e s.W hin
    have hseen : (taskStep P seccomp s (.leaves pid)).e.tab = traceePut s.e.tab u := by
      rw [← htab, ← he]
      simp [taskStep, Tasks.atSyscall, hstep, hc, Tasks.move, Tasks.wait, waitStep, Tasks.record]
    rw [hseen, traceeIn_handled ht (hu.trans (findOrAdd_pid s.e pid)), hut,
      show (s.record pid).toTracee = t from hrec]
    simp only [and_true]
  | false =>
    have hsame : (taskStep P seccomp s (.leaves pid)).e.tab = s.e.tab := by
      simp [taskStep, Tasks.atSyscall, hstep, hc, Tasks.move]
    rw [hsame]
    simp

/-- What the exit leaves in the world. -/
theorem leaves_world {c : Entered w} (hp : s.place pid = .inside c) (hc : c.seen = true) :
    (taskStep P seccomp s (.leaves pid)).W = (withRegs (onExit P) s.e s.W t).2.2 := by
  have hstep := h.stepped_of_inside hp
  have hin : (s.record pid).inCall seccomp = true := by
    rw [h.record_inCall, hp]
    exact hc
  obtain ⟨he, hrec⟩ := findOrAdd_of_traceeIn ht
  rw [← he, ← hrec]
  refine Eq.trans ?_ (handleStop_leaves (P := P) (findOrAdd s.e pid).1 s.W hin).2
  simp [taskStep, Tasks.atSyscall, hstep, hc, Tasks.move, Tasks.wait, waitStep, Tasks.record]

end

/-! ## The programs in the records -/

theorem onEntry_exe (s : St w σ) : (onEntry P s).t.exe = s.t.exe := by
  have h := congrArg Tracee.exe (onEntry_frame (P := P) s).t
  exact h

theorem exitAction_exe (s : St w σ) (buf : Word w) (a : Action) (ret : Int)
    (h : a = .execve → ret ≠ 0) : (exitAction P s buf a ret).t.exe = s.t.exe := by
  unfold exitAction
  split
  · rw [exitGetcwd_t]
  split
  · rename_i ha
    rw [if_neg (h ha)]
  split
  · rfl
  split
  · rfl
  split
  · split
    · rfl
    · rw [mapProcLink_t]
  split
  · rw [(exitUname_memOnly s buf ret).t]
  split
  · rfl
  · have h := congrArg Tracee.exe (emulateResult_t (P := P) s a ret)
    dsimp only
    split <;> exact h

theorem withRegs_of_some {f : St w σ → St w σ} {regs : Regs w} (h : W.regs t.pid = some regs) :
    (withRegs f e W t).1 = (f (stopState e W t regs)).t := by
  rw [withRegs, h]

theorem withRegs_onEntry_exe (e : Engine w) (W : World w σ) (t : Tracee w) :
    (withRegs (onEntry P) e W t).1.exe = t.exe := by
  unfold withRegs
  split
  · rfl
  · exact onEntry_exe _

/-- No exit but that of an execve that has succeeded changes the program's name. -/
theorem onExit_exe {s : St w σ}
    (h : P.actionOf s.t.sysno = some .execve → s.regs P.arch.ret ≠ 0) :
    (onExit P s).t.exe = s.t.exe := by
  have hc : ∀ ret, (commitCreated P s ret).t.exe = s.t.exe ∧
      (commitCreated P s ret).t.sysno = s.t.sysno := by
    intro ret
    unfold commitCreated
    split <;> exact ⟨rfl, rfl⟩
  obtain ⟨hexe, hsysno⟩ := hc (s.regs P.arch.ret).toInt
  unfold onExit onExitAt
  dsimp only
  rw [hsysno]
  cases ha : P.actionOf s.t.sysno with
  | none => exact hexe
  | some a =>
    dsimp only
    rw [exitAction_exe _ _ _ _ ?_, hexe]
    rintro rfl h0
    exact h ha (BitVec.eq_of_toInt_eq (h0.trans BitVec.toInt_zero.symm))

/-! ## The execs -/

theorem StartedAs.name_none {p : Program} {u : Option (St w σ)} (h : StartedAs P u p)
    (hno : ∀ v q, u = some v → ¬ByLoader P v q) : p.name = none := by
  cases hp : p.name with
  | none => rfl
  | some name =>
    obtain ⟨v, q, hv, hq, -⟩ := (h name).1 hp
    exact (hno v q hv hq).elim

theorem StartedAs.named {p : Program} {u : Option (St w σ)} (h : StartedAs P u p) :
    p.name ≠ some [] := by
  intro hp
  obtain ⟨v, q, -, -, hg⟩ := (h []).1 hp
  exact guestAbsolute_ne_nil v q (givenAs_iff.1 hg)

/-- The exit of an exec has the name of the program put in place. -/
theorem exec_noted {u v : St w σ} {p : Program} (hx : IsExec P u.regs) (hv : v.t = (onEntry P u).t)
    (hret : v.regs P.arch.ret = 0) (hs : StartedAs P (some u) p)
    (hat : P.nr.is .execveat (u.sysno P) = true → u.t.exe = []) : (onExit P v).t.exe = p.exe := by
  rw [onExit_exec hx hv hret]
  dsimp only
  unfold Program.exe
  by_cases hex : P.nr.is .execve (u.sysno P) = true
  · rw [if_pos hex]
    rcases (onEntry_noted hex).1 with ⟨q, hq, hp⟩ | ⟨hno, hp⟩
    · have hname : p.name = some (guestAbsolute P u q pathLen) :=
        (hs _).2 ⟨u, q, rfl, hq, givenAs_iff.2 rfl⟩
      rw [hp, hname]
      rfl
    · have hname : p.name = none := hs.name_none fun v q hv => Option.some.inj hv ▸ hno q
      rw [hp, hname]
      rfl
  · have hname : p.name = none :=
      hs.name_none fun v q hv hq => hex (Option.some.inj hv ▸ hq.call)
    rw [if_neg hex, hat (hx.resolve_left hex), hname]
    rfl

theorem is_execve_of_action {n : Int} (h : P.actionOf n = some .execve) : P.nr.is .execve n = true := by
  obtain ⟨d, hd, ha, hn⟩ := actionOf_eq_some h
  have hall : ∀ d ∈ actionTable, d.action = .execve → d.nr = .execve := by decide
  rwa [hall d hd ha] at hn

/-- What the filter lets through is no execve and no readlink. -/
theorem unseen_call {regs : Regs w} (h : seccompTraces P regs = false) :
    P.nr.is .execve (regs P.arch.sysno).toInt = false ∧
      isReadlink P.nr (regs P.arch.sysno).toInt = false := by
  have hno := not_traced h
  rw [mem_tracedSyscalls] at hno
  obtain ⟨-, hact, hother⟩ := not_or.1 hno |>.imp_right not_or.1
  constructor
  · refine Bool.eq_false_iff.2 fun hx => hother ⟨.execve, by decide, hx⟩
  · refine Bool.eq_false_iff.2 fun hx => hact ?_
    unfold isReadlink at hx
    rw [Bool.or_eq_true] at hx
    rcases hx with hx | hx
    · exact ⟨⟨.readlink, .readlink, false⟩, by decide, rfl, hx⟩
    · exact ⟨⟨.readlinkat, .readlink, false⟩, by decide, rfl, hx⟩

/-! ## The other stops -/

theorem handleStop_fork_traceeIn (hs : stop.isFork) (e : Engine w) (W : World w σ) (T : Traced w) :
    (∀ q, q ≠ stop.msg →
      traceeIn (handleStop P seccomp e W T stop).1.tab q = traceeIn e.tab q) ∧
    ∃ c, traceeIn (handleStop P seccomp e W T stop).1.tab stop.msg = some c ∧ c.exe = T.exe := by
  obtain ⟨hn, hf⟩ := hs
  unfold handleStop
  rw [if_neg fun h => hn (.inl h), if_neg fun h => hn (.inr h), if_pos hf]
  split
  · rename_i c hc
    have hpid : c.pid = stop.msg := traceeFind_pid hc
    have hin : traceeIn e.tab stop.msg = some c.toTracee := by
      rw [traceeIn, hc]
      rfl
    have hput := traceeIn_handled hin (u := traceeInherit c T) hpid
    refine ⟨fun q hq => (hput q).trans (if_neg hq), _, (hput _).trans (if_pos rfl), rfl⟩
  · rename_i hc
    have happ : ∀ q, traceeFind (e.tab ++ [traceeNew e.ctx stop.msg (some T)]) q =
        (traceeFind e.tab q).or (if stop.msg = q then some (traceeNew e.ctx stop.msg (some T))
          else none) := fun _ => Table.find_append _
    refine ⟨fun q hq => ?_, (traceeNew e.ctx stop.msg (some T)).toTracee, ?_, rfl⟩
    · rw [traceeIn, happ, if_neg (Ne.symm hq), Option.or_none, traceeIn]
    · rw [traceeIn, happ, if_pos rfl, hc]
      rfl

theorem handleStop_other_traceeIn (hs : ¬stop.isSyscall) (hf : ¬stop.isFork) (e : Engine w)
    (W : World w σ) {T : Traced w} (h : traceeFind e.tab T.pid = some T) (q : Nat) :
    traceeIn (handleStop P seccomp e W T stop).1.tab q = traceeIn e.tab q := by
  unfold handleStop
  rw [if_neg fun h => hs (.inl h), if_neg fun h => hs (.inr h), if_neg fun h => hf ⟨hs, h⟩]
  split
  · have hin : traceeIn e.tab T.pid = some T.toTracee := by
      rw [traceeIn, h]
      rfl
    refine (traceeIn_handled hin (u := { T with fresh := false }) rfl q).trans ?_
    split
    · rename_i hq
      rw [hq, hin]
    · rfl
  · split <;> rfl

section
variable {s : Tasks w σ}

/-- A stop that is no syscall stop leaves the records as they are, but for a new task's. -/
theorem reports_traceeIn (hn : ¬stop.isSyscall) (hq : ¬(stop.isFork ∧ q = stop.msg))
    (ht : traceeIn s.e.tab q = some t) :
    traceeIn (taskStep P seccomp s (.reports pid stop)).e.tab q = some t := by
  have hadd := findOrAdd_traceeIn ht pid
  show traceeIn (handleStop P seccomp (findOrAdd s.e pid).1 s.W (findOrAdd s.e pid).2 stop).1.tab q = _
  by_cases hf : stop.isFork
  · rw [(handleStop_fork_traceeIn hf _ _ _).1 q fun h => hq ⟨hf, h⟩, hadd]
  · rw [handleStop_other_traceeIn hn hf _ _ (findOrAdd_self s.e pid), hadd]

/-- The record of a new task gets the program's name of its parent's. -/
theorem reports_fork (hf : stop.isFork) (ht : traceeIn s.e.tab pid = some t) :
    ∃ c, traceeIn (taskStep P seccomp s (.reports pid stop)).e.tab stop.msg = some c ∧
      c.exe = t.exe := by
  have hrec : (findOrAdd s.e pid).2.exe = t.exe := congrArg Tracee.exe (findOrAdd_of_traceeIn ht).2
  rw [← hrec]
  exact (handleStop_fork_traceeIn hf (findOrAdd s.e pid).1 s.W (findOrAdd s.e pid).2).2

theorem ends_traceeIn (h : TasksInv P seccomp s) {st : WaitStatus}
    (hst : (∃ n, st = .exited n) ∨ ∃ n, st = .signaled n) (hq : q ≠ pid)
    (ht : traceeIn s.e.tab q = some t) :
    traceeIn (taskStep P seccomp s (.ends pid st)).e.tab q = some t := by
  have hremove : (taskStep P seccomp s (.ends pid st)).e.tab =
      traceeRemove (findOrAdd s.e pid).1.tab pid := by
    rcases hst with ⟨n, rfl⟩ | ⟨n, rfl⟩ <;> rfl
  have hf : traceeFind (traceeRemove (findOrAdd s.e pid).1.tab pid) q =
      if q = pid then none else traceeFind (findOrAdd s.e pid).1.tab q :=
    Table.find_remove (findOrAdd_nodup h.nodup pid) pid q
  rw [hremove, traceeIn, hf, if_neg hq]
  exact findOrAdd_traceeIn ht pid

theorem atSyscall_place (s : Tasks w σ) (pid : Nat) :
    (s.atSyscall P seccomp pid).place = s.place := by
  unfold Tasks.atSyscall
  split <;> rfl

theorem enters_place (s : Tasks w σ) (pid : Nat) (listed : Bool) :
    (taskStep P seccomp s (.enters pid listed)).place =
      Function.update s.place pid (.inside ⟨!seccomp || listed, s.W.regs pid⟩) := by
  show Function.update (if seccomp && listed then
      (s.atSyscall P seccomp pid).wait P seccomp pid (.stopped seccompStop)
    else s.atSyscall P seccomp pid).place pid _ = _
  split
  · exact congrArg (Function.update · pid _) (atSyscall_place s pid)
  · exact congrArg (Function.update · pid _) (atSyscall_place s pid)

theorem leaves_place (s : Tasks w σ) (pid : Nat) :
    (taskStep P seccomp s (.leaves pid)).place = Function.update s.place pid .user := by
  show Function.update (s.atSyscall P seccomp pid).place pid .user = _
  rw [atSyscall_place]

end

theorem programStep_place (s : Programs w σ) (x : ProgramEvent w σ) :
    (programStep P seccomp s x).place =
      match x.ev with
      | .runs _ => s.place
      | .clones _ child _ => Function.update s.place child .new
      | .enters pid listed =>
        Function.update s.place pid (.inside ⟨!seccomp || listed, s.W.regs pid⟩)
      | .leaves pid => Function.update s.place pid .user
      | .reports pid _ => Function.update s.place pid (s.place pid).awake
      | .ends pid _ => Function.update s.place pid .absent
      | .threadExecs tid => (s.takeOver tid).place := by
  obtain ⟨ev, out⟩ := x
  cases ev with
  | runs | clones | ends | threadExecs => rfl
  | enters pid listed => exact enters_place s.toTasks pid listed
  | leaves pid => exact leaves_place s.toTasks pid
  | reports pid stop =>
    unfold programStep
    dsimp only
    split <;> rfl

theorem programStep_leader (s : Programs w σ) (x : ProgramEvent w σ) :
    (programStep P seccomp s x).leader =
      match x.ev with
      | .clones parent child thread =>
        Function.update s.leader child (if thread then s.leader parent else child)
      | _ => s.leader := by
  have hat : ∀ pid, (s.toTasks.atSyscall P seccomp pid).leader = s.leader := by
    intro pid
    unfold Tasks.atSyscall
    split <;> rfl
  obtain ⟨ev, out⟩ := x
  cases ev with
  | runs | clones | ends | threadExecs => rfl
  | enters pid listed =>
    show (if seccomp && listed then
        (s.atSyscall P seccomp pid).wait P seccomp pid (.stopped seccompStop)
      else s.atSyscall P seccomp pid).leader = _
    split <;> exact hat pid
  | leaves pid => exact hat pid
  | reports pid stop =>
    unfold programStep
    dsimp only
    split <;> rfl

/-! ## The invariant -/

/-- Whether emuroot was stopped at the entry of a call is a matter of its number, and the record is
what the entry has made of it. -/
structure CallNoted (P : Platform w σ) (seccomp : Bool) (c : Entered w) (u : Option (St w σ))
    (r : Option (Tracee w)) : Prop where
  listed : ∀ regs, c.regs = some regs → c.seen = (!seccomp || seccompTraces P regs)
  unseen : c.seen = false → u = none
  seen : ∀ regs, c.regs = some regs → c.seen = true →
    ∃ v, u = some v ∧ v.regs = regs ∧ r = some (onEntry P v).t

/-- The record of a task has its program, once its parent's fork event has been reported, and its
call, which it has not entered before. -/
structure TaskNoted (P : Platform w σ) (seccomp : Bool) (s : Programs w σ) (q : Nat) : Prop where
  known : s.phase q = .known → ∃ t, traceeIn s.e.tab q = some t ∧ t.exe = (s.program q).exe
  inside : ∀ c, s.place q = .inside c →
    s.phase q = .known ∧ CallNoted P seccomp c (s.entered q) (traceeIn s.e.tab q)

structure ProgramsInv (P : Platform w σ) (seccomp : Bool) (s : Programs w σ) : Prop where
  tasks : TasksInv P seccomp s.toTasks
  noted : ∀ q, TaskNoted P seccomp s q
  awaits : ∀ c p, s.phase c = .awaits p → s.program c = s.program p ∧ s.place p ≠ .absent
  named : ∀ q, (s.program q).name ≠ some []

/-- A task whose record stays. -/
theorem TaskNoted.keep {s s' : Programs w σ} (h : TaskNoted P seccomp s q)
    (hplace : ∀ c, s'.place q = .inside c → s.place q = .inside c)
    (hphase : s'.phase q = .known ↔ s.phase q = .known) (hent : s'.entered q = s.entered q)
    (hprog : s'.program q = s.program q)
    (ht : ∀ t, traceeIn s.e.tab q = some t → traceeIn s'.e.tab q = some t) :
    TaskNoted P seccomp s' q := by
  refine ⟨fun hk => ?_, fun c hc => ?_⟩
  · obtain ⟨t, hin, he⟩ := h.known (hphase.1 hk)
    exact ⟨t, ht t hin, by rw [hprog, he]⟩
  · obtain ⟨hk, hcall⟩ := h.inside c (hplace c hc)
    obtain ⟨t, hin, -⟩ := h.known hk
    rw [hin] at hcall
    rw [hent, ht t hin]
    exact ⟨hphase.2 hk, hcall⟩

theorem handed_eq {s : Programs w σ} (ht : traceeIn s.e.tab pid = some t) :
    s.handed pid = (s.W.regs pid).map (stopState s.e s.W t) := by
  obtain ⟨he, hrec⟩ := findOrAdd_of_traceeIn ht
  rw [Programs.handed, Tasks.record, he, hrec]

/-- A stop wakes a new task; it brings no task into a call. -/
theorem inside_of_awake {place : Nat → Place w} {c : Entered w}
    (hc : Function.update place pid (place pid).awake q = .inside c) : place q = .inside c := by
  rw [Function.update_apply] at hc
  split at hc
  · rename_i hq
    rw [hq]
    cases hp : place pid with
    | new =>
      rw [hp] at hc
      cases hc
    | absent | user | inside c' => rw [← hc, hp]; rfl
  · exact hc

theorem awake_ne_absent {place : Nat → Place w} (hpid : place pid ≠ .absent)
    (hq : place q ≠ .absent) : Function.update place pid (place pid).awake q ≠ .absent := by
  intro ha
  rw [Function.update_apply] at ha
  split at ha
  · cases hp : place pid with
    | absent => exact hpid hp
    | new | user | inside c => rw [hp] at ha; cases ha
  · exact hq ha

namespace ProgramsInv

variable {s : Programs w σ}

theorem start (ctx : Ctx) (rootPid : Nat) (W : World w σ) (image : CStr) :
    ProgramsInv P seccomp (.start seccomp ctx rootPid W image) where
  tasks := .start ctx rootPid W
  noted q := by
    refine ⟨fun hk => ?_, fun c hc => ?_⟩
    · have hq : q = rootPid := by
        by_contra hne
        simp [Programs.start, hne] at hk
      subst hq
      refine ⟨(traceeNew ctx q none : Traced w).toTracee, ?_, rfl⟩
      unfold traceeIn Programs.start Tasks.start engineStart traceeFind Table.find
      rw [List.find?_cons_of_pos (by simp [traceeNew])]
      rfl
    · have hne : ∀ c, (Tasks.start seccomp ctx rootPid W).place q ≠ .inside c := by
        intro c
        unfold Tasks.start
        dsimp only
        split <;> intro h <;> cases h
      exact (hne c hc).elim
  awaits c p h := by
    unfold Programs.start at h
    dsimp only at h
    split at h <;> cases h
  named q h := by cases h

theorem clones (h : ProgramsInv P seccomp s) {parent child : Nat} {thread : Bool} {out : Outcome}
    (ho : ProgramOffered P s ⟨.clones parent child thread, out⟩) :
    ProgramsInv P seccomp (programStep P seccomp s ⟨.clones parent child thread, out⟩) := by
  have hparent : s.place parent ≠ .absent := ho.1.1
  have hchild : s.place child = .absent := ho.1.2
  have hne : ∀ {p}, s.place p ≠ .absent → p ≠ child := by
    rintro p hp rfl
    exact hp hchild
  refine ⟨h.tasks.step ho.1 trivial, fun q => ?_, fun c p hc => ?_, fun q => ?_⟩
  · by_cases hq : q = child
    · subst hq
      refine ⟨fun hk => ?_, fun c hc => ?_⟩
      · have hk : Function.update s.phase q (.awaits parent) q = .known := hk
        rw [Function.update_self] at hk
        cases hk
      · have hc : Function.update s.place q .new q = .inside c := hc
        rw [Function.update_self] at hc
        cases hc
    · refine (h.noted q).keep (fun c hc => ?_) ?_ rfl (Function.update_of_ne hq _ _) fun _ ht => ht
      · have hc : Function.update s.place child .new q = .inside c := hc
        rwa [Function.update_of_ne hq] at hc
      · show Function.update s.phase child (.awaits parent) q = .known ↔ _
        rw [Function.update_of_ne hq]
  · have hc : Function.update s.phase child (.awaits parent) c = .awaits p := hc
    show Function.update s.program child (s.program parent) c =
        Function.update s.program child (s.program parent) p ∧
      Function.update s.place child .new p ≠ .absent
    by_cases hq : c = child
    · subst hq
      rw [Function.update_self] at hc
      cases hc
      rw [Function.update_self, Function.update_of_ne (hne hparent),
        Function.update_of_ne (hne hparent)]
      exact ⟨rfl, hparent⟩
    · rw [Function.update_of_ne hq] at hc
      obtain ⟨hprog, hplace⟩ := h.awaits c p hc
      rw [Function.update_of_ne hq, Function.update_of_ne (hne hplace),
        Function.update_of_ne (hne hplace)]
      exact ⟨hprog, hplace⟩
  · show (Function.update s.program child (s.program parent) q).name ≠ some []
    rw [Function.update_apply]
    split
    · exact h.named parent
    · exact h.named q

/-- The entry of a call keeps the program, and is what the record has of the call. -/
theorem enters (h : ProgramsInv P seccomp s) {listed : Bool} {out : Outcome}
    (ho : TaskOffered P s.toTasks (.enters pid listed)) (hk : s.phase pid = .known) :
    ProgramsInv P seccomp (programStep P seccomp s ⟨.enters pid listed, out⟩) := by
  obtain ⟨t, ht, hexe⟩ := (h.noted pid).known hk
  have hplace : (taskStep P seccomp s.toTasks (.enters pid listed)).place = _ :=
    enters_place s.toTasks pid listed
  have hin := enters_traceeIn h.tasks ht ho.1 listed
  refine ⟨h.tasks.step ho trivial, fun q => ?_, fun c p hc => ?_, h.named⟩
  · by_cases hq : q = pid
    · subst hq
      refine ⟨fun _ => ?_, fun c hc => ⟨hk, ?_⟩⟩
      · by_cases hs : (!seccomp || listed) = true
        · exact ⟨_, (hin q).trans (if_pos ⟨rfl, hs⟩), (withRegs_onEntry_exe _ _ t).trans hexe⟩
        · exact ⟨t, (hin q).trans ((if_neg fun hc => hs hc.2).trans ht), hexe⟩
      · have hc : (taskStep P seccomp s.toTasks (.enters q listed)).place q = .inside c := hc
        rw [hplace, Function.update_self] at hc
        cases hc
        refine ⟨fun regs hr => ?_, fun hs => ?_, fun regs hr hs => ?_⟩
        · rw [ho.2 regs hr]
        · have hs : (!seccomp || listed) = false := hs
          show Function.update s.entered q _ q = none
          rw [Function.update_self, hs]
          rfl
        · have hr : s.W.regs q = some regs := hr
          refine ⟨stopState s.e s.W t regs, ?_, rfl, ?_⟩
          · show Function.update s.entered q _ q = _
            rw [Function.update_self, if_pos hs, handed_eq ht, hr]
            rfl
          · refine (hin q).trans ((if_pos ⟨rfl, hs⟩).trans ?_)
            rw [withRegs_of_some (by rw [traceeIn_pid ht, hr])]
    · refine (h.noted q).keep (fun c hc => ?_) Iff.rfl (Function.update_of_ne hq _ _) rfl
        fun u hu => (hin q).trans ((if_neg fun hc => hq hc.1).trans hu)
      have hc : (taskStep P seccomp s.toTasks (.enters pid listed)).place q = .inside c := hc
      rwa [hplace, Function.update_of_ne hq] at hc
  · obtain ⟨hprog, hp⟩ := h.awaits c p hc
    refine ⟨hprog, fun ha => ?_⟩
    have ha : (taskStep P seccomp s.toTasks (.enters pid listed)).place p = .absent := ha
    rw [hplace, Function.update_apply] at ha
    split at ha
    · cases ha
    · exact hp ha

/-- A fork event: the new task is known from here on, with its parent's program. -/
theorem reports_of_fork (h : ProgramsInv P seccomp s) {out : Outcome} (hf : stop.isFork)
    (ho : TaskOffered P s.toTasks (.reports pid stop)) (hmsg : s.phase stop.msg = .awaits pid)
    (hk : s.phase pid = .known) :
    ProgramsInv P seccomp (programStep P seccomp s ⟨.reports pid stop, out⟩) := by
  obtain ⟨hpid, hns⟩ := ho
  have hstep : programStep P seccomp s ⟨.reports pid stop, out⟩ =
      { s with
        toTasks := taskStep P seccomp s.toTasks (.reports pid stop)
        phase := Function.update s.phase stop.msg .known } := if_pos hf
  rw [hstep]
  refine ⟨h.tasks.other hns, fun q => ?_, fun c p hc => ?_, h.named⟩
  · by_cases hq : q = stop.msg
    · obtain ⟨t, ht, hexe⟩ := (h.noted pid).known hk
      obtain ⟨c, hc, he⟩ : ∃ c, traceeIn (taskStep P seccomp s.toTasks (.reports pid stop)).e.tab
          stop.msg = some c ∧ c.exe = t.exe := reports_fork hf ht
      rw [hq]
      refine ⟨fun _ => ⟨c, hc, ?_⟩, fun c hc => ?_⟩
      · rw [he, hexe, (h.awaits _ _ hmsg).1]
      · have hkn := ((h.noted _).inside c (inside_of_awake hc)).1
        rw [hmsg] at hkn
        cases hkn
    · refine (h.noted q).keep (fun c hc => inside_of_awake hc) ?_ rfl rfl
        fun u hu => reports_traceeIn hns (fun hc => hq hc.2) hu
      dsimp only
      rw [Function.update_of_ne hq]
  · dsimp only at hc
    rw [Function.update_apply] at hc
    split at hc
    · cases hc
    · exact ⟨(h.awaits c p hc).1, awake_ne_absent hpid (h.awaits c p hc).2⟩

/-- Any other stop leaves what is known of the tasks. -/
theorem reports_of_not_fork (h : ProgramsInv P seccomp s) {out : Outcome} (hf : ¬ stop.isFork)
    (ho : TaskOffered P s.toTasks (.reports pid stop)) :
    ProgramsInv P seccomp (programStep P seccomp s ⟨.reports pid stop, out⟩) := by
  obtain ⟨hpid, hns⟩ := ho
  have hstep : programStep P seccomp s ⟨.reports pid stop, out⟩ =
      { s with toTasks := taskStep P seccomp s.toTasks (.reports pid stop) } := if_neg hf
  rw [hstep]
  refine ⟨h.tasks.other hns, fun q => ?_, fun c p hc => ?_, h.named⟩
  · exact (h.noted q).keep (fun c hc => inside_of_awake hc) Iff.rfl rfl rfl
      fun u hu => reports_traceeIn hns (fun hc => hf hc.1) hu
  · exact ⟨(h.awaits c p hc).1, awake_ne_absent hpid (h.awaits c p hc).2⟩

/-- A stop of another kind. A new task is known from its parent's fork event on. -/
theorem reports (h : ProgramsInv P seccomp s) {out : Outcome}
    (ho : ProgramOffered P s ⟨.reports pid stop, out⟩) (hk : stop.isFork → s.phase pid = .known) :
    ProgramsInv P seccomp (programStep P seccomp s ⟨.reports pid stop, out⟩) := by
  obtain ⟨ho, hphase⟩ := ho
  by_cases hf : stop.isFork
  · have hmsg : s.phase stop.msg = .awaits pid := by simpa [hf] using hphase
    exact h.reports_of_fork hf ho hmsg (hk hf)
  · exact h.reports_of_not_fork hf ho

theorem ends (h : ProgramsInv P seccomp s) {st : WaitStatus} {out : Outcome}
    (ho : TaskOffered P s.toTasks (.ends pid st)) :
    ProgramsInv P seccomp (programStep P seccomp s ⟨.ends pid st, out⟩) := by
  refine ⟨h.tasks.step ho trivial, fun q => ?_, fun c p hc => ?_, h.named⟩
  · by_cases hq : q = pid
    · subst hq
      refine ⟨fun hk => ?_, fun c hc => ?_⟩
      · have hk : endPhase s.phase q q = .known := hk
        rw [endPhase, if_pos rfl] at hk
        cases hk
      · have hc : Function.update s.place q .absent q = .inside c := hc
        rw [Function.update_self] at hc
        cases hc
    · refine (h.noted q).keep (fun c hc => ?_) ?_ rfl rfl fun u hu => ends_traceeIn h.tasks ho.2 hq hu
      · have hc : Function.update s.place pid .absent q = .inside c := hc
        rwa [Function.update_of_ne hq] at hc
      · show endPhase s.phase pid q = .known ↔ _
        rw [endPhase, if_neg hq]
        split
        · rename_i ha
          rw [ha]
          exact ⟨(fun hk => by cases hk), (fun hk => by cases hk)⟩
        · rfl
  · have hkept : s.phase c = .awaits p ∧ p ≠ pid := by
      have hc : endPhase s.phase pid c = .awaits p := hc
      unfold endPhase at hc
      split at hc
      · cases hc
      split at hc
      · cases hc
      rename_i hne
      exact ⟨hc, fun hp => hne (hp ▸ hc)⟩
    obtain ⟨hprog, hp⟩ := h.awaits c p hkept.1
    refine ⟨hprog, ?_⟩
    show Function.update s.place pid .absent p ≠ .absent
    rwa [Function.update_of_ne hkept.2]

/-- After a call the record has the program that the task has come to run. -/
theorem left_exe (h : ProgramsInv P seccomp s) {out : Outcome}
    (ho : ProgramOffered P s ⟨.leaves pid, out⟩) (hm : Minded P s ⟨.leaves pid, out⟩) :
    ∃ t, traceeIn (taskStep P seccomp s.toTasks (.leaves pid)).e.tab pid = some t ∧
      t.exe = (out.program (s.program pid)).exe := by
  obtain ⟨⟨c, hc⟩, -, hends⟩ := ho
  obtain ⟨hk, hcall⟩ := (h.noted pid).inside c hc
  obtain ⟨t, ht, hexe⟩ := (h.noted pid).known hk
  have hin := leaves_traceeIn h.tasks ht hc pid
  cases hseen : c.seen with
  | false =>
    refine ⟨t, hin.trans ((if_neg (by simp [hseen])).trans ht), ?_⟩
    cases out with
    | execs p =>
      obtain ⟨⟨c', regs, hc', hr, hx⟩, -, hstart, -⟩ := hends
      cases hc.symm.trans hc'
      have hlisted := hcall.listed regs hr
      rw [hseen] at hlisted
      have htraces : seccompTraces P regs = false := (Bool.or_eq_false_iff.1 hlisted.symm).2
      have hat := hx.resolve_left (by simp [(unseen_call htraces).1])
      have hlast : (s.program pid).name = none := (hm.2.2 c regs hc hr) hat
      have hname : p.name = none :=
        hstart.name_none fun v q hv => absurd (hv.symm.trans (hcall.unseen hseen)) (by simp)
      rw [hexe, Program.exe, hlast]
      show [] = p.exe
      rw [Program.exe, hname]
      rfl
    | reads found => exact hexe
    | other => exact hexe
  | true =>
    obtain ⟨regs, hr⟩ := Option.isSome_iff_exists.1 (hm.1 c hc hseen)
    obtain ⟨v, hv, rfl, hrec⟩ := hcall.seen regs hr hseen
    obtain rfl : t = (onEntry P v).t := Option.some.inj (ht.symm.trans hrec)
    refine ⟨_, hin.trans (if_pos ⟨rfl, hseen⟩), ?_⟩
    have hpid := traceeIn_pid ht
    cases hregs : s.W.regs pid with
    | none =>
      have hsame : (withRegs (onExit P) s.e s.W (onEntry P v).t).1 = (onEntry P v).t := by
        rw [withRegs, hpid, hregs]
      rw [hsame, hexe]
      cases out with
      | execs p =>
        have hsome := hm.2.1
        rw [hregs] at hsome
        cases hsome
      | reads found => rfl
      | other => rfl
    | some regs' =>
      have hleft : s.W.regs (onEntry P v).t.pid = some regs' := by rw [hpid, hregs]
      rw [withRegs_of_some hleft]
      cases out with
      | execs p =>
        obtain ⟨⟨c', regs, hc', hr', hx⟩, hret, hstart, -⟩ := hends
        cases hc.symm.trans hc'
        cases hr.symm.trans hr'
        refine exec_noted hx rfl (hret regs' hregs) (hv ▸ hstart) fun hat => ?_
        have hlast : (s.program pid).name = none := (hm.2.2 c _ hc hr) hat
        rw [← onEntry_exe (P := P), hexe, Program.exe, hlast]
        rfl
      | reads found =>
        refine (onExit_exe fun ha => ?_).trans hexe
        obtain ⟨-, ⟨v', m, hv', hran⟩, -⟩ := hends
        rw [handed_eq ht, hregs] at hv'
        cases hv'
        have hact := hran.action
        rw [show P.actionOf _ = _ from ha] at hact
        cases hact
      | other =>
        refine (onExit_exe fun ha => ?_).trans hexe
        have hsys : (onEntry P v).t.sysno = v.sysno P :=
          congrArg Tracee.sysno (onEntry_frame (P := P) v).t
        rw [show (stopState s.e s.W (onEntry P v).t regs').t.sysno = _ from hsys] at ha
        exact hends c _ regs' hc hr (.inl (is_execve_of_action ha)) hregs

theorem leaves (h : ProgramsInv P seccomp s) {out : Outcome}
    (ho : ProgramOffered P s ⟨.leaves pid, out⟩) (hm : Minded P s ⟨.leaves pid, out⟩) :
    ProgramsInv P seccomp (programStep P seccomp s ⟨.leaves pid, out⟩) := by
  obtain ⟨t', ht', hexe'⟩ := h.left_exe ho hm
  obtain ⟨⟨c, hc⟩, hwait, hends⟩ := ho
  obtain ⟨hk, -⟩ := (h.noted pid).inside c hc
  obtain ⟨t, ht, -⟩ := (h.noted pid).known hk
  have hin := leaves_traceeIn h.tasks ht hc
  have hplace : (taskStep P seccomp s.toTasks (.leaves pid)).place = _ := leaves_place s.toTasks pid
  have hprog : (programStep P seccomp s ⟨.leaves pid, out⟩).program =
    Function.update s.program pid (out.program (s.program pid)) := rfl
  have hinside : ∀ {q c}, (taskStep P seccomp s.toTasks (.leaves pid)).place q = .inside c →
      q ≠ pid ∧ s.place q = .inside c := by
    intro q c hq
    rw [hplace, Function.update_apply] at hq
    split at hq
    · cases hq
    · exact ⟨‹_›, hq⟩
  refine ⟨h.tasks.leaves hc, fun q => ?_, fun c' p hw => ?_, fun q => ?_⟩
  · by_cases hq : q = pid
    · subst hq
      refine ⟨fun _ => ⟨t', ht', ?_⟩, fun c hc => ((hinside hc).1 rfl).elim⟩
      rw [hexe', hprog, Function.update_self]
    · refine (h.noted q).keep (fun c hc => (hinside hc).2) Iff.rfl rfl ?_
        fun u hu => (hin q).trans ((if_neg fun hc => hq hc.1).trans hu)
      rw [hprog, Function.update_of_ne hq]
  · obtain ⟨hsame, hp⟩ := h.awaits c' p hw
    have hne : c' ≠ pid := by
      rintro rfl
      cases hk.symm.trans hw
    have hne' : p ≠ pid := by
      rintro rfl
      exact hwait c' hw
    rw [hprog, Function.update_of_ne hne, Function.update_of_ne hne']
    refine ⟨hsame, fun ha => ?_⟩
    have ha : (taskStep P seccomp s.toTasks (.leaves pid)).place p = .absent := ha
    rw [hplace, Function.update_of_ne hne'] at ha
    exact hp ha
  · rw [hprog, Function.update_apply]
    split
    · cases out with
      | execs p => exact hends.2.2.1.named
      | reads found => exact h.named pid
      | other => exact h.named pid
    · exact h.named q

theorem step (h : ProgramsInv P seccomp s) {x : ProgramEvent w σ} {s' : Programs w σ}
    (hs : MindedStep P seccomp s x s') : ProgramsInv P seccomp s' := by
  obtain ⟨ho, hm, rfl⟩ := hs
  obtain ⟨ev, out⟩ := x
  cases ev with
  | runs f => exact ⟨h.tasks.step ho.1 trivial, fun q => ⟨(h.noted q).known, (h.noted q).inside⟩,
      h.awaits, h.named⟩
  | clones parent child thread => exact h.clones ho
  | enters pid listed => exact h.enters ho.1 hm.2
  | leaves pid => exact h.leaves ho hm
  | reports pid stop => exact h.reports ho hm.2
  | ends pid st => exact h.ends ho.1
  | threadExecs tid => exact hm.1.elim

end ProgramsInv

end Emuroot
