import Emuroot.Proof.ForkOrder

/-!
# Entry and exit, stop by stop

`taskStep` runs the event loop over tasks that enter calls, leave them, stop for other reasons,
clone, end and exec, and keeps beside it where the kernel has each task. `stops_in_step`: every
syscall stop is taken for what it is, and the exit of a call for the exit of the call that was
entered, in the runs where no thread but a leader execs and every call that is left was read at its
entry (`KeepsStep`). `thread_exec_out_of_step`: a thread's execve is reported under the leader's
pid, and from then on entries are taken for exits.
-/

namespace Emuroot

variable {w : Nat} {σ : Type}

/-- A call under way: whether emuroot was stopped at its entry, and the registers there, if they
could be read. -/
structure Entered (w : Nat) where
  seen : Bool
  regs : Option (Regs w)

/-- Where the kernel has a task. A new task has its initial stop before it runs. -/
inductive Place (w : Nat)
  | absent | new | user | inside (c : Entered w)

/-- Where a stop leaves the task. -/
def Place.awake : Place w → Place w
  | .new => .user
  | p => p

/-- The session, and what the kernel knows of the tasks: the leaders of their groups, and which of
them were last resumed with `PTRACE_SYSCALL`. -/
structure Tasks (w : Nat) (σ : Type) where
  e : Engine w
  W : World w σ
  place : Nat → Place w
  leader : Nat → Nat
  stepped : Nat → Bool

/-- What happens to the tasks. The program's own doing and the kernel's are functions of the world;
`listed` is what the filter says of a call. -/
inductive TaskEvent (w : Nat) (σ : Type)
  | runs (f : World w σ → World w σ)
  | clones (parent child : Nat) (thread : Bool)
  | enters (pid : Nat) (listed : Bool)
  | leaves (pid : Nat)
  | reports (pid : Nat) (stop : Stop)
  | ends (pid : Nat) (st : WaitStatus)
  | threadExecs (tid : Nat)

/-- A call is under way, as the record has it. -/
def Traced.inCall (seccomp : Bool) (t : Traced w) : Bool :=
  if seccomp then t.awaitingExit else t.inSyscall

section
variable (P : Platform w σ) (seccomp : Bool)

/-- A status reaches the event loop, which resumes the task. -/
def Tasks.wait (s : Tasks w σ) (pid : Nat) (st : WaitStatus) : Tasks w σ :=
  let r := waitStep P seccomp s.e s.W pid st
  { s with
    e := r.1
    W := r.2.1
    stepped := Function.update s.stepped pid
      ((traceeFind r.1.tab pid).any (resumesToSyscall seccomp)) }

/-- The stop of a task that was resumed with `PTRACE_SYSCALL`. -/
def Tasks.atSyscall (s : Tasks w σ) (pid : Nat) : Tasks w σ :=
  if s.stepped pid then s.wait P seccomp pid (.stopped syscallStop) else s

def Tasks.move (s : Tasks w σ) (pid : Nat) (p : Place w) : Tasks w σ :=
  { s with place := Function.update s.place pid p }

/-- The thread's execve takes over the leader's pid; the thread's own id is gone without a
status. -/
def Tasks.takeOver (s : Tasks w σ) (tid : Nat) : Tasks w σ :=
  { s with
    place := Function.update (Function.update s.place (s.leader tid) (s.place tid)) tid .absent
    stepped := Function.update s.stepped (s.leader tid) (s.stepped tid) }

def taskStep (s : Tasks w σ) : TaskEvent w σ → Tasks w σ
  | .runs f => { s with W := f s.W }
  | .clones parent child thread =>
    { s with
      place := Function.update s.place child .new
      leader := Function.update s.leader child (if thread then s.leader parent else child)
      stepped := Function.update s.stepped child false }
  | .enters pid listed =>
    let call := Place.inside ⟨!seccomp || listed, s.W.regs pid⟩
    let s := s.atSyscall P seccomp pid
    (if seccomp && listed then s.wait P seccomp pid (.stopped seccompStop) else s).move pid call
  | .leaves pid => (s.atSyscall P seccomp pid).move pid .user
  | .reports pid stop =>
    (s.wait P seccomp pid (.stopped stop)).move pid (s.place pid).awake
  | .ends pid st => (s.wait P seccomp pid st).move pid .absent
  | .threadExecs tid => s.takeOver tid

/-- What can happen next. The entries and exits of a task alternate. -/
def TaskOffered (s : Tasks w σ) : TaskEvent w σ → Prop
  | .runs _ => True
  | .clones parent child _ => s.place parent ≠ .absent ∧ s.place child = .absent
  | .enters pid listed =>
    s.place pid = .user ∧ ∀ regs, s.W.regs pid = some regs → listed = seccompTraces P regs
  | .leaves pid => ∃ c, s.place pid = .inside c
  | .reports pid stop => s.place pid ≠ .absent ∧ ¬stop.isSyscall
  | .ends pid st => s.place pid ≠ .absent ∧ ((∃ n, st = .exited n) ∨ ∃ n, st = .signaled n)
  | .threadExecs tid =>
    s.leader tid ≠ tid ∧ s.place (s.leader tid) ≠ .absent ∧
      ∃ c regs, s.place tid = .inside c ∧ c.regs = some regs ∧
        (P.nr.is .execve (regs P.arch.sysno).toInt ∨ P.nr.is .execveat (regs P.arch.sysno).toInt)

/-- No thread but a leader execs, and a call that emuroot was stopped at is left only if its
registers could be read at the entry. -/
def KeepsStep (s : Tasks w σ) : TaskEvent w σ → Prop
  | .leaves pid => ∀ c, s.place pid = .inside c → c.seen = true → c.regs.isSome
  | .threadExecs _ => False
  | _ => True

/-- The session at its start. -/
def Tasks.start (ctx : Ctx) (rootPid : Nat) (W : World w σ) : Tasks w σ where
  e := engineStart ctx rootPid
  W := W
  place := fun pid => if pid = rootPid then .user else .absent
  leader := fun pid => pid
  stepped := fun pid => pid = rootPid && !seccomp

def TaskStep (s : Tasks w σ) (ev : TaskEvent w σ) (s' : Tasks w σ) : Prop :=
  TaskOffered P s ev ∧ KeepsStep s ev ∧ s' = taskStep P seccomp s ev

/-- The record that the next stop of the task is handled with. -/
def Tasks.record (s : Tasks w σ) (pid : Nat) : Traced w := (findOrAdd s.e pid).2

/-- The record notes the call of these registers. -/
def Traced.Notes (t : Traced w) (regs : Regs w) : Prop :=
  t.sysno = (regs P.arch.sysno).toInt ∧ t.args = fun i => regs (P.arch.regArg (i.val + 1))

/-- The syscall stops of the event are taken for what they are: at an entry no call is under way,
and there is a syscall stop under full tracing only; at the exit of a call that emuroot was stopped
at there is a stop, and the call under way is that call; at the exit of another call there is
none. -/
def InStep (s : Tasks w σ) : TaskEvent w σ → Prop
  | .enters pid _ => (s.record pid).inCall seccomp = false ∧ s.stepped pid = !seccomp
  | .leaves pid => ∀ c, s.place pid = .inside c →
      s.stepped pid = c.seen ∧ (s.record pid).inCall seccomp = c.seen ∧
        (c.seen = true → ∃ regs, c.regs = some regs ∧ (s.record pid).Notes P regs)
  | _ => True

end

variable {P : Platform w σ} {seccomp : Bool} {tab tab' : List (Traced w)} {e : Engine w}
  {t u : Traced w} {pid : Nat} {stop : Stop} {W : World w σ}

/-! ## Calls in the table -/

/-- A call that emuroot was stopped at is under way. -/
def Place.seen : Place w → Bool
  | .inside c => c.seen
  | _ => false

/-- What the table has for a task agrees with where the kernel has it. -/
structure Agrees (P : Platform w σ) (seccomp : Bool) (p : Place w) (r : Option (Traced w)) : Prop where
  flag : r.any (Traced.inCall seccomp) = p.seen
  notes : ∀ c regs t, p = .inside c → c.regs = some regs → c.seen = true → r = some t →
    t.Notes P regs
  full : ∀ c, p = .inside c → seccomp = false → c.seen = true

/-- A record that is found has the same call under way, and one that is added has none. -/
def KeepsCall (seccomp : Bool) (r r' : Option (Traced w)) : Prop :=
  (∀ t, r = some t → ∃ t', r' = some t' ∧ t'.inCall seccomp = t.inCall seccomp ∧
    t'.sysno = t.sysno ∧ t'.args = t.args) ∧
  (r = none → ∀ t', r' = some t' → t'.inCall seccomp = false)

namespace KeepsCall

variable {r r' r'' : Option (Traced w)}

theorem refl (r : Option (Traced w)) : KeepsCall seccomp r r :=
  ⟨fun t h => ⟨t, h, rfl, rfl, rfl⟩, fun h t' h' => by rw [h] at h'; cases h'⟩

theorem trans (h : KeepsCall seccomp r r') (h' : KeepsCall seccomp r' r'') :
    KeepsCall seccomp r r'' := by
  refine ⟨fun t ht => ?_, fun hr t'' ht'' => ?_⟩
  · obtain ⟨t', ht', hc, hn, ha⟩ := h.1 t ht
    obtain ⟨t'', ht'', hc', hn', ha'⟩ := h'.1 t' ht'
    exact ⟨t'', ht'', hc'.trans hc, hn'.trans hn, ha'.trans ha⟩
  · cases hr' : r' with
    | none => exact h'.2 hr' t'' ht''
    | some t' =>
      obtain ⟨u, hu, hc, -⟩ := h'.1 t' hr'
      cases hu.symm.trans ht''
      rw [hc]
      exact h.2 hr t' hr'

theorem added {t : Traced w} (h : t.inCall seccomp = false) : KeepsCall seccomp none (some t) :=
  ⟨fun _ h => (Option.some_ne_none _ h.symm).elim, fun _ t' h' => by cases h'; exact h⟩

/-- The record of a task changed, but for its call. -/
theorem put (h : traceeFind tab t.pid = some u) (hc : t.inCall seccomp = u.inCall seccomp)
    (hn : t.sysno = u.sysno) (ha : t.args = u.args) (q : Nat) :
    KeepsCall seccomp (traceeFind tab q) (traceeFind (traceePut tab t) q) := by
  rw [traceeFind_put]
  by_cases hq : q = t.pid
  · subst hq
    rw [if_pos rfl, h]
    exact ⟨fun _ hu => by cases hu; exact ⟨t, rfl, hc, hn, ha⟩, fun hu => by cases hu⟩
  · rw [if_neg hq]
    exact refl _

theorem append (h : traceeFind tab t.pid = none) (hc : t.inCall seccomp = false) (q : Nat) :
    KeepsCall seccomp (traceeFind tab q) (traceeFind (tab ++ [t]) q) := by
  have happ : traceeFind (tab ++ [t]) q =
      (traceeFind tab q).or (if t.pid = q then some t else none) := Table.find_append t
  rw [happ]
  by_cases hq : t.pid = q
  · subst hq
    rw [h, if_pos rfl]
    exact added hc
  · rw [if_neg hq, Option.or_none]
    exact refl _

end KeepsCall

theorem Agrees.keep {p : Place w} {r r' : Option (Traced w)} (h : Agrees P seccomp p r)
    (hk : KeepsCall seccomp r r') : Agrees P seccomp p r' := by
  refine ⟨?_, fun c regs t' hp hr hs ht' => ?_, h.full⟩
  · rw [← h.flag]
    cases hr : r with
    | none =>
      cases hr' : r' with
      | none => rfl
      | some t' => exact hk.2 hr t' hr'
    | some t =>
      obtain ⟨t', ht', hc, -⟩ := hk.1 t hr
      rw [ht']
      exact hc
  · cases hr' : r with
    | none =>
      have hf := h.flag
      rw [hr', hp] at hf
      exact absurd (hf.trans hs) Bool.false_ne_true
    | some t =>
      obtain ⟨u, hu, -, hn, ha⟩ := hk.1 t hr'
      cases hu.symm.trans ht'
      obtain ⟨hn', ha'⟩ := h.notes c regs t hp hr hs hr'
      exact ⟨hn.trans hn', ha.trans ha'⟩

theorem inCall_new (ctx : Ctx) (pid : Nat) (parent : Option (Traced w)) :
    (traceeNew ctx pid parent).inCall seccomp = false := by
  cases parent <;> cases seccomp <;> rfl

theorem traceeNew_pid (ctx : Ctx) (pid : Nat) (parent : Option (Traced w)) :
    (traceeNew ctx pid parent).pid = pid := by
  cases parent <;> rfl

theorem findOrAdd_keepsCall (e : Engine w) (pid q : Nat) :
    KeepsCall seccomp (traceeFind e.tab q) (traceeFind (findOrAdd e pid).1.tab q) := by
  unfold findOrAdd
  split
  · exact .refl _
  · rename_i h
    exact .append h (inCall_new _ _ _) q

/-! ## What the event loop does at a stop -/

/-- A stop that is no syscall stop. -/
theorem handleStop_keepsCall (hs : ¬stop.isSyscall) (W : World w σ)
    (ht : traceeFind e.tab t.pid = some t) (q : Nat) :
    KeepsCall seccomp (traceeFind e.tab q) (traceeFind (handleStop P seccomp e W t stop).1.tab q) := by
  by_cases hf : stop.isFork
  · unfold handleStop
    rw [if_neg fun h => hs (.inl h), if_neg fun h => hs (.inr h), if_pos hf.2]
    split
    · rename_i c hc
      have hfind : traceeFind e.tab (traceeInherit c t).pid = some c := (traceeFind_pid hc).symm ▸ hc
      exact .put hfind rfl rfl rfl q
    · rename_i hc
      exact .append hc (inCall_new _ _ _) q
  · have hother : (handleStop P seccomp e W t stop).1.tab = e.tab ∨
        (handleStop P seccomp e W t stop).1.tab = traceePut e.tab { t with fresh := false } :=
      handleStop_other hs hf e W t
    obtain h | h := hother
    · rw [h]
      exact .refl _
    · rw [h]
      exact .put (t := { t with fresh := false }) (u := t) ht rfl rfl rfl q

theorem onEntry_notes (s : St w σ) :
    (onEntry P s).t.sysno = (s.regs P.arch.sysno).toInt ∧
    (onEntry P s).t.args = fun i => s.regs (P.arch.regArg (i.val + 1)) := by
  have ht := (onEntry_frame (P := P) s).t
  have hn := congrArg Tracee.sysno ht
  have ha := congrArg Tracee.args ht
  exact ⟨hn, ha⟩

theorem withRegs_notes {u : Traced w} (hu : u.toTracee = (withRegs (onEntry P) e W t.toTracee).1)
    {regs : Regs w} (hr : W.regs t.pid = some regs) : u.Notes P regs := by
  have hs : u.toTracee = (onEntry P (stopState e W t.toTracee regs)).t := by
    rw [hu, withRegs, hr]
  obtain ⟨hn, ha⟩ := onEntry_notes (P := P) (stopState e W t.toTracee regs)
  rw [← hs] at hn ha
  exact ⟨hn, ha⟩

/-- The stop at the entry of a call. -/
def entryStop (seccomp : Bool) : Stop := if seccomp then seccompStop else syscallStop

/-- The entry of a call is handled. -/
theorem handleStop_enters (e : Engine w) (W : World w σ) (h : t.inCall seccomp = false) :
    ∃ u : Traced w, u.pid = t.pid ∧ u.inCall seccomp = true ∧
      u.toTracee = (withRegs (onEntry P) e W t.toTracee).1 ∧
      (handleStop P seccomp e W t (entryStop seccomp)).1.tab = traceePut e.tab u := by
  cases seccomp with
  | false =>
    have hin : t.inSyscall = false := h
    unfold handleStop
    rw [if_pos (show (entryStop false).sig = SIGTRAP ||| 0x80 from rfl),
      if_pos (show (!false) = true from rfl), if_neg (by simp [hin])]
    exact ⟨_, withRegs_pid onEntry_pid e W t.toTracee, rfl, rfl, rfl⟩
  | true =>
    unfold handleStop
    rw [if_neg (show (entryStop true).sig ≠ SIGTRAP ||| 0x80 by decide),
      if_pos (show (entryStop true).event = PTRACE_EVENT_SECCOMP from rfl)]
    exact ⟨_, withRegs_pid onEntry_pid e W t.toTracee, rfl, rfl, rfl⟩

/-- The exit of a call is handled, and none is under way then. -/
theorem handleStop_leaves (e : Engine w) (W : World w σ) (h : t.inCall seccomp = true) :
    (∃ u : Traced w, u.pid = t.pid ∧ u.inCall seccomp = false ∧
      u.toTracee = (withRegs (onExit P) e W t.toTracee).1 ∧
      (handleStop P seccomp e W t syscallStop).1.tab = traceePut e.tab u) ∧
    (handleStop P seccomp e W t syscallStop).2.1 = (withRegs (onExit P) e W t.toTracee).2.2 := by
  unfold handleStop
  rw [if_pos (show syscallStop.sig = SIGTRAP ||| 0x80 from rfl)]
  cases seccomp with
  | false =>
    have hin : t.inSyscall = true := h
    rw [if_pos (show (!false) = true from rfl), if_pos hin]
    exact ⟨⟨_, withRegs_pid onExit_pid e W t.toTracee, rfl, rfl, rfl⟩, rfl⟩
  | true =>
    have hin : t.awaitingExit = true := h
    rw [if_neg (by simp), if_pos hin]
    exact ⟨⟨_, withRegs_pid onExit_pid e W t.toTracee, rfl, rfl, rfl⟩, rfl⟩

/-! ## The invariant -/

/-- The table agrees with the kernel, and a task that runs is stepped under full tracing and within
a call that emuroot was stopped at. -/
structure TasksInv (P : Platform w σ) (seccomp : Bool) (s : Tasks w σ) : Prop where
  nodup : (s.e.tab.map (·.pid)).Nodup
  agrees : ∀ pid, Agrees P seccomp (s.place pid) (traceeFind s.e.tab pid)
  stepped : ∀ pid, s.place pid ≠ .absent → s.place pid ≠ .new →
    s.stepped pid = (!seccomp || (s.place pid).seen)

theorem resumesToSyscall_eq (t : Traced w) :
    resumesToSyscall seccomp t = (!seccomp || t.inCall seccomp) := by
  cases seccomp <;> rfl

theorem inCall_of_find {r : Option (Traced w)} {p : Place w} (h : Agrees P seccomp p r)
    (hr : r = some t) : t.inCall seccomp = p.seen := by
  rw [← h.flag, hr]
  rfl

/-- A place without a call, for a record that has none. -/
theorem Agrees.idle {p : Place w} {r : Option (Traced w)} (hp : ∀ c, p ≠ .inside c)
    (h : r.any (Traced.inCall seccomp) = false) : Agrees P seccomp p r := by
  refine ⟨?_, fun c _ _ hc => (hp c hc).elim, fun c hc => (hp c hc).elim⟩
  rw [h]
  cases p with
  | inside c => exact (hp c rfl).elim
  | absent | new | user => rfl

theorem Agrees.awake {p : Place w} {r : Option (Traced w)} (h : Agrees P seccomp p r) :
    Agrees P seccomp p.awake r := by
  cases p with
  | new => exact .idle (fun _ => nofun) h.flag
  | absent | user | inside c => exact h

/-- A task is resumed the way its record says. -/
theorem Tasks.wait_stepped {s : Tasks w σ} {st : WaitStatus}
    (h : traceeFind (s.wait P seccomp pid st).e.tab pid = some t) :
    (s.wait P seccomp pid st).stepped pid = (!seccomp || t.inCall seccomp) := by
  show Function.update s.stepped pid _ pid = _
  have hr : traceeFind (waitStep P seccomp s.e s.W pid st).1.tab pid = some t := h
  rw [Function.update_self, hr, Option.any_some, resumesToSyscall_eq]

namespace TasksInv

variable {s s' : Tasks w σ}

theorem start (ctx : Ctx) (rootPid : Nat) (W : World w σ) :
    TasksInv P seccomp (.start seccomp ctx rootPid W) where
  nodup := by simp [Tasks.start, engineStart]
  agrees pid := by
    have hp : ∀ c, (Tasks.start seccomp ctx rootPid W).place pid ≠ .inside c := by
      intro c
      unfold Tasks.start
      dsimp only
      split <;> intro h <;> cases h
    refine .idle hp ?_
    cases hf : traceeFind (Tasks.start seccomp ctx rootPid W).e.tab pid with
    | none => rfl
    | some t =>
      have hm := Table.mem_of_find hf
      simp only [Tasks.start, engineStart, List.mem_singleton] at hm
      subst hm
      have hnew : (traceeNew ctx rootPid none : Traced w).inCall seccomp = false := inCall_new _ _ _
      exact hnew
  stepped pid ha hn := by
    unfold Tasks.start at ha ⊢
    dsimp only at ha ⊢
    split at ha
    · rename_i hp
      rw [if_pos hp]
      simp [hp, Place.seen]
    · exact absurd rfl ha

/-- The record that handles the next stop. -/
theorem record_agrees (h : TasksInv P seccomp s) (pid : Nat) :
    Agrees P seccomp (s.place pid) (some (s.record pid)) := by
  have hk := (h.agrees pid).keep (findOrAdd_keepsCall s.e pid pid)
  rwa [findOrAdd_find] at hk

theorem record_inCall (h : TasksInv P seccomp s) (pid : Nat) :
    (s.record pid).inCall seccomp = (s.place pid).seen := inCall_of_find (h.record_agrees pid) rfl

/-- One task moves, and the others keep their calls. -/
theorem moved (h : TasksInv P seccomp s) {p : Place w} (hn : (s'.e.tab.map (·.pid)).Nodup)
    (hplace : s'.place = s.place) (hstep : ∀ q, q ≠ pid → s'.stepped q = s.stepped q)
    (hk : ∀ q, q ≠ pid → KeepsCall seccomp (traceeFind s.e.tab q) (traceeFind s'.e.tab q))
    (ha : Agrees P seccomp p (traceeFind s'.e.tab pid))
    (hs : p ≠ .absent → p ≠ .new → s'.stepped pid = (!seccomp || p.seen)) :
    TasksInv P seccomp (s'.move pid p) := by
  refine ⟨hn, fun q => ?_, fun q => ?_⟩
  · by_cases hq : q = pid
    · subst hq
      simpa [Tasks.move] using ha
    · simpa [Tasks.move, Function.update_of_ne hq, hplace] using (h.agrees q).keep (hk q hq)
  · by_cases hq : q = pid
    · subst hq
      simpa [Tasks.move] using hs
    · simpa [Tasks.move, Function.update_of_ne hq, hplace, hstep q hq] using h.stepped q

/-- A status that is handled by changing the record of the task only. -/
theorem wait_put (h : TasksInv P seccomp s) {p : Place w} (hu : u.pid = pid)
    (he : (handleStop P seccomp (findOrAdd s.e pid).1 s.W (s.record pid) stop).1.tab =
      traceePut (findOrAdd s.e pid).1.tab u)
    (ha : Agrees P seccomp p (some u)) :
    TasksInv P seccomp ((s.wait P seccomp pid (.stopped stop)).move pid p) := by
  have htab : (s.wait P seccomp pid (.stopped stop)).e.tab =
      traceePut (findOrAdd s.e pid).1.tab u := he
  have hfind : traceeFind (s.wait P seccomp pid (.stopped stop)).e.tab pid = some u := by
    rw [htab, traceeFind_put, if_pos hu.symm, findOrAdd_find]
    rfl
  refine h.moved ?_ rfl (fun q hq => Function.update_of_ne hq _ _) (fun q hq => ?_) ?_ fun _ _ => ?_
  · rw [htab]
    exact nodup_put (findOrAdd_nodup h.nodup pid) u
  · rw [htab, traceeFind_put, if_neg fun hqu => hq (hqu.trans hu)]
    exact findOrAdd_keepsCall s.e pid q
  · rwa [hfind]
  · rw [Tasks.wait_stepped hfind, inCall_of_find ha rfl]

theorem record_pid (s : Tasks w σ) (pid : Nat) : (s.record pid).pid = pid :=
  findOrAdd_pid s.e pid

/-- The stop at the entry of a call. -/
theorem entry (h : TasksInv P seccomp s) (hp : (s.place pid).seen = false) {regs : Option (Regs w)}
    (hr : regs = s.W.regs pid) :
    TasksInv P seccomp
      ((s.wait P seccomp pid (.stopped (entryStop seccomp))).move pid (.inside ⟨true, regs⟩)) := by
  have hin : (s.record pid).inCall seccomp = false := (h.record_inCall pid).trans hp
  obtain ⟨u, hu, hc, hut, he⟩ := handleStop_enters (P := P) (findOrAdd s.e pid).1 s.W hin
  refine h.wait_put (hu.trans (record_pid s pid)) he ⟨hc, fun c rg t hpl hrg _ ht => ?_, ?_⟩
  · cases hpl
    cases ht
    apply withRegs_notes hut
    rw [record_pid, ← hr]
    exact hrg
  · rintro c ⟨⟩ _
    rfl

/-- The exit of a call that emuroot was stopped at. -/
theorem exit (h : TasksInv P seccomp s) (hp : (s.place pid).seen = true) :
    TasksInv P seccomp ((s.wait P seccomp pid (.stopped syscallStop)).move pid .user) := by
  have hin : (s.record pid).inCall seccomp = true := (h.record_inCall pid).trans hp
  obtain ⟨⟨u, hu, hc, -, he⟩, -⟩ := handleStop_leaves (P := P) (findOrAdd s.e pid).1 s.W hin
  exact h.wait_put (hu.trans (record_pid s pid)) he (.idle (fun _ => nofun) hc)

/-- A stop that is no syscall stop. -/
theorem other (h : TasksInv P seccomp s) (hs : ¬stop.isSyscall) :
    TasksInv P seccomp (taskStep P seccomp s (.reports pid stop)) := by
  have hn := findOrAdd_nodup h.nodup pid
  have hfind : traceeFind (findOrAdd s.e pid).1.tab (s.record pid).pid = some (s.record pid) := by
    rw [record_pid]
    exact findOrAdd_find s.e pid
  have hk : ∀ q, KeepsCall seccomp (traceeFind s.e.tab q)
      (traceeFind (s.wait P seccomp pid (.stopped stop)).e.tab q) := fun q =>
    (findOrAdd_keepsCall s.e pid q).trans (handleStop_keepsCall hs s.W hfind q)
  have ha := ((h.agrees pid).keep (hk pid)).awake
  refine h.moved (handleStop_nodup hn s.W _ stop) rfl (fun q hq => Function.update_of_ne hq _ _)
    (fun q _ => hk q) ha fun _ _ => ?_
  have hkeep : KeepsCall seccomp (traceeFind (findOrAdd s.e pid).1.tab pid)
      (traceeFind (s.wait P seccomp pid (.stopped stop)).e.tab pid) :=
    handleStop_keepsCall hs s.W hfind pid
  obtain ⟨t', hw, -⟩ := hkeep.1 _ (findOrAdd_find s.e pid)
  rw [Tasks.wait_stepped hw, inCall_of_find ha hw]

/-- A task that has ended has no record. -/
theorem ends (h : TasksInv P seccomp s) {st : WaitStatus}
    (he : (s.wait P seccomp pid st).e.tab = traceeRemove (findOrAdd s.e pid).1.tab pid) :
    TasksInv P seccomp ((s.wait P seccomp pid st).move pid .absent) := by
  have hn := findOrAdd_nodup h.nodup pid
  have hfind : ∀ q, traceeFind (s.wait P seccomp pid st).e.tab q =
      if q = pid then none else traceeFind (findOrAdd s.e pid).1.tab q := by
    intro q
    rw [he]
    exact Table.find_remove hn pid q
  refine h.moved ?_ rfl (fun q hq => Function.update_of_ne hq _ _) (fun q hq => ?_) ?_
    fun hp => (hp rfl).elim
  · rw [he]
    exact Table.nodup_remove hn pid
  · rw [hfind, if_neg hq]
    exact findOrAdd_keepsCall s.e pid q
  · rw [hfind, if_pos rfl]
    exact .idle (fun _ => nofun) rfl

theorem stepped_of_user (h : TasksInv P seccomp s) (hp : s.place pid = .user) :
    s.stepped pid = !seccomp := by
  have hs := h.stepped pid (by rw [hp]; nofun) (by rw [hp]; nofun)
  rw [hs, hp]
  exact Bool.or_false _

theorem stepped_of_inside (h : TasksInv P seccomp s) {c : Entered w} (hp : s.place pid = .inside c) :
    s.stepped pid = c.seen := by
  have hs := h.stepped pid (by rw [hp]; nofun) (by rw [hp]; nofun)
  rw [hs, hp, Place.seen]
  cases hc : seccomp with
  | false => rw [(h.agrees pid).full c hp hc]; rfl
  | true => rfl

theorem enters (h : TasksInv P seccomp s) (hp : s.place pid = .user) (listed : Bool) :
    TasksInv P seccomp (taskStep P seccomp s (.enters pid listed)) := by
  have hseen : (s.place pid).seen = false := by rw [hp]; rfl
  have hstep := h.stepped_of_user hp
  cases seccomp with
  | false =>
    have he := h.entry hseen rfl
    simpa [taskStep, Tasks.atSyscall, hstep, entryStop] using he
  | true =>
    cases listed with
    | true =>
      have he := h.entry hseen rfl
      simpa [taskStep, Tasks.atSyscall, hstep, entryStop] using he
    | false =>
      -- the filter lets the call through: no stop, and no call in the record
      have ha : Agrees P true (.inside ⟨false, s.W.regs pid⟩) (traceeFind s.e.tab pid) := by
        refine ⟨(h.agrees pid).flag.trans hseen, ?_, fun _ _ hf => (Bool.noConfusion hf : False).elim⟩
        rintro c regs t ⟨⟩ _ hs
        exact (Bool.false_ne_true hs).elim
      have hm := h.moved (p := .inside ⟨false, s.W.regs pid⟩) h.nodup rfl (fun _ _ => rfl)
        (fun _ _ => .refl _) ha fun _ _ => hstep
      simpa [taskStep, Tasks.atSyscall, hstep] using hm

theorem leaves (h : TasksInv P seccomp s) {c : Entered w} (hp : s.place pid = .inside c) :
    TasksInv P seccomp (taskStep P seccomp s (.leaves pid)) := by
  have hstep := h.stepped_of_inside hp
  have hseen : (s.place pid).seen = c.seen := by rw [hp]; rfl
  cases hc : c.seen with
  | true =>
    have he := h.exit (hseen.trans hc)
    simpa [taskStep, Tasks.atSyscall, hstep, hc] using he
  | false =>
    have ha : Agrees P seccomp .user (traceeFind s.e.tab pid) :=
      .idle (fun _ => nofun) ((h.agrees pid).flag.trans (hseen.trans hc))
    have hm := h.moved (p := .user) h.nodup rfl (fun _ _ => rfl) (fun _ _ => .refl _) ha fun _ _ => by
      cases hcomp : seccomp with
      | false => exact absurd ((h.agrees pid).full c hp hcomp) (by simp [hc])
      | true => rw [hstep, hc]; rfl
    simpa [taskStep, Tasks.atSyscall, hstep, hc] using hm

theorem step (h : TasksInv P seccomp s) {ev : TaskEvent w σ} (ho : TaskOffered P s ev)
    (hx : KeepsStep s ev) : TasksInv P seccomp (taskStep P seccomp s ev) := by
  cases ev with
  | runs f => exact ⟨h.nodup, h.agrees, h.stepped⟩
  | clones parent child thread =>
    have ha : Agrees P seccomp .new (traceeFind s.e.tab child) := by
      have hag := h.agrees child
      rw [ho.2] at hag
      exact .idle (fun _ => nofun) hag.flag
    let u : Tasks w σ :=
      { s with
        leader := Function.update s.leader child (if thread then s.leader parent else child)
        stepped := Function.update s.stepped child false }
    have hm : TasksInv P seccomp (u.move child .new) :=
      h.moved h.nodup rfl (fun q hq => Function.update_of_ne hq _ _) (fun _ _ => .refl _) ha
        fun _ hn => (hn rfl).elim
    exact hm
  | enters pid listed => exact h.enters ho.1 listed
  | leaves pid =>
    obtain ⟨c, hc⟩ := ho
    exact h.leaves hc
  | reports pid stop => exact h.other ho.2
  | ends pid st =>
    obtain ⟨-, ⟨n, rfl⟩ | ⟨n, rfl⟩⟩ := ho
    · exact h.ends rfl
    · exact h.ends rfl
  | threadExecs tid => exact hx.elim

/-- What the next event's syscall stops are taken for. -/
theorem inStep (h : TasksInv P seccomp s) {ev : TaskEvent w σ} (ho : TaskOffered P s ev)
    (hx : KeepsStep s ev) : InStep P seccomp s ev := by
  cases ev with
  | enters pid listed =>
    refine ⟨(h.record_inCall pid).trans ?_, h.stepped_of_user ho.1⟩
    rw [ho.1]
    rfl
  | leaves pid =>
    intro c hp
    have hin := h.record_inCall pid
    rw [hp] at hin
    refine ⟨h.stepped_of_inside hp, hin, fun hc => ?_⟩
    obtain ⟨regs, hr⟩ := Option.isSome_iff_exists.1 (hx c hp hc)
    exact ⟨regs, hr, (h.record_agrees pid).notes c regs _ hp hr hc rfl⟩
  | runs | clones | reports | ends | threadExecs => trivial

end TasksInv

/-- **Every syscall stop is taken for what it is**, entry or exit, and an exit for that of the call
that was entered, in every run where only leaders exec and every call that is left was read at its
entry. -/
theorem stops_in_step {ctx : Ctx} {rootPid : Nat} {W : World w σ} {evs : List (TaskEvent w σ)}
    {s s' : Tasks w σ} {ev : TaskEvent w σ}
    (h : Run (TaskStep P seccomp) (.start seccomp ctx rootPid W) evs s)
    (hn : TaskStep P seccomp s ev s') : InStep P seccomp s ev := by
  have hinv : TasksInv P seccomp s :=
    h.inv (fun _ _ _ hi ⟨ho, hx, he⟩ => he ▸ hi.step ho hx) (.start ctx rootPid W)
  exact hinv.inStep hn.1 hn.2.1

/-! ## A thread that execs -/

/-- Every task is at `execve`. -/
def atExecve : World 64 Unit where
  regs := fun _ => some fun i => if i = 15 then 59 else 0
  space := fun _ => 1
  mem := fun _ => { byte := fun _ => none, writable := fun _ => false, errno := 0 }
  fs := ()

def threadedStart (seccomp : Bool) : Tasks 64 Unit := .start seccomp Ctx.create 1 atExecve

/-- Process 1 starts thread 2, which enters execve. -/
def threadEnters : List (TaskEvent 64 Unit) :=
  [.clones 1 2 true, .reports 2 initialStop, .enters 2 true]

/-- The session after some events. -/
def tasksAfter (seccomp : Bool) (evs : List (TaskEvent 64 Unit)) : Tasks 64 Unit :=
  evs.foldl (taskStep linuxPlatform seccomp) (threadedStart seccomp)

theorem threadEnters_run (seccomp : Bool) :
    Run (TaskStep linuxPlatform seccomp) (threadedStart seccomp) threadEnters
      (tasksAfter seccomp threadEnters) := by
  have hlisted : ∀ regs, atExecve.regs 2 = some regs → true = seccompTraces linuxPlatform regs := by
    rintro regs ⟨⟩
    decide +kernel
  refine .cons ⟨⟨nofun, rfl⟩, trivial, rfl⟩ (.cons ⟨⟨nofun, by decide⟩, trivial, rfl⟩
    (.cons ⟨⟨rfl, ?_⟩, trivial, rfl⟩ (.nil _)))
  cases seccomp <;> exact hlisted

theorem stops_in_step_thread :
    InStep linuxPlatform true (tasksAfter true threadEnters) (.leaves 2) := by
  have hkeeps : KeepsStep (tasksAfter true threadEnters) (.leaves 2) := by
    rintro c ⟨⟩ -
    rfl
  exact stops_in_step (threadEnters_run true) ⟨⟨_, rfl⟩, hkeeps, rfl⟩

/-- What the kernel may do, thread execs included. -/
def OfferedStep (P : Platform w σ) (seccomp : Bool) (s : Tasks w σ) (ev : TaskEvent w σ)
    (s' : Tasks w σ) : Prop := TaskOffered P s ev ∧ s' = taskStep P seccomp s ev

/-- Thread 2 execs: the exit is reported for process 1. -/
def threadExeced (seccomp : Bool) : Tasks 64 Unit :=
  taskStep linuxPlatform seccomp (tasksAfter seccomp threadEnters) (.threadExecs 2)

theorem threadExeced_run (seccomp : Bool) :
    Run (OfferedStep linuxPlatform seccomp) (threadedStart seccomp) (threadEnters ++ [.threadExecs 2])
      (threadExeced seccomp) := by
  have hexec : linuxPlatform.nr.is .execve 59 = true := by decide +kernel
  have hrun : Run (OfferedStep linuxPlatform seccomp) (threadedStart seccomp) threadEnters
      (tasksAfter seccomp threadEnters) := (threadEnters_run seccomp).mono fun _ _ _ h => ⟨h.1, h.2.2⟩
  cases seccomp <;>
    exact hrun.snoc ⟨⟨by decide, nofun, _, _, rfl, rfl, .inl hexec⟩, rfl⟩

/-- The exit of a thread's execve is taken for an entry, or not taken at all under the filter, and
the next entry of the process is taken for an exit. -/
theorem thread_exec_out_of_step :
    (Run (OfferedStep linuxPlatform false) (threadedStart false) (threadEnters ++ [.threadExecs 2])
        (threadExeced false) ∧
      TaskOffered linuxPlatform (threadExeced false) (.leaves 1) ∧
      ¬InStep linuxPlatform false (threadExeced false) (.leaves 1) ∧
      ¬InStep linuxPlatform false (taskStep linuxPlatform false (threadExeced false) (.leaves 1))
        (.enters 1 true)) ∧
    Run (OfferedStep linuxPlatform true) (threadedStart true) (threadEnters ++ [.threadExecs 2])
        (threadExeced true) ∧
      TaskOffered linuxPlatform (threadExeced true) (.leaves 1) ∧
      ¬InStep linuxPlatform true (threadExeced true) (.leaves 1) := by
  refine ⟨⟨threadExeced_run false, ⟨_, rfl⟩, fun h => ?_, fun h => ?_⟩,
    threadExeced_run true, ⟨_, rfl⟩, fun h => ?_⟩
  · exact absurd (h _ rfl).2.1 (by decide +kernel)
  · exact absurd h.1 (by decide +kernel)
  · exact absurd (h _ rfl).2.1 (by decide +kernel)

end Emuroot
