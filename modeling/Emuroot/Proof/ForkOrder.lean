import Emuroot.Lib.Runs
import Emuroot.Model.Linux
import Emuroot.Model.Ptrace
import Emuroot.Proof.EntryFrame
import Emuroot.Proof.ExitFrame

/-!
# Forks, in every order of the stops

`familyStep` runs the event loop over processes that fork, with the stops reported in any order, and
keeps beside it the identity that each process is due: its parent's at the fork, changed by its own
calls. `handled_due`: every syscall stop is handled with the identity due, in the runs where a child
makes no syscall stop and no fork of its own before its parent's fork event is reported.
-/

namespace Emuroot

variable {w : Nat} {σ : Type}

/-- What `tracee_inherit` copies. -/
structure Identity where
  creds : Creds
  root : CStr
  exe : CStr

def Tracee.ident (t : Tracee w) : Identity := ⟨t.creds, t.root, t.exe⟩

/-- The record with another identity. -/
def Traced.become (t : Traced w) (i : Identity) : Traced w :=
  { t with creds := i.creds, root := i.root, exe := i.exe }

/-- What the kernel knows of a process: whether it is there, and whether the fork event of its
parent has been reported. The event is never reported for an orphan, whose parent died at it. -/
inductive Phase
  | gone | known | awaits (parent : Nat) | orphan
  deriving DecidableEq

/-- The session, the processes, and the identity that each is due. -/
structure Family (w : Nat) (σ : Type) where
  e : Engine w
  W : World w σ
  phase : Nat → Phase
  due : Nat → Identity

inductive FamilyEvent (w : Nat) (σ : Type)
  | runs (f : World w σ → World w σ)
  | forks (parent child : Nat)
  | reports (pid : Nat) (st : WaitStatus)

/-- The stop at which a handler runs. -/
def Stop.isSyscall (stop : Stop) : Prop :=
  stop.sig = SIGTRAP ||| 0x80 ∨ stop.event = PTRACE_EVENT_SECCOMP

/-- The stop of a parent at its fork, vfork or clone. -/
def Stop.isFork (stop : Stop) : Prop :=
  ¬stop.isSyscall ∧ (stop.event = PTRACE_EVENT_FORK ∨ stop.event = PTRACE_EVENT_VFORK ∨
    stop.event = PTRACE_EVENT_CLONE)

instance : DecidablePred Stop.isSyscall := fun _ => inferInstanceAs (Decidable (_ ∨ _))
instance : DecidablePred Stop.isFork := fun _ => inferInstanceAs (Decidable (_ ∧ _))

/-- The phases once `pid` has ended. -/
def endPhase (phase : Nat → Phase) (pid q : Nat) : Phase :=
  if q = pid then .gone else if phase q = .awaits pid then .orphan else phase q

section
variable (P : Platform w σ) (seccomp : Bool)

/-- What a handler that works on the identity due to `pid` makes of it. -/
def dueAfter (s : Family w σ) (pid : Nat) (stop : Stop) : Identity :=
  let (e, t) := findOrAdd s.e pid
  let t := t.become (s.due pid)
  let r := handleStop P seccomp { e with tab := traceePut e.tab t } s.W t stop
  match traceeFind r.1.tab pid with
  | some t => t.ident
  | none => s.due pid

def familyStep (s : Family w σ) : FamilyEvent w σ → Family w σ
  | .runs f => { s with W := f s.W }
  | .forks parent child =>
    { s with
      phase := Function.update s.phase child (.awaits parent)
      due := Function.update s.due child (s.due parent) }
  | .reports pid st =>
    let r := waitStep P seccomp s.e s.W pid st
    let s' := { s with e := r.1, W := r.2.1 }
    match st with
    | .exited _ | .signaled _ => { s' with phase := endPhase s.phase pid }
    | .continued => s'
    | .stopped stop =>
      if stop.isSyscall then
        { s' with due := Function.update s.due pid (dueAfter P seccomp s pid stop) }
      else if stop.isFork then { s' with phase := Function.update s.phase stop.msg .known }
      else s'

/-- What can happen next. A parent is halted at its fork until the event is reported. -/
def FamilyOffered (s : Family w σ) : FamilyEvent w σ → Prop
  | .runs _ => True
  | .forks parent child =>
    s.phase parent ≠ .gone ∧ s.phase child = .gone ∧ ∀ c, s.phase c ≠ .awaits parent
  | .reports pid st =>
    s.phase pid ≠ .gone ∧
      match st with
      | .exited _ | .signaled _ => True
      | .continued => ∀ c, s.phase c ≠ .awaits pid
      | .stopped stop =>
        if stop.isFork then s.phase stop.msg = .awaits pid else ∀ c, s.phase c ≠ .awaits pid

/-- A syscall stop or a fork event comes from a process whose parent's event has been reported. -/
def InOrder (s : Family w σ) : FamilyEvent w σ → Prop
  | .reports pid (.stopped stop) => stop.isSyscall ∨ stop.isFork → s.phase pid = .known
  | _ => True

/-- The session at its start. -/
def Family.start (ctx : Ctx) (rootPid : Nat) (W : World w σ) : Family w σ where
  e := engineStart ctx rootPid
  W := W
  phase := fun pid => if pid = rootPid then .known else .gone
  due := fun _ => (traceeNew ctx rootPid none : Traced w).ident

def OrderedStep (s : Family w σ) (ev : FamilyEvent w σ) (s' : Family w σ) : Prop :=
  FamilyOffered s ev ∧ InOrder s ev ∧ s' = familyStep P seccomp s ev

/-- The handler that runs at the next syscall stop of the process finds the identity due. -/
def HandledDue (s : Family w σ) (pid : Nat) : Prop := (findOrAdd s.e pid).2.ident = s.due pid

end

variable {P : Platform w σ} {seccomp : Bool} {tab : List (Traced w)} {e : Engine w} {t : Traced w}
  {pid : Nat} {stop : Stop}

/-! ## Identities in the table -/

/-- The identity that the table has for a process. -/
def identOf (tab : List (Traced w)) (pid : Nat) : Option Identity :=
  (traceeFind tab pid).map fun t => t.ident

theorem identOf_of_find (h : traceeFind tab pid = some t) : identOf tab pid = some t.ident := by
  rw [identOf, h]
  rfl

theorem traceeFind_put (tab : List (Traced w)) (t : Traced w) (pid : Nat) :
    traceeFind (traceePut tab t) pid =
      if pid = t.pid then (traceeFind tab pid).map fun _ => t else traceeFind tab pid :=
  Table.find_put t

theorem identOf_put_ne (tab : List (Traced w)) {t : Traced w} (h : pid ≠ t.pid) :
    identOf (traceePut tab t) pid = identOf tab pid := by
  rw [identOf, traceeFind_put, if_neg h, identOf]

/-- Changing a record without changing its identity. -/
theorem identOf_put_self {u : Traced w} (h : traceeFind tab t.pid = some u) (hi : t.ident = u.ident)
    (pid : Nat) : identOf (traceePut tab t) pid = identOf tab pid := by
  by_cases hp : pid = t.pid
  · subst hp
    rw [identOf, traceeFind_put, if_pos rfl, h, identOf_of_find h, ← hi]
    rfl
  · exact identOf_put_ne tab hp

theorem identOf_append (h : traceeFind tab t.pid = none) (pid : Nat) :
    identOf (tab ++ [t]) pid = if pid = t.pid then some t.ident else identOf tab pid := by
  have happ : traceeFind (tab ++ [t]) pid =
      (traceeFind tab pid).or (if t.pid = pid then some t else none) := Table.find_append t
  rw [identOf, happ]
  by_cases hp : pid = t.pid
  · subst hp
    rw [h, if_pos rfl, if_pos rfl]
    rfl
  · rw [if_neg (Ne.symm hp), if_neg hp, Option.or_none, identOf]

theorem identOf_remove (hn : (tab.map (·.pid)).Nodup) {pid q : Nat} (h : q ≠ pid) :
    identOf (traceeRemove tab pid) q = identOf tab q := by
  have hf : traceeFind (traceeRemove tab pid) q = if q = pid then none else traceeFind tab q :=
    Table.find_remove hn pid q
  rw [identOf, hf, if_neg h, identOf]

/-! ## What the event loop does to the table -/

theorem nodup_put (hn : (tab.map (·.pid)).Nodup) (t : Traced w) :
    ((traceePut tab t).map (·.pid)).Nodup := by
  show ((Table.put _ tab t).map _).Nodup
  rwa [Table.map_key_put]

theorem findOrAdd_find (e : Engine w) (pid : Nat) :
    traceeFind (findOrAdd e pid).1.tab pid = some (findOrAdd e pid).2 := by
  unfold findOrAdd
  split
  · assumption
  · rename_i h
    show Table.find _ (e.tab ++ [_]) pid = _
    have hnone : Table.find (fun t : Traced w => t.pid) e.tab pid = none := h
    rw [Table.find_append, hnone]
    exact if_pos rfl

theorem findOrAdd_pid (e : Engine w) (pid : Nat) : (findOrAdd e pid).2.pid = pid :=
  traceeFind_pid (findOrAdd_find e pid)

theorem findOrAdd_self (e : Engine w) (pid : Nat) :
    traceeFind (findOrAdd e pid).1.tab (findOrAdd e pid).2.pid = some (findOrAdd e pid).2 := by
  rw [findOrAdd_pid]
  exact findOrAdd_find e pid

theorem findOrAdd_nodup (hn : (e.tab.map (·.pid)).Nodup) (pid : Nat) :
    ((findOrAdd e pid).1.tab.map (·.pid)).Nodup := by
  unfold findOrAdd
  split
  · exact hn
  · rename_i h
    exact Table.nodup_append hn h

theorem findOrAdd_of_find (h : traceeFind e.tab pid = some t) : findOrAdd e pid = (e, t) := by
  rw [findOrAdd, h]

/-- A record that is there keeps its identity. -/
theorem findOrAdd_identOf {q : Nat} {i : Identity} (h : identOf e.tab q = some i) (pid : Nat) :
    identOf (findOrAdd e pid).1.tab q = some i := by
  unfold findOrAdd
  split
  · exact h
  · rename_i hf
    rw [identOf_append hf, if_neg, h]
    rintro rfl
    rw [identOf, show traceeFind e.tab _ = none from hf] at h
    cases h

theorem onEntry_pid (s : St w σ) : (onEntry P s).t.pid = s.t.pid := by
  have h := congrArg Tracee.pid (onEntry_frame (P := P) s).t
  exact h

theorem withRegs_pid {f : St w σ → St w σ} (hf : ∀ s, (f s).t.pid = s.t.pid) (e : Engine w)
    (W : World w σ) (t : Tracee w) : (withRegs f e W t).1.pid = t.pid := by
  unfold withRegs
  split
  · rfl
  · exact hf _

/-- At a syscall stop at most the process's own record changes. -/
theorem handleStop_syscall (hs : stop.isSyscall) (e : Engine w) (W : World w σ) (t : Traced w) :
    (handleStop P seccomp e W t stop).1.tab = e.tab ∨
    ∃ u : Traced w, u.pid = t.pid ∧ (handleStop P seccomp e W t stop).1.tab = traceePut e.tab u := by
  unfold handleStop
  by_cases h : stop.sig = SIGTRAP ||| 0x80
  · rw [if_pos h]
    split
    · split
      · exact .inr ⟨_, withRegs_pid onExit_pid e W t.toTracee, rfl⟩
      · exact .inr ⟨_, withRegs_pid onEntry_pid e W t.toTracee, rfl⟩
    · split
      · exact .inr ⟨_, withRegs_pid onExit_pid e W t.toTracee, rfl⟩
      · exact .inl rfl
  · rw [if_neg h, if_pos (hs.resolve_left h)]
    exact .inr ⟨_, withRegs_pid onEntry_pid e W t.toTracee, rfl⟩

/-- At the fork event the child's record takes the parent's identity. -/
theorem handleStop_fork (hs : stop.isFork) (e : Engine w) (W : World w σ) (t : Traced w) (q : Nat) :
    identOf (handleStop P seccomp e W t stop).1.tab q =
      if q = stop.msg then some t.ident else identOf e.tab q := by
  obtain ⟨hn, hf⟩ := hs
  unfold handleStop
  rw [if_neg fun h => hn (.inl h), if_neg fun h => hn (.inr h), if_pos hf]
  split
  · rename_i c hc
    have hpid : c.pid = stop.msg := traceeFind_pid hc
    by_cases hq : q = stop.msg
    · rw [if_pos hq]
      refine identOf_of_find (t := traceeInherit c t) ?_
      rw [traceeFind_put, if_pos (show q = (traceeInherit c t).pid from hq.trans hpid.symm), hq, hc]
      rfl
    · rw [if_neg hq]
      exact identOf_put_ne e.tab fun h => hq (h.trans hpid)
  · rename_i hc
    exact identOf_append hc q

theorem handleStop_other (hs : ¬stop.isSyscall) (hf : ¬stop.isFork) (e : Engine w) (W : World w σ)
    (t : Traced w) :
    (handleStop P seccomp e W t stop).1.tab = e.tab ∨
    (handleStop P seccomp e W t stop).1.tab = traceePut e.tab { t with fresh := false } := by
  unfold handleStop
  rw [if_neg fun h => hs (.inl h), if_neg fun h => hs (.inr h), if_neg fun h => hf ⟨hs, h⟩]
  split
  · exact .inr rfl
  · split <;> exact .inl rfl

theorem handleStop_nodup (hn : (e.tab.map (·.pid)).Nodup) (W : World w σ) (t : Traced w)
    (stop : Stop) : ((handleStop P seccomp e W t stop).1.tab.map (·.pid)).Nodup := by
  by_cases hs : stop.isSyscall
  · obtain h | ⟨u, -, h⟩ := handleStop_syscall hs e W t
    · rwa [h]
    · rw [h]
      exact nodup_put hn u
  by_cases hf : stop.isFork
  · unfold handleStop
    rw [if_neg fun h => hs (.inl h), if_neg fun h => hs (.inr h), if_pos hf.2]
    split
    · exact nodup_put hn _
    · rename_i hc
      exact Table.nodup_append hn hc
  · obtain h | h := handleStop_other hs hf e W t
    · rwa [h]
    · rw [h]
      exact nodup_put hn _

/-! ## The invariant -/

/-- The processes whose parent's event has been reported have the identity due, and the others are
due what their parent is. -/
structure FamilyInv (s : Family w σ) : Prop where
  nodup : (s.e.tab.map (·.pid)).Nodup
  known : ∀ pid, s.phase pid = .known → identOf s.e.tab pid = some (s.due pid)
  awaits : ∀ c p, s.phase c = .awaits p → s.due c = s.due p ∧ s.phase p ≠ .gone

theorem Traced.become_self {i : Identity} (h : t.ident = i) : t.become i = t := by
  subst h
  rfl

namespace FamilyInv

variable {s : Family w σ}

theorem start (ctx : Ctx) (rootPid : Nat) (W : World w σ) : FamilyInv (.start ctx rootPid W) where
  nodup := by simp [Family.start, engineStart]
  known pid h := by
    have hp : pid = rootPid := by
      by_contra hne
      simp [Family.start, hne] at h
    subst hp
    unfold identOf Family.start engineStart traceeFind Table.find
    rw [List.find?_cons_of_pos (by simp [traceeNew])]
    rfl
  awaits c p h := by
    unfold Family.start at h
    dsimp only at h
    split at h <;> cases h

theorem find (h : FamilyInv s) (hk : s.phase pid = .known) :
    ∃ t, traceeFind s.e.tab pid = some t ∧ t.ident = s.due pid := by
  have hi := h.known pid hk
  exact Option.map_eq_some_iff.1 hi

/-- The record of a known process is there with the identity due. -/
theorem handledDue (h : FamilyInv s) (hk : s.phase pid = .known) : HandledDue s pid := by
  obtain ⟨t, hf, hi⟩ := h.find hk
  rw [HandledDue, findOrAdd_of_find hf, hi]

theorem forks (h : FamilyInv s) {p c : Nat} (ho : FamilyOffered s (.forks p c)) :
    FamilyInv (familyStep P seccomp s (.forks p c)) := by
  obtain ⟨hp, hc, -⟩ := ho
  have hne : p ≠ c := by
    rintro rfl
    exact hp hc
  refine ⟨h.nodup, fun q hq => ?_, fun c' p' ha => ?_⟩
  · simp only [familyStep] at hq ⊢
    by_cases hqc : q = c
    · subst hqc
      rw [Function.update_self] at hq
      cases hq
    · rw [Function.update_of_ne hqc] at hq ⊢
      exact h.known q hq
  · simp only [familyStep] at ha ⊢
    by_cases hcc : c' = c
    · subst hcc
      rw [Function.update_self] at ha
      cases ha
      rw [Function.update_self, Function.update_of_ne hne, Function.update_of_ne hne]
      exact ⟨rfl, hp⟩
    · rw [Function.update_of_ne hcc] at ha ⊢
      obtain ⟨hd, hg⟩ := h.awaits c' p' ha
      have hpc : p' ≠ c := by
        rintro rfl
        exact hg hc
      rw [Function.update_of_ne hpc, Function.update_of_ne hpc]
      exact ⟨hd, hg⟩

theorem ends (h : FamilyInv s) {st : WaitStatus}
    (hs : familyStep P seccomp s (.reports pid st) =
      { s with
        e := ⟨traceeRemove (findOrAdd s.e pid).1.tab pid, (findOrAdd s.e pid).1.ctx⟩
        phase := endPhase s.phase pid }) :
    FamilyInv (familyStep P seccomp s (.reports pid st)) := by
  have hn := findOrAdd_nodup h.nodup pid
  rw [hs]
  refine ⟨Table.nodup_remove hn pid, fun q hq => ?_, fun c p ha => ?_⟩
  · simp only [endPhase] at hq
    split at hq
    · cases hq
    split at hq
    · cases hq
    · rename_i hqp _
      rw [identOf_remove hn hqp]
      exact findOrAdd_identOf (h.known q hq) pid
  · simp only [endPhase] at ha ⊢
    split at ha
    · cases ha
    split at ha
    · cases ha
    · rename_i hcp hcw
      obtain ⟨hd, hg⟩ := h.awaits c p ha
      have hp : p ≠ pid := by
        rintro rfl
        exact hcw ha
      refine ⟨hd, ?_⟩
      rw [if_neg hp]
      split
      · exact Phase.noConfusion
      · exact hg

/-- A report that leaves phases and dues, and the identities of the records. -/
theorem still (h : FamilyInv s) (pid : Nat) {e : Engine w} {W : World w σ}
    (hn : (e.tab.map (·.pid)).Nodup)
    (hi : ∀ q, identOf e.tab q = identOf (findOrAdd s.e pid).1.tab q) :
    FamilyInv { s with e := e, W := W } :=
  ⟨hn, fun q hq => (hi q).trans (findOrAdd_identOf (h.known q hq) pid), h.awaits⟩

theorem familyStep_syscall (hs : stop.isSyscall) (hf : traceeFind s.e.tab pid = some t) :
    familyStep P seccomp s (.reports pid (.stopped stop)) =
      { s with
        e := (handleStop P seccomp s.e s.W t stop).1
        W := (handleStop P seccomp s.e s.W t stop).2.1
        due := Function.update s.due pid (dueAfter P seccomp s pid stop) } := by
  simp only [familyStep, if_pos hs, waitStep, findOrAdd_of_find hf]

theorem familyStep_fork (hs : stop.isFork) (hf : traceeFind s.e.tab pid = some t) :
    familyStep P seccomp s (.reports pid (.stopped stop)) =
      { s with
        e := (handleStop P seccomp s.e s.W t stop).1
        W := (handleStop P seccomp s.e s.W t stop).2.1
        phase := Function.update s.phase stop.msg .known } := by
  simp only [familyStep, if_neg hs.1, if_pos hs, waitStep, findOrAdd_of_find hf]

theorem syscall (h : FamilyInv s) (hs : stop.isSyscall) (hk : s.phase pid = .known)
    (ho : ∀ c, s.phase c ≠ .awaits pid) :
    FamilyInv (familyStep P seccomp s (.reports pid (.stopped stop))) := by
  obtain ⟨t, hf, hi⟩ := h.find hk
  have hpid := traceeFind_pid hf
  have hput : traceePut s.e.tab t = s.e.tab := Table.put_self h.nodup (hpid.symm ▸ hf)
  have hrec : ∃ u, traceeFind (handleStop P seccomp s.e s.W t stop).1.tab pid = some u := by
    obtain he | ⟨u, hu, he⟩ := handleStop_syscall (P := P) hs s.e s.W t
    · exact ⟨t, he ▸ hf⟩
    · refine ⟨u, ?_⟩
      rw [he, traceeFind_put, if_pos (hpid.symm.trans hu.symm), hf]
      rfl
  obtain ⟨u, hu⟩ := hrec
  have hdue : dueAfter P seccomp s pid stop = u.ident := by
    unfold dueAfter
    rw [findOrAdd_of_find hf]
    dsimp only
    rw [Traced.become_self hi, hput, hu]
  rw [familyStep_syscall hs hf, hdue]
  refine ⟨handleStop_nodup h.nodup s.W t stop, fun q hq => ?_, fun c p ha => ?_⟩
  · dsimp only at hq ⊢
    by_cases hqp : q = pid
    · subst hqp
      rw [Function.update_self]
      exact identOf_of_find hu
    · rw [Function.update_of_ne hqp]
      obtain he | ⟨v, hv, he⟩ := handleStop_syscall (P := P) hs s.e s.W t
      · rw [he]
        exact h.known q hq
      · rw [he, identOf_put_ne _ fun hqv => hqp (hqv.trans (hv.trans hpid))]
        exact h.known q hq
  · have hc : c ≠ pid := by
      rintro rfl
      rw [hk] at ha
      cases ha
    have hp : p ≠ pid := by
      rintro rfl
      exact ho c ha
    dsimp only
    rw [Function.update_of_ne hc, Function.update_of_ne hp]
    exact h.awaits c p ha

theorem fork (h : FamilyInv s) (hs : stop.isFork) (hk : s.phase pid = .known)
    (ho : s.phase stop.msg = .awaits pid) :
    FamilyInv (familyStep P seccomp s (.reports pid (.stopped stop))) := by
  obtain ⟨t, hf, hi⟩ := h.find hk
  rw [familyStep_fork hs hf]
  refine ⟨handleStop_nodup h.nodup s.W t stop, fun q hq => ?_, fun c p ha => ?_⟩
  · dsimp only at hq ⊢
    rw [handleStop_fork hs]
    by_cases hqm : q = stop.msg
    · subst hqm
      rw [if_pos rfl, hi, (h.awaits _ _ ho).1]
    · rw [Function.update_of_ne hqm] at hq
      rw [if_neg hqm]
      exact h.known q hq
  · dsimp only at ha ⊢
    by_cases hcm : c = stop.msg
    · subst hcm
      rw [Function.update_self] at ha
      cases ha
    · rw [Function.update_of_ne hcm] at ha
      obtain ⟨hd, hg⟩ := h.awaits c p ha
      refine ⟨hd, ?_⟩
      by_cases hpm : p = stop.msg
      · rw [hpm, Function.update_self]
        exact Phase.noConfusion
      · rwa [Function.update_of_ne hpm]

theorem other (h : FamilyInv s) (hs : ¬stop.isSyscall) (hf : ¬stop.isFork) :
    FamilyInv (familyStep P seccomp s (.reports pid (.stopped stop))) := by
  have hn := findOrAdd_nodup h.nodup pid
  have hfind := findOrAdd_find s.e pid
  unfold familyStep
  dsimp only
  rw [if_neg hs, if_neg hf, waitStep]
  refine h.still pid (handleStop_nodup hn s.W _ stop) fun q => ?_
  obtain he | he := handleStop_other (P := P) hs hf (findOrAdd s.e pid).1 s.W (findOrAdd s.e pid).2
  · exact congrArg (identOf · q) he
  · dsimp only
    rw [he]
    have hu : traceeFind (findOrAdd s.e pid).1.tab (findOrAdd s.e pid).2.pid =
        some (findOrAdd s.e pid).2 := by rw [traceeFind_pid hfind, hfind]
    exact identOf_put_self (t := { (findOrAdd s.e pid).2 with fresh := false }) hu rfl q

theorem step (h : FamilyInv s) {ev : FamilyEvent w σ} (ho : FamilyOffered s ev)
    (hx : InOrder s ev) : FamilyInv (familyStep P seccomp s ev) := by
  cases ev with
  | runs f => exact ⟨h.nodup, h.known, h.awaits⟩
  | forks p c => exact h.forks ho
  | reports pid st =>
    cases st with
    | exited | signaled => exact h.ends rfl
    | continued => exact h.still pid (findOrAdd_nodup h.nodup pid) fun _ => rfl
    | stopped stop =>
      obtain ⟨-, ho⟩ := ho
      dsimp only at ho
      by_cases hs : stop.isSyscall
      · have hnf : ¬stop.isFork := fun hf => hf.1 hs
        rw [if_neg hnf] at ho
        exact h.syscall hs (hx (.inl hs)) ho
      by_cases hf : stop.isFork
      · rw [if_pos hf] at ho
        exact h.fork hf (hx (.inr hf)) ho
      · exact h.other hs hf

end FamilyInv

/-- **Every syscall stop is handled with the identity due** to the process, whatever the order of
the stops, if a child's own syscall stops and forks come after its parent's fork event. -/
theorem handled_due {ctx : Ctx} {rootPid : Nat} {W : World w σ} {evs : List (FamilyEvent w σ)}
    {s s' : Family w σ} (h : Run (OrderedStep P seccomp) (.start ctx rootPid W) evs s)
    (hs : stop.isSyscall) (hn : OrderedStep P seccomp s (.reports pid (.stopped stop)) s') :
    HandledDue s pid := by
  have hinv : FamilyInv s :=
    h.inv (fun _ _ _ hi ⟨ho, hx, he⟩ => he ▸ hi.step ho hx) (.start ctx rootPid W)
  exact hinv.handledDue (hn.2.1 (.inl hs))

/-! ## A child that is early -/

def rootUserCtx : Ctx := { Ctx.create with hasFakeIds := true }

/-- Every process is at `setuid(1000)`. -/
def atSetuid : World 64 Unit where
  regs := fun _ => some fun i => if i = 15 then 105 else if i = 14 then 1000 else 0
  space := fun pid => pid
  mem := fun _ => { byte := fun _ => none, writable := fun _ => false, errno := 0 }
  fs := ()

def setuidStart : Family 64 Unit := .start rootUserCtx 1 atSetuid

/-- The fork event of process 1 for process 2, and a child's initial stop. -/
def forkStop : Stop := ⟨SIGTRAP, PTRACE_EVENT_FORK, 2⟩
def initialStop : Stop := ⟨SIGSTOP, 0, 0⟩

def setuidStep : Family 64 Unit → FamilyEvent 64 Unit → Family 64 Unit := familyStep linuxPlatform false

/-- The parent drops its user, then forks. -/
def droppedAndForked : Family 64 Unit :=
  [.reports 1 (.stopped syscallStop), .reports 1 (.stopped syscallStop), .forks 1 2].foldl setuidStep
    setuidStart

theorem setuidStart_phase (c p : Nat) : setuidStart.phase c ≠ .awaits p := by
  show (if c = 1 then Phase.known else Phase.gone) ≠ .awaits p
  split <;> exact Phase.noConfusion

theorem droppedAndForked_phase (c : Nat) : droppedAndForked.phase c ≠ .awaits 2 := by
  show Function.update setuidStart.phase 2 (.awaits 1) c ≠ .awaits 2
  by_cases hc : c = 2
  · subst hc
    rw [Function.update_self]
    decide
  · rw [Function.update_of_ne hc]
    exact setuidStart_phase c 2

theorem droppedAndForked_run :
    Run (OrderedStep linuxPlatform false) setuidStart
      [.reports 1 (.stopped syscallStop), .reports 1 (.stopped syscallStop), .forks 1 2]
      droppedAndForked :=
  .cons ⟨⟨by decide, fun c => setuidStart_phase c 1⟩, fun _ => rfl, rfl⟩ <|
    .cons ⟨⟨by decide, fun c => setuidStart_phase c 1⟩, fun _ => rfl, rfl⟩ <|
    .cons ⟨⟨by decide, rfl, fun c => setuidStart_phase c 1⟩, trivial, rfl⟩ (.nil _)

/-- The parent's event is reported. -/
def forkReported : Family 64 Unit := setuidStep droppedAndForked (.reports 1 (.stopped forkStop))

theorem forkReported_phase (c : Nat) : forkReported.phase c ≠ .awaits 2 := by
  show Function.update droppedAndForked.phase 2 .known c ≠ .awaits 2
  by_cases hc : c = 2
  · subst hc
    rw [Function.update_self]
    decide
  · rw [Function.update_of_ne hc]
    exact droppedAndForked_phase c

theorem handled_due_child : HandledDue forkReported 2 := by
  have hfork : OrderedStep linuxPlatform false droppedAndForked (.reports 1 (.stopped forkStop))
      forkReported := ⟨⟨by decide, rfl⟩, fun _ => rfl, rfl⟩
  have hnext : OrderedStep linuxPlatform false forkReported (.reports 2 (.stopped syscallStop))
      (setuidStep forkReported (.reports 2 (.stopped syscallStop))) :=
    ⟨⟨by decide, forkReported_phase⟩, fun _ => rfl, rfl⟩
  exact handled_due (droppedAndForked_run.snoc hfork) (.inl rfl) hnext

/-- A child whose first call is reported before its parent's event is the root user again. -/
theorem early_child :
    FamilyOffered droppedAndForked (.reports 2 (.stopped initialStop)) ∧
    FamilyOffered (setuidStep droppedAndForked (.reports 2 (.stopped initialStop)))
      (.reports 2 (.stopped syscallStop)) ∧
    ¬HandledDue (setuidStep droppedAndForked (.reports 2 (.stopped initialStop))) 2 := by
  refine ⟨⟨by decide, droppedAndForked_phase⟩, ⟨by decide, droppedAndForked_phase⟩, fun h => ?_⟩
  have huid := congrArg (fun i : Identity => i.creds.uid.effective) h
  exact absurd huid (by decide +kernel)

end Emuroot
