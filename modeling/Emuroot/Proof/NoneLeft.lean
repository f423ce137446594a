import Emuroot.Proof.LiveTable

/-!
# No task is left behind

`heardOf` are the tasks that the tracer has heard of: those that have reported, and those in the
fork event of another. **`none_left`**: at the end of the loop, in whatever order the statuses have
come, every task that it has heard of and that still exists is killed.
-/

namespace Emuroot

variable {w : Nat} {σ : Type} {P : Platform w σ} {seccomp : Bool} {s s' : Tracing w σ}
  {heard : Nat → Bool} {pid : Nat}

/-- The tasks that the loop has heard of after an event. A task that is new is one that it has not
heard of, whatever there was under its id. -/
def hear (heard : Nat → Bool) : TracingEvent w σ → Nat → Bool
  | .clones _ child _ => Function.update heard child false
  | .reports pid (.stopped stop) =>
    let heard := Function.update heard pid true
    if stop.isFork then Function.update heard stop.msg true else heard
  | .reports pid _ => Function.update heard pid true
  | _ => heard

/-- The tasks that it has heard of, of a session that starts with the first. -/
def heardOf (rootPid : Nat) (evs : List (TracingEvent w σ)) : Nat → Bool :=
  evs.foldl hear fun pid => pid = rootPid

/-- What is heard of has a record while it exists. -/
structure Accounted (s : Tracing w σ) (heard : Nat → Bool) : Prop where
  nodup : (s.e.tab.map (·.pid)).Nodup
  known : ∀ pid, s.live pid = true → heard pid = true → recorded s.e.tab pid = true

namespace Accounted

theorem start (ctx : Ctx) (rootPid : Nat) (W : World w σ) :
    Accounted (.start ctx rootPid W) fun pid => pid = rootPid where
  nodup := (TableExact.start ctx rootPid W).nodup
  known pid hlive _ := by
    obtain rfl : pid = rootPid := of_decide_eq_true hlive
    exact mem_pids.1 List.mem_cons_self

/-- The tasks are some of those from before, their records stay, and those that are heard of now have
one. -/
theorem reported (h : Accounted s heard) {heard' : Nat → Bool} (hn : (s'.e.tab.map (·.pid)).Nodup)
    (hlive : ∀ q, s'.live q = true → s.live q = true)
    (hkeep : ∀ q, s'.live q = true → recorded s.e.tab q = true → recorded s'.e.tab q = true)
    (hnew : ∀ q, s'.live q = true → heard' q = true →
      heard q = true ∨ recorded s'.e.tab q = true) : Accounted s' heard' where
  nodup := hn
  known q hq hh := by
    rcases hnew q hq hh with hold | hrec
    · exact hkeep q hq (h.known q (hlive q hq) hold)
    · exact hrec

/-- Nothing is reported. -/
theorem quiet (h : Accounted s heard) (htab : s'.e.tab = s.e.tab)
    (hlive : ∀ q, s'.live q = true → s.live q = true) : Accounted s' heard :=
  ⟨htab ▸ h.nodup, fun q hq hh => htab ▸ h.known q (hlive q hq) hh⟩

theorem live_of_reaped {q : Nat} (h : Function.update s.live pid false q = true) :
    q ≠ pid ∧ s.live q = true := by
  rw [Function.update_apply] at h
  split at h
  · cases h
  · rename_i hne
    exact ⟨hne, h⟩

/-- A task other than the one that reports was heard of before. -/
theorem heard_before {q : Nat} (hne : q ≠ pid) (h : Function.update heard pid true q = true) :
    heard q = true := by rwa [Function.update_of_ne hne] at h

/-- The end of a task, with its record or without. -/
theorem ended (h : Accounted s heard) (hn : (s'.e.tab.map (·.pid)).Nodup)
    (hlive : s'.live = Function.update s.live pid false)
    (htab : ∀ q, q ≠ pid → recorded s.e.tab q = true → recorded s'.e.tab q = true) :
    Accounted s' (Function.update heard pid true) := by
  have hold : ∀ q, s'.live q = true → q ≠ pid ∧ s.live q = true := fun q hq =>
    live_of_reaped (hlive ▸ hq)
  exact h.reported hn (fun q hq => (hold q hq).2) (fun q hq => htab q (hold q hq).1)
    fun q hq hh => .inl (heard_before (hold q hq).1 hh)

theorem stopped (h : Accounted s heard) (stop : Stop) :
    Accounted (tracingStep P seccomp s (.reports pid (.stopped stop)))
      (hear heard (.reports pid (.stopped stop) : TracingEvent w σ)) := by
  have hn : ((handleStop P seccomp (findOrAdd s.e pid).1 s.W (findOrAdd s.e pid).2
      stop).1.tab.map (·.pid)).Nodup := handleStop_nodup (findOrAdd_nodup h.nodup pid) s.W _ stop
  have htab : ∀ q, recorded (handleStop P seccomp (findOrAdd s.e pid).1 s.W (findOrAdd s.e pid).2
      stop).1.tab q = true ↔ stop.isFork ∧ q = stop.msg ∨ q = pid ∨ recorded s.e.tab q = true := by
    intro q
    rw [recorded_handleStop, recorded_findOrAdd]
  have hnew : ∀ q, hear heard (.reports pid (.stopped stop) : TracingEvent w σ) q = true →
      heard q = true ∨ stop.isFork ∧ q = stop.msg ∨ q = pid := by
    intro q hq
    unfold hear at hq
    by_cases hpid : q = pid
    · exact .inr (.inr hpid)
    dsimp only at hq
    split at hq
    · rename_i hf
      by_cases hmsg : q = stop.msg
      · exact .inr (.inl ⟨hf, hmsg⟩)
      · exact .inl (heard_before hpid (heard_before hmsg hq))
    · exact .inl (heard_before hpid hq)
  unfold tracingStep
  dsimp only
  rw [if_neg fun hc => Bool.noConfusion hc.1]
  have hknown : ∀ s' : Tracing w σ, s'.live = s.live →
      s'.e.tab = (handleStop P seccomp (findOrAdd s.e pid).1 s.W (findOrAdd s.e pid).2 stop).1.tab →
      Accounted s' (hear heard (.reports pid (.stopped stop) : TracingEvent w σ)) := by
    intro s' hlive he
    refine h.reported (he ▸ hn) (fun q hq => hlive ▸ hq) (fun q _ hr => ?_) fun q _ hh => ?_
    · rw [he, htab]
      exact .inr (.inr hr)
    · rw [he, htab]
      rcases hnew q hh with hold | hf | hpid
      · exact .inl hold
      · exact .inr (.inl hf)
      · exact .inr (.inr (.inl hpid))
  split
  · exact hknown _ rfl rfl
  · exact hknown _ rfl rfl

/-- **Every step.** -/
theorem step (h : Accounted s heard) (ev : TracingEvent w σ) :
    Accounted (tracingStep P seccomp s ev) (hear heard ev) := by
  have hends : ∀ (st : WaitStatus), (∃ n, st = .exited n ∨ st = .signaled n) → ∀ pid,
      Accounted (tracingStep P seccomp s (.reports pid st)) (Function.update heard pid true) := by
    rintro st ⟨n, hst⟩ pid
    have hn := findOrAdd_nodup h.nodup pid
    by_cases hroot : pid = s.rootPid
    · have hkeep : ∀ q, q ≠ pid → recorded s.e.tab q = true →
          recorded (findOrAdd s.e pid).1.tab q = true := fun q _ hr =>
        (recorded_findOrAdd s.e pid q).2 (.inr hr)
      obtain rfl | rfl := hst
      all_goals
        rw [tracingStep, if_pos ⟨rfl, hroot⟩]
        exact h.ended hn rfl hkeep
    · have hkeep : ∀ q, q ≠ pid → recorded s.e.tab q = true →
          recorded (traceeRemove (findOrAdd s.e pid).1.tab pid) q = true := fun q hne hr =>
        (recorded_remove hn pid q).2 ⟨hne, (recorded_findOrAdd s.e pid q).2 (.inr hr)⟩
      obtain rfl | rfl := hst
      all_goals
        rw [tracingStep, if_neg fun hc => hroot hc.2]
        exact h.ended (Table.nodup_remove hn pid) rfl hkeep
  cases ev with
  | runs f => exact h.quiet rfl fun _ hq => hq
  | clones parent child thread =>
    refine ⟨h.nodup, fun q hq hh => ?_⟩
    have hh' : Function.update heard child false q = true := hh
    have hq' : Function.update s.live child true q = true := hq
    rw [Function.update_apply] at hh' hq'
    split at hh'
    · cases hh'
    · rename_i hne
      rw [if_neg hne] at hq'
      exact h.known q hq' hh'
  | reports pid st =>
    cases st with
    | exited n => exact hends _ ⟨n, .inl rfl⟩ pid
    | signaled n => exact hends _ ⟨n, .inr rfl⟩ pid
    | stopped stop => exact h.stopped stop
    | continued =>
      refine h.reported (findOrAdd_nodup h.nodup pid) (fun _ hq => hq) (fun q _ hr => ?_)
        fun q _ hh => ?_
      · exact (recorded_findOrAdd s.e pid q).2 (.inr hr)
      · by_cases hpid : q = pid
        · exact .inr ((recorded_findOrAdd s.e pid q).2 (.inl hpid))
        · exact .inl (heard_before hpid hh)
  | threadExecs tid => exact h.quiet rfl fun _ hq => (live_of_reaped hq).2
  | interrupted got =>
    cases got with
    | none => exact h.quiet rfl fun _ hq => hq
    | some x =>
      obtain ⟨pid, st⟩ := x
      show Accounted { (if st.isEnd then s.reap pid else s) with ended := true } heard
      split
      · exact h.quiet rfl fun _ hq => (live_of_reaped hq).2
      · exact h.quiet rfl fun _ hq => hq

theorem run {evs : List (TracingEvent w σ)} (hr : Run (TracingStep P seccomp) s evs s')
    (h : Accounted s heard) : Accounted s' (evs.foldl hear heard) := by
  induction hr generalizing heard with
  | nil => exact h
  | cons hs _ ih => exact ih (hs.2 ▸ h.step _)

end Accounted

/-- **No task is left behind**: over every order of clones, execs, statuses and signals to the tracer,
each task that exists and that the loop has heard of is among those that it kills at its end. -/
theorem none_left {ctx : Ctx} {rootPid : Nat} {W : World w σ} {evs : List (TracingEvent w σ)}
    (h : Run (TracingStep P seccomp) (.start ctx rootPid W) evs s) (hlive : s.live pid = true)
    (hheard : heardOf rootPid evs pid = true) : pid ∈ killed s :=
  mem_pids.2 (((Accounted.start ctx rootPid W).run h).known pid hlive hheard)

/-- Process 1 forks process 2 and the tracer is told to stop. -/
def forkedAndTold : List (TracingEvent 64 Unit) :=
  [.clones 1 2 false, .reports 1 (.stopped forkStop), .interrupted none]

theorem none_left_forked : 2 ∈ killed (tracingFrom forkedAndTold) :=
  have hrun : Run (TracingStep linuxPlatform true) (.start Ctx.create 1 atExecve) forkedAndTold
      (tracingFrom forkedAndTold) :=
    .cons ⟨⟨rfl, by decide⟩, rfl⟩ (.cons ⟨⟨rfl, rfl, 2, rfl, .inl rfl⟩, rfl⟩
      (.cons ⟨⟨rfl, nofun⟩, rfl⟩ (.nil _)))
  none_left hrun rfl rfl

end Emuroot
