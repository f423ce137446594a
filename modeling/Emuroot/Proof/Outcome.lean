import Emuroot.Model.Run
import Emuroot.Proof.Session

/-!
# What is seen of the end of a run

`RunHost.cause` is why a run ends: the first thing that its waits give and that ends it. On the way
there the event loop takes steps of `LoopStep`. **`status_told`**: whoever runs the program sees the
status of the command, or is told why there is none, whatever else the tracer waits for.
-/

namespace Emuroot

open WaitWord

variable {w : Nat} {σ : Type} {P : Platform w σ}

/-- Why a run ends: the command has called `_exit` or died, the tracer was told to stop, or a call of
its own has failed. -/
inductive RunCause
  | exits (status : Nat)
  | dies (sig : Signal)
  | told (sig : StopSignal)
  | fails

namespace RunCause

/-- The status that stands for it, with one for a failure. -/
def status (failure : Nat) : RunCause → Nat
  | exits status => status % 256
  | dies sig => 128 + sig.num
  | told sig => 128 + sig.num
  | fails => failure

/-- What `emuroot_run` returns. -/
def rc : RunCause → Int
  | fails => EMUROOT_ERR_SYSTEM
  | c => c.status 0

end RunCause

/-- The end of the command, if it is one. -/
def endOf : Change → Option RunCause
  | .exits status => some (.exits status)
  | .dies sig _ => some (.dies sig)
  | _ => none

/-- Why the loop ends here, if it does. -/
def Waited.cause (rootPid : Nat) (r : Waited w σ) : Option RunCause :=
  match r.stopSignal, r.got with
  | some sig, _ => some (.told sig)
  | none, .interrupted => none
  | none, .fails => some .fails
  | none, .reports pid ch _ => if pid = rootPid then endOf ch else none

/-- Without tracing. -/
def envonlyCause (envonly : Option Change) : RunCause := (envonly.bind endOf).getD .fails

/-- Why the run ends, if it does. -/
def RunHost.cause (H : RunHost w σ) : Option RunCause :=
  match probeBackend H.forced H.probed, H.tracing with
  | .envonly, _ => some (envonlyCause H.envonly)
  | .ptrace, .cannotStart => some .fails
  | .ptrace, .cannotFollow => some (envonlyCause H.envonly)
  | .ptrace, .loops waits => waits.findSome? (Waited.cause H.rootPid)

variable {seccomp : Bool} {rootPid : Nat} {e e' : Engine w} {r : Waited w σ} {rc : Int}
  {c : RunCause}

/-! ## The loop -/

theorem rc_ofWord (ch : Change) (msg : Nat) :
    (WaitStatus.ofWord ch.word msg).rc = (endOf ch).map RunCause.rc := by
  rw [WaitStatus.ofWord, decode_word]
  cases ch <;> rfl

theorem ptraceRound_leaves (P : Platform w σ) (seccomp : Bool) (e : Engine w)
    (h : r.cause rootPid = some c) :
    ∃ e', ptraceRound P seccomp rootPid e r = .inr (e', c.rc) ∧ e'.ctx = e.ctx := by
  obtain ⟨W, stopSignal, got⟩ := r
  cases stopSignal with
  | some sig =>
    cases h
    exact ⟨e, rfl, rfl⟩
  | none =>
    cases got with
    | interrupted => cases h
    | fails =>
      cases h
      exact ⟨e, rfl, rfl⟩
    | reports pid ch msg =>
      unfold Waited.cause at h
      dsimp only at h
      split at h
      · rename_i hpid
        refine ⟨(findOrAdd e pid).1, ?_, ?_⟩
        · unfold ptraceRound
          dsimp only
          rw [if_pos hpid, rc_ofWord, h]
          rfl
        · unfold findOrAdd
          split <;> rfl
      · cases h

/-- The loop goes on with the engine after a step, or with the one before. -/
theorem ptraceRound_stays (P : Platform w σ) (seccomp : Bool) (e : Engine w)
    (h : r.cause rootPid = none) :
    ∃ e' as, ptraceRound P seccomp rootPid e r = .inl e' ∧
      Run (LoopStep P seccomp fun _ => True) e as e' := by
  obtain ⟨W, stopSignal, got⟩ := r
  cases stopSignal with
  | some sig => cases h
  | none =>
    cases got with
    | interrupted => exact ⟨e, [], rfl, .nil e⟩
    | fails => cases h
    | reports pid ch msg =>
      have hrc : (if pid = rootPid then (WaitStatus.ofWord ch.word msg).rc else none) = none := by
        unfold Waited.cause at h
        dsimp only at h
        split
        · rename_i hpid
          rw [if_pos hpid] at h
          rw [rc_ofWord, h]
          rfl
        · rfl
      refine ⟨_, [⟨W, pid, .ofWord ch.word msg⟩], ?_, .cons ⟨trivial, rfl⟩ (.nil _)⟩
      unfold ptraceRound
      dsimp only
      rw [hrc]

/-- **The loop ends for the first reason there is.** -/
theorem ptraceLoop_cause (P : Platform w σ) (seccomp : Bool) (rootPid : Nat)
    (waits : List (Waited w σ)) (e : Engine w) :
    (ptraceLoop P seccomp rootPid e waits).map Prod.snd =
      (waits.findSome? (Waited.cause rootPid)).map RunCause.rc := by
  induction waits generalizing e with
  | nil => rfl
  | cons r rs ih =>
    unfold ptraceLoop
    cases hc : r.cause rootPid with
    | some c =>
      obtain ⟨e', hr, -⟩ := ptraceRound_leaves P seccomp e hc
      rw [List.findSome?_cons_of_isSome (by rw [hc]; rfl), hc, hr]
      rfl
    | none =>
      obtain ⟨e', -, hr, -⟩ := ptraceRound_stays P seccomp e hc
      rw [List.findSome?_cons_of_isNone (by rw [hc]; rfl), hr]
      exact ih e'

/-- The loop comes to its end by steps. -/
theorem ptraceLoop_run {waits : List (Waited w σ)}
    (h : ptraceLoop P seccomp rootPid e waits = some (e', rc)) :
    ∃ as e1, Run (LoopStep P seccomp fun _ => True) e as e1 ∧ e'.ctx = e1.ctx := by
  induction waits generalizing e with
  | nil => cases h
  | cons r rs ih =>
    unfold ptraceLoop at h
    cases hc : r.cause rootPid with
    | some c =>
      obtain ⟨e1, hr, hctx⟩ := ptraceRound_leaves P seccomp e hc
      rw [hr] at h
      cases h
      exact ⟨[], e, .nil e, hctx⟩
    | none =>
      obtain ⟨e1, as, hr, hrun⟩ := ptraceRound_stays P seccomp e hc
      rw [hr] at h
      obtain ⟨bs, e2, hrun2, hctx⟩ := ih h
      exact ⟨as ++ bs, e2, hrun.append hrun2, hctx⟩

/-! ## The run -/

theorem RunCause.rc_supported (c : RunCause) : c.rc ≠ EMUROOT_ERR_UNSUPPORTED := by
  cases c with
  | fails => decide
  | exits status => exact ne_of_gt (Int.lt_of_lt_of_le (by decide) (Int.natCast_nonneg _))
  | dies sig => exact ne_of_gt (Int.lt_of_lt_of_le (by decide) (Int.natCast_nonneg _))
  | told sig => exact ne_of_gt (Int.lt_of_lt_of_le (by decide) (Int.natCast_nonneg _))

theorem envonlyRc_eq (envonly : Option Change) : envonlyRc envonly = (envonlyCause envonly).rc := by
  cases envonly with
  | none => rfl
  | some ch =>
    show (WaitStatus.ofWord ch.word 0).rc.getD EMUROOT_ERR_SYSTEM = ((endOf ch).getD .fails).rc
    rw [rc_ofWord]
    cases endOf ch <;> rfl

/-- The result of a run. -/
theorem emurootRun_rc (H : RunHost w σ) (cfg : Config) (idsFile : Option CStr) :
    (emurootRun P H cfg idsFile).map RunEnd.rc = H.cause.map RunCause.rc := by
  unfold emurootRun RunHost.cause
  cases probeBackend H.forced H.probed with
  | envonly => exact congrArg some (envonlyRc_eq H.envonly)
  | ptrace =>
    unfold emurootRunPtrace
    cases H.tracing with
    | cannotStart => rfl
    | cannotFollow => exact congrArg some (envonlyRc_eq H.envonly)
    | loops waits =>
      have hloop := ptraceLoop_cause P H.seccomp H.rootPid waits (H.start P cfg idsFile)
      dsimp only
      cases hl : ptraceLoop P H.seccomp H.rootPid (H.start P cfg idsFile) waits with
      | none =>
        rw [hl] at hloop
        exact hloop
      | some x =>
        obtain ⟨e, rc⟩ := x
        rw [hl] at hloop
        obtain ⟨c, hc, hrc⟩ := Option.map_eq_some_iff.1 hloop.symm
        obtain rfl : c.rc = rc := hrc
        rw [hc]
        show some (RunEnd.rc (if c.rc ≠ EMUROOT_ERR_UNSUPPORTED then _ else _)) = some c.rc
        rw [if_pos c.rc_supported]

theorem RunCause.status_lt (c : RunCause) {failure : Nat} (h : failure < 256) :
    c.status failure < 256 := by
  cases c with
  | exits status => exact Nat.mod_lt _ (by decide)
  | dies sig =>
    have := sig.lt
    show 128 + sig.num < 256
    omega
  | told sig =>
    have hsig : sig.num < 128 := by cases sig <;> decide
    show 128 + sig.num < 256
    omega
  | fails => exact h

/-- A status that is passed on as it is, and a failure as `failure`. -/
theorem RunCause.passed_on (c : RunCause) (failure : Nat) :
    (if c.rc < 0 then failure else c.rc.toNat) = c.status failure := by
  cases c with
  | fails => rfl
  | exits | dies | told => exact if_neg (Int.not_lt.2 (Int.natCast_nonneg _))

theorem mainEnds_rc (c : RunCause) : mainEnds c.rc = .exits (c.status 1) := by
  rw [mainEnds, c.passed_on]

theorem supervisorEnds_rc (c : RunCause) : supervisorEnds c.rc = .exits (c.status 127) := by
  rw [supervisorEnds, ← c.passed_on 127, and_ff]
  split
  · rfl
  · rename_i hneg
    have hlt : c.status 127 < 256 := c.status_lt (by decide)
    rw [← c.passed_on, if_neg hneg] at hlt
    rw [Nat.mod_eq_of_lt hlt]

/-- `emuroot_wait` is not ended by a signal. -/
theorem emurootWait_interrupted (n : Nat) (ws : List (Except Bool Change)) :
    emurootWait (List.replicate n (.error true) ++ ws) = emurootWait ws := by
  induction n with
  | zero => rfl
  | succ n ih => exact ih

/-- **The status that is seen is the command's**: `main` ends with it, and `emuroot_wait` returns it,
however often it is interrupted. -/
theorem status_told (P : Platform w σ) (H : RunHost w σ) (cfg : Config) (idsFile : Option CStr)
    (interrupted : Nat) :
    ((emurootRun P H cfg idsFile).map fun r => decode (mainEnds r.rc).word) =
        H.cause.map (fun c => .exited (c.status 1)) ∧
      ((emurootRun P H cfg idsFile).bind fun r =>
          emurootWait (List.replicate interrupted (.error true) ++ [.ok (supervisorEnds r.rc)])) =
        H.cause.map fun c => (c.status 127 : Int) := by
  have hrun := emurootRun_rc (P := P) H cfg idsFile
  have hmain : ∀ c : RunCause, decode (mainEnds c.rc).word = .exited (c.status 1) := by
    intro c
    rw [decode_word, mainEnds_rc, Change.meaning, Nat.mod_eq_of_lt (c.status_lt (by decide))]
  have hwait : ∀ c : RunCause, emurootWait [.ok (supervisorEnds c.rc)] = some (c.status 127 : Int) := by
    intro c
    show some ((WaitStatus.ofWord (supervisorEnds c.rc).word 0).rc.getD (-1)) = _
    rw [rc_ofWord, supervisorEnds_rc]
    show some ((c.status 127 % 256 : Nat) : Int) = _
    rw [Nat.mod_eq_of_lt (c.status_lt (by decide))]
  cases hr : emurootRun P H cfg idsFile with
  | none =>
    rw [hr] at hrun
    rw [Option.map_eq_none_iff.1 hrun.symm]
    exact ⟨rfl, rfl⟩
  | some r =>
    rw [hr] at hrun
    obtain ⟨c, hc, hrc⟩ := Option.map_eq_some_iff.1 hrun.symm
    rw [hc]
    refine ⟨?_, ?_⟩
    · rw [Option.map_some, ← hrc, hmain]
      rfl
    · rw [Option.bind_some, emurootWait_interrupted, ← hrc, hwait]
      rfl

/-- A system on which no child can be traced. -/
def untracedHost : RunHost 64 Unit where
  fs := ()
  calloc := fun _ _ => true
  writable := true
  forced := false
  probed := none
  rootPid := 7
  seccomp := true
  tracing := .cannotStart
  envonly := some (.exits 0)

example : untracedHost.cause = some (.exits 0) := rfl

end Emuroot
