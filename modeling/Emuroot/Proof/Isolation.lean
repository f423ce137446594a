import Emuroot.Proof.EntryWrites
import Emuroot.Proof.ExitWrites
import Emuroot.Proof.Session

/-!
# What the tracer does to the guest

`round_isolated`: in a round of the event loop no process but the one that reports is touched. Of
that one's memory the entry of a call changes what lies below the stack, the exit the result buffers
of the call, and any other stop nothing; the host sees changes of permissions only.
-/

namespace Emuroot

variable {w : Nat} {σ : Type}

/-- Between `W` and `W'` the tracer has handled a stop of `t`. -/
structure Isolated (P : Platform w σ) (t : Tracee w) (W W' : World w σ) : Prop where
  /-- the other processes keep their registers, and the other address spaces their memory -/
  regs : ∀ pid, pid ≠ t.pid → W'.regs pid = W.regs pid
  space : W'.space = W.space
  mem : ∀ a, a ≠ W.space t.pid → W'.mem a = W.mem a
  /-- a process that is gone is left alone -/
  gone : W.regs t.pid = none → W' = W
  own : ∀ regs, W.regs t.pid = some regs → scratchMargin ≤ (regs P.arch.sp).toNat →
    Memory.SameBut (Slack (regs P.arch.sp)) (W.mem (W.space t.pid)).toMemory
      (W'.mem (W.space t.pid)).toMemory ∨
    Memory.SameBut (ExitRegion P t (regs (P.arch.regArg 1)) (P.actionOf t.sysno))
      (W.mem (W.space t.pid)).toMemory (W'.mem (W.space t.pid)).toMemory
  host : Chmods P W.fs W'.fs

variable {P : Platform w σ} {e : Engine w} {W : World w σ} {t : Tracee w}

theorem Isolated.refl (P : Platform w σ) (t : Tracee w) (W : World w σ) : Isolated P t W W where
  regs _ _ := rfl
  space := rfl
  mem _ _ := rfl
  gone _ := rfl
  own _ _ _ := .inl (.refl _ _)
  host := .refl

/-- A handler that keeps to itself. -/
theorem withRegs_isolated {f : St w σ → St w σ}
    (hown : ∀ s : St w σ, s.t = t → scratchMargin ≤ (s.regs P.arch.sp).toNat →
      Memory.SameBut (Slack (s.regs P.arch.sp)) s.mem.toMemory (f s).mem.toMemory ∨
      Memory.SameBut (ExitRegion P t (s.arg P 1) (P.actionOf t.sysno)) s.mem.toMemory
        (f s).mem.toMemory)
    (hhost : ∀ s : St w σ, Chmods P s.fs (f s).fs) : Isolated P t W (withRegs f e W t).2.2 := by
  unfold withRegs
  cases hr : W.regs t.pid with
  | none => exact .refl P t W
  | some regs =>
    refine ⟨fun pid hpid => ?_, rfl, fun a ha => ?_, fun h => ?_, fun regs' hregs hsp => ?_, ?_⟩
    · exact Function.update_of_ne hpid _ _
    · exact Function.update_of_ne ha _ _
    · cases hr.symm.trans h
    · obtain rfl := Option.some.inj (hr.symm.trans hregs)
      dsimp only
      rw [Function.update_self]
      exact hown (stopState e W t regs) rfl hsp
    · exact hhost (stopState e W t regs)

theorem onEntry_isolated : Isolated P t W (withRegs (onEntry P) e W t).2.2 :=
  withRegs_isolated (fun s _ hsp => .inl (onEntry_writes s hsp)) fun s => (onEntry_frame s).fs

theorem onExit_isolated : Isolated P t W (withRegs (onExit P) e W t).2.2 := by
  refine withRegs_isolated (fun s ht _ => .inr ?_) fun s => ?_
  · rw [← ht]
    exact (onExitAt_writes s (s.arg P 1)).mem
  · have hfs : (onExit P s).fs = s.fs := (onExitAt_writes s (s.arg P 1)).fs
    rw [hfs]
    exact .refl

/-- **The tracer touches only the process that reports.** In every round of the event loop, in every
state of the engine and of the guest: the registers of all other processes and all other address
spaces stay as they are. Of the memory of the reporting process only its slack below the stack or
the result buffers of its call are changed, and unless it stops at a system call, nothing at all. On
the host, permissions are changed and nothing else. -/
theorem round_isolated (P : Platform w σ) (seccomp : Bool) (e : Engine w) (W : World w σ) (pid : Nat)
    (st : WaitStatus) :
    (findOrAdd e pid).2.pid = pid ∧
      Isolated P (findOrAdd e pid).2.toTracee W (waitStep P seccomp e W pid st).2.1 ∧
      ((∀ stop, st = .stopped stop → ¬stop.isSyscall) → (waitStep P seccomp e W pid st).2.1 = W) := by
  refine ⟨findOrAdd_pid e pid, ?_⟩
  unfold waitStep
  dsimp only
  cases st with
  | exited | signaled | continued => exact ⟨.refl .., fun _ => rfl⟩
  | stopped stop =>
    obtain ⟨r, sig, hr, h⟩ := handleStop_handled (P := P) seccomp (findOrAdd e pid).1 W
      (findOrAdd e pid).2 stop
    dsimp only
    rw [hr]
    cases h with
    | entry u hs => exact ⟨onEntry_isolated, fun hquiet => absurd hs (hquiet stop rfl)⟩
    | exit u hs => exact ⟨onExit_isolated, fun hquiet => absurd hs (hquiet stop rfl)⟩
    | inherits | adds | marks | leaves => exact ⟨.refl .., fun _ => rfl⟩

end Emuroot
