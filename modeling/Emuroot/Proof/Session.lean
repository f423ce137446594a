import Emuroot.Lib.Runs
import Emuroot.Proof.ExitFrame
import Emuroot.Proof.ForkOrder

/-!
# The event loop as a whole

`Handled` says what a stop can come to, and `handleStop_handled` that it comes to nothing else.
`Kept.run` is the rule for what the handlers keep: a property of the context and one of the records
hold in every state of every run of the event loop, whatever the guest and the host have become
between the rounds.
-/

namespace Emuroot

variable {w : Nat} {σ : Type}

/-- What the tracer has after a stop: a handler has run, the child of a fork has its record, the
initial stop of a child is noted, or everything is as it was. -/
inductive Handled (P : Platform w σ) (e : Engine w) (W : World w σ) (t : Traced w) (stop : Stop) :
    Engine w × World w σ → Prop
  | entry (u : Traced w) : stop.isSyscall → u.toTracee = t.toTracee →
      Handled P e W t stop (commit e u (withRegs (onEntry P) e W t.toTracee))
  | exit (u : Traced w) : stop.isSyscall → u.toTracee = t.toTracee →
      Handled P e W t stop (commit e u (withRegs (onExit P) e W t.toTracee))
  | inherits (c : Traced w) : stop.isFork → traceeFind e.tab stop.msg = some c →
      Handled P e W t stop ({ e with tab := traceePut e.tab (traceeInherit c t) }, W)
  | adds : stop.isFork → traceeFind e.tab stop.msg = none →
      Handled P e W t stop ({ e with tab := e.tab ++ [traceeNew e.ctx stop.msg (some t)] }, W)
  | marks : ¬stop.isSyscall → ¬stop.isFork →
      Handled P e W t stop ({ e with tab := traceePut e.tab { t with fresh := false } }, W)
  | leaves : Handled P e W t stop (e, W)

/-- A round of the loop: the guest and the host as they are by then, and what `waitpid` reports. -/
structure StopRound (w : Nat) (σ : Type) where
  W : World w σ
  pid : Nat
  st : WaitStatus

section
variable (P : Platform w σ) (seccomp : Bool) (H : σ → Prop)

/-- The engine after a round on a host of the kind `H`. -/
def LoopStep (e : Engine w) (r : StopRound w σ) (e' : Engine w) : Prop :=
  H r.W.fs ∧ e' = (waitStep P seccomp e r.W r.pid r.st).1

/-- The context has a property, and every record one. -/
structure Engine.Meets (C : Ctx → Prop) (R : Tracee w → Prop) (e : Engine w) : Prop where
  ctx : C e.ctx
  tab : ∀ t ∈ e.tab, R t.toTracee

/-- Properties of the context and of the records that new records have and the handlers keep. -/
structure Kept (C : Ctx → Prop) (R : Tracee w → Prop) : Prop where
  new : ∀ ctx pid, C ctx → R (traceeNew (w := w) ctx pid none).toTracee
  inherit : ∀ c p : Traced w, R c.toTracee → R p.toTracee → R (traceeInherit c p).toTracee
  entry : ∀ s : St w σ, H s.fs → C s.ctx → R s.t → C (onEntry P s).ctx ∧ R (onEntry P s).t
  exit : ∀ s : St w σ, H s.fs → C s.ctx → R s.t → C (onExit P s).ctx ∧ R (onExit P s).t

end

variable {P : Platform w σ} {seccomp : Bool} {H : σ → Prop} {C : Ctx → Prop} {R : Tracee w → Prop}
  {e e' : Engine w} {W : World w σ} {t : Traced w} {stop : Stop}

/-- **What a stop comes to.** -/
theorem handleStop_handled (seccomp : Bool) (e : Engine w) (W : World w σ) (t : Traced w)
    (stop : Stop) :
    ∃ r sig, handleStop P seccomp e W t stop = (r.1, r.2, sig) ∧ Handled P e W t stop r := by
  unfold handleStop
  by_cases h : stop.sig = SIGTRAP ||| 0x80
  · rw [if_pos h]
    split
    · split
      · exact ⟨_, _, rfl, .exit { t with inSyscall := false } (.inl h) rfl⟩
      · exact ⟨_, _, rfl, .entry { t with inSyscall := true, lastEntry := _ } (.inl h) rfl⟩
    · split
      · exact ⟨_, _, rfl, .exit { t with awaitingExit := false } (.inl h) rfl⟩
      · exact ⟨_, _, rfl, .leaves⟩
  rw [if_neg h]
  by_cases hf : stop.event = PTRACE_EVENT_SECCOMP
  · rw [if_pos hf]
    exact ⟨_, _, rfl, .entry { t with awaitingExit := true } (.inr hf) rfl⟩
  rw [if_neg hf]
  have hn : ¬stop.isSyscall := fun hs => hs.elim h hf
  split
  · rename_i hfork
    split
    · rename_i c hc
      exact ⟨_, _, rfl, .inherits c ⟨hn, hfork⟩ hc⟩
    · rename_i hc
      exact ⟨_, _, rfl, .adds ⟨hn, hfork⟩ hc⟩
  · rename_i hfork
    split
    · exact ⟨_, _, rfl, .marks hn fun hs => hfork hs.2⟩
    · split <;> exact ⟨_, _, rfl, .leaves⟩

/-! ## What the handlers keep -/

namespace Engine.Meets

theorem put (he : e.Meets C R) {ctx : Ctx} (hctx : C ctx) {u : Traced w} (hu : R u.toTracee) :
    Engine.Meets C R { tab := traceePut e.tab u, ctx := ctx } where
  ctx := hctx
  tab v hv := by
    obtain ⟨x, hx, rfl⟩ := List.mem_map.1 hv
    dsimp only
    split
    · exact hu
    · exact he.tab x hx

theorem append (he : e.Meets C R) {u : Traced w} (hu : R u.toTracee) :
    Engine.Meets C R { e with tab := e.tab ++ [u] } where
  ctx := he.ctx
  tab v hv := by
    rcases List.mem_append.1 hv with hv | hv
    · exact he.tab v hv
    · rw [List.mem_singleton.1 hv]
      exact hu

theorem remove (he : e.Meets C R) (pid : Nat) :
    Engine.Meets C R { e with tab := traceeRemove e.tab pid } where
  ctx := he.ctx
  tab v hv := by
    refine he.tab v ?_
    obtain ⟨-, h⟩ | ⟨t, -, h⟩ := Table.remove_perm (·.pid) e.tab pid
    · exact h ▸ hv
    · exact h.mem_iff.2 (List.mem_cons_of_mem t hv)

end Engine.Meets

/-- A handler that keeps the properties keeps them of the engine. -/
theorem commit_meets (he : e.Meets C R) (ht : R t.toTracee) {f : St w σ → St w σ}
    (hf : ∀ s : St w σ, s.fs = W.fs → C s.ctx → R s.t → C (f s).ctx ∧ R (f s).t) (u : Traced w) :
    (commit e u (withRegs f e W t.toTracee)).1.Meets C R := by
  have h : C (withRegs f e W t.toTracee).2.1 ∧ R (withRegs f e W t.toTracee).1 := by
    unfold withRegs
    split
    · exact ⟨he.ctx, ht⟩
    · exact hf _ rfl he.ctx ht
  exact he.put h.1 h.2

namespace Kept

variable (hk : Kept P H C R)

include hk

theorem handleStop (hW : H W.fs) (he : e.Meets C R) (ht : R t.toTracee) (stop : Stop) :
    (handleStop P seccomp e W t stop).1.Meets C R := by
  obtain ⟨r, sig, hr, h⟩ := handleStop_handled (P := P) seccomp e W t stop
  rw [hr]
  cases h with
  | entry u => exact commit_meets he ht (fun s hs => hk.entry s (hs ▸ hW)) u
  | exit u => exact commit_meets he ht (fun s hs => hk.exit s (hs ▸ hW)) u
  | inherits c _ hc => exact he.put he.ctx (hk.inherit c t (he.tab c (Table.mem_of_find hc)) ht)
  | adds => exact he.append (hk.inherit _ t (hk.new e.ctx stop.msg he.ctx) ht)
  | marks => exact he.put he.ctx ht
  | leaves => exact he

/-- A round keeps the properties. -/
theorem waitStep (hW : H W.fs) (he : e.Meets C R) (pid : Nat) (st : WaitStatus) :
    (waitStep P seccomp e W pid st).1.Meets C R := by
  have hadd : (findOrAdd e pid).1.Meets C R ∧ R (findOrAdd e pid).2.toTracee := by
    unfold findOrAdd
    split
    · rename_i t ht
      exact ⟨he, he.tab t (Table.mem_of_find ht)⟩
    · exact ⟨he.append (hk.new e.ctx pid he.ctx), hk.new e.ctx pid he.ctx⟩
  unfold Emuroot.waitStep
  dsimp only
  cases st with
  | exited | signaled => exact hadd.1.remove pid
  | stopped stop => exact hk.handleStop hW hadd.1 hadd.2 stop
  | continued => exact hadd.1

/-- **The rule for the event loop**: what the handlers keep holds of the context and of every record
in every state that is reached. -/
theorem run {as : List (StopRound w σ)} (h : Run (LoopStep P seccomp H) e as e') (he : e.Meets C R) :
    e'.Meets C R := by
  refine h.inv (I := Engine.Meets C R) ?_ he
  rintro e r e' hm ⟨hH, rfl⟩
  exact hk.waitStep hH hm r.pid r.st

/-- The engine at its start. -/
theorem start {ctx : Ctx} (hctx : C ctx) (rootPid : Nat) :
    (engineStart ctx rootPid : Engine w).Meets C R where
  ctx := hctx
  tab t ht := by
    rw [List.mem_singleton.1 ht]
    exact hk.new ctx rootPid hctx

end Kept

/-! ## The context at the entry of a call -/

/-- The context without its bindings. -/
def Ctx.sansBindings (ctx : Ctx) : Ctx := { ctx with bindings := [] }

theorem emulateMounts_sansBindings (s : St w σ) (sysno : Int) (a : Option Action) :
    (emulateMounts P s sysno a).1.ctx.sansBindings = s.ctx.sansBindings := by
  have hbind : ∀ host guest target,
      (bindAt s.ctx host guest target).sansBindings = s.ctx.sansBindings := by
    intro host guest target
    unfold bindAt emurootBind
    split
    · rfl
    · rename_i h
      split at h
      · cases h
      · cases h
        rfl
  unfold emulateMounts
  dsimp only
  split
  · rfl
  split
  · unfold emulateChroot
    split
    · rfl
    split
    · rfl
    split
    · rfl
    · rw [(neutralize_frame ..).ctx]
  · unfold emulateMount
    split
    · rfl
    · rw [(neutralize_frame ..).ctx]
      dsimp only
      split
      · rfl
      · exact hbind ..
  · unfold emulateUmount
    split
    · rfl
    · rw [(neutralize_frame ..).ctx]
      rfl
  · rfl

theorem emulateEntry_sansBindings (s : St w σ) (sysno : Int) :
    (emulateEntry P s sysno).1.ctx.sansBindings = s.ctx.sansBindings := by
  have hident : ∀ a, (identityEntry P s sysno a).ctx.sansBindings = s.ctx.sansBindings := by
    intro a
    have hneutral := congrArg Ctx.sansBindings (neutralizeIdChange_frame (P := P) s a).ctx
    unfold identityEntry noteChown
    dsimp only
    split
    · split <;> exact hneutral
    · exact hneutral
  unfold emulateEntry
  split
  · exact (emulateMounts_sansBindings ..).trans (hident _)
  · rfl

/-- The context without its bindings and the table of loaders. -/
def Ctx.sansCache (ctx : Ctx) : Ctx := { ctx.sansBindings with loaderCache := [] }

/-- Of the context the entry of a call changes at most the bindings and the table of loaders. -/
theorem onEntry_sansCache (s : St w σ) : (onEntry P s).ctx.sansCache = s.ctx.sansCache := by
  have hexec : ∀ s : St w σ, (rewriteExec P s 1 2).1.ctx.sansCache = s.ctx.sansCache := by
    intro s
    unfold rewriteExec
    split
    · rfl
    split
    · rfl
    extract_lets args e t1 ctx1 s1
    split
    · rfl
    split
    · rw [(placeBlock_frame (P := P) s1 1 2 e.host e.args).ctx]
      rfl
    · rfl
  have h1 : ∀ s0 : St w σ, ∀ sysno,
      (emulateEntry P s0 sysno).1.ctx.sansCache = s0.ctx.sansCache := fun s0 sysno =>
    congrArg (fun ctx : Ctx => { ctx with loaderCache := [] }) (emulateEntry_sansBindings s0 sysno)
  unfold onEntry
  extract_lets s0 sysno
  have h1 := h1 s0 sysno
  generalize emulateEntry P s0 sysno = q at h1 ⊢
  obtain ⟨s1, handled⟩ := q
  dsimp only at h1 ⊢
  split
  · exact h1
  have h2 : (if P.nr.is .execve sysno then rewriteExec P s1 1 2 else (s1, 0)).1.ctx.sansCache =
      s1.ctx.sansCache := by
    split
    · exact hexec s1
    · rfl
  generalize (if P.nr.is .execve sysno then rewriteExec P s1 1 2 else (s1, 0)) = q at h2 ⊢
  obtain ⟨s2, r⟩ := q
  dsimp only at h2 ⊢
  split
  · exact h2.trans h1
  · rw [(rewritePaths_frame (P := P) s2 sysno).ctx, notedCreation_ctx]
    exact h2.trans h1

/-! ## The context at the exit of a call -/

/-- The context without the ownership table. -/
def Ctx.sansOwners (ctx : Ctx) : Ctx := { ctx with owners := none }

theorem exitGetcwd_ctx (s : St w σ) (buf : Word w) (ret : Int) :
    (exitGetcwd P s buf ret).ctx = s.ctx := by
  unfold exitGetcwd
  split
  · rfl
  dsimp only
  split
  · rfl
  split
  · rfl
  · split <;> rfl

theorem mapProcLink_ctx (s : St w σ) (len : Nat) : (mapProcLink P s len).ctx = s.ctx := by
  unfold mapProcLink
  extract_lets isAt buf size
  split
  · rfl
  dsimp only
  split
  · rfl
  split
  · rfl
  · split <;> rfl

theorem emulateResult_sansOwners (s : St w σ) (a : Action) (ret : Int) :
    (emulateResult P s a ret).1.ctx.sansOwners = s.ctx.sansOwners := by
  have hf : ∀ (b : Prop) [Decidable b] (buf : Word w) (l : StatLayout),
      (if b then fakeOwner P s buf l else s).ctx = s.ctx := by
    intro b _ buf l
    split
    · exact (fakeOwner_memOnly s buf l).ctx
    · rfl
  cases a
  case getgroups => unfold emulateResult exitGetgroups; dsimp only; split <;> [rfl; split <;> rfl]
  case setgroups =>
    unfold emulateResult exitSetgroups
    dsimp only
    split
    · split <;> rfl
    · rfl
  case chown =>
    unfold emulateResult exitChown
    dsimp only
    split
    · rfl
    · split <;> rfl
  case stat2 => exact congrArg Ctx.sansOwners (hf _ _ _)
  case stat3 => exact congrArg Ctx.sansOwners (hf _ _ _)
  case statx => exact congrArg Ctx.sansOwners (hf _ _ _)
  all_goals rfl

theorem exitAction_sansOwners (s : St w σ) (buf : Word w) (a : Action) (ret : Int) :
    (exitAction P s buf a ret).ctx.sansOwners = s.ctx.sansOwners := by
  unfold exitAction
  split
  · rw [exitGetcwd_ctx]
  split
  · split <;> rfl
  split
  · rfl
  split
  · rfl
  split
  · split
    · rfl
    · rw [mapProcLink_ctx]
  split
  · rw [(exitUname_memOnly s buf ret).ctx]
  split
  · rfl
  · have h := emulateResult_sansOwners (P := P) s a ret
    dsimp only
    split <;> exact h

/-- Of the context the exit of a call changes at most the ownership table. -/
theorem onExit_sansOwners (s : St w σ) : (onExit P s).ctx.sansOwners = s.ctx.sansOwners := by
  have hc : ∀ ret, (commitCreated P s ret).ctx.sansOwners = s.ctx.sansOwners := by
    intro ret
    unfold commitCreated
    split <;> rfl
  unfold onExit onExitAt
  dsimp only
  split
  · exact hc _
  · rw [exitAction_sansOwners, hc]

end Emuroot
