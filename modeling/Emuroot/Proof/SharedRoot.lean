import Emuroot.Proof.Chroot
import Emuroot.Proof.Parity

/-!
# The root of a thread

`shareStep` is the event loop of `familyStep` with the file-system contexts of the tasks beside it:
those that the kernel has (`fsOf`), and those that emuroot's roots amount to (`held`), where a task
joins its parent's context at the fork event and a chroot leaves it for a new one. `roots_held`: in
every state reached, tasks with one context `held` have one root, and only a task's own chroot
changes it. `chroot_of_thread`: a chroot of one thread leaves the root of the other.
-/

namespace Emuroot

variable {w : Nat} {σ : Type}

/-- The processes, and their file-system contexts. -/
structure Sharing (w : Nat) (σ : Type) extends Family w σ where
  fsOf : Nat → Nat
  held : Nat → Nat
  next : Nat

/-- An event, and whether the new task of a fork has `CLONE_FS`. -/
structure ShareEvent (w : Nat) (σ : Type) where
  ev : FamilyEvent w σ
  cloneFs : Bool

/-- The root with which the next stop of the task is handled. -/
def rootFor (e : Engine w) (pid : Nat) : CStr := (findOrAdd e pid).2.root

section
variable (P : Platform w σ) (seccomp : Bool)

/-- The stop is the exit of a chroot that is emulated. -/
def ChrootReturns (W : World w σ) (t : Traced w) (stop : Stop) : Prop :=
  stop.sig = SIGTRAP ||| 0x80 ∧ t.inCall seccomp = true ∧ (W.regs t.pid).isSome = true ∧
    P.actionOf t.sysno = some .chroot ∧ t.pendingRoot ≠ []

instance (W : World w σ) (t : Traced w) (stop : Stop) : Decidable (ChrootReturns P seccomp W t stop) :=
  inferInstanceAs (Decidable (_ ∧ _ ∧ _ ∧ _ ∧ _))

def Sharing.record (s : Sharing w σ) (pid : Nat) : Traced w := (findOrAdd s.e pid).2

def shareStep (s : Sharing w σ) (x : ShareEvent w σ) : Sharing w σ :=
  let s' := { s with toFamily := familyStep P seccomp s.toFamily x.ev }
  match x.ev with
  | .forks parent child =>
    { s' with
      fsOf := Function.update s.fsOf child (if x.cloneFs then s.fsOf parent else s.next)
      held := Function.update s.held child s.next
      next := s.next + 1 }
  | .reports pid (.stopped stop) =>
    if ChrootReturns P seccomp s.W (s.record pid) stop then
      { s' with held := Function.update s.held pid s.next, next := s.next + 1 }
    else if stop.isFork then { s' with held := Function.update s.held stop.msg (s.held pid) }
    else s'
  | _ => s'

/-- The session at its start. -/
def Sharing.start (ctx : Ctx) (rootPid : Nat) (W : World w σ) : Sharing w σ where
  toFamily := .start ctx rootPid W
  fsOf := fun _ => 0
  held := fun _ => 0
  next := 1

def ShareStep (s : Sharing w σ) (x : ShareEvent w σ) (s' : Sharing w σ) : Prop :=
  FamilyOffered s.toFamily x.ev ∧ s' = shareStep P seccomp s x

/-- Tasks with one file-system context have one root. -/
def SharesRoot (s : Sharing w σ) : Prop :=
  ∀ a b, s.phase a ≠ .gone → s.phase b ≠ .gone → s.fsOf a = s.fsOf b → rootFor s.e a = rootFor s.e b

end

variable {P : Platform w σ} {seccomp : Bool} {tab : List (Traced w)} {e : Engine w} {t : Traced w}
  {pid q : Nat} {stop : Stop} {W : World w σ}

/-! ## Roots in the table -/

/-- The root that the table has for a task. -/
def rootIn (tab : List (Traced w)) (pid : Nat) : Option CStr := (identOf tab pid).map (·.root)

theorem rootIn_of_find (h : traceeFind tab pid = some t) : rootIn tab pid = some t.root := by
  rw [rootIn, identOf_of_find h]
  rfl

theorem rootFor_of_rootIn {r : CStr} (h : rootIn e.tab pid = some r) : rootFor e pid = r := by
  obtain ⟨i, hi, rfl⟩ := Option.map_eq_some_iff.1 h
  obtain ⟨t, ht, rfl⟩ := Option.map_eq_some_iff.1 hi
  rw [rootFor, findOrAdd_of_find ht]
  rfl

theorem findOrAdd_rootIn_self (e : Engine w) (pid : Nat) :
    rootIn (findOrAdd e pid).1.tab pid = some (findOrAdd e pid).2.root :=
  rootIn_of_find (findOrAdd_find e pid)

theorem findOrAdd_rootIn {r : CStr} (h : rootIn e.tab q = some r) (pid : Nat) :
    rootIn (findOrAdd e pid).1.tab q = some r := by
  obtain ⟨i, hi, rfl⟩ := Option.map_eq_some_iff.1 h
  rw [rootIn, findOrAdd_identOf hi]
  rfl

/-! ## What a stop does to a root -/

theorem onEntry_root (s : St w σ) : (onEntry P s).t.root = s.t.root := by
  have h := congrArg Tracee.root (onEntry_frame (P := P) s).t
  exact h

theorem exitAction_root (s : St w σ) (buf : Word w) (a : Action) (ret : Int) :
    (exitAction P s buf a ret).t.root =
      if a = .chroot ∧ s.t.pendingRoot ≠ [] then s.t.pendingRoot else s.t.root := by
  by_cases hc : a = .chroot ∧ s.t.pendingRoot ≠ []
  · obtain ⟨rfl, hne⟩ := hc
    rw [if_pos ⟨rfl, hne⟩, exitAction, if_neg (by decide), if_neg (by decide), if_pos ⟨rfl, hne⟩]
    rfl
  rw [if_neg hc]
  unfold exitAction
  split
  · rw [exitGetcwd_t]
  split
  · split <;> rfl
  split
  · rfl
  split
  · split
    · rfl
    · rw [mapProcLink_t]
  split
  · rw [(exitUname_memOnly s buf ret).t]
  split
  · rfl
  · have h := congrArg Tracee.root (emulateResult_t (P := P) s a ret)
    dsimp only
    split <;> exact h

/-- The exit of an emulated chroot puts the new root in place, and no other exit changes it. -/
theorem onExit_root (s : St w σ) :
    (onExit P s).t.root =
      if P.actionOf s.t.sysno = some .chroot ∧ s.t.pendingRoot ≠ [] then s.t.pendingRoot
      else s.t.root := by
  have hc : ∀ ret, (commitCreated P s ret).t.root = s.t.root ∧
      (commitCreated P s ret).t.pendingRoot = s.t.pendingRoot ∧
      (commitCreated P s ret).t.sysno = s.t.sysno := by
    intro ret
    unfold commitCreated
    split <;> exact ⟨rfl, rfl, rfl⟩
  obtain ⟨hroot, hpending, hsysno⟩ := hc (s.regs P.arch.ret).toInt
  unfold onExit onExitAt
  dsimp only
  rw [hsysno]
  cases P.actionOf s.t.sysno with
  | none => exact hroot
  | some a => simp only [exitAction_root, hroot, hpending, Option.some.injEq]

theorem rootIn_put (h : traceeFind tab t.pid = some t) {u : Traced w} (hu : u.pid = t.pid) (q : Nat) :
    rootIn (traceePut tab u) q = if q = t.pid then some u.root else rootIn tab q := by
  split
  · rename_i hq
    refine rootIn_of_find ?_
    rw [traceeFind_put, hu, if_pos hq, hq, h]
    rfl
  · rename_i hq
    rw [rootIn, identOf_put_ne tab fun h => hq (h.trans hu), rootIn]

theorem withRegs_root (f : St w σ → St w σ) (e : Engine w) (W : World w σ) (t : Tracee w) :
    (withRegs f e W t).1.root =
      match W.regs t.pid with
      | none => t.root
      | some regs => (f (stopState e W t regs)).t.root := by
  unfold withRegs
  cases W.regs t.pid <;> rfl

theorem withRegs_onEntry_root (e : Engine w) (W : World w σ) (t : Tracee w) :
    (withRegs (onEntry P) e W t).1.root = t.root := by
  rw [withRegs_root]
  split
  · rfl
  · exact onEntry_root _

section
variable (P seccomp)

/-- A syscall stop changes the root of its own task, at the exit of an emulated chroot. -/
theorem handleStop_root (hs : stop.isSyscall) (e : Engine w) (W : World w σ)
    (h : traceeFind e.tab t.pid = some t) (q : Nat) :
    rootIn (handleStop P seccomp e W t stop).1.tab q =
      if q = t.pid ∧ ChrootReturns P seccomp W t stop then some t.pendingRoot else rootIn e.tab q := by
  -- the record with the handler's root
  have hput : ∀ {u : Traced w} (r : CStr), u.pid = t.pid → u.root = r →
      rootIn (traceePut e.tab u) q = if q = t.pid then some r else rootIn e.tab q := by
    rintro u r hu rfl
    exact rootIn_put h hu q
  have hself : q = t.pid → rootIn e.tab q = some t.root := fun hq => rootIn_of_find (hq ▸ h)
  have hentry : ∀ u : Traced w, u.toTracee = (withRegs (onEntry P) e W t.toTracee).1 →
      rootIn (traceePut e.tab u) q = rootIn e.tab q := by
    intro u hu
    rw [hput t.root (by rw [hu]; exact withRegs_pid onEntry_pid e W _)
      (by rw [hu]; exact withRegs_onEntry_root e W _)]
    split
    · rename_i hq
      rw [hself hq]
    · rfl
  have hexit : stop.sig = SIGTRAP ||| 0x80 → t.inCall seccomp = true → ∀ u : Traced w,
      u.toTracee = (withRegs (onExit P) e W t.toTracee).1 →
      rootIn (traceePut e.tab u) q =
        if q = t.pid ∧ ChrootReturns P seccomp W t stop then some t.pendingRoot
        else rootIn e.tab q := by
    intro hsig hin u hu
    rw [hput _ (by rw [hu]; exact withRegs_pid onExit_pid e W _) (by rw [hu, withRegs_root])]
    by_cases hq : q = t.pid
    · rw [if_pos hq, hself hq]
      cases hr : W.regs t.pid with
      | none =>
        rw [if_neg]
        rintro ⟨-, -, -, hregs, -⟩
        rw [hr] at hregs
        cases hregs
      | some regs =>
        have hiff : P.actionOf t.sysno = some .chroot ∧ t.pendingRoot ≠ [] ↔
            q = t.pid ∧ ChrootReturns P seccomp W t stop :=
          ⟨fun hc => ⟨hq, hsig, hin, by rw [hr]; rfl, hc⟩, fun hc => hc.2.2.2.2⟩
        have hroot := onExit_root (P := P) (stopState e W t.toTracee regs)
        rw [show (stopState e W t.toTracee regs).t = t.toTracee from rfl] at hroot
        dsimp only
        rw [hroot, ← apply_ite some]
        exact congrArg some (if_congr hiff rfl rfl)
    · rw [if_neg hq, if_neg fun hc => hq hc.1]
  have hno : t.inCall seccomp ≠ true ∨ stop.sig ≠ SIGTRAP ||| 0x80 →
      (if q = t.pid ∧ ChrootReturns P seccomp W t stop then some t.pendingRoot
        else rootIn e.tab q) = rootIn e.tab q := by
    intro hn
    refine if_neg ?_
    rintro ⟨-, hsig, hin, -⟩
    exact hn.elim (· hin) (· hsig)
  unfold handleStop
  by_cases hsig : stop.sig = SIGTRAP ||| 0x80
  · rw [if_pos hsig]
    cases seccomp with
    | false =>
      rw [if_pos (show (!false) = true from rfl)]
      split
      · rename_i hin
        exact hexit hsig hin _ rfl
      · rename_i hin
        rw [hno (.inl hin)]
        exact hentry _ rfl
    | true =>
      rw [if_neg (show (!true) ≠ true by decide)]
      split
      · rename_i hin
        exact hexit hsig hin _ rfl
      · rename_i hin
        rw [hno (.inl hin)]
  · rw [if_neg hsig, if_pos (hs.resolve_left hsig), hno (.inr hsig)]
    exact hentry _ rfl

/-- At the fork event the child's record takes the parent's root. -/
theorem handleStop_fork_root (hs : stop.isFork) (e : Engine w) (W : World w σ) (t : Traced w) (q : Nat) :
    rootIn (handleStop P seccomp e W t stop).1.tab q =
      if q = stop.msg then some t.root else rootIn e.tab q := by
  rw [rootIn, handleStop_fork hs]
  split <;> rfl

theorem handleStop_other_root (hs : ¬stop.isSyscall) (hf : ¬stop.isFork) (e : Engine w) (W : World w σ)
    (h : traceeFind e.tab t.pid = some t) (q : Nat) :
    rootIn (handleStop P seccomp e W t stop).1.tab q = rootIn e.tab q := by
  obtain he | he := handleStop_other (P := P) hs hf e W t
  · rw [he]
  · rw [he, rootIn, identOf_put_self (t := { t with fresh := false }) h rfl, rootIn]

end

/-! ## The invariant -/

/-- Tasks with one context have one root, both in the table. -/
structure SharingInv (s : Sharing w σ) : Prop where
  nodup : (s.e.tab.map (·.pid)).Nodup
  fresh : ∀ pid, s.phase pid ≠ .gone → s.held pid < s.next
  shared : ∀ a b, a ≠ b → s.phase a ≠ .gone → s.phase b ≠ .gone → s.held a = s.held b →
    ∃ r, rootIn s.e.tab a = some r ∧ rootIn s.e.tab b = some r
  known : ∀ pid, s.phase pid = .known → ∃ r, rootIn s.e.tab pid = some r

namespace SharingInv

variable {s : Sharing w σ}

theorem start (ctx : Ctx) (rootPid : Nat) (W : World w σ) : SharingInv (.start ctx rootPid W) where
  nodup := (FamilyInv.start ctx rootPid W).nodup
  fresh _ _ := Nat.zero_lt_one
  shared a b hne ha hb _ := by
    have honly : ∀ q, (Sharing.start ctx rootPid W).phase q ≠ .gone → q = rootPid := by
      intro q hq
      by_contra hr
      exact hq (if_neg hr)
    exact absurd ((honly a ha).trans (honly b hb).symm) hne
  known pid h := by
    obtain ⟨t, ht, -⟩ := (FamilyInv.start ctx rootPid W).find h
    exact ⟨_, rootIn_of_find ht⟩

/-- One context, one root. -/
theorem rootFor_eq (h : SharingInv s) {a b : Nat} (ha : s.phase a ≠ .gone) (hb : s.phase b ≠ .gone)
    (hab : s.held a = s.held b) : rootFor s.e a = rootFor s.e b := by
  by_cases hne : a = b
  · rw [hne]
  · obtain ⟨r, hra, hrb⟩ := h.shared a b hne ha hb hab
    rw [rootFor_of_rootIn hra, rootFor_of_rootIn hrb]

/-- Roots and contexts change alike: for tasks that were there, those with one context have one root
again, and what was in the table is there. -/
theorem moved (h : SharingInv s) {s' : Sharing w σ} (hn : (s'.e.tab.map (·.pid)).Nodup)
    (hlive : ∀ q, s'.phase q ≠ .gone → s.phase q ≠ .gone)
    (hknown : ∀ q, s'.phase q = .known → ∃ r, rootIn s'.e.tab q = some r)
    (hroot : ∀ q r, s'.phase q ≠ .gone → rootIn s.e.tab q = some r → rootIn s'.e.tab q = some r)
    (hheld : s'.held = s.held) (hnext : s'.next = s.next) : SharingInv s' := by
  refine ⟨hn, fun q hq => ?_, fun a b hne ha hb hab => ?_, hknown⟩
  · rw [hheld, hnext]
    exact h.fresh q (hlive q hq)
  · rw [hheld] at hab
    obtain ⟨r, hra, hrb⟩ := h.shared a b hne (hlive a ha) (hlive b hb) hab
    exact ⟨r, hroot a r ha hra, hroot b r hb hrb⟩

/-- A task comes to a context of its own. -/
theorem apart (h : SharingInv s) {s' : Sharing w σ} (pid : Nat)
    (hn : (s'.e.tab.map (·.pid)).Nodup)
    (hlive : ∀ q, q ≠ pid → s'.phase q ≠ .gone → s.phase q ≠ .gone)
    (hknown : ∀ q, s'.phase q = .known → ∃ r, rootIn s'.e.tab q = some r)
    (hroot : ∀ q r, q ≠ pid → rootIn s.e.tab q = some r → rootIn s'.e.tab q = some r)
    (hheld : s'.held = Function.update s.held pid s.next) (hnext : s'.next = s.next + 1) :
    SharingInv s' := by
  refine ⟨hn, fun q hq => ?_, fun a b hne ha hb hab => ?_, hknown⟩
  · rw [hheld, hnext, Function.update_apply]
    split
    · exact Nat.lt_succ_self _
    · rename_i hqp
      exact Nat.lt_succ_of_lt (h.fresh q (hlive q hqp hq))
  · rw [hheld, Function.update_apply, Function.update_apply] at hab
    split at hab <;> split at hab
    · rename_i hap hbp
      exact absurd (hap.trans hbp.symm) hne
    · rename_i hbp
      exact absurd hab.symm (Nat.ne_of_lt (h.fresh b (hlive b hbp hb)))
    · rename_i hap _
      exact absurd hab (Nat.ne_of_lt (h.fresh a (hlive a hap ha)))
    · rename_i hap hbp
      obtain ⟨r, hra, hrb⟩ := h.shared a b hne (hlive a hap ha) (hlive b hbp hb) hab
      exact ⟨r, hroot a r hap hra, hroot b r hbp hrb⟩

theorem forks (h : SharingInv s) {p c : Nat} {fs : Bool} :
    SharingInv (shareStep P seccomp s ⟨.forks p c, fs⟩) := by
  have hphase : ∀ q, q ≠ c → (shareStep P seccomp s ⟨.forks p c, fs⟩).phase q = s.phase q :=
    fun q hq => Function.update_of_ne hq _ _
  refine h.apart c h.nodup (fun q hqc hq => ?_) (fun q hq => ?_) (fun _ _ _ hr => hr) rfl rfl
  · rwa [hphase q hqc] at hq
  · by_cases hqc : q = c
    · rw [hqc, show (shareStep P seccomp s ⟨.forks p c, fs⟩).phase c = .awaits p from
        Function.update_self ..] at hq
      cases hq
    · exact h.known q (hphase q hqc ▸ hq)

theorem ends (h : SharingInv s) {s' : Sharing w σ} (pid : Nat)
    (htab : s'.e.tab = traceeRemove (findOrAdd s.e pid).1.tab pid)
    (hphase : s'.phase = endPhase s.phase pid) (hheld : s'.held = s.held)
    (hnext : s'.next = s.next) : SharingInv s' := by
  have hn := findOrAdd_nodup h.nodup pid
  have hlive : ∀ q, s'.phase q ≠ .gone → q ≠ pid ∧ s.phase q ≠ .gone := by
    intro q hq
    rw [hphase, endPhase] at hq
    split at hq
    · exact absurd rfl hq
    · rename_i hne
      refine ⟨hne, fun hg => ?_⟩
      rw [hg, if_neg (fun hp => by cases hp)] at hq
      exact hq rfl
  have hroot : ∀ q r, s'.phase q ≠ .gone → rootIn s.e.tab q = some r →
      rootIn s'.e.tab q = some r := by
    intro q r hq hr
    rw [htab, rootIn, identOf_remove hn (hlive q hq).1]
    exact findOrAdd_rootIn hr pid
  refine h.moved ?_ (fun q hq => (hlive q hq).2) (fun q hq => ?_) hroot hheld hnext
  · rw [htab]
    exact Table.nodup_remove hn pid
  · have hne : s'.phase q ≠ .gone := fun hg => by cases hq.symm.trans hg
    have hq' : s.phase q = .known := by
      rw [hphase, endPhase, if_neg (hlive q hne).1] at hq
      split at hq
      · cases hq
      · exact hq
    obtain ⟨r, hr⟩ := h.known q hq'
    exact ⟨r, hroot q r hne hr⟩

/-- A status that leaves phases, contexts and roots. -/
theorem still (h : SharingInv s) {s' : Sharing w σ} (pid : Nat)
    (hn : (s'.e.tab.map (·.pid)).Nodup)
    (htab : ∀ q, rootIn s'.e.tab q = rootIn (findOrAdd s.e pid).1.tab q)
    (hphase : s'.phase = s.phase) (hheld : s'.held = s.held) (hnext : s'.next = s.next) :
    SharingInv s' := by
  have hroot : ∀ q r, rootIn s.e.tab q = some r → rootIn s'.e.tab q = some r := by
    intro q r hr
    rw [htab]
    exact findOrAdd_rootIn hr pid
  refine h.moved hn (fun q hq => by rwa [hphase] at hq) (fun q hq => ?_) (fun q r _ => hroot q r)
    hheld hnext
  rw [hphase] at hq
  obtain ⟨r, hr⟩ := h.known q hq
  exact ⟨r, hroot q r hr⟩

/-- A chroot takes its task to a context of its own. -/
theorem chroots (h : SharingInv s) {s' : Sharing w σ} {r : CStr}
    (hn : (s'.e.tab.map (·.pid)).Nodup)
    (htab : ∀ q, rootIn s'.e.tab q = if q = pid then some r else rootIn (findOrAdd s.e pid).1.tab q)
    (hphase : s'.phase = s.phase) (hheld : s'.held = Function.update s.held pid s.next)
    (hnext : s'.next = s.next + 1) : SharingInv s' := by
  have hroot : ∀ q r', q ≠ pid → rootIn s.e.tab q = some r' → rootIn s'.e.tab q = some r' := by
    intro q r' hqp hr
    rw [htab, if_neg hqp]
    exact findOrAdd_rootIn hr pid
  refine h.apart pid hn (fun q _ hq => by rwa [hphase] at hq) (fun q hq => ?_) hroot hheld hnext
  by_cases hqp : q = pid
  · exact ⟨r, by rw [htab, if_pos hqp]⟩
  · rw [hphase] at hq
    obtain ⟨r', hr⟩ := h.known q hq
    exact ⟨r', hroot q r' hqp hr⟩

/-- At the fork event the child joins the context of its parent. -/
theorem joins (h : SharingInv s) {s' : Sharing w σ} {c : Nat} (hlive : s.phase pid ≠ .gone)
    (hc : s.phase c ≠ .gone) (hn : (s'.e.tab.map (·.pid)).Nodup)
    (htab : ∀ q, rootIn s'.e.tab q =
      if q = c then some (findOrAdd s.e pid).2.root else rootIn (findOrAdd s.e pid).1.tab q)
    (hphase : s'.phase = Function.update s.phase c .known)
    (hheld : s'.held = Function.update s.held c (s.held pid)) (hnext : s'.next = s.next) :
    SharingInv s' := by
  have hself := findOrAdd_rootIn_self s.e pid
  have hlive' : ∀ q, s'.phase q ≠ .gone → s.phase q ≠ .gone := by
    intro q hq
    rw [hphase, Function.update_apply] at hq
    split at hq
    · rename_i hqc
      rwa [hqc]
    · exact hq
  -- a task with the context of the parent has the parent's root
  have hparent : ∀ b, b ≠ c → s.phase b ≠ .gone → s.held pid = s.held b →
      rootIn s'.e.tab b = some (findOrAdd s.e pid).2.root := by
    intro b hbc hb hheld
    rw [htab, if_neg hbc]
    by_cases hbp : b = pid
    · rw [hbp, hself]
    · obtain ⟨r, hrp, hrb⟩ := h.shared pid b (Ne.symm hbp) hlive hb hheld
      rw [findOrAdd_rootIn hrb, ← findOrAdd_rootIn hrp pid, hself]
  refine ⟨hn, fun q hq => ?_, fun a b hne ha hb hab => ?_, fun q hq => ?_⟩
  · rw [hheld, hnext, Function.update_apply]
    split
    · exact h.fresh pid hlive
    · exact h.fresh q (hlive' q hq)
  · rw [hheld, Function.update_apply, Function.update_apply] at hab
    split at hab <;> split at hab
    · rename_i hac hbc
      exact absurd (hac.trans hbc.symm) hne
    · rename_i hac hbc
      exact ⟨_, by rw [htab, if_pos hac], hparent b hbc (hlive' b hb) hab⟩
    · rename_i hac hbc
      exact ⟨_, hparent a hac (hlive' a ha) hab.symm, by rw [htab, if_pos hbc]⟩
    · rename_i hac hbc
      obtain ⟨r, hra, hrb⟩ := h.shared a b hne (hlive' a ha) (hlive' b hb) hab
      refine ⟨r, ?_, ?_⟩
      · rw [htab, if_neg hac]
        exact findOrAdd_rootIn hra pid
      · rw [htab, if_neg hbc]
        exact findOrAdd_rootIn hrb pid
  · rw [htab]
    split
    · exact ⟨_, rfl⟩
    · rename_i hqc
      rw [hphase, Function.update_of_ne hqc] at hq
      obtain ⟨r, hr⟩ := h.known q hq
      exact ⟨r, findOrAdd_rootIn hr pid⟩

/-- What the event loop does with a status, beside the contexts. -/
theorem shareStep_stopped (P : Platform w σ) (seccomp : Bool) (s : Sharing w σ) (pid : Nat)
    (stop : Stop) (fs : Bool) :
    let s' := shareStep P seccomp s ⟨.reports pid (.stopped stop), fs⟩
    s'.e = (handleStop P seccomp (findOrAdd s.e pid).1 s.W (s.record pid) stop).1 ∧
    s'.phase =
      (if stop.isSyscall then s.phase
      else if stop.isFork then Function.update s.phase stop.msg .known else s.phase) ∧
    s'.held =
      (if ChrootReturns P seccomp s.W (s.record pid) stop then Function.update s.held pid s.next
      else if stop.isFork then Function.update s.held stop.msg (s.held pid) else s.held) ∧
    s'.next = if ChrootReturns P seccomp s.W (s.record pid) stop then s.next + 1 else s.next := by
  intro s'
  have hfam : s'.toFamily = familyStep P seccomp s.toFamily (.reports pid (.stopped stop)) := by
    unfold s' shareStep
    dsimp only
    split
    · rfl
    · split <;> rfl
  refine ⟨?_, ?_, ?_, ?_⟩
  · rw [hfam]
    unfold familyStep
    dsimp only
    split
    · rfl
    · split <;> rfl
  · rw [hfam]
    unfold familyStep
    dsimp only
    split
    · rfl
    · split <;> rfl
  · unfold s' shareStep
    dsimp only
    split
    · rfl
    · split <;> rfl
  · unfold s' shareStep
    dsimp only
    split
    · rfl
    · split <;> rfl

theorem stops (h : SharingInv s) {fs : Bool}
    (ho : FamilyOffered s.toFamily (.reports pid (.stopped stop))) :
    SharingInv (shareStep P seccomp s ⟨.reports pid (.stopped stop), fs⟩) := by
  obtain ⟨hlive, ho⟩ := ho
  dsimp only at ho
  obtain ⟨he, hphase, hheld, hnext⟩ := shareStep_stopped P seccomp s pid stop fs
  generalize shareStep P seccomp s ⟨.reports pid (.stopped stop), fs⟩ = s' at *
  have hfind : traceeFind (findOrAdd s.e pid).1.tab (s.record pid).pid = some (s.record pid) :=
    findOrAdd_self s.e pid
  have hpid : (s.record pid).pid = pid := findOrAdd_pid s.e pid
  have hn : (s'.e.tab.map (·.pid)).Nodup := by
    rw [he]
    exact handleStop_nodup (findOrAdd_nodup h.nodup pid) s.W _ stop
  by_cases hs : stop.isSyscall
  · have hnf : ¬stop.isFork := fun hf => hf.1 hs
    have hroot := handleStop_root P seccomp hs (findOrAdd s.e pid).1 s.W hfind
    rw [if_pos hs] at hphase
    rw [if_neg hnf] at hheld
    by_cases hc : ChrootReturns P seccomp s.W (s.record pid) stop
    · rw [if_pos hc] at hheld hnext
      refine h.chroots (r := (s.record pid).pendingRoot) hn (fun q => ?_) hphase hheld hnext
      rw [he, hroot q, hpid]
      simp only [hc, and_true]
    · rw [if_neg hc] at hheld hnext
      refine h.still pid hn (fun q => ?_) hphase hheld hnext
      rw [he, hroot q, if_neg fun h => hc h.2]
  have hc : ¬ChrootReturns P seccomp s.W (s.record pid) stop := fun hc => hs (.inl hc.1)
  rw [if_neg hs] at hphase
  rw [if_neg hc] at hheld hnext
  by_cases hf : stop.isFork
  · rw [if_pos hf] at ho hphase hheld
    refine h.joins hlive (fun hg => nomatch ho.symm.trans hg) hn (fun q => ?_) hphase hheld hnext
    rw [he, handleStop_fork_root P seccomp hf]
    rfl
  · rw [if_neg hf] at hphase hheld
    refine h.still pid hn (fun q => ?_) hphase hheld hnext
    rw [he, handleStop_other_root P seccomp hs hf _ s.W hfind]

theorem step (h : SharingInv s) {x : ShareEvent w σ} (ho : FamilyOffered s.toFamily x.ev) :
    SharingInv (shareStep P seccomp s x) := by
  obtain ⟨ev, fs⟩ := x
  cases ev with
  | runs f =>
    exact h.moved h.nodup (fun _ hq => hq) h.known (fun _ _ _ hr => hr) rfl rfl
  | forks p c => exact h.forks
  | reports pid st =>
    cases st with
    | exited | signaled => exact h.ends pid rfl rfl rfl rfl
    | continued =>
      exact h.still pid (findOrAdd_nodup h.nodup pid) (fun _ => rfl) rfl rfl rfl
    | stopped stop => exact h.stops ho

/-- Only its own chroot changes the root of a task whose fork event has been reported. -/
theorem root_changed (h : SharingInv s) {x : ShareEvent w σ} (ho : FamilyOffered s.toFamily x.ev)
    (hk : s.phase q = .known) (hk' : (shareStep P seccomp s x).phase q ≠ .gone) :
    rootFor (shareStep P seccomp s x).e q = rootFor s.e q ∨
    ∃ stop, x.ev = .reports q (.stopped stop) ∧ ChrootReturns P seccomp s.W (s.record q) stop ∧
      rootFor (shareStep P seccomp s x).e q = (s.record q).pendingRoot := by
  obtain ⟨r, hr⟩ := h.known q hk
  have hleft : rootIn (shareStep P seccomp s x).e.tab q = some r →
      rootFor (shareStep P seccomp s x).e q = rootFor s.e q := fun hr' => by
    rw [rootFor_of_rootIn hr', rootFor_of_rootIn hr]
  obtain ⟨ev, fs⟩ := x
  cases ev with
  | runs f => exact .inl (hleft hr)
  | forks p c => exact .inl (hleft hr)
  | reports pid st =>
    have hadd := findOrAdd_rootIn hr pid
    have hends : q ≠ pid → rootIn (traceeRemove (findOrAdd s.e pid).1.tab pid) q = some r := by
      intro hqp
      rw [rootIn, identOf_remove (findOrAdd_nodup h.nodup pid) hqp]
      exact hadd
    have hne : (shareStep P seccomp s ⟨.reports pid st, fs⟩).phase q = endPhase s.phase pid q →
        q ≠ pid := by
      rintro he rfl
      exact hk' (he.trans (if_pos rfl))
    cases st with
    | exited code => exact .inl (hleft (hends (hne rfl)))
    | signaled sig => exact .inl (hleft (hends (hne rfl)))
    | continued => exact .inl (hleft hadd)
    | stopped stop =>
      obtain ⟨-, ho⟩ := ho
      dsimp only at ho
      obtain ⟨he, -⟩ := shareStep_stopped P seccomp s pid stop fs
      have hpid : (s.record pid).pid = pid := findOrAdd_pid s.e pid
      have hfind : traceeFind (findOrAdd s.e pid).1.tab (s.record pid).pid = some (s.record pid) :=
        findOrAdd_self s.e pid
      by_cases hs : stop.isSyscall
      · have hroot := handleStop_root P seccomp hs (findOrAdd s.e pid).1 s.W hfind q
        rw [← he, hpid] at hroot
        by_cases hc : q = pid ∧ ChrootReturns P seccomp s.W (s.record pid) stop
        · rw [if_pos hc] at hroot
          obtain ⟨rfl, hc⟩ := hc
          exact .inr ⟨stop, rfl, hc, rootFor_of_rootIn hroot⟩
        · rw [if_neg hc] at hroot
          exact .inl (hleft (hroot.trans hadd))
      by_cases hf : stop.isFork
      · rw [if_pos hf] at ho
        have hroot := handleStop_fork_root P seccomp hf (findOrAdd s.e pid).1 s.W
          (s.record pid) q
        have hqm : q ≠ stop.msg := by
          rintro rfl
          cases hk.symm.trans ho
        rw [← he, if_neg hqm] at hroot
        exact .inl (hleft (hroot.trans hadd))
      · have hroot := handleStop_other_root P seccomp hs hf (findOrAdd s.e pid).1 s.W
          hfind q
        rw [← he] at hroot
        exact .inl (hleft (hroot.trans hadd))

end SharingInv

/-- **Tasks that were created from one another have one root until one of them changes its own**, in
every order of the stops; and nothing but its own chroot changes the root of a task. -/
theorem roots_held {ctx : Ctx} {rootPid : Nat} {W : World w σ} {evs : List (ShareEvent w σ)}
    {s : Sharing w σ} (h : Run (ShareStep P seccomp) (.start ctx rootPid W) evs s) :
    (∀ a b, s.phase a ≠ .gone → s.phase b ≠ .gone → s.held a = s.held b →
      rootFor s.e a = rootFor s.e b) ∧
    ∀ x s', ShareStep P seccomp s x s' → ∀ q, s.phase q = .known → s'.phase q ≠ .gone →
      rootFor s'.e q = rootFor s.e q ∨
      ∃ stop, x.ev = .reports q (.stopped stop) ∧ ChrootReturns P seccomp s.W (s.record q) stop ∧
        rootFor s'.e q = (s.record q).pendingRoot := by
  have hinv : SharingInv s := h.inv (fun _ _ _ hi ⟨ho, he⟩ => he ▸ hi.step ho) (.start ctx rootPid W)
  refine ⟨fun a b => hinv.rootFor_eq, ?_⟩
  rintro x s' ⟨ho, rfl⟩ q hk hk'
  exact hinv.root_changed ho hk hk'

/-! ## A thread that changes its root -/

/-- Every task is at `chroot("/sub")`. -/
def atChroot : World 64 Unit where
  regs := fun _ => some (linuxRegs 161 [4096])
  space := fun _ => 1
  mem := fun _ => linuxMem [(4096, cstr "/sub")]
  fs := ()

def chrootStart : Sharing 64 Unit := .start { rootJailCtx with root := cstr "/r" } 1 atChroot

/-- Process 1 starts thread 2. -/
def startsThread : List (ShareEvent 64 Unit) :=
  [⟨.forks 1 2, true⟩, ⟨.reports 1 (.stopped ⟨SIGTRAP, PTRACE_EVENT_CLONE, 2⟩), true⟩,
    ⟨.reports 2 (.stopped initialStop), true⟩]

/-- It enters chroot, and leaves it. -/
def changesRoot : List (ShareEvent 64 Unit) :=
  [⟨.reports 1 (.stopped syscallStop), true⟩, ⟨.reports 1 (.stopped syscallStop), true⟩]

/-- The session after some events. -/
def sharingAfter (evs : List (ShareEvent 64 Unit)) : Sharing 64 Unit :=
  evs.foldl (shareStep subPlatform false) chrootStart

theorem started_phase (c p : Nat) :
    Function.update (Function.update chrootStart.phase 2 (.awaits 1)) 2 .known c ≠ .awaits p := by
  by_cases hc : c = 2
  · rw [hc, Function.update_self]
    exact nofun
  · rw [Function.update_of_ne hc, Function.update_of_ne hc]
    show (if c = 1 then Phase.known else Phase.gone) ≠ .awaits p
    split <;> exact nofun

theorem startsThread_run :
    Run (ShareStep subPlatform false) chrootStart startsThread (sharingAfter startsThread) := by
  have hstart : ∀ c, chrootStart.phase c ≠ .awaits 1 := by
    intro c
    show (if c = 1 then Phase.known else Phase.gone) ≠ .awaits 1
    split <;> exact nofun
  exact .cons ⟨⟨by decide, rfl, hstart⟩, rfl⟩ (.cons ⟨⟨by decide, rfl⟩, rfl⟩
    (.cons ⟨⟨by decide, fun c => started_phase c 2⟩, rfl⟩ (.nil _)))

theorem changesRoot_run :
    Run (ShareStep subPlatform false) chrootStart (startsThread ++ changesRoot)
      (sharingAfter (startsThread ++ changesRoot)) := by
  have henter : ShareStep subPlatform false (sharingAfter startsThread)
      ⟨.reports 1 (.stopped syscallStop), true⟩
      (sharingAfter (startsThread ++ [⟨.reports 1 (.stopped syscallStop), true⟩])) :=
    ⟨⟨by decide, fun c => started_phase c 1⟩, rfl⟩
  have hleave : ShareStep subPlatform false
      (sharingAfter (startsThread ++ [⟨.reports 1 (.stopped syscallStop), true⟩]))
      ⟨.reports 1 (.stopped syscallStop), true⟩ (sharingAfter (startsThread ++ changesRoot)) :=
    ⟨⟨by decide, fun c => started_phase c 1⟩, rfl⟩
  exact (startsThread_run.snoc henter).snoc hleave

/-- The thread of a process that has changed its root keeps the old one. -/
theorem chroot_of_thread :
    Run (ShareStep subPlatform false) chrootStart (startsThread ++ changesRoot)
      (sharingAfter (startsThread ++ changesRoot)) ∧
    rootFor (sharingAfter (startsThread ++ changesRoot)).e 1 = cstr "/r/sub" ∧
    rootFor (sharingAfter (startsThread ++ changesRoot)).e 2 = cstr "/r" ∧
    ¬SharesRoot (sharingAfter (startsThread ++ changesRoot)) := by
  have h1 : rootFor (sharingAfter (startsThread ++ changesRoot)).e 1 = cstr "/r/sub" := by
    decide +kernel
  have h2 : rootFor (sharingAfter (startsThread ++ changesRoot)).e 2 = cstr "/r" := by
    decide +kernel
  refine ⟨changesRoot_run, h1, h2, fun h => ?_⟩
  have heq := h 1 2 (by decide) (by decide) rfl
  rw [h1, h2] at heq
  exact absurd heq (by decide)

/-- Before that they have one root. -/
theorem roots_held_thread :
    rootFor (sharingAfter startsThread).e 1 = rootFor (sharingAfter startsThread).e 2 :=
  (roots_held startsThread_run).1 1 2 (by decide) (by decide) (by decide)

end Emuroot
