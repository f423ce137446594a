import Emuroot.Model.Linux
import Emuroot.Model.Ptrace
import Emuroot.Proof.EntryFrame
import Emuroot.Proof.ExitFrame

/-!
# The guest buffers of a call's exit

`ExitByArgs`: the exit of a call reads and patches the buffers that the call's arguments gave at its
entry. It does so except where a layout has the first argument and the result in one register and
the exit of getcwd or uname takes its buffer from there (`exitByArgs_iff`).
-/

namespace Emuroot

variable {w : Nat} {σ : Type}

/-- Where an access starts. -/
def Access.addr : Access w → Word w
  | .read addr _ => addr
  | .readStr addr _ => addr
  | .write addr _ => addr

/-- The access is one of a field of a stat buffer. -/
def InStat (buf : Word w) (l : StatLayout) (acc : Access w) : Prop :=
  acc.addr ∈ [l.uid, l.gid, l.ino, l.dev, l.dev + 4].map (offset buf)

section
variable (P : Platform w σ)

/-- The access is one of a buffer that the arguments give. -/
def GivenBy (args : Fin 6 → Word w) (sysno : Int) (acc : Access w) : Option Action → Prop
  | some .getcwd | some .uname => acc.addr = args 0
  | some .readlink => acc.addr = args (if P.nr.is .readlinkat sysno then 2 else 1)
  | some .getresuid | some .getresgid => acc.addr ∈ [args 0, args 1, args 2]
  | some .getgroups | some .setgroups => acc.addr = args 1
  | some .stat2 => InStat (args 1) P.statLayout acc
  | some .stat3 => InStat (args 2) P.statLayout acc
  | some .statx => InStat (args 4) statxLayout acc
  | _ => False

/-- The exit of the call accesses the buffers that its arguments gave at the entry, and leaves what
an exit leaves that takes the first argument from there. -/
def ExitByArgs (s : St w σ) (kern : Kernel w σ) : Prop :=
  (∀ acc ∈ (afterCall P s kern).log,
    GivenBy P (fun i : Fin 6 => s.arg P (i + 1)) (s.regs P.arch.sysno).toInt acc
      (P.actionOf (s.regs P.arch.sysno).toInt)) ∧
  afterCall P s kern = onExitAt P (atExit P s kern) (s.arg P 1)

/-- The exit of the call has something to do with its first argument: a getcwd that returned a
length, or a uname that succeeded while there is a fake one. -/
def UsesFirst (s : St w σ) (kern : Kernel w σ) : Prop :=
  match P.actionOf (s.regs P.arch.sysno).toInt with
  | some .getcwd => 0 < (kern.regs P.arch.ret).toInt
  | some .uname => s.ctx.hasFakeUname ∧ (kern.regs P.arch.ret).toInt = 0
  | _ => False

end

variable {P : Platform w σ}

/-! ## The accesses of each exit -/

/-- What `s'` has noted beyond `s` are accesses that satisfy `Q`. -/
def LogBy (Q : Access w → Prop) (s s' : St w σ) : Prop :=
  ∃ l, s'.log = s.log ++ l ∧ ∀ acc ∈ l, Q acc

variable {Q : Access w → Prop} {s s' s'' : St w σ}

theorem LogBy.of_eq (h : s'.log = s.log) : LogBy Q s s' := ⟨[], by simp [h], by simp⟩

theorem LogBy.refl (s : St w σ) : LogBy Q s s := .of_eq rfl

theorem LogBy.trans (h : LogBy Q s s') (h' : LogBy Q s' s'') : LogBy Q s s'' := by
  obtain ⟨l, hl, hq⟩ := h
  obtain ⟨l', hl', hq'⟩ := h'
  refine ⟨l ++ l', by rw [hl', hl, List.append_assoc], fun acc ha => ?_⟩
  obtain ha | ha := List.mem_append.1 ha
  · exact hq acc ha
  · exact hq' acc ha

theorem LogBy.one {acc : Access w} (h : s'.log = s.log ++ [acc]) (hq : Q acc) : LogBy Q s s' :=
  ⟨[acc], h, by simpa using hq⟩

theorem readU32_log {a : Word w} (h : Q (.read a 4)) (s : St w σ) : LogBy Q s (readU32 P s a).2 :=
  .one rfl h

theorem guestRead_log {a : Word w} {n : Nat} (h : Q (.read a n)) (s : St w σ) :
    LogBy Q s (s.guestRead a n).2 := .one rfl h

theorem guestWrite_log {a : Word w} (bs : List Byte) (h : Q (.write a bs.length)) (s : St w σ) :
    LogBy Q s (s.guestWrite a bs).2 := .one rfl h

theorem guestRead_at (s : St w σ) (a : Word w) (n : Nat) :
    LogBy (fun acc => acc.addr = a) s (s.guestRead a n).2 := .one rfl rfl

theorem guestWrite_at (s : St w σ) (a : Word w) (bs : List Byte) :
    LogBy (fun acc => acc.addr = a) s (s.guestWrite a bs).2 := .one rfl rfl

theorem readDev_log (s : St w σ) (buf : Word w) (l : StatLayout) :
    LogBy (InStat buf l) s (readDev P s buf l).2 := by
  have hdev : ∀ n, InStat buf l (.read (offset buf l.dev) n) := fun n => by simp [InStat, Access.addr]
  have hminor : InStat buf l (.read (offset buf (l.dev + 4)) 4) := by simp [InStat, Access.addr]
  unfold readDev
  split
  · have h1 := readU32_log (P := P) (hdev 4) s
    generalize readU32 P s (offset buf l.dev) = q at h1 ⊢
    obtain ⟨major, s1⟩ := q
    cases major with
    | none => exact h1
    | some major => exact h1.trans (readU32_log (P := P) hminor s1)
  · exact guestRead_log (hdev 8) s

theorem writeOwner_log (s : St w σ) (buf : Word w) (l : StatLayout) (ids : Owner) (key : FileKey) :
    LogBy (InStat buf l) s (writeOwner P s buf l ids key) := by
  have huid : ∀ n, InStat buf l (.write (offset buf l.uid) n) := fun n => by simp [InStat, Access.addr]
  have hgid : ∀ n, InStat buf l (.write (offset buf l.gid) n) := fun n => by simp [InStat, Access.addr]
  unfold writeOwner
  split
  · exact (guestWrite_log _ (huid _) s).trans (guestWrite_log _ (hgid _) _)
  · have hw : ∀ (c : Prop) [Decidable c] (s1 : St w σ) (a : Word w) (bs : List Byte),
        InStat buf l (.write a bs.length) →
        LogBy (InStat buf l) s1 (if c then (s1.guestWrite a bs).2 else s1) := by
      intro c _ s1 a bs ha
      split
      · exact guestWrite_log _ ha s1
      · exact .refl s1
    exact (hw _ _ _ _ (huid _)).trans (hw _ _ _ _ (hgid _))

theorem fakeOwner_log (s : St w σ) (buf : Word w) (l : StatLayout) :
    LogBy (InStat buf l) s (fakeOwner P s buf l) := by
  have huid : InStat buf l (.read (offset buf l.uid) 4) := by simp [InStat, Access.addr]
  have hgid : InStat buf l (.read (offset buf l.gid) 4) := by simp [InStat, Access.addr]
  have hino : InStat buf l (.read (offset buf l.ino) 8) := by simp [InStat, Access.addr]
  unfold fakeOwner
  split
  · exact .refl s
  have h1 := readU32_log (P := P) huid s
  generalize readU32 P s (offset buf l.uid) = q at h1 ⊢
  obtain ⟨uid, s1⟩ := q
  cases uid with
  | none => exact h1
  | some uid =>
  have h2 := h1.trans (readU32_log (P := P) hgid s1)
  dsimp only at h2 ⊢
  generalize readU32 P s1 (offset buf l.gid) = q at h2 ⊢
  obtain ⟨gid, s2⟩ := q
  cases gid with
  | none => exact h2
  | some gid =>
  have h3 := h2.trans (guestRead_log hino s2)
  dsimp only at h3 ⊢
  split
  · exact h3
  · have h4 := h3.trans (readDev_log (P := P) (s2.guestRead (offset buf l.ino) 8).2 buf l)
    generalize readDev P (s2.guestRead (offset buf l.ino) 8).2 buf l = q at h4 ⊢
    obtain ⟨dev, s4⟩ := q
    cases dev with
    | none => exact h4
    | some dev => exact h4.trans (writeOwner_log ..)

theorem exitGetcwd_log (s : St w σ) (buf : Word w) (ret : Int) :
    LogBy (fun acc => acc.addr = buf) s (exitGetcwd P s buf ret) := by
  unfold exitGetcwd
  split
  · exact .refl s
  have h1 : LogBy (fun acc => acc.addr = buf) s (s.guestReadStr buf pathLen).2 := .one rfl rfl
  dsimp only
  split
  · exact h1
  split
  · exact h1
  · rename_i guest _
    have h2 := h1.trans (guestWrite_at _ buf (guest ++ [0]))
    split
    · exact h2
    · exact h2

theorem exitUname_log (s : St w σ) (buf : Word w) (ret : Int) :
    LogBy (fun acc => acc.addr = buf) s (exitUname s buf ret) := by
  unfold exitUname
  split
  · exact .refl s
  have h1 := guestRead_at s buf sizeofUtsname
  dsimp only
  split
  · exact h1
  · exact h1.trans (guestWrite_at ..)

theorem mapProcLink_log (s : St w σ) (len : Nat) :
    LogBy (fun acc => acc.addr = s.t.args (if P.nr.is .readlinkat s.t.sysno then 2 else 1)) s
      (mapProcLink P s len) := by
  unfold mapProcLink
  extract_lets isAt buf size
  show LogBy (fun acc => acc.addr = buf) s _
  split
  · exact .refl s
  have h1 := guestRead_at s buf len
  dsimp only
  split
  · exact h1
  split
  · exact h1
  · rename_i answer _
    have h2 := h1.trans (guestWrite_at _ buf (answer.take (min answer.length size.toNat)))
    split
    · exact h2
    · exact h2

theorem writeIds_log (s : St w σ) (ids : Ids) :
    LogBy (fun acc => acc.addr ∈ [s.t.args 0, s.t.args 1, s.t.args 2]) s (writeIds P s ids) := by
  refine ((guestWrite_log (bytesU32 P ids.real) ?_ s).trans
    (guestWrite_log (bytesU32 P ids.effective) ?_ _)).trans
    (guestWrite_log (bytesU32 P ids.saved) ?_ _)
  · exact List.mem_cons_self
  · exact List.mem_cons_of_mem _ List.mem_cons_self
  · exact List.mem_cons_of_mem _ (List.mem_cons_of_mem _ List.mem_cons_self)

theorem emulateResult_log (s : St w σ) (a : Action) (ret : Int) :
    LogBy (fun acc => GivenBy P s.t.args s.t.sysno acc (some a)) s (emulateResult P s a ret).1 := by
  have hf : ∀ (b : Prop) [Decidable b] (buf : Word w) (l : StatLayout),
      LogBy (InStat buf l) s (if b then fakeOwner P s buf l else s) := by
    intro b _ buf l
    split
    · exact fakeOwner_log s buf l
    · exact .refl s
  cases a
  case getresuid => exact writeIds_log ..
  case getresgid => exact writeIds_log ..
  case getgroups =>
    unfold emulateResult exitGetgroups
    dsimp only
    split
    · exact .refl s
    · split
      · exact guestWrite_at s (s.t.args 1) _
      · exact .refl s
  case setgroups =>
    unfold emulateResult exitSetgroups
    dsimp only
    split
    · have h1 := guestRead_at s (s.t.args 1) ((s.t.args 0).toInt.toNat * 4)
      split
      · exact h1
      · exact h1
    · exact .of_eq rfl
  case chown =>
    unfold emulateResult exitChown
    dsimp only
    split
    · exact .refl s
    · split <;> exact .of_eq rfl
  case stat2 => exact hf _ _ _
  case stat3 => exact hf _ _ _
  case statx => exact hf _ _ _
  all_goals exact .of_eq rfl

/-- With the first argument as it was at the entry, an exit accesses given buffers only. -/
theorem exitAction_log (s : St w σ) (a : Action) (ret : Int) :
    LogBy (fun acc => GivenBy P s.t.args s.t.sysno acc (some a)) s
      (exitAction P s (s.t.args 0) a ret) := by
  unfold exitAction
  split
  · rename_i h
    subst h
    exact exitGetcwd_log ..
  split
  · split <;> exact .of_eq rfl
  split
  · exact .of_eq rfl
  split
  · exact .of_eq rfl
  split
  · rename_i h
    subst h
    split
    · exact .refl s
    · exact mapProcLink_log ..
  split
  · rename_i h
    subst h
    exact exitUname_log ..
  split
  · exact .refl s
  · have h := emulateResult_log (P := P) s a ret
    dsimp only
    split
    · exact h
    · exact h

/-! ## Whole calls -/

/-- The exit knows the call's number and its arguments as they were at the entry. -/
theorem atExit_t (P : Platform w σ) (s : St w σ) (kern : Kernel w σ) :
    (atExit P s kern).t.lasting = (resetCall P s).t.lasting := (onEntry_frame s).t

theorem atExit_args (P : Platform w σ) (s : St w σ) (kern : Kernel w σ) :
    (atExit P s kern).t.args = fun i : Fin 6 => s.arg P (i + 1) :=
  congrArg Tracee.args (atExit_t P s kern)

theorem atExit_sysno (P : Platform w σ) (s : St w σ) (kern : Kernel w σ) :
    (atExit P s kern).t.sysno = (s.regs P.arch.sysno).toInt :=
  congrArg Tracee.sysno (atExit_t P s kern)

theorem commitCreated_same (s : St w σ) (ret : Int) :
    (commitCreated P s ret).t.args = s.t.args ∧ (commitCreated P s ret).t.sysno = s.t.sysno ∧
    (commitCreated P s ret).log = s.log ∧
    (commitCreated P s ret).ctx.hasFakeUname = s.ctx.hasFakeUname := by
  unfold commitCreated
  split <;> exact ⟨rfl, rfl, rfl, rfl⟩

/-- Taking the first argument from the entry, the exit of a call accesses given buffers only. -/
theorem onExitAt_given (s : St w σ) (kern : Kernel w σ) :
    ∀ acc ∈ (onExitAt P (atExit P s kern) (s.arg P 1)).log,
      GivenBy P (fun i : Fin 6 => s.arg P (i + 1)) (s.regs P.arch.sysno).toInt acc
        (P.actionOf (s.regs P.arch.sysno).toInt) := by
  obtain ⟨ha, hn, hl, -⟩ := commitCreated_same (P := P) (atExit P s kern)
    ((atExit P s kern).regs P.arch.ret).toInt
  rw [atExit_args] at ha
  rw [atExit_sysno] at hn
  unfold onExitAt
  dsimp only
  generalize commitCreated P (atExit P s kern) _ = s1 at ha hn hl ⊢
  rw [hn]
  have hl : s1.log = [] := hl
  cases P.actionOf (s.regs P.arch.sysno).toInt with
  | none => simp [hl]
  | some a =>
    obtain ⟨l, h, hq⟩ := exitAction_log (P := P) s1 a ((atExit P s kern).regs P.arch.ret).toInt
    rw [ha, hn] at hq
    rw [hl, List.nil_append, ha] at h
    intro acc hacc
    rw [show (s.arg P 1 : Word w) = (fun i : Fin 6 => s.arg P (i + 1)) 0 from rfl, h] at hacc
    exact hq acc hacc

/-! ## The calls that use their first argument at the exit -/

/-- The call of an exit that uses the first argument. -/
theorem UsesFirst.action {s : St w σ} {kern : Kernel w σ} (h : UsesFirst P s kern) :
    P.actionOf (s.regs P.arch.sysno).toInt = some .getcwd ∧ 0 < (kern.regs P.arch.ret).toInt ∨
    P.actionOf (s.regs P.arch.sysno).toInt = some .uname ∧ s.ctx.hasFakeUname ∧
      (kern.regs P.arch.ret).toInt = 0 := by
  unfold UsesFirst at h
  split at h
  · exact .inl ⟨‹_›, h⟩
  · exact .inr ⟨‹_›, h⟩
  · exact h.elim

/-- Neither getcwd nor uname has an argument rewritten. -/
theorem entrySlots_nil {sysno : Int} {a : Action} (h : P.actionOf sysno = some a)
    (ha : a ∈ [Action.getcwd, .uname]) : entrySlots P sysno = [] := by
  have hn : ∀ x ∈ pathTable.map (·.nr) ++ [.bind, .connect, .sendto, .execve, .execveat],
      P.nr.is x sysno = false := by
    intro x hx
    have hd : ∀ a ∈ [Action.getcwd, .uname], ∀ d ∈ actionTable, d.action = a →
        d.nr ∉ pathTable.map (·.nr) ++ [.bind, .connect, .sendto, .execve, .execveat] := by
      decide +kernel
    exact is_of_action h fun d hd' he hx' => hd a ha d hd' he (hx' ▸ hx)
  have hf : findPathSyscall P.nr sysno = none :=
    List.find?_eq_none.2 fun d hd =>
      by simp [hn d.nr (List.mem_append_left _ (List.mem_map_of_mem hd))]
  simp only [List.forall_mem_append, List.forall_mem_cons] at hn
  obtain ⟨-, hb, hc, hs, he, hea, -⟩ := hn
  have hi : idSlots (some a) = [] ∧ mountSlots P.nr sysno (some a) = [] := by
    obtain rfl | rfl : a = .getcwd ∨ a = .uname := by simpa using ha
    · exact ⟨rfl, rfl⟩
    · exact ⟨rfl, rfl⟩
  simp [entrySlots, pathSlots, h, hi.1, hi.2, hb, hc, hs, he, hea, hf]

/-- The first argument as the kernel leaves it, where it keeps what it does not answer in. -/
theorem UsesFirst.arg1 {s : St w σ} {kern : Kernel w σ} (h : UsesFirst P s kern)
    (hk : P.arch.arg1 ≠ P.arch.ret → kern.regs P.arch.arg1 = (onEntry P s).regs P.arch.arg1)
    (hne : P.arch.arg1 ≠ P.arch.ret) : kern.regs P.arch.arg1 = s.arg P 1 := by
  have hs : entrySlots P (s.regs P.arch.sysno).toInt = [] := by
    obtain ⟨ha, -⟩ | ⟨ha, -⟩ := h.action
    · exact entrySlots_nil ha (by simp)
    · exact entrySlots_nil ha (by simp)
  have hr := (onEntry_frame (P := P) s).regs P.arch.arg1
  rw [hs] at hr
  rw [hk hne, hr (by simp)]
  rfl

theorem uname_ctx {s : St w σ} (kern : Kernel w σ)
    (h : P.actionOf (s.regs P.arch.sysno).toInt = some .uname) : (atExit P s kern).ctx = s.ctx := by
  have hp : Plain P (s.regs P.arch.sysno).toInt .uname := ⟨h, by decide, by decide⟩
  have hc : (plainEntry P s .uname).ctx = s.ctx := by
    unfold plainEntry identityEntry
    split <;> rfl
  exact hp.onEntry.ctx.trans hc

/-- An exit that uses the first argument accesses the buffer that it takes for it. -/
theorem UsesFirst.access {s : St w σ} {kern : Kernel w σ} (h : UsesFirst P s kern) (buf : Word w) :
    ∃ acc ∈ (onExitAt P (atExit P s kern) buf).log, acc.addr = buf := by
  obtain ⟨-, hn, hl, hu⟩ := commitCreated_same (P := P) (atExit P s kern) (kern.regs P.arch.ret).toInt
  rw [atExit_sysno] at hn
  unfold onExitAt
  rw [show (atExit P s kern).regs = kern.regs from rfl]
  dsimp only
  generalize commitCreated P (atExit P s kern) _ = s1 at hn hl hu ⊢
  rw [hn]
  have hfirst : ∀ {s2 : St w σ} (acc : Access w), acc ∈ s2.log → acc.addr = buf →
      ∃ acc ∈ s2.log, acc.addr = buf := fun acc ha hb => ⟨acc, ha, hb⟩
  obtain ⟨ha, hr⟩ | ⟨ha, hf, hr⟩ := h.action
  · rw [ha]
    show ∃ acc ∈ (exitGetcwd P s1 buf _).log, acc.addr = buf
    refine hfirst (.readStr buf pathLen) ?_ rfl
    unfold exitGetcwd
    rw [if_neg (by omega)]
    dsimp only
    split
    · simp [St.guestReadStr]
    split
    · simp [St.guestReadStr]
    · split <;> simp [St.guestReadStr, St.guestWrite, St.setRet]
  · rw [uname_ctx kern ha] at hu
    rw [ha]
    show ∃ acc ∈ (exitUname s1 buf _).log, acc.addr = buf
    refine hfirst (.read buf sizeofUtsname) ?_ rfl
    unfold exitUname
    rw [if_neg (by simp [hu, hf, hr])]
    dsimp only
    split
    · simp [St.guestRead]
    · simp [St.guestRead, St.guestWrite]

theorem UsesFirst.given {s : St w σ} {kern : Kernel w σ} (h : UsesFirst P s kern) {acc : Access w}
    (hg : GivenBy P (fun i : Fin 6 => s.arg P (i + 1)) (s.regs P.arch.sysno).toInt acc
      (P.actionOf (s.regs P.arch.sysno).toInt)) : acc.addr = s.arg P 1 := by
  obtain ⟨ha, -⟩ | ⟨ha, -⟩ := h.action
  · rw [ha] at hg
    exact hg
  · rw [ha] at hg
    exact hg

/-- Elsewhere it does not matter what is taken for the first argument. -/
theorem onExitAt_unused {s : St w σ} {kern : Kernel w σ} (h : ¬UsesFirst P s kern)
    (buf buf' : Word w) : onExitAt P (atExit P s kern) buf = onExitAt P (atExit P s kern) buf' := by
  obtain ⟨-, hn, -, hu⟩ := commitCreated_same (P := P) (atExit P s kern) (kern.regs P.arch.ret).toInt
  rw [atExit_sysno] at hn
  unfold onExitAt
  rw [show (atExit P s kern).regs = kern.regs from rfl]
  dsimp only
  generalize commitCreated P (atExit P s kern) _ = s1 at hn hu ⊢
  rw [hn]
  unfold UsesFirst at h
  cases ha : P.actionOf (s.regs P.arch.sysno).toInt with
  | none => rfl
  | some a =>
    rw [ha] at h
    dsimp only
    by_cases hg : a = .getcwd
    · subst hg
      have hr : (kern.regs P.arch.ret).toInt ≤ 0 := Int.not_lt.1 h
      show exitGetcwd P s1 buf _ = exitGetcwd P s1 buf' _
      rw [exitGetcwd, exitGetcwd, if_pos hr, if_pos hr]
    by_cases hun : a = .uname
    · subst hun
      rw [uname_ctx kern ha] at hu
      have hc : !s1.ctx.hasFakeUname ∨ (kern.regs P.arch.ret).toInt ≠ 0 := by
        rw [hu]
        by_cases hf : s.ctx.hasFakeUname = true
        · exact .inr fun hr => h ⟨hf, hr⟩
        · exact .inl (by simpa using hf)
      show exitUname s1 buf _ = exitUname s1 buf' _
      rw [exitUname, exitUname, if_pos hc, if_pos hc]
    · simp only [exitAction, if_neg hg, if_neg hun]

/-- **The exit goes by the arguments of the entry**, but for a getcwd or uname whose result has
taken the register of its first argument. -/
theorem exitByArgs_iff {s : St w σ} {kern : Kernel w σ}
    (hk : P.arch.arg1 ≠ P.arch.ret → kern.regs P.arch.arg1 = (onEntry P s).regs P.arch.arg1) :
    ExitByArgs P s kern ↔
      ¬(P.arch.arg1 = P.arch.ret ∧ UsesFirst P s kern ∧ kern.regs P.arch.ret ≠ s.arg P 1) := by
  have hx : afterCall P s kern = onExitAt P (atExit P s kern) (kern.regs P.arch.arg1) := rfl
  have hby : onExitAt P (atExit P s kern) (kern.regs P.arch.arg1) =
      onExitAt P (atExit P s kern) (s.arg P 1) → ExitByArgs P s kern := by
    intro he
    refine ⟨?_, hx.trans he⟩
    rw [hx, he]
    exact onExitAt_given s kern
  constructor
  · rintro ⟨hg, -⟩ ⟨heq, hu, hne⟩
    obtain ⟨acc, ha, hb⟩ := hu.access (kern.regs P.arch.arg1)
    have hs := hu.given (hg acc (hx ▸ ha))
    rw [heq] at hb
    exact hne (hb.symm.trans hs)
  · intro h
    by_cases hu : UsesFirst P s kern
    · refine hby (congrArg _ ?_)
      by_cases heq : P.arch.arg1 = P.arch.ret
      · by_contra hne
        exact h ⟨heq, hu, heq ▸ hne⟩
      · exact hu.arg1 hk heq
    · exact hby (onExitAt_unused hu _ _)

/-! ## A getcwd on two layouts -/

/-- The host of aarch64, with the calls of this example. -/
def aarch64Host : Platform 64 Unit :=
  { linuxPlatform with
    arch := aarch64
    nr := .ofList [(.getcwd, 17), (.uname, 160)] (by decide) }

/-- Registers of a layout with a call's number, its first argument and its result. -/
def layoutRegs (A : Arch 64) (nr arg ret : Word 64) : Regs 64 :=
  ((Regs.put (fun _ => 0) A.sysno nr).put A.arg1 arg).put A.ret ret

/-- The text that the kernel left at 4096. -/
def cwdMem (cwd : CStr) : GuestMem 64 where
  byte := fun a => some ((cwd ++ [0]).getD (a.toNat - 4096) 0)
  writable := fun _ => true
  errno := 0

def rootedCtx : Ctx := { Ctx.create with root := cstr "/r" }

/-- `getcwd(4096, …)` in `/r/etc`. -/
def getcwdCall (A : Arch 64) (nr : Word 64) : St 64 Unit where
  t := (traceeNew rootedCtx 7 none).toTracee
  regs := layoutRegs A nr 4096 4096
  mem := cwdMem []
  ctx := rootedCtx
  fs := ()
  log := []

def getcwdDone (A : Arch 64) (nr : Word 64) : Kernel 64 Unit :=
  ⟨layoutRegs A nr 4096 7, cwdMem (cstr "/r/etc"), ()⟩

theorem exitByArgs_x86_64 : ExitByArgs linuxPlatform (getcwdCall x86_64 79) (getcwdDone x86_64 79) :=
  (exitByArgs_iff fun _ => by decide +kernel).2 fun h => absurd h.1 (by decide)

/-- On aarch64 the text is looked for at address 7. -/
theorem not_exitByArgs_aarch64 :
    ¬ExitByArgs aarch64Host (getcwdCall aarch64 17) (getcwdDone aarch64 17) := by
  intro h
  have hact : aarch64Host.actionOf ((getcwdCall aarch64 17).regs aarch64Host.arch.sysno).toInt =
      some .getcwd := by decide +kernel
  have hu : UsesFirst aarch64Host (getcwdCall aarch64 17) (getcwdDone aarch64 17) := by
    unfold UsesFirst
    rw [hact]
    exact (by decide +kernel : 0 < ((getcwdDone aarch64 17).regs aarch64Host.arch.ret).toInt)
  obtain ⟨acc, hacc, haddr⟩ := hu.access ((getcwdDone aarch64 17).regs aarch64Host.arch.arg1)
  have hgiven := hu.given (h.1 acc hacc)
  exact absurd (haddr.symm.trans hgiven) (by decide +kernel)

end Emuroot
