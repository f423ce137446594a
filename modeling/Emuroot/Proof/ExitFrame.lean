import Emuroot.Model.Fake
import Emuroot.Model.Rewrite

/-!
# What the exit of a call leaves alone

`MemOnly s s'`: only guest memory (and the note of the accesses to it) may differ. `onExit_regs`: of
the registers the exit of a call changes at most the one that carries the result. `afterCall` is a
whole call: its entry, what the kernel makes of it, and its exit.
-/

namespace Emuroot

variable {w : Nat} {σ : Type}

/-- What the kernel leaves behind when the call has run. -/
structure Kernel (w : Nat) (σ : Type) where
  regs : Regs w
  mem : GuestMem w
  fs : σ

/-- The state at the exit of a call that was entered in `s`. -/
def atExit (P : Platform w σ) (s : St w σ) (k : Kernel w σ) : St w σ :=
  { onEntry P s with regs := k.regs, mem := k.mem, fs := k.fs, log := [] }

/-- A call entered in `s`, run by the kernel and handled at its exit. -/
def afterCall (P : Platform w σ) (s : St w σ) (k : Kernel w σ) : St w σ := onExit P (atExit P s k)

structure MemOnly (s s' : St w σ) : Prop where
  t : s'.t = s.t
  regs : s'.regs = s.regs
  ctx : s'.ctx = s.ctx
  fs : s'.fs = s.fs

namespace MemOnly

variable {s s' s'' : St w σ}

theorem refl (s : St w σ) : MemOnly s s := ⟨rfl, rfl, rfl, rfl⟩

theorem trans (h : MemOnly s s') (h' : MemOnly s' s'') : MemOnly s s'' :=
  ⟨h'.t.trans h.t, h'.regs.trans h.regs, h'.ctx.trans h.ctx, h'.fs.trans h.fs⟩

end MemOnly

variable {P : Platform w σ}

theorem guestRead_memOnly (s : St w σ) (a : Word w) (n : Nat) : MemOnly s (s.guestRead a n).2 :=
  ⟨rfl, rfl, rfl, rfl⟩

theorem guestWrite_memOnly (s : St w σ) (a : Word w) (bs : List Byte) :
    MemOnly s (s.guestWrite a bs).2 := ⟨rfl, rfl, rfl, rfl⟩

theorem readU32_memOnly (s : St w σ) (a : Word w) : MemOnly s (readU32 P s a).2 :=
  guestRead_memOnly s a 4

theorem readDev_memOnly (s : St w σ) (buf : Word w) (l : StatLayout) :
    MemOnly s (readDev P s buf l).2 := by
  unfold readDev
  split
  · have h1 := readU32_memOnly (P := P) s (offset buf l.dev)
    generalize readU32 P s (offset buf l.dev) = q at h1 ⊢
    obtain ⟨major, s1⟩ := q
    cases major with
    | none => exact h1
    | some major => exact h1.trans (readU32_memOnly (P := P) s1 _)
  · exact guestRead_memOnly ..

theorem writeOwner_memOnly (s : St w σ) (buf : Word w) (l : StatLayout) (ids : Owner)
    (key : FileKey) : MemOnly s (writeOwner P s buf l ids key) := by
  unfold writeOwner
  split
  · exact (guestWrite_memOnly s _ _).trans (guestWrite_memOnly _ _ _)
  · have hw : ∀ (c : Prop) [Decidable c] (s1 : St w σ) (a : Word w) (bs : List Byte),
        MemOnly s1 (if c then (s1.guestWrite a bs).2 else s1) := by
      intro c _ s1 a bs
      split
      · exact guestWrite_memOnly s1 a bs
      · exact .refl s1
    exact (hw _ _ _ _).trans (hw _ _ _ _)

theorem fakeOwner_memOnly (s : St w σ) (buf : Word w) (l : StatLayout) :
    MemOnly s (fakeOwner P s buf l) := by
  unfold fakeOwner
  split
  · exact .refl s
  have h1 := readU32_memOnly (P := P) s (offset buf l.uid)
  generalize readU32 P s (offset buf l.uid) = q at h1 ⊢
  obtain ⟨uid, s1⟩ := q
  cases uid with
  | none => exact h1
  | some uid =>
  have h2 := readU32_memOnly (P := P) s1 (offset buf l.gid)
  dsimp only at h1 ⊢
  generalize readU32 P s1 (offset buf l.gid) = q at h2 ⊢
  obtain ⟨gid, s2⟩ := q
  cases gid with
  | none => exact h1.trans h2
  | some gid =>
  have h3 := (h1.trans h2).trans (guestRead_memOnly s2 (offset buf l.ino) 8)
  dsimp only at h3 ⊢
  split
  · exact h3
  · have h4 := readDev_memOnly (P := P) (s2.guestRead (offset buf l.ino) 8).2 buf l
    generalize readDev P (s2.guestRead (offset buf l.ino) 8).2 buf l = q at h4 ⊢
    obtain ⟨dev, s4⟩ := q
    cases dev with
    | none => exact h3.trans h4
    | some dev => exact (h3.trans h4).trans (writeOwner_memOnly ..)

theorem exitUname_memOnly (s : St w σ) (buf : Word w) (ret : Int) :
    MemOnly s (exitUname s buf ret) := by
  unfold exitUname
  split
  · exact .refl s
  · have h1 := guestRead_memOnly s buf sizeofUtsname
    dsimp only
    split
    · exact h1
    · exact h1.trans (guestWrite_memOnly ..)

/-! ## Registers -/

/-- Of the registers at most the one with the result differs. -/
def RetOnly (P : Platform w σ) (s s' : St w σ) : Prop := ∀ i, i ≠ P.arch.ret → s'.regs i = s.regs i

theorem RetOnly.refl (s : St w σ) : RetOnly P s s := fun _ _ => rfl

theorem RetOnly.of_regs {s s' : St w σ} (h : s'.regs = s.regs) : RetOnly P s s' := fun i _ => by rw [h]

theorem RetOnly.setRet {s s' : St w σ} (h : s'.regs = s.regs) (v : Int) :
    RetOnly P s (s'.setRet P v) := fun i hi => by
  rw [← h]
  exact Regs.put_of_ne s'.regs _ hi

theorem mapProcLink_regs (s : St w σ) (len : Nat) : RetOnly P s (mapProcLink P s len) := by
  unfold mapProcLink
  extract_lets isAt buf size
  split
  · exact .refl s
  dsimp only
  split
  · exact .refl s
  split
  · exact .refl s
  · split
    · exact .setRet rfl _
    · exact .refl s

theorem exitGetcwd_regs (s : St w σ) (buf : Word w) (ret : Int) :
    RetOnly P s (exitGetcwd P s buf ret) := by
  unfold exitGetcwd
  split
  · exact .refl s
  dsimp only
  split
  · exact .refl s
  split
  · exact .refl s
  · split
    · exact .setRet rfl _
    · exact .refl s

theorem emulateResult_regs (s : St w σ) (a : Action) (ret : Int) :
    (emulateResult P s a ret).1.regs = s.regs := by
  have hf : ∀ (b : Prop) [Decidable b] (buf : Word w) (l : StatLayout),
      (if b then fakeOwner P s buf l else s).regs = s.regs := by
    intro b _ buf l
    split
    · exact (fakeOwner_memOnly s buf l).regs
    · rfl
  cases a
  case getgroups => unfold emulateResult exitGetgroups; dsimp only; split <;> [rfl; split <;> rfl]
  case setgroups =>
    unfold emulateResult exitSetgroups
    dsimp only
    split
    · split <;> rfl
    · rfl
  case chown =>
    unfold emulateResult exitChown
    dsimp only
    split
    · rfl
    · split <;> rfl
  case stat2 => exact hf _ _ _
  case stat3 => exact hf _ _ _
  case statx => exact hf _ _ _
  all_goals rfl

theorem exitAction_regs (s : St w σ) (buf : Word w) (a : Action) (ret : Int) :
    RetOnly P s (exitAction P s buf a ret) := by
  unfold exitAction
  split
  · exact exitGetcwd_regs s buf ret
  split
  · split <;> exact .refl _
  split
  · exact .setRet rfl 0
  split
  · exact .setRet rfl 0
  split
  · split
    · exact .refl s
    · exact mapProcLink_regs s ret.toNat
  split
  · exact .of_regs (exitUname_memOnly s buf ret).regs
  split
  · exact .refl s
  · dsimp only
    split
    · exact .setRet (emulateResult_regs s a ret) _
    · exact .of_regs (emulateResult_regs s a ret)

theorem commitCreated_regs (s : St w σ) (ret : Int) : (commitCreated P s ret).regs = s.regs := by
  unfold commitCreated
  split <;> rfl

/-- **What the exit of a call changes of the registers**: at most the result. -/
theorem onExit_regs (s : St w σ) : RetOnly P s (onExit P s) := by
  unfold onExit onExitAt
  dsimp only
  split
  · exact .of_regs (commitCreated_regs ..)
  · intro i hi
    rw [exitAction_regs _ _ _ _ i hi, commitCreated_regs]

/-! ## The process -/

theorem exitGetcwd_t (s : St w σ) (buf : Word w) (ret : Int) : (exitGetcwd P s buf ret).t = s.t := by
  unfold exitGetcwd
  split
  · rfl
  dsimp only
  split
  · rfl
  split
  · rfl
  · split <;> rfl

theorem mapProcLink_t (s : St w σ) (len : Nat) : (mapProcLink P s len).t = s.t := by
  unfold mapProcLink
  extract_lets isAt buf size
  split
  · rfl
  dsimp only
  split
  · rfl
  split
  · rfl
  · split <;> rfl

/-- What the fake root does to the record is to its credentials. -/
theorem emulateResult_t (s : St w σ) (a : Action) (ret : Int) :
    (emulateResult P s a ret).1.t = { s.t with creds := (emulateResult P s a ret).1.t.creds } := by
  have hf : ∀ (b : Prop) [Decidable b] (buf : Word w) (l : StatLayout),
      (if b then fakeOwner P s buf l else s).t = s.t := by
    intro b _ buf l
    split
    · exact (fakeOwner_memOnly s buf l).t
    · rfl
  have hkept : ∀ {u : St w σ}, u.t = s.t → u.t = { s.t with creds := u.t.creds } := by
    intro u h
    rw [h]
  cases a
  case getgroups =>
    unfold emulateResult exitGetgroups
    dsimp only
    split
    · rfl
    · split <;> rfl
  case setgroups =>
    unfold emulateResult exitSetgroups
    dsimp only
    split
    · split <;> rfl
    · rfl
  case chown =>
    unfold emulateResult exitChown
    dsimp only
    split
    · rfl
    · split <;> rfl
  case stat2 => exact hkept (hf _ _ _)
  case stat3 => exact hkept (hf _ _ _)
  case statx => exact hkept (hf _ _ _)
  all_goals rfl

theorem exitAction_pid (s : St w σ) (buf : Word w) (a : Action) (ret : Int) :
    (exitAction P s buf a ret).t.pid = s.t.pid := by
  unfold exitAction
  split
  · rw [exitGetcwd_t]
  split
  · split <;> rfl
  split
  · rfl
  split
  · rfl
  split
  · split
    · rfl
    · rw [mapProcLink_t]
  split
  · rw [(exitUname_memOnly s buf ret).t]
  split
  · rfl
  · have h := congrArg Tracee.pid (emulateResult_t (P := P) s a ret)
    dsimp only
    split <;> exact h

/-- The record stays that of the process. -/
theorem onExit_pid (s : St w σ) : (onExit P s).t.pid = s.t.pid := by
  have hc : ∀ ret, (commitCreated P s ret).t.pid = s.t.pid := by
    intro ret
    unfold commitCreated
    split <;> rfl
  unfold onExit onExitAt
  dsimp only
  split
  · exact hc _
  · rw [exitAction_pid, hc]

end Emuroot
