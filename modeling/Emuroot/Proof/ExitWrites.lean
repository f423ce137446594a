import Emuroot.Lib.Footprint
import Emuroot.Proof.ExitFrame
import Emuroot.Proof.Fakeroot
import Emuroot.Proof.Lookups

/-!
# What the exit of a call writes

`onExitAt_writes`: the exit of a call changes the guest's memory in the result buffers of the call
only, and of these no more than `ExitRegion` says.
-/

namespace Emuroot

variable {w : Nat} {σ : Type}

/-- The ids in a stat buffer. -/
def ownerRegion (buf : Word w) (l : StatLayout) : Set (Word w) :=
  Memory.range (offset buf l.uid) 4 ∪ Memory.range (offset buf l.gid) 4

/-- What the exit of a call may write, for the arguments it had at its entry; the buffer of getcwd
and uname is at `buf`. The others keep to the size that the guest gives. -/
def ExitRegion (P : Platform w σ) (t : Tracee w) (buf : Word w) : Option Action → Set (Word w)
  | some .getcwd => Memory.range buf pathLen
  | some .uname => Memory.range buf sizeofUtsname
  | some .readlink =>
    let isAt := P.nr.is .readlinkat t.sysno
    Memory.range (t.args (if isAt then 2 else 1)) (t.args (if isAt then 3 else 2)).toNat
  | some .getresuid | some .getresgid =>
    Memory.range (t.args 0) 4 ∪ Memory.range (t.args 1) 4 ∪ Memory.range (t.args 2) 4
  | some .getgroups => Memory.range (t.args 1) (4 * (t.args 0).toNat)
  | some .stat2 => ownerRegion (t.args 1) P.statLayout
  | some .stat3 => ownerRegion (t.args 2) P.statLayout
  | some .statx => ownerRegion (t.args 4) statxLayout
  | _ => ∅

variable {P : Platform w σ} {s s' s'' : St w σ} {S : Set (Word w)} {buf : Word w}

/-- The handler leaves the host, and of the guest's memory it changes bytes in `S` only. -/
structure Writes (S : Set (Word w)) (s s' : St w σ) : Prop where
  mem : Memory.SameBut S s.mem.toMemory s'.mem.toMemory
  fs : s'.fs = s.fs

namespace Writes

theorem of_same (h : s'.mem = s.mem ∧ s'.fs = s.fs) : Writes S s s' :=
  ⟨by rw [h.1]; exact .refl _ _, h.2⟩

theorem refl (s : St w σ) : Writes S s s := of_same ⟨rfl, rfl⟩

theorem trans (h : Writes S s s') (h' : Writes S s' s'') : Writes S s s'' :=
  ⟨h.mem.trans h'.mem, h'.fs.trans h.fs⟩

theorem guestWrite (s : St w σ) {a : Word w} {bs : List Byte}
    (h : Memory.range a bs.length ⊆ S) : Writes S s (s.guestWrite a bs).2 :=
  ⟨Memory.SameBut.write _ h, rfl⟩

end Writes

/-! ## Each exit -/

theorem readDev_same (s : St w σ) (buf : Word w) (l : StatLayout) :
    (readDev P s buf l).2.mem = s.mem ∧ (readDev P s buf l).2.fs = s.fs := by
  unfold readDev
  split
  · have h1 : (readU32 P s (offset buf l.dev)).2.mem = s.mem ∧
        (readU32 P s (offset buf l.dev)).2.fs = s.fs := ⟨rfl, rfl⟩
    generalize readU32 P s (offset buf l.dev) = q at h1 ⊢
    obtain ⟨major, s1⟩ := q
    cases major with
    | none => exact h1
    | some major => exact h1
  · exact ⟨rfl, rfl⟩

theorem writeOwner_writes (s : St w σ) (buf : Word w) (l : StatLayout) (ids : Owner) (key : FileKey) :
    Writes (ownerRegion buf l) s (writeOwner P s buf l ids key) := by
  have huid : ∀ (s : St w σ) v, Writes (ownerRegion buf l) s
      (s.guestWrite (offset buf l.uid) (bytesU32 P v)).2 := fun s v =>
    .guestWrite s (by rw [length_bytesU32]; exact Set.subset_union_left)
  have hgid : ∀ (s : St w σ) v, Writes (ownerRegion buf l) s
      (s.guestWrite (offset buf l.gid) (bytesU32 P v)).2 := fun s v =>
    .guestWrite s (by rw [length_bytesU32]; exact Set.subset_union_right)
  unfold writeOwner
  split
  · exact (huid s _).trans (hgid _ _)
  · have h1 : Writes (ownerRegion buf l) s (if ids.uid = P.geteuid then
        (s.guestWrite (offset buf l.uid) (bytesU32 P s.ctx.fakeUid)).2 else s) := by
      split
      · exact huid s _
      · exact .refl s
    dsimp only
    split
    · exact h1.trans (hgid _ _)
    · exact h1

theorem fakeOwner_writes (s : St w σ) (buf : Word w) (l : StatLayout) :
    Writes (ownerRegion buf l) s (fakeOwner P s buf l) := by
  unfold fakeOwner
  split
  · exact .refl s
  have h1 : (readU32 P s (offset buf l.uid)).2.mem = s.mem ∧
      (readU32 P s (offset buf l.uid)).2.fs = s.fs := ⟨rfl, rfl⟩
  generalize readU32 P s (offset buf l.uid) = q at h1 ⊢
  obtain ⟨uid, s1⟩ := q
  cases uid with
  | none => exact .of_same h1
  | some uid =>
    have h2 : (readU32 P s1 (offset buf l.gid)).2.mem = s.mem ∧
        (readU32 P s1 (offset buf l.gid)).2.fs = s.fs := h1
    dsimp only at h2 ⊢
    generalize readU32 P s1 (offset buf l.gid) = q at h2 ⊢
    obtain ⟨gid, s2⟩ := q
    cases gid with
    | none => exact .of_same h2
    | some gid =>
      have h3 : (s2.guestRead (offset buf l.ino) 8).2.mem = s.mem ∧
          (s2.guestRead (offset buf l.ino) 8).2.fs = s.fs := h2
      dsimp only at h3 ⊢
      split
      · exact .of_same h3
      · have hdev := readDev_same (P := P) (s2.guestRead (offset buf l.ino) 8).2 buf l
        have h4 := And.intro (hdev.1.trans h3.1) (hdev.2.trans h3.2)
        generalize readDev P (s2.guestRead (offset buf l.ino) 8).2 buf l = q at h4 ⊢
        obtain ⟨dev, s4⟩ := q
        cases dev with
        | none => exact .of_same h4
        | some dev => exact (Writes.of_same h4).trans (writeOwner_writes ..)

theorem exitGetcwd_writes (s : St w σ) (buf : Word w) (ret : Int) :
    Writes (Memory.range buf pathLen) s (exitGetcwd P s buf ret) := by
  unfold exitGetcwd
  split
  · exact .refl s
  have h1 : (s.guestReadStr buf pathLen).2.mem = s.mem ∧ (s.guestReadStr buf pathLen).2.fs = s.fs :=
    ⟨rfl, rfl⟩
  generalize s.guestReadStr buf pathLen = q at h1 ⊢
  obtain ⟨cwd, s1⟩ := q
  cases cwd with
  | none => exact .of_same h1
  | some cwd =>
    dsimp only
    split
    · exact .of_same h1
    · rename_i guest hg
      have hlen : (guest ++ [0]).length ≤ pathLen := by
        rw [List.length_append]
        exact length_hostToGuest_lt hg
      have hw := (Writes.of_same h1).trans
        (Writes.guestWrite (S := Memory.range buf pathLen) s1 (Memory.range_mono hlen))
      split
      · exact ⟨hw.mem, hw.fs⟩
      · exact hw

theorem mapProcLink_writes (s : St w σ) (len : Nat) :
    Writes (ExitRegion P s.t buf (some .readlink)) s (mapProcLink P s len) := by
  unfold mapProcLink
  extract_lets isAt b size
  split
  · exact .refl s
  have h1 : (s.guestRead b len).2.mem = s.mem ∧ (s.guestRead b len).2.fs = s.fs := ⟨rfl, rfl⟩
  generalize s.guestRead b len = q at h1 ⊢
  obtain ⟨got, s1⟩ := q
  dsimp only at h1 ⊢
  split
  · exact .of_same h1
  split
  · exact .of_same h1
  · rename_i answer _
    have hlen : (answer.take (min answer.length size.toNat)).length ≤ size.toNat := by
      rw [List.length_take]
      omega
    have hw := (Writes.of_same h1).trans
      (Writes.guestWrite (S := ExitRegion P s.t buf (some .readlink)) s1 (Memory.range_mono hlen))
    split
    · exact ⟨hw.mem, hw.fs⟩
    · exact hw

theorem length_putUtsField {u : List Byte} {i : Nat} (hu : u.length = sizeofUtsname) (hi : i < 6)
    (text : CStr) : (putUtsField u i text).length = sizeofUtsname := by
  have htext : (snprintf utsField text ++ [0]).length ≤ utsField := by
    have h := length_snprintf_le utsField text
    rw [List.length_append, List.length_singleton]
    have hpos : 0 < utsField := by decide
    omega
  have hroom : i * utsField + utsField ≤ sizeofUtsname := by
    have h := Nat.mul_le_mul_right utsField (Nat.succ_le_of_lt hi)
    rwa [Nat.succ_mul] at h
  rw [putUtsField, List.length_append, List.length_append, List.length_take, List.length_drop, hu]
  omega

theorem exitUname_writes (s : St w σ) (buf : Word w) (ret : Int) :
    Writes (Memory.range buf sizeofUtsname) s (exitUname s buf ret) := by
  unfold exitUname
  split
  · exact .refl s
  have h1 : (s.guestRead buf sizeofUtsname).2.mem = s.mem ∧
      (s.guestRead buf sizeofUtsname).2.fs = s.fs := ⟨rfl, rfl⟩
  generalize s.guestRead buf sizeofUtsname = q at h1 ⊢
  obtain ⟨u, s1⟩ := q
  dsimp only at h1 ⊢
  split
  · exact .of_same h1
  · rename_i hu
    refine (Writes.of_same h1).trans (.guestWrite s1 (Memory.range_mono (Nat.le_of_eq ?_)))
    have hu := not_not.1 hu
    have h0 := length_putUtsField hu (by decide : 0 < 6) s1.ctx.unameSysname
    have h2 := length_putUtsField h0 (by decide : 2 < 6) s1.ctx.unameRelease
    exact length_putUtsField h2 (by decide : 4 < 6) s1.ctx.unameMachine

theorem writeIds_writes (s : St w σ) (ids : Ids) :
    Writes (Memory.range (s.t.args 0) 4 ∪ Memory.range (s.t.args 1) 4 ∪ Memory.range (s.t.args 2) 4) s
      (writeIds P s ids) := by
  have h4 : ∀ v, (bytesU32 P v).length ≤ 4 := fun v => Nat.le_of_eq (length_bytesU32 v)
  unfold writeIds
  dsimp only
  refine (Writes.guestWrite s ?_).trans ((Writes.guestWrite _ ?_).trans (.guestWrite _ ?_))
  · exact (Memory.range_mono (h4 _)).trans (Set.subset_union_left.trans Set.subset_union_left)
  · exact (Memory.range_mono (h4 _)).trans (Set.subset_union_right.trans Set.subset_union_left)
  · exact (Memory.range_mono (h4 _)).trans Set.subset_union_right

theorem exitGetgroups_writes (s : St w σ) :
    Writes (Memory.range (s.t.args 1) (4 * (s.t.args 0).toNat)) s (exitGetgroups P s).1 := by
  unfold exitGetgroups
  dsimp only
  split
  · exact .refl s
  split
  · rename_i hroom h0
    refine .guestWrite s (Memory.range_mono ?_)
    have hlen : (s.t.creds.groups.flatMap (bytesU32 P)).length = 4 * s.t.creds.groups.length := by
      rw [List.length_flatMap]
      simp [length_bytesU32, Nat.mul_comm]
    -- there is room for as many groups as the first argument says
    have hle : (s.t.creds.groups.length : Int) ≤ (s.t.args 0).toInt := by
      by_contra hlt
      exact hroom ⟨h0, by omega⟩
    have hnat : (s.t.args 0).toInt ≤ (s.t.args 0).toNat := by
      rw [BitVec.toInt_eq_toNat_cond]
      split
      · exact Int.le_refl _
      · omega
    rw [hlen]
    omega
  · exact .refl s

theorem exitSetgroups_same (s : St w σ) :
    (exitSetgroups P s).1.mem = s.mem ∧ (exitSetgroups P s).1.fs = s.fs := by
  unfold exitSetgroups
  dsimp only
  split
  · split
    · exact ⟨rfl, rfl⟩
    · exact ⟨rfl, rfl⟩
  · exact ⟨rfl, rfl⟩

theorem exitChown_same (s : St w σ) (ret : Int) :
    (exitChown P s ret).1.mem = s.mem ∧ (exitChown P s ret).1.fs = s.fs := by
  unfold exitChown
  dsimp only
  split
  · exact ⟨rfl, rfl⟩
  · split
    · exact ⟨rfl, rfl⟩
    · exact ⟨rfl, rfl⟩

theorem emulateResult_writes (P : Platform w σ) (buf : Word w) (s : St w σ) (a : Action)
    (ret : Int) :
    Writes (ExitRegion P s.t buf (some a)) s (emulateResult P s a ret).1 := by
  have hstat : ∀ (b : Word w) (l : StatLayout),
      Writes (ownerRegion b l) s (if ret = 0 then fakeOwner P s b l else s) := by
    intro b l
    split
    · exact fakeOwner_writes ..
    · exact .refl s
  cases a
  case getresuid => exact writeIds_writes ..
  case getresgid => exact writeIds_writes ..
  case getgroups => exact exitGetgroups_writes s
  case setgroups => exact .of_same (exitSetgroups_same s)
  case chown => exact .of_same (exitChown_same s ret)
  case stat2 => exact hstat _ _
  case stat3 => exact hstat _ _
  case statx => exact hstat _ _
  all_goals exact .of_same ⟨rfl, rfl⟩

theorem exitAction_writes (s : St w σ) (buf : Word w) (a : Action) (ret : Int) :
    Writes (ExitRegion P s.t buf (some a)) s (exitAction P s buf a ret) := by
  unfold exitAction
  split
  · rename_i h
    subst h
    exact exitGetcwd_writes ..
  split
  · split
    · exact .of_same ⟨rfl, rfl⟩
    · exact .refl s
  split
  · exact .of_same ⟨rfl, rfl⟩
  split
  · exact .of_same ⟨rfl, rfl⟩
  split
  · rename_i h
    subst h
    split
    · exact .refl s
    · exact mapProcLink_writes ..
  split
  · rename_i h
    subst h
    exact exitUname_writes ..
  split
  · exact .refl s
  · have h := emulateResult_writes P buf s a ret
    dsimp only
    split
    · exact ⟨h.mem, h.fs⟩
    · exact h

/-- **The exit writes into the result buffers only**, and leaves the host as it is. -/
theorem onExitAt_writes (s : St w σ) (buf : Word w) :
    Writes (ExitRegion P s.t buf (P.actionOf s.t.sysno)) s (onExitAt P s buf) := by
  have hsame : ∀ ret, (commitCreated P s ret).mem = s.mem ∧ (commitCreated P s ret).fs = s.fs ∧
      (commitCreated P s ret).t.args = s.t.args ∧ (commitCreated P s ret).t.sysno = s.t.sysno := by
    intro ret
    unfold commitCreated
    split <;> exact ⟨rfl, rfl, rfl, rfl⟩
  unfold onExitAt
  dsimp only
  obtain ⟨hmem, hfs, hargs, hsysno⟩ := hsame (s.regs P.arch.ret).toInt
  generalize commitCreated P s (s.regs P.arch.ret).toInt = u at hmem hfs hargs hsysno ⊢
  rw [hsysno]
  cases ha : P.actionOf s.t.sysno with
  | none => exact .of_same ⟨hmem, hfs⟩
  | some a =>
    have hregion : ExitRegion P u.t buf (some a) = ExitRegion P s.t buf (some a) := by
      unfold ExitRegion
      rw [hargs, hsysno]
    rw [← hregion]
    exact (Writes.of_same ⟨hmem, hfs⟩).trans (exitAction_writes ..)

end Emuroot
