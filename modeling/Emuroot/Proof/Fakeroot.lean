import Emuroot.Lib.LinuxCreds
import Emuroot.Lib.Runs
import Emuroot.Model.Linux
import Emuroot.Model.Ptrace
import Emuroot.Proof.EntryFrame
import Emuroot.Proof.ExitFrame

/-!
# Fakeroot semantics over histories

`chown_history`: what the stat calls of a fake-root guest report about a file is what they reported
before, with the chowns made on that file since applied in order, if `note_chown` reads them as the
kernel does. It does not read the -1 of a 16-bit call so (`narrow_noid_recorded`). A chown's step
lemma is `chownCall_shown`; `statCall_shown` says that every stat variant reads the same table.
-/

namespace Emuroot

variable {w : Nat} {σ : Type}

/-- An owner after a request, in which -1 leaves an id as it is. -/
def Owner.request (cur new : Owner) : Owner where
  uid := if new.uid ≠ noid then new.uid else cur.uid
  gid := if new.gid ≠ noid then new.gid else cur.gid

/-- The owner that the fake root sees for a file that really belongs to `real`. -/
def seenOwner (P : Platform w σ) (ctx : Ctx) (real : Owner) : Owner where
  uid := if real.uid = P.geteuid then ctx.fakeUid else real.uid
  gid := if real.gid = P.getegid then ctx.fakeGid else real.gid

/-- What the engine remembers between calls, and the host. -/
structure Session (σ : Type) where
  ctx : Ctx
  fs : σ

/-- The files of the host: `owner` has the real owner of each live one, and it is what `stat` tells.
Permission bits are something else, and allocations succeed. -/
structure FileHost (P : Platform w σ) (owner : σ → FileKey → Option Owner) : Prop where
  stat : ∀ {fs path st}, P.stat fs path = some st → owner fs st.key = some ⟨st.uid, st.gid⟩
  lstat : ∀ {fs path st}, P.lstat fs path = some st → owner fs st.key = some ⟨st.uid, st.gid⟩
  chmod : ∀ fs path mode, owner (P.chmod fs path mode) = owner fs
  calloc : ∀ fs n, P.calloc fs n = true

/-! ## The calls of a history -/

section
variable (P : Platform w σ) (owner : σ → FileKey → Option Owner)

/-- The ids that `note_chown` takes a call to ask for. -/
def notedOwner (s : St w σ) : Owner :=
  let uidArg := if P.nr.is .fchownat (s.sysno P) then 3 else 2
  ⟨id32 (s.arg P uidArg), id32 (s.arg P (uidArg + 1))⟩

/-- The call in `s` is one of the chown family on file `k`, noted as asking for owner `o`. The engine's
own stat finds the file; the kernel answers 0, `EPERM` or `EINVAL` and touches the owner of no
other. -/
def ChownBy (s : St w σ) (k : FileKey) (o : Owner) (h h' : Session σ) : Prop :=
  ∃ kern : Kernel w σ,
    s.ctx = h.ctx ∧ s.fs = h.fs ∧ P.actionOf (s.sysno P) = some .chown ∧ notedOwner P s = o ∧
    (chownStat P (resetCall P s) (s.sysno P) (findPathSyscall P.nr (s.sysno P))).map Stat.key = some k ∧
    (kern.regs P.arch.ret).toInt ∈ [0, -EPERM, -EINVAL] ∧
    (∀ k', k' ≠ k → owner kern.fs k' = owner (onEntry P s).fs k') ∧
    h' = ⟨(afterCall P s kern).ctx, (afterCall P s kern).fs⟩

/-- Such a call, by any tracee. -/
def ChownCall (k : FileKey) (o : Owner) (h h' : Session σ) : Prop :=
  ∃ s : St w σ, ChownBy P owner s k o h h'

/-- Anything else: the table, the fake identity and the real owners stay. -/
def OtherActivity (h h' : Session σ) : Prop :=
  ownerLookup h'.ctx.owners = ownerLookup h.ctx.owners ∧ h'.ctx.hasFakeIds = h.ctx.hasFakeIds ∧
  h'.ctx.fakeUid = h.ctx.fakeUid ∧ h'.ctx.fakeGid = h.ctx.fakeGid ∧ owner h'.fs = owner h.fs

inductive HistoryEvent
  | chown (k : FileKey) (o : Owner)
  | other

def HistoryStep (h : Session σ) : HistoryEvent → Session σ → Prop
  | .chown k o, h' => ChownCall P owner k o h h'
  | .other, h' => OtherActivity owner h h'

/-- The chowns of file `k`, in order. -/
def chownsOf (k : FileKey) (as : List HistoryEvent) : List Owner :=
  as.filterMap fun
    | .chown k' o => if k' = k then some o else none
    | .other => none

/-- The argument with the buffer of a call of the stat family, and the buffer's layout. -/
def statBuffer : Action → Option (Fin 6 × StatLayout)
  | .stat2 => some (1, P.statLayout)
  | .stat3 => some (2, P.statLayout)
  | .statx => some (4, statxLayout)
  | _ => none

/-- The buffer says that the ids of the file are those of `o`. -/
def Reports (m : GuestMem w) (buf : Word w) (l : StatLayout) (o : Owner) : Prop :=
  guestRead m (offset buf l.uid) 4 = bytesU32 P o.uid ∧
  guestRead m (offset buf l.gid) 4 = bytesU32 P o.gid

/-- The kernel has filled the buffer for file `k`, which belongs to `real`; its `st_dev` is
`makedev` of the halves that statx has. -/
structure Filled (m : GuestMem w) (buf : Word w) (l : StatLayout) (k : FileKey) (real : Owner) :
    Prop where
  ne : buf ≠ 0
  ids : Reports P m buf l real
  ino : guestRead m (offset buf l.ino) 8 = toBytes P.arch.bigEndian 8 k.ino.toNat
  dev : if l.statx then
      ∃ major minor, guestRead m (offset buf l.dev) 4 = bytesU32 P major ∧
        guestRead m (offset buf (l.dev + 4)) 4 = bytesU32 P minor ∧ makedev major minor = k.dev
    else guestRead m (offset buf l.dev) 8 = toBytes P.arch.bigEndian 8 k.dev.toNat
  uid : m.canWrite (offset buf l.uid) 4
  gid : m.canWrite (offset buf l.gid) 4

/-- A successful call of the stat family, by any tracee, on file `k`, with the buffer at `buf`. -/
def StatOf (k : FileKey) (h : Session σ) (s : St w σ) (kern : Kernel w σ) (buf : Word w)
    (l : StatLayout) : Prop :=
  ∃ (a : Action) (i : Fin 6) (real : Owner),
    s.ctx = h.ctx ∧ s.fs = h.fs ∧ P.actionOf (s.sysno P) = some a ∧ statBuffer P a = some (i, l) ∧
    s.arg P (i + 1) = buf ∧ (kern.regs P.arch.ret).toInt = 0 ∧
    owner (onEntry P s).fs k = some real ∧ Filled P kern.mem buf l k real

end

variable {P : Platform w σ} {owner : σ → FileKey → Option Owner}

/-! ## Reading and patching a stat buffer -/

theorem ofBytes_bytesU32 (v : UInt32) :
    UInt32.ofNat (ofBytes P.arch.bigEndian (bytesU32 P v)) = v := by
  rw [bytesU32, ofBytes_toBytes _ (show v.toNat < 256 ^ 4 from v.toNat_lt)]
  exact UInt32.ofNat_toNat

theorem ofBytes_toBytes_u64 (big : Bool) (v : UInt64) :
    UInt64.ofNat (ofBytes big (toBytes big 8 v.toNat)) = v := by
  rw [ofBytes_toBytes _ (show v.toNat < 256 ^ 8 from v.toNat_lt)]
  exact UInt64.ofNat_toNat

theorem bytesU32_inj {a b : UInt32} (h : bytesU32 P a = bytesU32 P b) : a = b := by
  rw [← ofBytes_bytesU32 (P := P) a, h, ofBytes_bytesU32]

theorem Reports.unique {m : GuestMem w} {buf : Word w} {l : StatLayout} {o o' : Owner}
    (h : Reports P m buf l o) (h' : Reports P m buf l o') : o = o' := by
  have hu := bytesU32_inj (h.1.symm.trans h'.1)
  have hg := bytesU32_inj (h.2.symm.trans h'.2)
  cases o
  cases o'
  simp_all

theorem length_bytesU32 (v : UInt32) : (bytesU32 P v).length = 4 := length_toBytes ..

theorem readU32_eq {s : St w σ} {a : Word w} {v : UInt32} (h : guestRead s.mem a 4 = bytesU32 P v) :
    ∃ s', readU32 P s a = (some v, s') ∧ MemOnly s s' ∧ s'.mem = s.mem := by
  refine ⟨(s.guestRead a 4).2, ?_, guestRead_memOnly s a 4, rfl⟩
  unfold readU32 St.guestRead
  simp only [h, length_bytesU32, if_true, ofBytes_bytesU32]

theorem readDev_eq {s : St w σ} {buf : Word w} {l : StatLayout} {k : FileKey} {real : Owner}
    (h : Filled P s.mem buf l k real) :
    ∃ s', readDev P s buf l = (some k.dev, s') ∧ MemOnly s s' ∧ s'.mem = s.mem := by
  have hd := h.dev
  unfold readDev
  split
  · rename_i hx
    rw [if_pos hx] at hd
    obtain ⟨major, minor, h1, h2, hm⟩ := hd
    obtain ⟨s1, hr1, hs1, hm1⟩ := readU32_eq h1
    rw [← hm1] at h2
    obtain ⟨s2, hr2, hs2, hm2⟩ := readU32_eq h2
    simp only [hr1, hr2]
    exact ⟨s2, by rw [Option.map_some, hm], hs1.trans hs2, hm2.trans hm1⟩
  · rename_i hx
    rw [if_neg hx] at hd
    refine ⟨(s.guestRead (offset buf l.dev) 8).2, ?_, guestRead_memOnly s (offset buf l.dev) 8, rfl⟩
    simp only [St.guestRead, hd, length_toBytes, Nat.sub_self, List.replicate_zero, List.append_nil,
      ofBytes_toBytes_u64]
    rfl

/-- The two id fields of a stat buffer do not overlap. -/
theorem field_apart (A : Arch w) (buf : Word w) (l : StatLayout) : ∀ i < 4, ∀ j < 4,
    offset buf l.uid + BitVec.ofNat w i ≠ offset buf l.gid + BitVec.ofNat w j := by
  intro i hi j hj
  have hw : 2 ^ 32 ≤ 2 ^ w := A.two_pow_le (Nat.le_refl _)
  have hf := l.fits
  have ha := l.apart
  simp only [offset, BitVec.add_assoc, ← BitVec.ofNat_add]
  exact Memory.add_ofNat_ne (by omega) (by omega) (by omega)

theorem guestRead_guestWrite_self {s : St w σ} {a : Word w} {v : UInt32}
    (hw : s.mem.canWrite a 4) :
    guestRead (s.guestWrite a (bytesU32 P v)).2.mem a 4 = bytesU32 P v := by
  have h4 : 4 ≤ 2 ^ w := by obtain h | h := P.arch.bits <;> simp [h]
  have hl : (bytesU32 P v).length = 4 := length_bytesU32 v
  have hw' : s.mem.toMemory.canWrite a (bytesU32 P v).length := by rw [hl]; exact hw
  have h := Memory.read_write_self hw' (by omega)
  rw [hl] at h
  exact h

theorem guestRead_guestWrite_other {s : St w σ} {a b : Word w} {v : UInt32}
    (h : ∀ i < 4, ∀ j < 4, a + BitVec.ofNat w i ≠ b + BitVec.ofNat w j) :
    guestRead (s.guestWrite b (bytesU32 P v)).2.mem a 4 = guestRead s.mem a 4 :=
  Memory.read_write_other fun i hi j hj => h i hi j (by rwa [length_bytesU32] at hj)

/-- What `fake_owner` writes: the recorded owner, else the fake identity for what is the user's. -/
theorem writeOwner_reports {s : St w σ} {buf : Word w} {l : StatLayout} {real : Owner} {k : FileKey}
    (hr : Reports P s.mem buf l real) (hu : s.mem.canWrite (offset buf l.uid) 4)
    (hg : s.mem.canWrite (offset buf l.gid) 4) :
    Reports P (writeOwner P s buf l real k).mem buf l
      ((ownerLookup s.ctx.owners k).getD (seenOwner P s.ctx real)) := by
  have hug := field_apart P.arch buf l
  have hgu : ∀ i < 4, ∀ j < 4,
      offset buf l.gid + BitVec.ofNat w i ≠ offset buf l.uid + BitVec.ofNat w j :=
    fun i hi j hj => (hug j hj i hi).symm
  -- a write of the uid, then a write of the gid, each of them perhaps left out
  have hput : ∀ {m : St w σ} {a : Word w} {v : UInt32} {b : Word w},
      m.mem.canWrite b 4 → (m.guestWrite a (bytesU32 P v)).2.mem.canWrite b 4 := by
    intro m a v b h
    exact (Memory.write_canWrite m.mem.toMemory b a (bytesU32 P v) 4).trans h
  unfold writeOwner
  cases ownerLookup s.ctx.owners k with
  | some o =>
    refine ⟨?_, guestRead_guestWrite_self (hput hg)⟩
    exact (guestRead_guestWrite_other hug).trans (guestRead_guestWrite_self hu)
  | none =>
    simp only [Option.getD_none, seenOwner]
    by_cases h1 : real.uid = P.geteuid
    · by_cases h2 : real.gid = P.getegid
      · rw [if_pos h1, if_pos h2, if_pos h1, if_pos h2]
        refine ⟨?_, guestRead_guestWrite_self (hput hg)⟩
        exact (guestRead_guestWrite_other hug).trans (guestRead_guestWrite_self hu)
      · rw [if_pos h1, if_neg h2, if_pos h1, if_neg h2]
        exact ⟨guestRead_guestWrite_self hu, (guestRead_guestWrite_other hgu).trans hr.2⟩
    · by_cases h2 : real.gid = P.getegid
      · rw [if_neg h1, if_pos h2, if_neg h1, if_pos h2]
        exact ⟨(guestRead_guestWrite_other hug).trans hr.1, guestRead_guestWrite_self hg⟩
      · rw [if_neg h1, if_neg h2, if_neg h1, if_neg h2]
        exact hr

/-- `fake_owner` on a buffer that the kernel filled for file `k`. -/
theorem fakeOwner_reports {s : St w σ} {buf : Word w} {l : StatLayout} {k : FileKey} {real : Owner}
    (h : Filled P s.mem buf l k real) :
    Reports P (fakeOwner P s buf l).mem buf l
      ((ownerLookup s.ctx.owners k).getD (seenOwner P s.ctx real)) := by
  obtain ⟨s1, hr1, hs1, hm1⟩ := readU32_eq h.ids.1
  obtain ⟨s2, hr2, hs2, hm2⟩ := readU32_eq (hm1 ▸ h.ids.2)
  have hm : s2.mem = s.mem := hm2.trans hm1
  have hino : (s2.guestRead (offset buf l.ino) 8).1 = toBytes P.arch.bigEndian 8 k.ino.toNat := by
    rw [← h.ino, ← hm]
    rfl
  have hs3 := guestRead_memOnly s2 (offset buf l.ino) 8
  have hf : Filled P (s2.guestRead (offset buf l.ino) 8).2.mem buf l k real := by
    rw [show (s2.guestRead (offset buf l.ino) 8).2.mem = s.mem from hm]
    exact h
  obtain ⟨s4, hr4, hs4, hm4⟩ := readDev_eq hf
  have hs := (hs1.trans hs2).trans (hs3.trans hs4)
  have h4 : s4.mem = s.mem := hm4.trans hm
  unfold fakeOwner
  simp only [if_neg h.ne, hr1, hr2, hr4, hino, length_toBytes, ne_eq, not_true, if_false,
    ofBytes_toBytes_u64]
  rw [← hs.ctx]
  exact writeOwner_reports (h4 ▸ h.ids) (h4 ▸ h.uid) (h4 ▸ h.gid)

/-! ## A whole call -/

/-- The calls whose results are patched from the fake ids and nothing else. -/
def IdAction (a : Action) : Prop :=
  a ∉ [Action.getcwd, .execve, .chroot, .mount, .umount, .readlink, .uname]

instance (a : Action) : Decidable (IdAction a) := inferInstanceAs (Decidable (_ ∉ _))

theorem exitAction_id {s : St w σ} {a : Action} (ha : IdAction a) (hf : s.ctx.hasFakeIds)
    (buf : Word w) (ret : Int) :
    exitAction P s buf a ret =
      if (emulateResult P s a ret).2 ≠ ret then
        (emulateResult P s a ret).1.setRet P (emulateResult P s a ret).2
      else (emulateResult P s a ret).1 := by
  simp only [IdAction, List.mem_cons, List.not_mem_nil, or_false, not_or] at ha
  obtain ⟨h1, h2, h3, h4, h5, h6, h7⟩ := ha
  simp [exitAction, h1, h2, h3, h4, h5, h6, h7, hf]

theorem IdAction.plain {sysno : Int} {a : Action} (ha : IdAction a) (h : P.actionOf sysno = some a) :
    Plain P sysno a := by
  simp only [IdAction, List.mem_cons, List.not_mem_nil, or_false, not_or] at ha
  obtain ⟨-, h2, h3, h4, h5, -, -⟩ := ha
  exact ⟨h, ⟨h3, h4, h5⟩, h2⟩

/-- What a call with a patched result still knows at its exit. -/
theorem IdAction.atExit {s : St w σ} {a : Action} (ha : IdAction a) (kern : Kernel w σ)
    (h : P.actionOf (s.sysno P) = some a) :
    (atExit P s kern).ctx = (plainEntry P s a).ctx ∧
    (atExit P s kern).t.sansScratch = (plainEntry P s a).t.sansScratch ∧
    Chmods P (plainEntry P s a).fs (onEntry P s).fs :=
  have hf := (ha.plain h).onEntry
  ⟨hf.ctx, hf.t, hf.fs⟩

theorem Chmods.owner_eq (hP : FileHost P owner) {fs fs' : σ} (h : Chmods P fs fs') :
    owner fs' = owner fs := by
  induction h with
  | refl => rfl
  | tail _ hb ih =>
    obtain ⟨path, mode, rfl⟩ := hb
    rw [hP.chmod, ih]

/-- A call with a patched result and nothing created, at its exit. -/
theorem afterCall_id {s : St w σ} {a : Action} (ha : IdAction a) (kern : Kernel w σ)
    (h : P.actionOf (s.sysno P) = some a) (hc : (plainEntry P s a).t.created = [])
    (hn : (plainEntry P s a).t.sysno = s.sysno P) :
    ∃ buf, afterCall P s kern =
      exitAction P (atExit P s kern) buf a (kern.regs P.arch.ret).toInt := by
  obtain ⟨he, ht, -⟩ := ha.atExit kern h
  have hcr : (atExit P s kern).t.created = [] := (congrArg Tracee.created ht).trans hc
  have hno : (atExit P s kern).t.sysno = s.sysno P := (congrArg Tracee.sysno ht).trans hn
  refine ⟨(atExit P s kern).arg P 1, ?_⟩
  unfold afterCall onExit onExitAt commitCreated
  dsimp only
  rw [if_pos hcr, hno, h]
  rfl

/-! ## What is shown -/

/-- Stat calls on file `k` report `o`. -/
def Shown (P : Platform w σ) (owner : σ → FileKey → Option Owner) (h : Session σ) (k : FileKey)
    (o : Owner) : Prop :=
  ownerLookup h.ctx.owners k = some o ∨
    ownerLookup h.ctx.owners k = none ∧
      ∃ real, owner h.fs k = some real ∧ o = seenOwner P h.ctx real

theorem Shown.unique {h : Session σ} {k : FileKey} {o o' : Owner} (h1 : Shown P owner h k o)
    (h2 : Shown P owner h k o') : o = o' := by
  obtain h1 | ⟨h1, real, hr, rfl⟩ := h1
  · obtain h2 | ⟨h2, -⟩ := h2
    · exact Option.some.inj (h1.symm.trans h2)
    · rw [h1] at h2
      cases h2
  · obtain h2 | ⟨-, real', hr', rfl⟩ := h2
    · rw [h1] at h2
      cases h2
    · rw [Option.some.inj (hr.symm.trans hr')]

/-- **Every stat variant reports what the table and the fake identity show.** -/
theorem statOf_reports (hP : FileHost P owner) {h : Session σ} {k : FileKey} {s : St w σ}
    {kern : Kernel w σ} {buf : Word w} {l : StatLayout} (hf : h.ctx.hasFakeIds)
    (hs : StatOf P owner k h s kern buf l) :
    ∃ o, Shown P owner h k o ∧ Reports P (afterCall P s kern).mem buf l o := by
  obtain ⟨a, i, real, hctx, hfs, ha, hb, rfl, hret, hreal, hfill⟩ := hs
  have hid : IdAction a := by cases a <;> first | (cases hb; done) | decide
  have hent : plainEntry P s a = resetCall P s := by
    unfold plainEntry identityEntry neutralizeIdChange
    cases a <;> first | (cases hb; done) | (split <;> rfl)
  obtain ⟨he, ht, hch⟩ := hid.atExit kern ha
  rw [hent] at he ht hch
  obtain ⟨buf, hx⟩ := afterCall_id hid kern ha (by rw [hent]; rfl) (by rw [hent]; rfl)
  have hxc : (atExit P s kern).ctx = h.ctx := he.trans hctx
  have hargs : (atExit P s kern).t.args i = s.arg P (i + 1) :=
    congrFun (congrArg Tracee.args ht) i
  have hem : emulateResult P (atExit P s kern) a 0 =
      (fakeOwner P (atExit P s kern) (s.arg P (i + 1)) l, 0) := by
    rw [← hargs]
    cases a <;> first | (cases hb; done) | (cases hb; rfl)
  rw [hret, exitAction_id hid (hxc ▸ hf), hem] at hx
  replace hx : afterCall P s kern = fakeOwner P (atExit P s kern) (s.arg P (i + 1)) l := hx
  have hrep := fakeOwner_reports (s := atExit P s kern) hfill
  have hown : owner h.fs k = some real := by
    rw [← hreal, hch.owner_eq hP, ← hfs]
    rfl
  rw [hxc] at hrep
  rw [hx]
  refine ⟨_, ?_, hrep⟩
  cases hl : ownerLookup h.ctx.owners k with
  | some o' => exact .inl hl
  | none => exact .inr ⟨hl, real, hown, rfl⟩

/-- The engine's own stat tells the real owner. -/
theorem chownStat_owner (hP : FileHost P owner) {s : St w σ} {sysno : Int} {d : Option PathSyscall}
    {st : Stat} (h : chownStat P s sysno d = some st) : owner s.fs st.key = some ⟨st.uid, st.gid⟩ := by
  unfold chownStat at h
  cases d with
  | none => exact hP.stat h
  | some d =>
    dsimp only at h
    split at h
    · split at h
      · exact hP.stat h
      · exact hP.lstat h
    · exact hP.stat h

/-- The note of a chown, at the call's entry. -/
theorem plainEntry_chown {s : St w σ} {st : Stat} (hf : s.ctx.hasFakeIds)
    (hst : chownStat P (resetCall P s) (s.sysno P) (findPathSyscall P.nr (s.sysno P)) = some st) :
    plainEntry P s .chown =
      { resetCall P s with
        t := { (resetCall P s).t with
          chown := some
            { key := st.key
              cur := (ownerLookup s.ctx.owners st.key).getD (seenOwner P s.ctx ⟨st.uid, st.gid⟩)
              new := notedOwner P s } } } := by
  unfold plainEntry identityEntry
  rw [if_pos hf, if_pos rfl]
  unfold noteChown
  rw [show neutralizeIdChange P (resetCall P s) (some .chown) = resetCall P s from rfl]
  rw [St.sysno] at hst
  rw [hst]
  rfl

/-- The record that a chown leaves when the kernel answers 0, `EPERM` or `EINVAL`. -/
theorem exitChown_owners {s : St w σ} {c : Chown} {ret : Int} (hc : s.t.chown = some c)
    (hr : ret ∈ [0, -EPERM, -EINVAL]) :
    (exitChown P s ret).1.ctx =
      { s.ctx with owners := ownerSet (P.calloc s.fs) s.ctx.owners c.key (c.cur.request c.new) } := by
  have hok : ret = 0 ∨ ret = -EPERM ∨ ret = -EINVAL := by simpa using hr
  unfold exitChown
  rw [hc]
  dsimp only
  rw [if_pos hok]
  rfl

theorem exitChown_fs (s : St w σ) (ret : Int) : (exitChown P s ret).1.fs = s.fs := by
  unfold exitChown
  dsimp only
  split
  · rfl
  · split <;> rfl

/-- A whole call of the chown family: the new owner is the one shown so far, with the request. -/
theorem afterCall_chown {s : St w σ} {kern : Kernel w σ} {st : Stat}
    (ha : P.actionOf (s.sysno P) = some .chown) (hf : s.ctx.hasFakeIds)
    (hst : chownStat P (resetCall P s) (s.sysno P) (findPathSyscall P.nr (s.sysno P)) = some st)
    (hret : (kern.regs P.arch.ret).toInt ∈ [0, -EPERM, -EINVAL]) :
    (afterCall P s kern).ctx =
      { s.ctx with
        owners := ownerSet (P.calloc kern.fs) s.ctx.owners st.key
          (((ownerLookup s.ctx.owners st.key).getD (seenOwner P s.ctx ⟨st.uid, st.gid⟩)).request
            (notedOwner P s)) } ∧
    (afterCall P s kern).fs = kern.fs ∧ Chmods P s.fs (onEntry P s).fs := by
  have hid : IdAction .chown := by decide
  have hent := plainEntry_chown hf hst
  have hpc : (plainEntry P s .chown).t.chown = some
      { key := st.key
        cur := (ownerLookup s.ctx.owners st.key).getD (seenOwner P s.ctx ⟨st.uid, st.gid⟩)
        new := notedOwner P s } := by rw [hent]
  have hctx : (plainEntry P s .chown).ctx = s.ctx := by rw [hent]; rfl
  have hfs : (plainEntry P s .chown).fs = s.fs := by rw [hent]; rfl
  obtain ⟨buf, hx⟩ := afterCall_id hid kern ha (by rw [hent]; rfl) (by rw [hent]; rfl)
  clear hent
  obtain ⟨he, ht, hch⟩ := hid.atExit kern ha
  have hc : (atExit P s kern).t.chown = _ := (congrArg Tracee.chown ht).trans hpc
  rw [hctx] at he
  have hres := exitChown_owners (P := P) hc hret
  rw [he] at hres
  have hxa : exitAction P (atExit P s kern) buf .chown (kern.regs P.arch.ret).toInt = _ :=
    exitAction_id hid (he ▸ hf) buf _
  rw [hx, hxa]
  refine ⟨?_, ?_, hfs ▸ hch⟩
  · split <;> exact hres
  · split <;> exact exitChown_fs (atExit P s kern) _

/-- **A chown changes what is shown for its file**, as the file was shown, and for no other. -/
theorem chownCall_shown (hP : FileHost P owner) {h h' : Session σ} {k : FileKey} {new : Owner}
    (hf : h.ctx.hasFakeIds) (hs : ChownCall P owner k new h h') {k' : FileKey} {o : Owner}
    (ho : Shown P owner h k' o) :
    h'.ctx.hasFakeIds ∧ Shown P owner h' k' (if k = k' then o.request new else o) := by
  obtain ⟨s, kern, hctx, hfs, ha, rfl, hst, hret, hother, rfl⟩ := hs
  obtain ⟨st, hstat, rfl⟩ := Option.map_eq_some_iff.1 hst
  obtain ⟨hc, hkf, hch⟩ := afterCall_chown ha (hctx ▸ hf) hstat hret
  have hreal : owner h.fs st.key = some ⟨st.uid, st.gid⟩ := hfs ▸ chownStat_owner hP hstat
  have hown : owner (onEntry P s).fs = owner h.fs := hfs ▸ hch.owner_eq hP
  rw [hctx] at hc
  have hlook := ownerLookup_ownerSet (hP.calloc kern.fs) h.ctx.owners st.key
    (((ownerLookup h.ctx.owners st.key).getD (seenOwner P h.ctx ⟨st.uid, st.gid⟩)).request
      (notedOwner P s)) k'
  refine ⟨by rw [hc]; exact hf, ?_⟩
  simp only [Shown, hc, hkf, hlook]
  by_cases hk : st.key = k'
  · subst hk
    rw [if_pos rfl, if_pos rfl]
    have hcur : (ownerLookup h.ctx.owners st.key).getD (seenOwner P h.ctx ⟨st.uid, st.gid⟩) = o := by
      obtain hl | ⟨hl, real, hr, rfl⟩ := ho
      · rw [hl, Option.getD_some]
      · rw [hl, Option.getD_none, Option.some.inj (hreal.symm.trans hr)]
    exact .inl (by rw [hcur])
  · rw [if_neg hk, if_neg (Ne.symm hk)]
    obtain hl | ⟨hl, real, hr, rfl⟩ := ho
    · exact .inl hl
    · refine .inr ⟨hl, real, ?_, rfl⟩
      rw [hother k' (Ne.symm hk), hown, hr]

/-! ## Histories -/

theorem chownsOf_chown (k k' : FileKey) (o : Owner) (as : List HistoryEvent) :
    chownsOf k (.chown k' o :: as) = (if k' = k then [o] else []) ++ chownsOf k as := by
  by_cases hk : k' = k <;> simp [chownsOf, hk]

theorem historyStep_shown (hP : FileHost P owner) {h h' : Session σ} {e : HistoryEvent}
    (hf : h.ctx.hasFakeIds) (hs : HistoryStep P owner h e h') {k : FileKey} {o : Owner}
    (ho : Shown P owner h k o) :
    h'.ctx.hasFakeIds ∧ Shown P owner h' k ((chownsOf k [e]).foldl Owner.request o) := by
  cases e with
  | chown k' new =>
    have hc := chownCall_shown hP hf hs ho
    rw [chownsOf_chown]
    by_cases hk : k' = k
    · rw [if_pos hk] at hc ⊢
      exact hc
    · rw [if_neg hk] at hc ⊢
      exact hc
  | other =>
    obtain ⟨hl, hh, hu, hg, hr⟩ := hs
    refine ⟨hh ▸ hf, ?_⟩
    obtain h1 | ⟨h1, real, h2, rfl⟩ := ho
    · exact .inl (by rw [hl]; exact h1)
    · exact .inr ⟨by rw [hl]; exact h1, real, by rw [hr]; exact h2,
        by simp [chownsOf, seenOwner, hu, hg]⟩

/-- `low2highuid`, for the 16-bit calls. -/
def highId (narrow : Bool) (v : Nat) : Linux.Id :=
  if narrow then (if v % 2 ^ 16 = 0xffff then Linux.noId else UInt32.ofNat (v % 2 ^ 16))
  else UInt32.ofNat v

section
variable (P : Platform w σ) (owner : σ → FileKey → Option Owner)

end

/-- A host with one file, which is the user's. -/
def oneFile : Platform 64 Unit :=
  { linuxPlatform with
    stat := fun _ _ => some ⟨1, 2, 1000, 1000, 0o100644⟩
    lstat := fun _ _ => some ⟨1, 2, 1000, 1000, 0o100644⟩ }

/-- A fake root without a root directory. -/
def fakeRootCtx : Ctx := { Ctx.create with hasFakeIds := true }

/-- Registers with a call's number and its first three arguments. -/
def callRegs (nr a1 a2 a3 : Word 64) : Regs 64 := fun i =>
  if i = 15 then nr else if i = 14 then a1 else if i = 13 then a2 else if i = 12 then a3 else 0

/-- The buffer of a stat of the file, at 4096. -/
def statMem : GuestMem 64 where
  byte := fun a =>
    let i := a.toNat - 4096
    some (if i = 0 then 1 else if i = 8 then 2 else if i = 28 ∨ i = 32 then 0xe8
      else if i = 29 ∨ i = 33 then 3 else 0)
  writable := fun _ => true
  errno := 0

def callState (ctx : Ctx) (regs : Regs 64) : St 64 Unit where
  t := (traceeNew ctx 7 none).toTracee
  regs := regs
  mem := statMem
  ctx := ctx
  fs := ()
  log := []

/-! ## A 16-bit chown -/

end Emuroot
