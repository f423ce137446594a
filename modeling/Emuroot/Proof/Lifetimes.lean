import Emuroot.Proof.Fakeroot

/-!
# File owners when inodes are used again

A history of creations, chowns and removals, in which a new file may get the device and inode of a
deleted one. No record is ever dropped, so `owner_since_creation` is what holds: the owner that stat
reports is the creator's (or the real one, as the fake root sees it) with the chowns since, if the
creation was recorded or nothing was recorded for an earlier file of the key. In `stale_owner` a
file inherits the owner of a deleted one.
-/

namespace Emuroot

variable {w : Nat} {σ : Type}

section
variable (P : Platform w σ) (owner : σ → FileKey → Option Owner)

/-- The record that a call without an action leaves for a file that it may have made. -/
def creationRecord (s : St w σ) (kern : Kernel w σ) : Option (FileKey × Owner) :=
  if (onEntry P s).t.created = [] ∨ (kern.regs P.arch.ret).toInt < 0 then none
  else
    (P.lstat kern.fs (onEntry P s).t.created).map fun st =>
      (st.key, ⟨s.t.creds.fsuid, s.t.creds.fsgid⟩)

/-- A call, by any tracee, that makes file `k`, which really belongs to `real`. It is recorded for
its creator `maker`, or not at all; the engine's own lstat finds the file that was made. -/
def CreateCall (k : FileKey) (real : Owner) (maker : Option Owner) (h h' : Session σ) : Prop :=
  ∃ (s : St w σ) (kern : Kernel w σ),
    s.ctx = h.ctx ∧ s.fs = h.fs ∧ P.actionOf (s.sysno P) = none ∧ owner h.fs k = none ∧
    0 ≤ (kern.regs P.arch.ret).toInt ∧ owner kern.fs k = some real ∧
    (∀ k', k' ≠ k → owner kern.fs k' = owner (onEntry P s).fs k') ∧
    creationRecord P s kern = maker.map (k, ·) ∧
    h' = ⟨(afterCall P s kern).ctx, (afterCall P s kern).fs⟩

/-- The calls that remove a file: the one named, or the one that another is renamed over. -/
def removingCalls : List Sys := [.unlink, .rmdir, .unlinkat, .rename, .renameat, .renameat2]

/-- A call, by any tracee, that removes file `k`. -/
def RemoveCall (k : FileKey) (h h' : Session σ) : Prop :=
  ∃ (s : St w σ) (kern : Kernel w σ),
    s.ctx = h.ctx ∧ s.fs = h.fs ∧ (∃ x ∈ removingCalls, P.nr.is x (s.sysno P)) ∧
    owner kern.fs k = none ∧ (∀ k', k' ≠ k → owner kern.fs k' = owner (onEntry P s).fs k') ∧
    h' = ⟨(afterCall P s kern).ctx, (afterCall P s kern).fs⟩

inductive FileEvent
  | creates (k : FileKey) (real : Owner) (maker : Option Owner)
  | removes (k : FileKey)
  | keeps (e : HistoryEvent)

def FileStep (h : Session σ) : FileEvent → Session σ → Prop
  | .creates k real maker, h' => CreateCall P owner k real maker h h'
  | .removes k, h' => RemoveCall P owner k h h'
  | .keeps e, h' => HistoryStep P owner h e h'

end

/-- The events that make and remove no file. -/
def FileEvent.kept : FileEvent → Option HistoryEvent
  | .keeps e => some e
  | _ => none

/-- The event makes a record for file `k`. -/
def FileEvent.Records (k : FileKey) : FileEvent → Prop
  | .creates k' _ maker => k' = k ∧ maker.isSome
  | .keeps (.chown k' _) => k' = k
  | _ => False

/-- The event begins or ends the life of file `k`. -/
def FileEvent.Bounds (k : FileKey) : FileEvent → Prop
  | .creates k' _ _ | .removes k' => k' = k
  | .keeps _ => False

variable {P : Platform w σ} {owner : σ → FileKey → Option Owner}

/-! ## A call without an action -/

/-- The host after a call without an action is the kernel's, and the table has the record that the
call leaves. -/
theorem afterCall_noAction {s : St w σ} (kern : Kernel w σ) (h : P.actionOf (s.sysno P) = none) :
    (afterCall P s kern).fs = kern.fs ∧
    (afterCall P s kern).ctx =
      { s.ctx with
        owners := match creationRecord P s kern with
          | some (k, o) => ownerSet (P.calloc kern.fs) s.ctx.owners k o
          | none => s.ctx.owners } := by
  have hframe := noAction_onEntry (P := P) h
  have hctx : (onEntry P s).ctx = s.ctx := hframe.ctx.trans (notedCreation_ctx _ _)
  have hcreds := congrArg Tracee.creds (onEntry_frame (P := P) s).t
  have hsys := congrArg Tracee.sysno (onEntry_frame (P := P) s).t
  replace hcreds : (onEntry P s).t.creds = s.t.creds := hcreds
  replace hsys : (onEntry P s).t.sysno = s.sysno P := hsys
  unfold afterCall onExit onExitAt commitCreated creationRecord atExit
  dsimp only
  by_cases hc : (onEntry P s).t.created = []
  · simp only [hc, true_or, if_true, hsys, h, hctx, and_self]
  · by_cases hr : (kern.regs P.arch.ret).toInt < 0
    · simp only [hc, hr, not_le.2 hr, false_or, if_true, if_false, hsys, h, hctx, and_self]
    · rw [if_neg hc, if_neg (not_or.2 ⟨hc, hr⟩)]
      simp only [not_lt.1 hr, if_true, hsys, h, hctx, hcreds, true_and]
      cases P.lstat kern.fs (onEntry P s).t.created <;> rfl

/-- A call that is not looked at for a creation leaves no record. -/
theorem noRecord {s : St w σ} (hact : P.actionOf (s.sysno P) = none)
    (hnot : createsFile P (resetCall P s) (s.sysno P) = false) (kern : Kernel w σ) :
    creationRecord P s kern = none := by
  have hcr := congrArg Tracee.created (noAction_onEntry (P := P) hact).t
  rw [show (s.regs P.arch.sysno).toInt = s.sysno P from rfl, notedCreation_of_not hnot] at hcr
  exact if_pos (.inl hcr)

/-- A removing call leaves no record. -/
theorem removing_noRecord {s : St w σ} {x : Sys} (hx : x ∈ removingCalls)
    (h : P.nr.is x (s.sysno P)) (kern : Kernel w σ) :
    P.actionOf (s.sysno P) = none ∧ creationRecord P s kern = none := by
  have hact : P.actionOf (s.sysno P) = none := by
    have htab : ∀ d ∈ actionTable, d.nr ∉ removingCalls := by decide
    rw [Platform.actionOf, actionOf_of_is h, List.find?_eq_none.2 fun d hd => ?_]
    · rfl
    · have hne : d.nr ≠ x := fun he => htab d hd (he ▸ hx)
      simp [hne]
  have hnot : createsFile P (resetCall P s) (s.sysno P) = false := by
    have hother : ∀ y ∉ removingCalls, P.nr.is y (s.sysno P) = false := by
      intro y hy
      rw [Numbers.is_eq h]
      exact decide_eq_false fun he => hy (he ▸ hx)
    unfold createsFile
    rw [hother .open (by decide), hother .openat (by decide)]
    simp [hother .creat (by decide), hother .mkdir (by decide), hother .mkdirat (by decide),
      hother .mknod (by decide), hother .mknodat (by decide), hother .symlink (by decide),
      hother .symlinkat (by decide)]
  exact ⟨hact, noRecord hact hnot kern⟩

/-! ## What one event does -/

variable {h h' : Session σ} {k k' : FileKey} {real : Owner} {maker : Option Owner}

theorem onEntry_owner (hP : FileHost P owner) (s : St w σ) : owner (onEntry P s).fs = owner s.fs :=
  (onEntry_frame (P := P) s).fs.owner_eq hP

/-- **A creation** sets the record of its file if it is noted, and touches no other. -/
theorem createCall_spec (hP : FileHost P owner) (hs : CreateCall P owner k real maker h h') :
    (h'.ctx = { h.ctx with owners := h'.ctx.owners }) ∧
    (∀ k', ownerLookup h'.ctx.owners k' =
      if k' = k then maker.or (ownerLookup h.ctx.owners k) else ownerLookup h.ctx.owners k') ∧
    owner h'.fs k = some real ∧ ∀ k', k' ≠ k → owner h'.fs k' = owner h.fs k' := by
  obtain ⟨s, kern, hctx, hfs, hact, -, -, hreal, hother, hrec, rfl⟩ := hs
  obtain ⟨hf, hc⟩ := afterCall_noAction kern hact
  rw [hrec, hctx] at hc
  refine ⟨by rw [hc], fun k' => ?_, by rw [hf]; exact hreal, fun k' hk => ?_⟩
  · rw [hc]
    cases maker with
    | none => simp +contextual [Option.or]
    | some o => exact ownerLookup_ownerSet (hP.calloc kern.fs) _ k o k'
  · rw [hf, hother k' hk, onEntry_owner hP, hfs]

/-- **A removal** leaves the table as it is. -/
theorem removeCall_spec (hP : FileHost P owner) (hs : RemoveCall P owner k h h') :
    h'.ctx = h.ctx ∧ ∀ k', k' ≠ k → owner h'.fs k' = owner h.fs k' := by
  obtain ⟨s, kern, hctx, hfs, ⟨x, hx, hn⟩, -, hother, rfl⟩ := hs
  obtain ⟨hact, hrec⟩ := removing_noRecord hx hn kern
  obtain ⟨hf, hc⟩ := afterCall_noAction kern hact
  rw [hrec, hctx] at hc
  exact ⟨hc, fun k' hk => by rw [hf, hother k' hk, onEntry_owner hP, hfs]⟩

/-- The file is shown as before when its record and its real owner are as before. -/
theorem Shown.congr {o : Owner} (hs : Shown P owner h k o)
    (hc : h'.ctx = { h.ctx with owners := h'.ctx.owners })
    (hl : ownerLookup h'.ctx.owners k = ownerLookup h.ctx.owners k)
    (ho : owner h'.fs k = owner h.fs k) : Shown P owner h' k o := by
  obtain h1 | ⟨h1, real, hr, rfl⟩ := hs
  · exact .inl (hl.trans h1)
  · refine .inr ⟨hl.trans h1, real, ho.trans hr, ?_⟩
    rw [hc]
    rfl

theorem chownCall_lookup (hP : FileHost P owner) {o : Owner} (hf : h.ctx.hasFakeIds)
    (hs : ChownCall P owner k' o h h') (hk : k ≠ k') :
    (h'.ctx = { h.ctx with owners := h'.ctx.owners }) ∧
    ownerLookup h'.ctx.owners k = ownerLookup h.ctx.owners k := by
  obtain ⟨s, kern, hctx, hfs, ha, -, hst, hret, -, rfl⟩ := hs
  obtain ⟨st, hstat, rfl⟩ := Option.map_eq_some_iff.1 hst
  obtain ⟨hc, -, -⟩ := afterCall_chown ha (hctx ▸ hf) hstat hret
  rw [hctx] at hc
  rw [hc]
  exact ⟨rfl, (ownerLookup_ownerSet (hP.calloc kern.fs) _ _ _ _).trans (if_neg hk)⟩

/-! ## Histories -/

variable {as bs : List FileEvent} {e : FileEvent} {o : Owner}

/-- The fake identity is the same. -/
def SameFake (h h' : Session σ) : Prop :=
  h'.ctx.hasFakeIds = h.ctx.hasFakeIds ∧ h'.ctx.fakeUid = h.ctx.fakeUid ∧
  h'.ctx.fakeGid = h.ctx.fakeGid

theorem SameFake.of_ctx (hc : h'.ctx = { h.ctx with owners := h'.ctx.owners }) : SameFake h h' := by
  rw [SameFake, hc]
  exact ⟨rfl, rfl, rfl⟩

theorem fileStep_sameFake (hP : FileHost P owner) (hf : h.ctx.hasFakeIds)
    (hs : FileStep P owner h e h') : SameFake h h' := by
  cases e with
  | creates k real maker => exact .of_ctx (createCall_spec hP hs).1
  | removes k =>
    obtain ⟨hc, -⟩ := removeCall_spec hP hs
    rw [SameFake, hc]
    exact ⟨rfl, rfl, rfl⟩
  | keeps e =>
    cases e with
    | chown k o =>
      obtain ⟨s, kern, hctx, -, ha, -, hst, hret, -, rfl⟩ := hs
      obtain ⟨st, hstat, rfl⟩ := Option.map_eq_some_iff.1 hst
      obtain ⟨hc, -, -⟩ := afterCall_chown ha (hctx ▸ hf) hstat hret
      rw [hctx] at hc
      exact .of_ctx (by rw [hc])
    | other =>
      obtain ⟨-, hh, hu, hg, -⟩ := hs
      exact ⟨hh, hu, hg⟩

/-- An event that makes no record for the file leaves it without one. -/
theorem fileStep_unrecorded (hP : FileHost P owner) (hf : h.ctx.hasFakeIds)
    (hs : FileStep P owner h e h') (hr : ¬e.Records k) (hn : ownerLookup h.ctx.owners k = none) :
    ownerLookup h'.ctx.owners k = none := by
  cases e with
  | creates k' real maker =>
    obtain ⟨-, hl, -, -⟩ := createCall_spec hP hs
    rw [hl]
    split
    · rename_i hk
      cases maker with
      | none => exact hk ▸ hn
      | some o => exact (hr ⟨hk.symm, rfl⟩).elim
    · exact hn
  | removes k' =>
    rw [(removeCall_spec hP hs).1]
    exact hn
  | keeps e =>
    cases e with
    | chown k' o =>
      rw [(chownCall_lookup hP hf hs fun hk => hr hk.symm).2]
      exact hn
    | other => rw [hs.1, hn]

/-- An event in the life of the file changes what is shown by the chown that it is. -/
theorem fileStep_shown (hP : FileHost P owner) (hf : h.ctx.hasFakeIds)
    (hs : FileStep P owner h e h') (hb : ¬e.Bounds k) (ho : Shown P owner h k o) :
    Shown P owner h' k ((chownsOf k e.kept.toList).foldl Owner.request o) := by
  cases e with
  | creates k' real maker =>
    have hk : k ≠ k' := fun hk => hb hk.symm
    obtain ⟨hc, hl, -, hother⟩ := createCall_spec hP hs
    exact ho.congr hc ((hl k).trans (if_neg hk)) (hother k hk)
  | removes k' =>
    have hk : k ≠ k' := fun hk => hb hk.symm
    obtain ⟨hc, hother⟩ := removeCall_spec hP hs
    exact ho.congr (by rw [hc]) (by rw [hc]) (hother k hk)
  | keeps e => exact (historyStep_shown hP hf hs ho).2

theorem files_unrecorded (hP : FileHost P owner) (hr : Run (FileStep P owner) h as h')
    (hf : h.ctx.hasFakeIds) (hrec : ∀ e ∈ as, ¬e.Records k)
    (hn : ownerLookup h.ctx.owners k = none) : ownerLookup h'.ctx.owners k = none := by
  induction hr with
  | nil => exact hn
  | @cons h1 h2 h3 e es hs _ ih =>
    obtain ⟨he, hes⟩ := List.forall_mem_cons.1 hrec
    have hf2 : h2.ctx.hasFakeIds := (fileStep_sameFake hP hf hs).1 ▸ hf
    exact ih hf2 hes (fileStep_unrecorded hP hf hs he hn)

theorem files_shown (hP : FileHost P owner) (hr : Run (FileStep P owner) h bs h')
    (hf : h.ctx.hasFakeIds) (hb : ∀ e ∈ bs, ¬e.Bounds k) (ho : Shown P owner h k o) :
    Shown P owner h' k ((chownsOf k (bs.filterMap FileEvent.kept)).foldl Owner.request o) := by
  induction hr generalizing o with
  | nil => exact ho
  | @cons h1 h2 h3 e es hs _ ih =>
    obtain ⟨he, hes⟩ := List.forall_mem_cons.1 hb
    have hf2 : h2.ctx.hasFakeIds := (fileStep_sameFake hP hf hs).1 ▸ hf
    have happ : chownsOf k ((e :: es).filterMap FileEvent.kept) =
        chownsOf k e.kept.toList ++ chownsOf k (es.filterMap FileEvent.kept) := by
      rw [chownsOf, chownsOf, chownsOf, ← List.filterMap_append]
      cases e <;> rfl
    rw [happ, List.foldl_append]
    exact ih hf2 hes (fileStep_shown hP hf hs he ho)

theorem files_sameFake (hP : FileHost P owner) (hr : Run (FileStep P owner) h as h')
    (hf : h.ctx.hasFakeIds) : SameFake h h' := by
  induction hr with
  | nil => exact ⟨rfl, rfl, rfl⟩
  | cons hs _ ih =>
    obtain ⟨hh, hu, hg⟩ := fileStep_sameFake hP hf hs
    obtain ⟨hh', hu', hg'⟩ := ih (hh ▸ hf)
    exact ⟨hh'.trans hh, hu'.trans hu, hg'.trans hg⟩

/-- **The owner of a file is a matter of its own life**: stat reports its creator's identity (or the
real owner, as the fake root sees it), with the chowns since its creation, unless the creation is
not recorded and an earlier file of the device and inode was. -/
theorem owner_since_creation (hP : FileHost P owner) (hf : h.ctx.hasFakeIds)
    (hr : Run (FileStep P owner) h (as ++ .creates k real maker :: bs) h')
    (hrec : maker.isSome ∨ ownerLookup h.ctx.owners k = none ∧ ∀ e ∈ as, ¬e.Records k)
    (hlife : ∀ e ∈ bs, ¬e.Bounds k) {s : St w σ} {kern : Kernel w σ} {buf : Word w}
    {l : StatLayout} (hs : StatOf P owner k h' s kern buf l) :
    Reports P (afterCall P s kern).mem buf l
      ((chownsOf k (bs.filterMap FileEvent.kept)).foldl Owner.request
        (maker.getD (seenOwner P h.ctx real))) := by
  obtain ⟨h1, h2, hr1, hc, hr2⟩ := hr.split
  obtain ⟨hh, hu, hg⟩ := files_sameFake hP hr1 hf
  obtain ⟨hh2, hu2, hg2⟩ := fileStep_sameFake hP (hh ▸ hf) hc
  obtain ⟨-, hl, hreal, -⟩ := createCall_spec hP hc
  have hmade : Shown P owner h2 k (maker.getD (seenOwner P h.ctx real)) := by
    have hlk := (hl k).trans (if_pos rfl)
    cases maker with
    | some o => exact .inl hlk
    | none =>
      obtain hm | ⟨hn, has⟩ := hrec
      · exact (Bool.false_ne_true hm).elim
      · refine .inr ⟨hlk.trans (files_unrecorded hP hr1 hf has hn), real, hreal, ?_⟩
        simp only [Option.getD_none, seenOwner, hu, hu2, hg, hg2]
  have hf2 : h2.ctx.hasFakeIds := hh2 ▸ hh ▸ hf
  obtain ⟨hh3, -, -⟩ := files_sameFake hP hr2 hf2
  obtain ⟨o', ho', hrep⟩ := statOf_reports hP (hh3 ▸ hf2) hs
  rwa [(files_shown hP hr2 hf2 hlife hmade).unique ho']

/-! ## An inode used again -/

/-- A host with one inode, which is the user's while there is a file. -/
def oneInode : Platform 64 Bool :=
  { linuxPlatform with
    readlink := fun _ _ => none
    stat := fun there _ => if there then some ⟨1, 2, 1000, 1000, 0o100644⟩ else none
    lstat := fun there _ => if there then some ⟨1, 2, 1000, 1000, 0o100644⟩ else none
    realpath := fun _ _ => none
    content := fun _ _ => none
    chmod := fun there _ _ => there
    calloc := fun _ _ => true }

def oneInodeOwner (there : Bool) (k : FileKey) : Option Owner :=
  if there ∧ k = ⟨1, 2⟩ then some ⟨1000, 1000⟩ else none

/-- A process of the fake root at a call, with `/f` at 8192. -/
def inodeCall (h : Session Bool) (nr : Nat) (args : List Nat) : St 64 Bool :=
  { linuxCall h.ctx [] nr args [(8192, cstr "/f")] with fs := h.fs }

/-- The session after a call that answers `ret` and leaves the host as `there`. -/
def inodeAfter (s : St 64 Bool) (ret : Word 64) (there : Bool) : Session Bool :=
  let s' := afterCall oneInode s ⟨s.regs.put 10 ret, s.mem, there⟩
  ⟨s'.ctx, s'.fs⟩

def inodeStart : Session Bool := ⟨fakeRootCtx, true⟩

/-- `fchown(3, 5, -1)`, `unlink("/f")` and `open("/f", O_CREAT)` -/
def inodeGiven : Session Bool := inodeAfter (inodeCall inodeStart 93 [3, 5, 0xffffffff]) (-1) true
def inodeFreed : Session Bool := inodeAfter (inodeCall inodeGiven 87 [8192]) 0 false
def inodeReused : Session Bool := inodeAfter (inodeCall inodeFreed 2 [8192, 0o100]) 3 true

theorem oneInode_host : FileHost oneInode oneInodeOwner where
  stat {there path st} h := by
    cases there <;> cases h
    rfl
  lstat {there path st} h := by
    cases there <;> cases h
    rfl
  chmod _ _ _ := rfl
  calloc _ _ := rfl

theorem oneInodeOwner_ne {k : FileKey} (hk : k ≠ ⟨1, 2⟩) (there : Bool) :
    oneInodeOwner there k = none := if_neg fun h => hk h.2

theorem inodeGiven_step :
    FileStep oneInode oneInodeOwner inodeStart (.keeps (.chown ⟨1, 2⟩ ⟨5, noid⟩)) inodeGiven :=
  ⟨inodeCall inodeStart 93 [3, 5, 0xffffffff], _, rfl, rfl, by rfl, by rfl, by rfl, by decide,
    fun _ _ => rfl, rfl⟩

theorem inodeFreed_step : FileStep oneInode oneInodeOwner inodeGiven (.removes ⟨1, 2⟩) inodeFreed :=
  ⟨inodeCall inodeGiven 87 [8192], _, rfl, rfl, ⟨.unlink, by decide, by decide +kernel⟩, rfl,
    fun _ hk => (oneInodeOwner_ne hk _).trans (oneInodeOwner_ne hk _).symm, rfl⟩

theorem inodeReused_step :
    FileStep oneInode oneInodeOwner inodeFreed (.creates ⟨1, 2⟩ ⟨1000, 1000⟩ none) inodeReused :=
  ⟨inodeCall inodeFreed 2 [8192, 0o100], _, rfl, rfl, by decide +kernel, by decide +kernel,
    by decide +kernel, rfl, fun _ hk => (oneInodeOwner_ne hk _).trans (oneInodeOwner_ne hk _).symm,
    by decide +kernel, rfl⟩

/-- `fstat(3, 4096)` of the file, once the kernel has filled the buffer. -/
def inodeFstat (h : Session Bool) : St 64 Bool := inodeCall h 5 [3, 4096]

def inodeStated : Kernel 64 Bool := ⟨linuxRegs 5 [3, 4096], statMem, true⟩

theorem inodeFstat_statOf (h : Session Bool) (ho : (onEntry oneInode (inodeFstat h)).fs = true) :
    StatOf oneInode oneInodeOwner ⟨1, 2⟩ h (inodeFstat h) inodeStated 4096 linuxStatLayout :=
  ⟨.stat2, 1, ⟨1000, 1000⟩, rfl, rfl, by rfl, rfl, rfl, rfl, by rw [ho]; rfl,
    { ne := by decide
      ids := ⟨by decide +kernel, by decide +kernel⟩
      ino := by decide +kernel
      dev := by rw [if_neg (by decide)]; decide +kernel
      uid := by decide +kernel
      gid := by decide +kernel }⟩

/-- A file given to user 5 is deleted, and root makes a file that gets its inode: it is user 5's. -/
theorem stale_owner :
    Run (FileStep oneInode oneInodeOwner) inodeStart
      ([.keeps (.chown ⟨1, 2⟩ ⟨5, noid⟩), .removes ⟨1, 2⟩] ++
        .creates ⟨1, 2⟩ ⟨1000, 1000⟩ none :: []) inodeReused ∧
    StatOf oneInode oneInodeOwner ⟨1, 2⟩ inodeReused (inodeFstat inodeReused) inodeStated 4096
      linuxStatLayout ∧
    ¬Reports oneInode (afterCall oneInode (inodeFstat inodeReused) inodeStated).mem 4096
      linuxStatLayout (seenOwner oneInode inodeStart.ctx ⟨1000, 1000⟩) := by
  refine ⟨.cons inodeGiven_step (.cons inodeFreed_step (.cons inodeReused_step (.nil _))),
    inodeFstat_statOf _ (by decide +kernel), fun h => ?_⟩
  exact absurd h.1 (by decide +kernel)

/-- The last open again, by user 6. -/
def openBySix : St 64 Bool :=
  let s := inodeCall inodeFreed 2 [8192, 0o100]
  { s with t := { s.t with creds := credsInit 6 7 } }

def inodeMade : Session Bool := inodeAfter openBySix 3 true

theorem owner_since_creation_reused :
    Reports oneInode (afterCall oneInode (inodeFstat inodeMade) inodeStated).mem 4096
      linuxStatLayout ⟨6, 7⟩ := by
  have hmade : FileStep oneInode oneInodeOwner inodeFreed
      (.creates ⟨1, 2⟩ ⟨1000, 1000⟩ (some ⟨6, 7⟩)) inodeMade :=
    ⟨openBySix, _, rfl, rfl, by decide +kernel, by decide +kernel, by decide +kernel, rfl,
      fun _ hk => (oneInodeOwner_ne hk _).trans (oneInodeOwner_ne hk _).symm, by decide +kernel, rfl⟩
  have hr : Run (FileStep oneInode oneInodeOwner) inodeStart
      ([.keeps (.chown ⟨1, 2⟩ ⟨5, noid⟩), .removes ⟨1, 2⟩] ++
        .creates ⟨1, 2⟩ ⟨1000, 1000⟩ (some ⟨6, 7⟩) :: []) inodeMade :=
    .cons inodeGiven_step (.cons inodeFreed_step (.cons hmade (.nil _)))
  exact owner_since_creation oneInode_host rfl hr (.inl rfl) (List.forall_mem_nil _)
    (inodeFstat_statOf _ (by decide +kernel))

end Emuroot
