import Emuroot.Lib.Align
import Emuroot.Model.Rewrite
import Mathlib.Logic.Relation

/-!
# What the entry of a call leaves alone

`PathFrame P slots s s'`: between `s` and `s'` only the registers of the argument slots `slots`, the
guest's memory, the scratch area and the `proc_link` fields may have changed, and on the host only
permission bits (`Chmods`). `EntryFrame` allows every field that is set anew for each call.
`onEntry_frame` is the result: `entrySlots` lists the slots that the entry of a call may rewrite.
-/

namespace Emuroot

variable {w : Nat} {σ : Type}

/-- The record without what rewriting a path argument may change. -/
def Tracee.sansScratch (t : Tracee w) : Tracee w :=
  { t with scratchTop := 0, procLink := false, procLinkExe := false }

/-- The record without what the entry of a call sets. -/
def Tracee.lasting (t : Tracee w) : Tracee w :=
  { t.sansScratch with
    pendingExe := []
    chown := none
    created := []
    pendingRoot := []
    mountHandled := false }

section
variable (P : Platform w σ)

/-- The number of the call that is entered in `s`. -/
def St.sysno (s : St w σ) : Int := (s.regs P.arch.sysno).toInt

/-- The host after some changes of permission bits. -/
def Chmods : σ → σ → Prop := Relation.ReflTransGen fun a b => ∃ path mode, b = P.chmod a path mode

/-- The registers other than those of the slots are the same. -/
def RegsKept (slots : List Nat) (r r' : Regs w) : Prop :=
  ∀ i, (∀ n ∈ slots, P.arch.regArg n ≠ i) → r' i = r i

structure PathFrame (slots : List Nat) (s s' : St w σ) : Prop where
  t : s'.t.sansScratch = s.t.sansScratch
  ctx : s'.ctx = s.ctx
  log : s'.log = s.log
  fs : Chmods P s.fs s'.fs
  regs : RegsKept P slots s.regs s'.regs

structure EntryFrame (slots : List Nat) (s s' : St w σ) : Prop where
  t : s'.t.lasting = s.t.lasting
  log : s'.log = s.log
  fs : Chmods P s.fs s'.fs
  regs : RegsKept P slots s.regs s'.regs

end

variable {P : Platform w σ} {slots slots' : List Nat} {s s' s'' : St w σ}

theorem lasting_of_sansScratch {t t' : Tracee w} (h : t'.sansScratch = t.sansScratch) :
    t'.lasting = t.lasting := by rw [Tracee.lasting, Tracee.lasting, h]

/-! ## Composing frames -/

theorem RegsKept.refl (r : Regs w) : RegsKept P slots r r := fun _ _ => rfl

theorem RegsKept.trans {r r' r'' : Regs w} (h : RegsKept P slots r r')
    (h' : RegsKept P slots' r' r'') : RegsKept P (slots ++ slots') r r'' := by
  intro i hi
  rw [h' i fun n hn => hi n (List.mem_append_right _ hn),
    h i fun n hn => hi n (List.mem_append_left _ hn)]

theorem RegsKept.mono {r r' : Regs w} (h : RegsKept P slots r r') (hs : slots ⊆ slots') :
    RegsKept P slots' r r' := fun i hi => h i fun n hn => hi n (hs hn)

theorem RegsKept.put (r : Regs w) (n : Nat) (v : Word w) :
    RegsKept P [n] r (r.put (P.arch.regArg n) v) :=
  fun _ hi => Regs.put_of_ne r v (hi n List.mem_cons_self).symm

namespace PathFrame

theorem refl (s : St w σ) : PathFrame P slots s s := ⟨rfl, rfl, rfl, .refl, .refl _⟩

theorem trans (h : PathFrame P slots s s') (h' : PathFrame P slots' s' s'') :
    PathFrame P (slots ++ slots') s s'' :=
  ⟨h'.t.trans h.t, h'.ctx.trans h.ctx, h'.log.trans h.log, .trans h.fs h'.fs, h.regs.trans h'.regs⟩

theorem mono (h : PathFrame P slots s s') (hs : slots ⊆ slots') : PathFrame P slots' s s' :=
  ⟨h.t, h.ctx, h.log, h.fs, h.regs.mono hs⟩

theorem entry (h : PathFrame P slots s s') : EntryFrame P slots s s' :=
  ⟨lasting_of_sansScratch h.t, h.log, h.fs, h.regs⟩

end PathFrame

namespace EntryFrame

theorem refl (s : St w σ) : EntryFrame P slots s s := (PathFrame.refl s).entry

theorem trans (h : EntryFrame P slots s s') (h' : EntryFrame P slots' s' s'') :
    EntryFrame P (slots ++ slots') s s'' :=
  ⟨h'.t.trans h.t, h'.log.trans h.log, .trans h.fs h'.fs, h.regs.trans h'.regs⟩

theorem mono (h : EntryFrame P slots s s') (hs : slots ⊆ slots') : EntryFrame P slots' s s' :=
  ⟨h.t, h.log, h.fs, h.regs.mono hs⟩

theorem after (h : EntryFrame P [] s s') (h' : EntryFrame P slots s' s'') :
    EntryFrame P slots s s'' := h.trans h'

end EntryFrame

/-! ## Argument registers -/

/-- `n` of `EMU_ARGn` -/
def argNumbers : List Nat := [1, 2, 3, 4, 5, 6]

theorem regArg_inj (A : Arch w) {m n : Nat} (hm : m ∈ argNumbers) (hn : n ∈ argNumbers)
    (h : A.regArg m = A.regArg n) : m = n :=
  have hA : (argNumbers.map A.regArg).Nodup := A.apart
  List.inj_on_of_nodup_map hA hm hn h

@[simp] theorem arg_setArg (s : St w σ) (n : Nat) (v : Word w) : (s.setArg P n v).arg P n = v :=
  Regs.put_self ..

theorem arg_setArg_ne (s : St w σ) {m n : Nat} (v : Word w) (hm : m ∈ argNumbers)
    (hn : n ∈ argNumbers) (h : m ≠ n) : (s.setArg P n v).arg P m = s.arg P m :=
  Regs.put_of_ne _ _ fun he => h (regArg_inj P.arch hm hn he)

/-! ## The pieces of a rewrite -/

theorem setArg_frame (s : St w σ) (n : Nat) (v : Word w) : PathFrame P [n] s (s.setArg P n v) :=
  ⟨rfl, rfl, rfl, .refl, .put s.regs n v⟩

theorem scratch_mem (s : St w σ) (len : Nat) : (scratch s len).2.mem = s.mem := by
  unfold scratch
  dsimp only
  split <;> rfl

theorem scratch_eq (s : St w σ) (len : Nat) :
    scratch s len =
      if Align.carve 4 s.t.scratchTop len > s.t.scratchTop then (0, s)
      else (Align.carve 4 s.t.scratchTop len,
        { s with t := { s.t with scratchTop := Align.carve 4 s.t.scratchTop len } }) := rfl

/-- What scratch hands out is the multiple of 16 that is as far below its top as asked for. -/
theorem scratch_addr {s : St w σ} {len : Nat} (h : (scratch s len).1 ≠ 0) :
    (scratch s len).1 = Align.carve 4 s.t.scratchTop len ∧
      Align.carve 4 s.t.scratchTop len ≤ s.t.scratchTop := by
  rw [scratch_eq] at h ⊢
  by_cases hroom : Align.carve 4 s.t.scratchTop len > s.t.scratchTop
  · rw [if_pos hroom] at h
    exact (h rfl).elim
  · rw [if_neg hroom]
    exact ⟨rfl, BitVec.not_lt.1 hroom⟩

/-- With room below the top there is a block. -/
theorem scratch_ne_zero {s : St w σ} {len : Nat} (h : len + 16 ≤ s.t.scratchTop.toNat) :
    (scratch s len).1 ≠ 0 := by
  have hroom : len ≤ s.t.scratchTop.toNat := by omega
  have hend := Align.carve_add_le (k := 4) hroom
  have hpos := Align.lt_carve_add (k := 4) hroom
  rw [scratch_eq, if_neg (by rw [gt_iff_lt, BitVec.lt_def]; omega)]
  intro h0
  rw [show Align.carve 4 s.t.scratchTop len = 0#w from h0, BitVec.toNat_ofNat, Nat.zero_mod] at hpos
  omega

/-- A block from scratch lies below the top, and above null. -/
theorem scratch_within {s : St w σ} {len i : Nat} (h : (scratch s len).1 ≠ 0)
    (hlen : len + 16 ≤ 2 ^ w) (hi : i < len) :
    0 < (scratch s len).1.toNat ∧ (scratch s len).1.toNat + i < s.t.scratchTop.toNat ∧
      s.t.scratchTop.toNat < (scratch s len).1.toNat + len + 16 ∧
      ((scratch s len).1 + BitVec.ofNat w i).toNat = (scratch s len).1.toNat + i := by
  obtain ⟨haddr, htop⟩ := scratch_addr h
  have hroom : len ≤ s.t.scratchTop.toNat := by
    by_contra hlt
    have hwrap := Align.lt_carve (k := 4) (Nat.lt_of_not_le hlt) hlen
    exact Nat.not_le.2 hwrap (BitVec.le_def.1 htop)
  have hend := Align.carve_add_le (k := 4) hroom
  have hlow := Align.lt_carve_add (k := 4) hroom
  rw [haddr] at h ⊢
  generalize Align.carve 4 s.t.scratchTop len = base at h hend hlow ⊢
  have hpos : 0 < base.toNat := Nat.pos_of_ne_zero fun h0 => h (BitVec.eq_of_toNat_eq h0)
  have htop := s.t.scratchTop.isLt
  refine ⟨hpos, by omega, by omega, ?_⟩
  rw [BitVec.toNat_add, BitVec.toNat_ofNat, Nat.mod_eq_of_lt (a := i) (by omega),
    Nat.mod_eq_of_lt (by omega)]

theorem scratch_frame (s : St w σ) (len : Nat) : PathFrame P [] s (scratch s len).2 := by
  unfold scratch
  dsimp only
  split
  · exact .refl s
  · exact ⟨rfl, rfl, rfl, .refl, .refl _⟩

theorem mem_frame (s : St w σ) (mem : GuestMem w) : PathFrame P [] s { s with mem := mem } :=
  ⟨rfl, rfl, rfl, .refl, .refl _⟩

theorem grantOwner_chmods (fs : σ) (path : CStr) (bits : Nat) :
    Chmods P fs (grantOwner P fs path bits) := by
  unfold grantOwner
  split
  · exact .refl
  · split
    · exact .refl
    · split
      · exact .single ⟨_, _, rfl⟩
      · exact .refl

theorem ensureDac_chmods (fs : σ) (host : CStr) (need : Dac) :
    Chmods P fs (ensureDac P fs host need) := by
  unfold ensureDac
  dsimp only
  split
  · exact .refl
  · split
    · split
      · exact .refl
      · exact grantOwner_chmods ..
    · exact grantOwner_chmods ..

theorem grantAccess_frame (s : St w σ) (sysno : Int) (which : Nat) (host : CStr) :
    PathFrame P [] s (grantAccess P s sysno which host) :=
  ⟨rfl, rfl, rfl, ensureDac_chmods .., .refl _⟩

theorem repoint_frame (s : St w σ) (slot : Nat) (host : CStr) :
    PathFrame P [slot] s (repoint P s slot host) := by
  have hs := scratch_frame (P := P) s (host.length + 1)
  unfold repoint
  generalize scratch s (host.length + 1) = q at hs ⊢
  obtain ⟨addr, s1⟩ := q
  dsimp only at hs ⊢
  split
  · exact hs.trans (setArg_frame s1 slot 0)
  · split
    · exact hs.trans ((mem_frame s1 _).trans (setArg_frame _ slot addr))
    · exact hs.trans ((mem_frame s1 _).trans (setArg_frame _ slot 0))

/-- The slots that are there; 0 is none. -/
def argSlots (slots : List Nat) : List Nat := slots.filter (· ≠ 0)

/-- `rewrite_path_arg` from where the guest path is known. -/
def rewriteGuest (P : Platform w σ) (s : St w σ) (sysno : Int) (slot : Nat) (follow : Bool)
    (which : Nat) (guest : CStr) : St w σ :=
  let s :=
    if underProc guest && which == 0 && isReadlink P.nr sysno then
      { s with t := noteProcLink s.t guest }
    else s
  let r := translatePath (s.walkEnv P follow) guest pathLen
  let s :=
    if s.ctx.hasFakeIds ∧ s.t.creds.uid.effective = 0 then grantAccess P s sysno which r.out
    else s
  if r.differs then repoint P s slot r.out else s

theorem rewritePathArg_eq (P : Platform w σ) (s : St w σ) (sysno : Int) (slot : Nat) (follow : Bool)
    (which : Nat) :
    rewritePathArg P s sysno slot follow which =
      if slot = 0 ∨ unmapped s.ctx s.t.root ∨ s.arg P slot = 0 then s
      else
        match guestReadStr s.mem (s.arg P slot) pathLen with
        | none => if s.mem.errno ≠ EFAULT then failClosed P s slot else s
        | some given =>
          if given = [] then s
          else if given.head? ≠ some slash ∧ strictOpenat2 P s sysno slot then s
          else
            match absoluteGuestPath P s (dirfdSlot P.nr sysno slot) given (2 * pathLen) with
            | none => s
            | some guest => rewriteGuest P s sysno slot follow which guest := rfl

theorem rewriteGuest_frame (s : St w σ) (sysno : Int) (slot : Nat) (follow : Bool) (which : Nat)
    (guest : CStr) : PathFrame P [slot] s (rewriteGuest P s sysno slot follow which guest) := by
  unfold rewriteGuest
  extract_lets s1 r s2
  have h1 : PathFrame P [] s s1 := by
    simp only [s1]
    split
    · exact ⟨rfl, rfl, rfl, .refl, .refl _⟩
    · exact .refl s
  have h12 : PathFrame P [] s1 s2 := by
    simp only [s2]
    split
    · exact grantAccess_frame ..
    · exact .refl s1
  have h2 : PathFrame P [] s s2 := h1.trans h12
  split
  · exact h2.trans (repoint_frame ..)
  · exact h2.mono (List.nil_subset _)

theorem rewritePathArg_frame (s : St w σ) (sysno : Int) (slot : Nat) (follow : Bool) (which : Nat) :
    PathFrame P (argSlots [slot]) s (rewritePathArg P s sysno slot follow which) := by
  rw [rewritePathArg_eq]
  split
  · exact .refl s
  rename_i h0
  have hslot : argSlots [slot] = [slot] := by
    rw [argSlots, List.filter_cons_of_pos (by simpa using fun h => h0 (.inl h)), List.filter_nil]
  rw [hslot]
  split
  · split
    · exact setArg_frame s slot 0
    · exact .refl s
  split
  · exact .refl s
  split
  · exact .refl s
  split
  · exact .refl s
  · exact rewriteGuest_frame ..

theorem rewriteSockaddr_frame (s : St w σ) (addrSlot lenSlot : Nat) :
    PathFrame P [addrSlot, lenSlot] s (rewriteSockaddr P s addrSlot lenSlot) := by
  have hs := scratch_frame (P := P) s sizeofSun
  have hfail : ∀ s1, PathFrame P [] s s1 →
      PathFrame P [addrSlot, lenSlot] s (failClosed P s1 addrSlot) := fun s1 h =>
    (h.trans (setArg_frame s1 addrSlot 0)).mono (by simp)
  unfold rewriteSockaddr
  extract_lets len got sun sunPath guest r sun'
  split
  · exact .refl s
  split
  · exact .refl s
  generalize scratch s sizeofSun = q at hs ⊢
  obtain ⟨addr, s1⟩ := q
  dsimp only at hs ⊢
  split
  · exact hfail s1 hs
  · have hm := hs.trans (mem_frame s1 (guestWrite s1.mem addr sun').1)
    split
    · exact hm.trans ((setArg_frame _ addrSlot addr).trans (setArg_frame _ lenSlot _))
    · exact hfail _ hm

/-! ## The identity side -/

theorem noteCreation_frame (s : St w σ) (sysno : Int) (d : PathSyscall) :
    EntryFrame P [] s (noteCreation P s sysno d) := by
  unfold noteCreation
  split
  · exact .refl s
  split
  · exact .refl s
  split
  · exact ⟨rfl, rfl, .refl, .refl _⟩
  · exact ⟨rfl, rfl, .refl, .refl _⟩

theorem noteCreation_ctx (s : St w σ) (sysno : Int) (d : PathSyscall) :
    (noteCreation P s sysno d).ctx = s.ctx := by
  unfold noteCreation
  repeat' split
  all_goals rfl

theorem noteChown_frame (s : St w σ) (sysno : Int) (d : Option PathSyscall) :
    EntryFrame P [] s (noteChown P s sysno d) := by
  unfold noteChown
  dsimp only
  split
  · exact .refl s
  · exact ⟨rfl, rfl, .refl, .refl _⟩

/-- The arguments that a credential change is neutralized through. -/
def idSlots : Option Action → List Nat
  | some .setuid | some .setgid | some .setfsuid | some .setfsgid => [1]
  | some .setreuid | some .setregid => [2, 1]
  | some .setresuid | some .setresgid => [3, 2, 1]
  | _ => []

theorem neutralizeIdChange_frame (s : St w σ) (a : Option Action) :
    PathFrame P (idSlots a) s (neutralizeIdChange P s a) := by
  unfold neutralizeIdChange
  dsimp only
  split
  · exact setArg_frame ..
  · exact setArg_frame ..
  · exact (setArg_frame s 2 _).trans (setArg_frame _ 1 _)
  · exact (setArg_frame s 2 _).trans (setArg_frame _ 1 _)
  · exact ((setArg_frame s 3 _).trans (setArg_frame _ 2 _)).trans (setArg_frame _ 1 _)
  · exact ((setArg_frame s 3 _).trans (setArg_frame _ 2 _)).trans (setArg_frame _ 1 _)
  · exact setArg_frame ..
  · exact setArg_frame ..
  · exact .refl s

theorem identityEntry_frame (s : St w σ) (sysno : Int) (a : Option Action) :
    EntryFrame P (idSlots a) s (identityEntry P s sysno a) := by
  have h := (neutralizeIdChange_frame (P := P) s a).entry
  unfold identityEntry
  dsimp only
  split
  · exact (h.trans (noteChown_frame ..)).mono (by simp)
  · exact h

/-! ## Mounts -/

theorem neutralize_frame (s : St w σ) (slot : Nat) (toRoot : Bool) :
    PathFrame P [slot] s (neutralize P s slot toRoot) := by
  have hs := scratch_frame (P := P) s 2
  unfold neutralize
  generalize scratch s 2 = q at hs ⊢
  obtain ⟨addr, s1⟩ := q
  dsimp only at hs ⊢
  split
  · split
    · exact hs.trans (setArg_frame s1 slot 0)
    · exact hs.trans ((mem_frame s1 _).trans (setArg_frame _ slot _))
  · exact setArg_frame s slot 0

/-- The argument through which an emulated chroot, mount or umount is neutralized. -/
def mountSlots (nr : Numbers) (sysno : Int) : Option Action → List Nat
  | some .chroot => (findPathSyscall nr sysno).toList.map (·.slot1)
  | some .mount => [2]
  | some .umount => [1]
  | _ => []

theorem emulateMounts_frame (s : St w σ) (sysno : Int) (a : Option Action) :
    EntryFrame P (mountSlots P.nr sysno a) s (emulateMounts P s sysno a).1 := by
  unfold emulateMounts
  dsimp only
  split
  · exact .refl s
  split
  · unfold emulateChroot
    cases hd : findPathSyscall P.nr sysno with
    | none => exact .refl s
    | some d =>
      simp only [mountSlots, hd]
      split
      · exact .refl s
      · split
        · exact .refl s
        · refine .after ?_ (neutralize_frame _ d.slot1 true).entry
          exact ⟨rfl, rfl, .refl, .refl _⟩
  · unfold emulateMount
    split
    · exact .refl s
    · refine .after ?_ (neutralize_frame _ 2 false).entry
      exact ⟨rfl, rfl, .refl, .refl _⟩
  · unfold emulateUmount
    split
    · exact .refl s
    · refine .after ?_ (neutralize_frame _ 1 false).entry
      exact ⟨rfl, rfl, .refl, .refl _⟩
  · exact .refl s

/-! ## execve -/

theorem placeBlock_frame (s : St w σ) (pathSlot argvSlot : Nat) (host : CStr) (args : List (EArg w)) :
    PathFrame P [pathSlot, argvSlot] s (placeBlock P s pathSlot argvSlot host args).1 := by
  have hs : PathFrame P [] s
      (if P.calloc s.fs (blockRoom host args) && P.calloc s.fs (args.length + 1) then
        scratch s (blockRoom host args) else (0, s)).2 := by
    split
    · exact scratch_frame ..
    · exact .refl s
  unfold placeBlock
  dsimp only
  generalize (if P.calloc s.fs (blockRoom host args) && P.calloc s.fs (args.length + 1) then
    scratch s (blockRoom host args) else (0, s)) = q at hs ⊢
  obtain ⟨base, s1⟩ := q
  dsimp only at hs ⊢
  split
  · exact (hs.trans (setArg_frame s1 pathSlot 0)).mono (by simp)
  · split
    · exact hs.trans ((mem_frame s1 _).trans
        ((setArg_frame _ pathSlot base).trans (setArg_frame _ argvSlot _)))
    · exact (hs.trans ((mem_frame s1 _).trans (setArg_frame _ pathSlot 0))).mono (by simp)

theorem rewriteExec_frame (s : St w σ) (pathSlot argvSlot : Nat) :
    EntryFrame P [pathSlot, argvSlot] s (rewriteExec P s pathSlot argvSlot).1 := by
  unfold rewriteExec
  split
  · exact .refl s
  split
  · exact .refl s
  dsimp only
  split
  · exact .refl s
  · split
    · refine .after ?_ (placeBlock_frame _ pathSlot argvSlot _ _).entry
      exact ⟨rfl, rfl, .refl, .refl _⟩
    · exact ⟨rfl, rfl, .refl, .refl _⟩

/-! ## The entry of a call -/

/-- The path arguments that the table lists, and those of calls outside it. -/
def pathSlots (nr : Numbers) (sysno : Int) : List Nat :=
  if nr.is .bind sysno then [2, 3]
  else if nr.is .connect sysno then [2, 3]
  else if nr.is .sendto sysno then [5, 6]
  else
    match findPathSyscall nr sysno with
    | some d => argSlots [d.slot1, d.slot2]
    | none => (if nr.is .execve sysno then [1] else []) ++ if nr.is .execveat sysno then [2] else []

/-- The arguments that the entry of a call may rewrite. -/
def entrySlots (P : Platform w σ) (sysno : Int) : List Nat :=
  idSlots (P.actionOf sysno) ++ mountSlots P.nr sysno (P.actionOf sysno) ++
    (if P.nr.is .execve sysno then [1, 2] else []) ++ pathSlots P.nr sysno

/-- The note that `rewritePaths` makes before it rewrites. -/
def notedCreation (P : Platform w σ) (s : St w σ) (sysno : Int) : St w σ :=
  if [Sys.bind, .connect, .sendto].any (P.nr.is · sysno) then s
  else
    match findPathSyscall P.nr sysno with
    | some d => noteCreation P s sysno d
    | none => s

theorem notedCreation_frame (s : St w σ) (sysno : Int) :
    EntryFrame P [] s (notedCreation P s sysno) := by
  unfold notedCreation
  split
  · exact .refl s
  · split
    · exact noteCreation_frame ..
    · exact .refl s

theorem notedCreation_ctx (s : St w σ) (sysno : Int) :
    (notedCreation P s sysno).ctx = s.ctx := by
  unfold notedCreation
  split
  · rfl
  · split
    · exact noteCreation_ctx ..
    · rfl

theorem notedCreation_of_not {s : St w σ} {sysno : Int} (h : createsFile P s sysno = false) :
    notedCreation P s sysno = s := by
  unfold notedCreation
  split
  · rfl
  · split
    · simp [noteCreation, h]
    · rfl

theorem rewriteTable_frame (s : St w σ) (sysno : Int) (d : PathSyscall) :
    PathFrame P (argSlots [d.slot1, d.slot2]) (noteCreation P s sysno d)
      (rewriteTable P s sysno d) := by
  have h := (rewritePathArg_frame (P := P) (noteCreation P s sysno d) sysno d.slot1
    (followLast P (noteCreation P s sysno d) d) 0).trans
    (rewritePathArg_frame _ sysno d.slot2 false 1)
  refine h.mono ?_
  simp only [argSlots, ← List.filter_append]
  exact fun _ hn => hn

theorem rewritePaths_frame (s : St w σ) (sysno : Int) :
    PathFrame P (pathSlots P.nr sysno) (notedCreation P s sysno) (rewritePaths P s sysno) := by
  unfold rewritePaths pathSlots notedCreation
  simp only [List.any_cons, List.any_nil, Bool.or_false, Bool.or_eq_true]
  split
  · rename_i h
    rw [if_pos (.inl h)]
    exact rewriteSockaddr_frame s 2 3
  rename_i hb
  split
  · rename_i h
    rw [if_pos (.inr (.inl h))]
    exact rewriteSockaddr_frame s 2 3
  rename_i hc
  split
  · rename_i h
    rw [if_pos (.inr (.inr h))]
    exact rewriteSockaddr_frame s 5 6
  rename_i hs
  have hn : ¬(P.nr.is .bind sysno ∨ P.nr.is .connect sysno ∨ P.nr.is .sendto sysno) := by
    rintro (h | h | h)
    · exact hb h
    · exact hc h
    · exact hs h
  rw [if_neg hn]
  cases findPathSyscall P.nr sysno with
  | some d => exact rewriteTable_frame ..
  | none =>
    have h1 : PathFrame P (if P.nr.is .execve sysno then [1] else []) s
        (if P.nr.is .execve sysno then rewritePathArg P s sysno 1 true 0 else s) := by
      split
      · exact rewritePathArg_frame s sysno 1 true 0
      · exact .refl s
    refine h1.trans ?_
    dsimp only
    split
    · exact rewritePathArg_frame _ sysno 2 true 0
    · exact .refl _

theorem emulateEntry_frame (s : St w σ) (sysno : Int) :
    EntryFrame P (idSlots (P.actionOf sysno) ++ mountSlots P.nr sysno (P.actionOf sysno)) s
      (emulateEntry P s sysno).1 := by
  unfold emulateEntry
  split
  · exact (identityEntry_frame ..).trans (emulateMounts_frame ..)
  · exact .refl s

/-- **What the entry of a call changes**, from the state with the per-call fields reset. -/
theorem onEntry_frame (s : St w σ) :
    EntryFrame P (entrySlots P (s.regs P.arch.sysno).toInt) (resetCall P s) (onEntry P s) := by
  have h0 := emulateEntry_frame (P := P) (resetCall P s) (s.regs P.arch.sysno).toInt
  unfold onEntry
  dsimp only
  rw [show (resetCall P s).t.sysno = (s.regs P.arch.sysno).toInt from rfl]
  generalize emulateEntry P (resetCall P s) (s.regs P.arch.sysno).toInt = q at h0 ⊢
  obtain ⟨s1, handled⟩ := q
  dsimp only at h0 ⊢
  split
  · exact h0.mono (by simp [entrySlots])
  · have h1 : EntryFrame P (if P.nr.is .execve (s.regs P.arch.sysno).toInt then [1, 2] else []) s1
        (if P.nr.is .execve (s.regs P.arch.sysno).toInt then rewriteExec P s1 1 2 else (s1, 0)).1 := by
      split
      · exact rewriteExec_frame ..
      · exact .refl s1
    generalize (if P.nr.is .execve (s.regs P.arch.sysno).toInt then rewriteExec P s1 1 2
      else (s1, 0)) = q at h1 ⊢
    obtain ⟨s2, r⟩ := q
    dsimp only at h1 ⊢
    split
    · exact (h0.trans h1).mono (List.subset_append_left _ _)
    · exact (h0.trans h1).trans ((notedCreation_frame ..).after (rewritePaths_frame ..).entry)

/-! ## Calls that only have their paths rewritten -/

/-- The call has an action that leaves the paths to be rewritten, and makes no file. -/
structure Plain (P : Platform w σ) (sysno : Int) (a : Action) : Prop where
  action : P.actionOf sysno = some a
  notMount : a ≠ .chroot ∧ a ≠ .mount ∧ a ≠ .umount
  notExec : a ≠ .execve

theorem Plain.not_execve {sysno : Int} {a : Action} (h : Plain P sysno a) :
    P.nr.is .execve sysno = false := by
  refine is_of_action h.action fun d hd ha => ?_
  have : ∀ d ∈ actionTable, d.nr = .execve → d.action = .execve := by decide
  exact fun hn => h.notExec (ha.symm.trans (this d hd hn))

/-- No call with an action makes a file. -/
theorem not_createsFile {sysno : Int} {a : Action} (h : P.actionOf sysno = some a) (s : St w σ) :
    createsFile P s sysno = false := by
  have hn : ∀ x ∈ [Sys.open, .openat, .creat, .mkdir, .mkdirat, .mknod, .mknodat, .symlink,
      .symlinkat], P.nr.is x sysno = false := by
    intro x hx
    refine is_of_action h fun d hd _ => ?_
    have : ∀ d ∈ actionTable, d.nr ∉ [Sys.open, .openat, .creat, .mkdir, .mkdirat, .mknod, .mknodat,
        .symlink, .symlinkat] := by decide
    exact fun he => this d hd (he ▸ hx)
  simp only [List.forall_mem_cons] at hn
  obtain ⟨h1, h2, h3, h4, h5, h6, h7, h8, h9, -⟩ := hn
  simp [createsFile, h1, h2, h3, h4, h5, h6, h7, h8, h9]

/-- The state of a plain call once its identity side is done. -/
def plainEntry (P : Platform w σ) (s : St w σ) (a : Action) : St w σ :=
  if s.ctx.hasFakeIds then identityEntry P (resetCall P s) (s.regs P.arch.sysno).toInt (some a)
  else resetCall P s

theorem Plain.onEntry_eq {s : St w σ} {a : Action} (h : Plain P (s.regs P.arch.sysno).toInt a) :
    onEntry P s = rewritePaths P (plainEntry P s a) (s.regs P.arch.sysno).toInt := by
  have he : emulateEntry P (resetCall P s) (s.regs P.arch.sysno).toInt = (plainEntry P s a, false) := by
    unfold emulateEntry plainEntry
    rw [show (resetCall P s).ctx = s.ctx from rfl]
    split
    · obtain ⟨h1, h2, h3⟩ := h.notMount
      unfold emulateMounts
      rw [h.action]
      split
      · rfl
      · cases a <;> first | rfl | exact absurd rfl ‹_›
    · rfl
  unfold onEntry
  dsimp only
  rw [show (resetCall P s).t.sysno = (s.regs P.arch.sysno).toInt from rfl, he, h.not_execve]
  rfl

/-- **The entry of a plain call**: after the identity side only its paths are rewritten. -/
theorem Plain.onEntry {s : St w σ} {a : Action} (h : Plain P (s.regs P.arch.sysno).toInt a) :
    PathFrame P (pathSlots P.nr (s.regs P.arch.sysno).toInt) (plainEntry P s a) (onEntry P s) := by
  have hf := rewritePaths_frame (P := P) (plainEntry P s a) (s.regs P.arch.sysno).toInt
  rwa [notedCreation_of_not (not_createsFile h.action _), ← h.onEntry_eq] at hf

/-! ## Calls without an action -/

/-- A call without an action is no execve. -/
theorem noAction_not_execve {sysno : Int} (h : P.actionOf sysno = none) :
    P.nr.is .execve sysno = false := by
  by_contra hx
  have hx : P.nr.is .execve sysno = true := by simpa using hx
  have ha : P.actionOf sysno = _ := actionOf_of_is hx
  cases hb : lp64 w <;> rw [hb] at ha <;> exact absurd (h.symm.trans ha) (by decide)

/-- A call without an action has nothing emulated. -/
theorem onEntry_noAction {s : St w σ} (h : P.actionOf (s.regs P.arch.sysno).toInt = none) :
    onEntry P s = rewritePaths P (resetCall P s) (s.regs P.arch.sysno).toInt := by
  have he : emulateEntry P (resetCall P s) (s.regs P.arch.sysno).toInt = (resetCall P s, false) := by
    unfold emulateEntry
    rw [h]
    split
    · unfold emulateMounts
      split <;> rfl
    · rfl
  unfold onEntry
  dsimp only
  rw [show (resetCall P s).t.sysno = (s.regs P.arch.sysno).toInt from rfl, he, noAction_not_execve h]
  rfl

/-- **The entry of a call without an action**: a creation may be noted, and paths are rewritten. -/
theorem noAction_onEntry {s : St w σ} (h : P.actionOf (s.regs P.arch.sysno).toInt = none) :
    PathFrame P (pathSlots P.nr (s.regs P.arch.sysno).toInt)
      (notedCreation P (resetCall P s) (s.regs P.arch.sysno).toInt) (onEntry P s) := by
  rw [onEntry_noAction h]
  exact rewritePaths_frame ..

end Emuroot
