import Emuroot.Lib.Footprint
import Emuroot.Proof.ExecBlock
import Emuroot.Proof.Scratch

/-!
# What the entry of a call writes

`onEntry_spends`: whatever the call, the entry changes the guest's memory in what it takes of the
scratch only. That lies below the stack pointer and its margin, and is small.
-/

namespace Emuroot

variable {w : Nat} {σ : Type} {P : Platform w σ} {s u v s' : St w σ} {n k : Nat}

/-- At most `n` bytes are taken from the top of the scratch, and of the memory only these are
changed. -/
structure Spends (n : Nat) (s s' : St w σ) : Prop where
  le : s'.t.scratchTop.toNat ≤ s.t.scratchTop.toNat
  ge : s.t.scratchTop.toNat ≤ s'.t.scratchTop.toNat + n
  mem : Memory.SameBut {x | s'.t.scratchTop.toNat ≤ x.toNat ∧ x.toNat < s.t.scratchTop.toNat}
    s.mem.toMemory s'.mem.toMemory

namespace Spends

theorem of_same (htop : s'.t.scratchTop = s.t.scratchTop) (hmem : s'.mem = s.mem) :
    Spends n s s' where
  le := Nat.le_of_eq (congrArg BitVec.toNat htop)
  ge := by rw [htop]; exact Nat.le_add_right _ _
  mem := by rw [hmem]; exact .refl _ _

theorem refl (s : St w σ) : Spends n s s := of_same rfl rfl

theorem trans (h : Spends n s u) (h' : Spends k u v) : Spends (n + k) s v where
  le := Nat.le_trans h'.le h.le
  ge := by have h1 := h.ge; have h2 := h'.ge; omega
  mem := by
    have hle := h.le
    have hle' := h'.le
    refine (h.mem.mono fun x hx => ?_).trans (h'.mem.mono fun x hx => ?_)
    · exact ⟨Nat.le_trans hle' hx.1, hx.2⟩
    · exact ⟨hx.1, Nat.lt_of_lt_of_le hx.2 hle⟩

theorem mono (h : Spends n s s') (hn : n ≤ k) : Spends k s s' :=
  ⟨h.le, Nat.le_trans h.ge (Nat.add_le_add_left hn _), h.mem⟩

theorem then_same (h : Spends n s u) (htop : v.t.scratchTop = u.t.scratchTop) (hmem : v.mem = u.mem) :
    Spends n s v :=
  h.trans (of_same (n := 0) htop hmem)

theorem of_then (htop : u.t.scratchTop = s.t.scratchTop) (hmem : u.mem = s.mem) (h : Spends n u v) :
    Spends n s v :=
  ((of_same (n := 0) htop hmem).trans h).mono (by omega)

/-- A request takes what is asked for and what aligns it. -/
theorem request (a : Arch w) (s : St w σ) {len : Nat} (hlen : len < 2 ^ 31) :
    Spends (len + 16) s (scratch s len).2 := by
  have hw : 2 ^ 32 ≤ 2 ^ w := a.two_pow_le (Nat.le_refl _)
  rw [scratch_eq]
  split
  · exact .refl s
  · rename_i htop
    rw [gt_iff_lt, BitVec.not_lt, BitVec.le_def] at htop
    have hroom : len ≤ s.t.scratchTop.toNat := by
      by_contra hlt
      have hwrap := Align.lt_carve (k := 4) (Nat.lt_of_not_le hlt) (by omega)
      omega
    have hlow := Align.lt_carve_add (k := 4) hroom
    exact ⟨htop, show _ ≤ (Align.carve 4 s.t.scratchTop len).toNat + (len + 16) by omega, .refl _ _⟩

/-- What is written into a region that was asked for. -/
theorem write (a : Arch w) (s : St w σ) {len : Nat} (hlen : len < 2 ^ 31) {bs : List Byte}
    (hbs : bs.length ≤ len) (h0 : (scratch s len).1 ≠ 0) :
    Spends (len + 16) s
      { (scratch s len).2 with mem := (guestWrite (scratch s len).2.mem (scratch s len).1 bs).1 } := by
  have hw : 2 ^ 32 ≤ 2 ^ w := a.two_pow_le (Nat.le_refl _)
  obtain ⟨hle, hge, -⟩ := request a s hlen
  obtain ⟨haddr, htop⟩ := scratch_addr h0
  refine ⟨hle, hge, ?_⟩
  rw [scratch_mem]
  refine .write _ fun x hx => ?_
  have hroom : len ≤ s.t.scratchTop.toNat := by
    by_contra hlt
    have hwrap := Align.lt_carve (k := 4) (Nat.lt_of_not_le hlt) (by omega)
    exact Nat.not_le.2 hwrap (BitVec.le_def.1 htop)
  have hend := Align.carve_add_le (k := 4) hroom
  have hlt := s.t.scratchTop.isLt
  rw [← haddr] at hend
  obtain ⟨h1, h2⟩ := Memory.range_between (by omega) hx
  have hnew : (scratch s len).2.t.scratchTop = (scratch s len).1 := by
    rw [scratch_eq] at h0 ⊢
    split
    · rename_i hgt
      rw [if_pos hgt] at h0
      exact absurd rfl h0
    · rfl
  exact ⟨by rw [hnew]; exact h1, by omega⟩

/-- What comes of a request: nothing is written, or what was asked for. -/
theorem scratch (a : Arch w) (s : St w σ) {len : Nat} (hlen : len < 2 ^ 31) :
    Spends (len + 16) s (Emuroot.scratch s len).2 ∧ ((Emuroot.scratch s len).1 ≠ 0 →
      ∀ bs : List Byte, bs.length ≤ len → Spends (len + 16) s
        { (Emuroot.scratch s len).2 with
          mem := (guestWrite (Emuroot.scratch s len).2.mem (Emuroot.scratch s len).1 bs).1 }) :=
  ⟨request a s hlen, fun h0 _ hbs => write a s hlen hbs h0⟩

end Spends

/-! ## Paths -/

/-- What is taken for a path and its NUL. -/
def pathRoom : Nat := pathLen + 16

theorem repoint_spends (s : St w σ) (slot : Nat) {host : CStr} (hhost : host.length < pathLen) :
    Spends pathRoom s (repoint P s slot host) := by
  have hlen : host.length + 1 < 2 ^ 31 := Nat.lt_of_le_of_lt hhost (by decide)
  have hroom : host.length + 1 + 16 ≤ pathRoom := Nat.add_le_add_right hhost 16
  have hs := Spends.scratch P.arch s hlen
  unfold repoint
  generalize scratch s (host.length + 1) = q at hs ⊢
  obtain ⟨addr, s1⟩ := q
  dsimp only at hs ⊢
  obtain ⟨hnone, hput⟩ := hs
  split
  · exact (hnone.mono hroom).then_same rfl rfl
  · rename_i h0
    have hwrite := (hput h0 (host ++ [0]) (by simp)).mono hroom
    split
    · exact hwrite.then_same rfl rfl
    · exact hwrite.then_same rfl rfl

theorem rewriteGuest_spends (s : St w σ) (sysno : Int) (slot : Nat) (follow : Bool) (which : Nat)
    (guest : CStr) : Spends pathRoom s (rewriteGuest P s sysno slot follow which guest) := by
  unfold rewriteGuest
  extract_lets s1 r s2
  have h1 : s1.t.scratchTop = s.t.scratchTop ∧ s1.mem = s.mem := by
    simp only [s1]
    split <;> exact ⟨rfl, rfl⟩
  have h2 : s2.t.scratchTop = s1.t.scratchTop ∧ s2.mem = s1.mem := by
    simp only [s2]
    split <;> exact ⟨rfl, rfl⟩
  have htop := h2.1.trans h1.1
  have hmem := h2.2.trans h1.2
  split
  · exact .of_then htop hmem (repoint_spends s2 slot (length_translatePath_lt _ _))
  · exact .of_same htop hmem

theorem rewritePathArg_spends (s : St w σ) (sysno : Int) (slot : Nat) (follow : Bool) (which : Nat) :
    Spends pathRoom s (rewritePathArg P s sysno slot follow which) := by
  rw [rewritePathArg_eq]
  split
  · exact .refl s
  split
  · split
    · exact .of_same rfl rfl
    · exact .refl s
  split
  · exact .refl s
  split
  · exact .refl s
  split
  · exact .refl s
  · exact rewriteGuest_spends ..

theorem rewriteSockaddr_spends (s : St w σ) (addrSlot lenSlot : Nat) :
    Spends pathRoom s (rewriteSockaddr P s addrSlot lenSlot) := by
  have hs := Spends.scratch P.arch s (by decide : sizeofSun < 2 ^ 31)
  have hroom : sizeofSun + 16 ≤ pathRoom := by decide
  unfold rewriteSockaddr
  extract_lets len got sun sunPath guest r sun'
  split
  · exact .refl s
  split
  · exact .refl s
  rename_i haddr hfits
  have hsun : sun'.length ≤ sizeofSun := by
    have hr : r.out.length < sizeofSun - sunPathAt := by
      rw [not_or] at hfits
      exact Nat.lt_of_not_le hfits.2
    have htake : (sun.take sunPathAt).length ≤ sunPathAt := List.length_take_le _ _
    have hconst : sunPathAt ≤ sizeofSun := by decide
    simp only [sun', List.length_append, List.length_replicate]
    omega
  generalize scratch s sizeofSun = q at hs ⊢
  obtain ⟨addr, s1⟩ := q
  dsimp only at hs ⊢
  obtain ⟨hnone, hput⟩ := hs
  split
  · exact (hnone.mono hroom).then_same rfl rfl
  · rename_i h0
    have hwrite := (hput h0 sun' hsun).mono hroom
    split
    · exact hwrite.then_same rfl rfl
    · exact hwrite.then_same rfl rfl

/-! ## Mounts and identities -/

theorem neutralize_spends (s : St w σ) (slot : Nat) (toRoot : Bool) :
    Spends pathRoom s (neutralize P s slot toRoot) := by
  have hs := Spends.scratch P.arch s (by decide : 2 < 2 ^ 31)
  have hroom : 2 + 16 ≤ pathRoom := by decide
  unfold neutralize
  generalize scratch s 2 = q at hs ⊢
  obtain ⟨addr, s1⟩ := q
  dsimp only at hs ⊢
  obtain ⟨hnone, hput⟩ := hs
  split
  · split
    · exact (hnone.mono hroom).then_same rfl rfl
    · rename_i h0
      exact ((hput h0 [slash, 0] (Nat.le_refl 2)).mono hroom).then_same rfl rfl
  · exact .of_same rfl rfl

theorem emulateMounts_spends (s : St w σ) (sysno : Int) (a : Option Action) :
    Spends pathRoom s (emulateMounts P s sysno a).1 := by
  unfold emulateMounts
  dsimp only
  split
  · exact .refl s
  split
  · unfold emulateChroot
    split
    · exact .refl s
    split
    · exact .refl s
    split
    · exact .refl s
    · dsimp only
      refine .of_then ?_ ?_ (neutralize_spends _ _ _)
      · rfl
      · rfl
  · unfold emulateMount
    split
    · exact .refl s
    · dsimp only
      refine .of_then ?_ ?_ (neutralize_spends _ _ _)
      · rfl
      · rfl
  · unfold emulateUmount
    split
    · exact .refl s
    · dsimp only
      refine .of_then ?_ ?_ (neutralize_spends _ _ _)
      · rfl
      · rfl
  · exact .refl s

theorem identityEntry_mem (s : St w σ) (sysno : Int) (a : Option Action) :
    (identityEntry P s sysno a).mem = s.mem := by
  have hchange : (neutralizeIdChange P s a).mem = s.mem := by
    unfold neutralizeIdChange
    dsimp only
    split <;> rfl
  unfold identityEntry
  dsimp only
  split
  · unfold noteChown
    dsimp only
    split
    · exact hchange
    · exact hchange
  · exact hchange

theorem noteCreation_mem (s : St w σ) (sysno : Int) (d : PathSyscall) :
    (noteCreation P s sysno d).mem = s.mem := by
  unfold noteCreation
  repeat' split
  all_goals rfl

/-! ## execve -/

/-- What is taken for an argument vector, which is more than for anything else. -/
def execRoom : Nat := 2 ^ 18

theorem placeBlock_spends (s : St w σ) (pathSlot argvSlot : Nat) {host : CStr} {args : List (EArg w)}
    (hroom : blockRoom host args + 16 ≤ execRoom) :
    Spends execRoom s (placeBlock P s pathSlot argvSlot host args).1 := by
  have hlen : blockRoom host args < 2 ^ 31 := by
    have h : execRoom < 2 ^ 31 := by decide
    omega
  have hq : ∀ q, q = (if P.calloc s.fs (blockRoom host args) && P.calloc s.fs (args.length + 1) then
      scratch s (blockRoom host args) else (0, s)) →
      Spends execRoom s q.2 ∧ (q.1 ≠ 0 → ∀ bs : List Byte, bs.length ≤ blockRoom host args →
        Spends execRoom s { q.2 with mem := (guestWrite q.2.mem q.1 bs).1 }) := by
    rintro q rfl
    obtain ⟨hnone, hput⟩ := Spends.scratch P.arch s hlen
    split
    · exact ⟨hnone.mono hroom, fun h0 bs hbs => (hput h0 bs hbs).mono hroom⟩
    · exact ⟨.refl s, fun h0 => absurd rfl h0⟩
  unfold placeBlock
  dsimp only
  generalize hdef : (if P.calloc s.fs (blockRoom host args) && P.calloc s.fs (args.length + 1) then
    scratch s (blockRoom host args) else (0, s)) = q
  replace hq := hq q hdef.symm
  obtain ⟨base, s1⟩ := q
  dsimp only at hq ⊢
  obtain ⟨hnone, hput⟩ := hq
  split
  · exact hnone.then_same rfl rfl
  · rename_i h0
    have hwrite := hput h0 _ (length_execBlock_le P.arch.bigEndian base host args)
    split
    · exact hwrite.then_same rfl rfl
    · exact hwrite.then_same rfl rfl

theorem rewriteExec_spends (s : St w σ) : Spends execRoom s (rewriteExec P s 1 2).1 := by
  unfold rewriteExec
  split
  · exact .refl s
  split
  · exact .refl s
  rename_i p0 hp0
  dsimp only
  split
  · exact .refl s
  split
  · obtain ⟨ps, hps, hlen, -⟩ := readArgv_ptrs s.mem P.arch.bigEndian (s.arg P 2) maxExecArgs
    have hstart := @execStart_built _ _ s p0 ps hlen
    rw [execStart, List.take_of_length_le hlen, ← hps] at hstart
    have hbuilt := expandExec_built (P := P) (s := s) maxShebangDepth hstart (by decide)
      (guestReadStr_proper hp0)
    refine .of_then ?_ ?_ (placeBlock_spends _ 1 2 ?_)
    · rfl
    · rfl
    refine hbuilt.blockRoom_le P.arch (by decide) ?_
    exact length_expandExec_host_lt maxShebangDepth (by decide : 0 < pathLen)
  · exact .of_same rfl rfl

/-! ## The whole entry -/

/-- What is taken for a call at most. -/
def entryRoom : Nat := pathRoom + execRoom + (pathRoom + pathRoom)

theorem rewriteTable_spends (s : St w σ) (sysno : Int) (d : PathSyscall) :
    Spends (pathRoom + pathRoom) s (rewriteTable P s sysno d) := by
  unfold rewriteTable
  dsimp only
  refine .of_then (noteCreation_top (P := P) s sysno d) (noteCreation_mem s sysno d) ?_
  exact (rewritePathArg_spends ..).trans (rewritePathArg_spends ..)

theorem rewritePaths_spends (s : St w σ) (sysno : Int) :
    Spends (pathRoom + pathRoom) s (rewritePaths P s sysno) := by
  have hle : pathRoom ≤ pathRoom + pathRoom := Nat.le_add_left _ _
  unfold rewritePaths
  split
  · exact (rewriteSockaddr_spends s 2 3).mono hle
  split
  · exact (rewriteSockaddr_spends s 2 3).mono hle
  split
  · exact (rewriteSockaddr_spends s 5 6).mono hle
  split
  · exact rewriteTable_spends ..
  have hexec : Spends pathRoom s
      (if P.nr.is .execve sysno then rewritePathArg P s sysno 1 true 0 else s) := by
    split
    · exact rewritePathArg_spends ..
    · exact .refl s
  dsimp only
  split
  · exact hexec.trans (rewritePathArg_spends ..)
  · exact hexec.mono hle

theorem emulateEntry_spends (s : St w σ) (sysno : Int) :
    Spends pathRoom s (emulateEntry P s sysno).1 := by
  unfold emulateEntry
  split
  · exact .of_then (identityEntry_top ..) (identityEntry_mem ..) (emulateMounts_spends ..)
  · exact .refl s

/-- The entry of a call changes what it takes of the scratch, and nothing else. -/
theorem onEntry_spends (s : St w σ) : Spends entryRoom (resetCall P s) (onEntry P s) := by
  have hids := emulateEntry_spends (P := P) (resetCall P s) (s.regs P.arch.sysno).toInt
  unfold onEntry
  dsimp only
  rw [show (resetCall P s).t.sysno = (s.regs P.arch.sysno).toInt from rfl]
  generalize emulateEntry P (resetCall P s) (s.regs P.arch.sysno).toInt = q at hids ⊢
  obtain ⟨s1, handled⟩ := q
  dsimp only at hids ⊢
  split
  · exact hids.mono (by decide)
  have hexec : Spends execRoom s1
      (if P.nr.is .execve (s.regs P.arch.sysno).toInt then rewriteExec P s1 1 2 else (s1, 0)).1 := by
    split
    · exact rewriteExec_spends s1
    · exact .refl s1
  generalize (if P.nr.is .execve (s.regs P.arch.sysno).toInt then rewriteExec P s1 1 2
    else (s1, 0)) = q at hexec ⊢
  obtain ⟨s2, r⟩ := q
  dsimp only at hexec ⊢
  split
  · exact (hids.trans hexec).mono (by decide)
  · exact (hids.trans hexec).trans (rewritePaths_spends ..)

/-- The addresses below a stack pointer that an entry may use: from behind its margin on, as far as
what is taken at most. -/
def Slack (sp : Word w) : Set (Word w) :=
  {x | x.toNat + scratchMargin < sp.toNat ∧ sp.toNat < x.toNat + scratchMargin + entryRoom + 16}

/-- **The entry writes below the stack only.** -/
theorem onEntry_writes (s : St w σ) (hsp : scratchMargin ≤ (s.regs P.arch.sp).toNat) :
    Memory.SameBut (Slack (s.regs P.arch.sp)) s.mem.toMemory (onEntry P s).mem.toMemory := by
  obtain ⟨hle, hge, hmem⟩ := onEntry_spends (P := P) s
  have htop := resetCall_top P s hsp
  have hlow : (s.regs P.arch.sp).toNat - scratchMargin < (resetCall P s).t.scratchTop.toNat + 16 := by
    have hmargin := P.arch.toNat_const (by decide : scratchMargin < 2 ^ 32)
    have hsub : (s.regs P.arch.sp - BitVec.ofNat w scratchMargin).toNat =
        (s.regs P.arch.sp).toNat - scratchMargin := by
      rw [BitVec.toNat_sub_of_le (by rw [BitVec.le_def, hmargin]; exact hsp), hmargin]
    rw [← hsub]
    exact Align.lt_down_add 4 _
  refine hmem.mono fun x hx => ?_
  obtain ⟨h1, h2⟩ := hx
  constructor
  · omega
  · omega

end Emuroot
