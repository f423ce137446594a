import Emuroot.Lib.Runs
import Emuroot.Model.Linux
import Emuroot.Proof.ExecLayout
import Mathlib.Order.CompletePartialOrder
import Mathlib.Order.Interval.Set.Disjoint

/-!
# The regions of scratch memory

`scratch_apart`: what a call gets from `emuroot_scratch` lies below the stack, and no two of its
regions have a byte in common. `onEntry_scratched`: the entry of a call takes scratch from nowhere
else.
-/

namespace Emuroot

variable {w : Nat} {σ : Type} {s u v : St w σ}

/-- A request for scratch, and the answer. -/
structure Request (w : Nat) where
  len : Nat
  addr : Word w

/-- The addresses of the region that is handed out. -/
def Request.region (r : Request w) : Set Nat := Set.Ico r.addr.toNat (r.addr.toNat + r.len)

/-- A request of less than half the address space, or anything else that a call does: it leaves
`scratch_top`, below which the guest's memory is free. -/
def ScratchStep (s : St w σ) (r : Option (Request w)) (s' : St w σ) : Prop :=
  match r with
  | some r => r.len < 2 ^ (w - 1) ∧ scratch s r.len = (r.addr, s')
  | none => s'.t.scratchTop = s.t.scratchTop

/-! ## One request -/

/-- A request for which there is no room is refused. -/
theorem ScratchStep.refused (a : Arch w) {r : Request w} (h : ScratchStep s (some r) u)
    (hroom : s.t.scratchTop.toNat < r.len) : r.addr = 0 ∧ u = s := by
  have hhalf : 2 ^ (w - 1) + 2 ^ 4 ≤ 2 ^ w := by
    rcases a.bits with rfl | rfl <;> decide
  obtain ⟨hlen, hs⟩ := h
  rw [scratch_eq, if_pos (BitVec.lt_def.2 (Align.lt_carve hroom (by omega)))] at hs
  obtain ⟨haddr, hu⟩ := Prod.mk.inj hs
  exact ⟨haddr.symm, hu.symm⟩

/-- Otherwise the region is behind what is left. -/
theorem ScratchStep.granted (a : Arch w) {r : Request w} (h : ScratchStep s (some r) u)
    (hroom : r.len ≤ s.t.scratchTop.toNat) :
    r.addr.toNat % 16 = 0 ∧ r.addr.toNat + r.len ≤ s.t.scratchTop.toNat ∧
      u.t.scratchTop = r.addr := by
  have hw : 4 ≤ w := by
    rcases a.bits with rfl | rfl <;> decide
  have hend := Align.carve_add_le (k := 4) hroom
  obtain ⟨hlen, hs⟩ := h
  rw [scratch_eq, if_neg (by rw [gt_iff_lt, BitVec.lt_def]; omega)] at hs
  obtain ⟨haddr, hu⟩ := Prod.mk.inj hs
  rw [← haddr, ← hu]
  exact ⟨Align.down_mod hw _, hend, rfl⟩

/-! ## A call's requests -/

/-- The regions of a run lie one below the other: behind what is left, and below what was. -/
theorem scratch_between (a : Arch w) {as : List (Option (Request w))} (h : Run ScratchStep s as u) :
    u.t.scratchTop.toNat ≤ s.t.scratchTop.toNat ∧
      ∀ r, some r ∈ as → r.addr ≠ 0 → r.addr.toNat % 16 = 0 ∧
        u.t.scratchTop.toNat ≤ r.addr.toNat ∧ r.addr.toNat + r.len ≤ s.t.scratchTop.toNat := by
  induction h with
  | nil s => exact ⟨Nat.le_refl _, fun r hr => absurd hr List.not_mem_nil⟩
  | @cons s s' u o as hs _ ih =>
    obtain ⟨hle, hin⟩ := ih
    -- one step takes nothing from behind its end
    have hstep : s'.t.scratchTop.toNat ≤ s.t.scratchTop.toNat ∧
        ∀ r, o = some r → r.addr ≠ 0 → r.addr.toNat % 16 = 0 ∧
          s'.t.scratchTop.toNat ≤ r.addr.toNat ∧ r.addr.toNat + r.len ≤ s.t.scratchTop.toNat := by
      cases o with
      | none => exact ⟨Nat.le_of_eq (congrArg BitVec.toNat hs), nofun⟩
      | some r =>
        obtain hroom | hroom := Nat.lt_or_ge s.t.scratchTop.toNat r.len
        · obtain ⟨h0, rfl⟩ := hs.refused a hroom
          refine ⟨Nat.le_refl _, fun q hq hne => ?_⟩
          rw [← Option.some.inj hq] at hne
          exact absurd h0 hne
        · obtain ⟨hmod, hend, htop⟩ := hs.granted a hroom
          rw [htop]
          refine ⟨by omega, fun q hq _ => ?_⟩
          rw [← Option.some.inj hq]
          exact ⟨hmod, Nat.le_refl _, hend⟩
    refine ⟨hle.trans hstep.1, fun r hr hne => ?_⟩
    obtain hr | hr := List.mem_cons.1 hr
    · obtain ⟨hmod, hlow, hend⟩ := hstep.2 r hr.symm hne
      exact ⟨hmod, hle.trans hlow, hend⟩
    · obtain ⟨hmod, hlow, hend⟩ := hin r hr hne
      exact ⟨hmod, hlow, hend.trans hstep.1⟩

/-- What a call begins with lies below the stack. -/
theorem resetCall_top (P : Platform w σ) (s : St w σ)
    (hsp : scratchMargin ≤ (s.regs P.arch.sp).toNat) :
    (resetCall P s).t.scratchTop.toNat ≤ (s.regs P.arch.sp).toNat - scratchMargin := by
  have hmargin := P.arch.toNat_const (by decide : scratchMargin < 2 ^ 32)
  have hsub : (s.regs P.arch.sp - BitVec.ofNat w scratchMargin).toNat =
      (s.regs P.arch.sp).toNat - scratchMargin := by
    rw [BitVec.toNat_sub_of_le (by rw [BitVec.le_def, hmargin]; exact hsp), hmargin]
  rw [← hsub]
  exact Align.down_le 4 _

/-- **Scratch regions never collide.** During a call, whatever was asked for before: a region that is
handed out is aligned, lies below the stack and its margin, and has no byte in common with an
earlier one; a request for more than is left gets nothing. -/
theorem scratch_apart (P : Platform w σ) (hsp : scratchMargin ≤ (s.regs P.arch.sp).toNat)
    {as : List (Option (Request w))} (h : Run ScratchStep (resetCall P s) as u) {r : Request w}
    (hr : ScratchStep u (some r) v) :
    (r.addr ≠ 0 →
      r.addr.toNat % 16 = 0 ∧
      r.addr.toNat + r.len ≤ (s.regs P.arch.sp).toNat - scratchMargin ∧
      ∀ q, some q ∈ as → q.addr ≠ 0 → Disjoint r.region q.region) ∧
    (u.t.scratchTop.toNat < r.len → r.addr = 0) := by
  have htop := resetCall_top P s hsp
  obtain ⟨hle, hin⟩ := scratch_between P.arch h
  refine ⟨fun hne => ?_, fun hroom => (hr.refused P.arch hroom).1⟩
  have hroom : r.len ≤ u.t.scratchTop.toNat := by
    by_contra hlt
    exact hne (hr.refused P.arch (Nat.lt_of_not_le hlt)).1
  obtain ⟨hmod, hend, -⟩ := hr.granted P.arch hroom
  refine ⟨hmod, hend.trans (hle.trans htop), fun q hq hq0 => ?_⟩
  have hlow := (hin q hq hq0).2.1
  exact Set.disjoint_left.2 fun x hx hx' => by
    have h1 : x < r.addr.toNat + r.len := hx.2
    have h2 : q.addr.toNat ≤ x := hx'.1
    omega

/-- A rename, with its stack at 65536 and two paths to be rewritten. -/
def renameStart : St 64 Unit :=
  resetCall linuxPlatform (linuxCall Ctx.create [] 82 [4096, 4112] [])

theorem scratch_apart_rename :
    (scratch renameStart 11).1 = 65008 ∧ (scratch (scratch renameStart 11).2 20).1 = 64976 ∧
      Disjoint (Set.Ico 64976 64996) (Set.Ico 65008 65019) := by
  have hfirst : ScratchStep renameStart (some ⟨11, 65008⟩) (scratch renameStart 11).2 :=
    ⟨by decide, rfl⟩
  have hsecond : ScratchStep (scratch renameStart 11).2 (some ⟨20, 64976⟩)
      (scratch (scratch renameStart 11).2 20).2 := ⟨by decide, rfl⟩
  have h := scratch_apart linuxPlatform (by decide) (.cons hfirst (.nil _)) hsecond
  exact ⟨rfl, rfl, (h.1 (by decide)).2.2 _ List.mem_cons_self (by decide)⟩

/-! ## The entry of a call -/

/-- Between two states of a call: some requests, and what else it does. -/
def Scratched (s s' : St w σ) : Prop := ∃ as, Run ScratchStep s as s'

variable {P : Platform w σ} {s' : St w σ}

namespace Scratched

theorem of_top (h : s'.t.scratchTop = s.t.scratchTop) : Scratched s s' :=
  ⟨[none], .cons (a := none) h (.nil s')⟩

theorem refl (s : St w σ) : Scratched s s := of_top rfl

theorem trans (h : Scratched s u) (h' : Scratched u v) : Scratched s v := by
  obtain ⟨as, has⟩ := h
  obtain ⟨bs, hbs⟩ := h'
  exact ⟨as ++ bs, has.append hbs⟩

/-- Something else that leads to a state with the same scratch. -/
theorem of_eq_top (htop : u.t.scratchTop = s.t.scratchTop) (h : Scratched u v) : Scratched s v :=
  (of_top htop).trans h

theorem then_top (h : Scratched s u) (htop : v.t.scratchTop = u.t.scratchTop) : Scratched s v :=
  h.trans (of_top htop)

/-- The lengths that are asked for are less than half the address space. -/
theorem request (a : Arch w) (s : St w σ) {len : Nat} (hlen : len < 2 ^ 31) :
    Scratched s (scratch s len).2 := by
  have hhalf : 2 ^ 31 ≤ 2 ^ (w - 1) := by
    rcases a.bits with rfl | rfl <;> decide
  let r : Request w := ⟨len, (scratch s len).1⟩
  have hstep : ScratchStep s (some r) (scratch s len).2 := ⟨Nat.lt_of_lt_of_le hlen hhalf, rfl⟩
  exact ⟨[some r], .cons hstep (.nil _)⟩

end Scratched

theorem repoint_scratched (s : St w σ) (slot : Nat) {host : CStr} (hhost : host.length < pathLen) :
    Scratched s (repoint P s slot host) := by
  have hlen : host.length + 1 < 2 ^ 31 := Nat.lt_of_le_of_lt hhost (by decide)
  have hs := Scratched.request P.arch s hlen
  unfold repoint
  generalize scratch s (host.length + 1) = q at hs ⊢
  obtain ⟨addr, s1⟩ := q
  dsimp only at hs ⊢
  split
  · exact hs.then_top rfl
  · split
    · exact hs.then_top rfl
    · exact hs.then_top rfl

theorem length_translatePath_lt (E : WalkEnv) (guest : CStr) :
    (translatePath E guest pathLen).out.length < pathLen := by
  have hlt : ∀ p : CStr, (snprintf pathLen p).length < pathLen := fun p =>
    Nat.lt_of_le_of_lt (length_snprintf_le _ _) (by decide)
  unfold translatePath translatePathEx
  split
  · exact hlt _
  · exact hlt _

theorem rewriteGuest_scratched (s : St w σ) (sysno : Int) (slot : Nat) (follow : Bool) (which : Nat)
    (guest : CStr) : Scratched s (rewriteGuest P s sysno slot follow which guest) := by
  unfold rewriteGuest
  extract_lets s1 r s2
  have h1 : s1.t.scratchTop = s.t.scratchTop := by
    simp only [s1]
    split <;> rfl
  have h2 : s2.t.scratchTop = s1.t.scratchTop := by
    simp only [s2]
    split <;> rfl
  have h := Scratched.of_top (h2.trans h1)
  split
  · exact h.trans (repoint_scratched s2 slot (length_translatePath_lt _ _))
  · exact h

theorem rewritePathArg_scratched (s : St w σ) (sysno : Int) (slot : Nat) (follow : Bool)
    (which : Nat) : Scratched s (rewritePathArg P s sysno slot follow which) := by
  rw [rewritePathArg_eq]
  split
  · exact .refl s
  split
  · split
    · exact .of_top rfl
    · exact .refl s
  split
  · exact .refl s
  split
  · exact .refl s
  split
  · exact .refl s
  · exact rewriteGuest_scratched ..

theorem rewriteSockaddr_scratched (s : St w σ) (addrSlot lenSlot : Nat) :
    Scratched s (rewriteSockaddr P s addrSlot lenSlot) := by
  have hs := Scratched.request P.arch s (by decide : sizeofSun < 2 ^ 31)
  unfold rewriteSockaddr
  extract_lets len got sun sunPath guest r sun'
  split
  · exact .refl s
  split
  · exact .refl s
  generalize scratch s sizeofSun = q at hs ⊢
  obtain ⟨addr, s1⟩ := q
  dsimp only at hs ⊢
  split
  · exact hs.then_top rfl
  · split
    · exact hs.then_top rfl
    · exact hs.then_top rfl

theorem neutralize_scratched (s : St w σ) (slot : Nat) (toRoot : Bool) :
    Scratched s (neutralize P s slot toRoot) := by
  have hs := Scratched.request P.arch s (by decide : 2 < 2 ^ 31)
  unfold neutralize
  generalize scratch s 2 = q at hs ⊢
  obtain ⟨addr, s1⟩ := q
  dsimp only at hs ⊢
  split
  · split
    · exact hs.then_top rfl
    · exact hs.then_top rfl
  · exact .of_top rfl

theorem emulateMounts_scratched (s : St w σ) (sysno : Int) (a : Option Action) :
    Scratched s (emulateMounts P s sysno a).1 := by
  unfold emulateMounts
  dsimp only
  split
  · exact .refl s
  split
  · unfold emulateChroot
    split
    · exact .refl s
    split
    · exact .refl s
    split
    · exact .refl s
    · dsimp only
      refine .of_eq_top ?_ (neutralize_scratched _ _ _)
      rfl
  · unfold emulateMount
    split
    · exact .refl s
    · dsimp only
      refine .of_eq_top ?_ (neutralize_scratched _ _ _)
      rfl
  · unfold emulateUmount
    split
    · exact .refl s
    · dsimp only
      refine .of_eq_top ?_ (neutralize_scratched _ _ _)
      rfl
  · exact .refl s

theorem identityEntry_top (s : St w σ) (sysno : Int) (a : Option Action) :
    (identityEntry P s sysno a).t.scratchTop = s.t.scratchTop := by
  have hchange : (neutralizeIdChange P s a).t.scratchTop = s.t.scratchTop := by
    unfold neutralizeIdChange
    dsimp only
    split <;> rfl
  unfold identityEntry
  dsimp only
  split
  · unfold noteChown
    dsimp only
    split
    · exact hchange
    · exact hchange
  · exact hchange

theorem noteCreation_top (s : St w σ) (sysno : Int) (d : PathSyscall) :
    (noteCreation P s sysno d).t.scratchTop = s.t.scratchTop := by
  unfold noteCreation
  repeat' split
  all_goals rfl

theorem placeBlock_scratched (s : St w σ) (pathSlot argvSlot : Nat) {host : CStr}
    {args : List (EArg w)} (hroom : blockRoom host args < 2 ^ 31) :
    Scratched s (placeBlock P s pathSlot argvSlot host args).1 := by
  have hs : Scratched s
      (if P.calloc s.fs (blockRoom host args) && P.calloc s.fs (args.length + 1) then
        scratch s (blockRoom host args) else (0, s)).2 := by
    split
    · exact .request P.arch s hroom
    · exact .refl s
  unfold placeBlock
  dsimp only
  generalize (if P.calloc s.fs (blockRoom host args) && P.calloc s.fs (args.length + 1) then
    scratch s (blockRoom host args) else (0, s)) = q at hs ⊢
  obtain ⟨base, s1⟩ := q
  dsimp only at hs ⊢
  split
  · exact hs.then_top rfl
  · split
    · exact hs.then_top rfl
    · exact hs.then_top rfl

theorem length_hostPathOf_lt (s : St w σ) (q : CStr) : (hostPathOf P s q pathLen).length < pathLen := by
  unfold hostPathOf
  split
  · exact length_translatePath_lt _ _
  · dsimp only
    split
    · exact (by decide : 0 < pathLen)
    · rename_i hfits
      rw [List.length_append, List.length_cons]
      omega

/-- The host path that the expansion loop ends with fits its buffer. -/
theorem length_expandExec_host_lt (d : Nat) {e : ExecState w} (he : e.host.length < pathLen) :
    (expandExec P s d e).host.length < pathLen := by
  have hq := length_hostPathOf_lt (P := P) s
  induction d generalizing e with
  | zero => exact he
  | succ d ih =>
    unfold expandExec
    dsimp only
    split
    · exact hq _
    split
    · exact ih (hq _)
    split
    · exact hq _
    split
    · exact hq _
    · exact Nat.lt_of_le_of_lt (length_snprintf_le _ _) (by decide)

theorem rewriteExec_scratched (s : St w σ) : Scratched s (rewriteExec P s 1 2).1 := by
  unfold rewriteExec
  split
  · exact .refl s
  split
  · exact .refl s
  rename_i p0 hp0
  dsimp only
  split
  · exact .refl s
  split
  · obtain ⟨ps, hps, hlen, -⟩ := readArgv_ptrs s.mem P.arch.bigEndian (s.arg P 2) maxExecArgs
    have hstart := @execStart_built _ _ s p0 ps hlen
    rw [execStart, List.take_of_length_le hlen, ← hps] at hstart
    have hbuilt := expandExec_built (P := P) (s := s) maxShebangDepth hstart (by decide)
      (guestReadStr_proper hp0)
    refine .of_eq_top ?_ (placeBlock_scratched _ 1 2 ?_)
    · rfl
    · have hpad : ∀ n : Nat, n + 16 ≤ 2 ^ 18 → n < 2 ^ 31 := by omega
      refine hpad _ (hbuilt.blockRoom_le P.arch (by decide) ?_)
      exact length_expandExec_host_lt maxShebangDepth (by decide : 0 < pathLen)
  · exact .of_top rfl

theorem rewriteTable_scratched (s : St w σ) (sysno : Int) (d : PathSyscall) :
    Scratched s (rewriteTable P s sysno d) := by
  unfold rewriteTable
  dsimp only
  refine .of_eq_top (noteCreation_top (P := P) s sysno d) ?_
  exact (rewritePathArg_scratched ..).trans (rewritePathArg_scratched ..)

theorem rewritePaths_scratched (s : St w σ) (sysno : Int) :
    Scratched s (rewritePaths P s sysno) := by
  unfold rewritePaths
  split
  · exact rewriteSockaddr_scratched s 2 3
  split
  · exact rewriteSockaddr_scratched s 2 3
  split
  · exact rewriteSockaddr_scratched s 5 6
  split
  · exact rewriteTable_scratched ..
  have hexec : Scratched s (if P.nr.is .execve sysno then rewritePathArg P s sysno 1 true 0 else s) := by
    split
    · exact rewritePathArg_scratched ..
    · exact .refl s
  dsimp only
  split
  · exact hexec.trans (rewritePathArg_scratched ..)
  · exact hexec

theorem emulateEntry_scratched (s : St w σ) (sysno : Int) :
    Scratched s (emulateEntry P s sysno).1 := by
  unfold emulateEntry
  split
  · exact .of_eq_top (identityEntry_top ..) (emulateMounts_scratched ..)
  · exact .refl s

/-- **The entry of a call gets its scratch from such requests only.** -/
theorem onEntry_scratched (s : St w σ) : Scratched (resetCall P s) (onEntry P s) := by
  have hids := emulateEntry_scratched (P := P) (resetCall P s) (s.regs P.arch.sysno).toInt
  unfold onEntry
  dsimp only
  rw [show (resetCall P s).t.sysno = (s.regs P.arch.sysno).toInt from rfl]
  generalize emulateEntry P (resetCall P s) (s.regs P.arch.sysno).toInt = q at hids ⊢
  obtain ⟨s1, handled⟩ := q
  dsimp only at hids ⊢
  split
  · exact hids
  have hexec : Scratched s1
      (if P.nr.is .execve (s.regs P.arch.sysno).toInt then rewriteExec P s1 1 2 else (s1, 0)).1 := by
    split
    · exact rewriteExec_scratched s1
    · exact .refl s1
  generalize (if P.nr.is .execve (s.regs P.arch.sysno).toInt then rewriteExec P s1 1 2
    else (s1, 0)) = q at hexec ⊢
  obtain ⟨s2, r⟩ := q
  dsimp only at hexec ⊢
  split
  · exact hids.trans hexec
  · exact (hids.trans hexec).trans (rewritePaths_scratched ..)

end Emuroot
