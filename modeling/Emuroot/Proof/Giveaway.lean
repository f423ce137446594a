import Emuroot.Proof.Fakeroot

/-!
# Giving files away without privilege

On Linux a process without `CAP_CHOWN` may only change the group of its own files, to one of its own
groups (`MayChown`). The exit of a chown asks for no identity: `chown_dropped_iff` says that the
table and the answer are right exactly for the requests that Linux allows.
-/

namespace Emuroot

variable {w : Nat} {σ : Type}

/-- `chown_ok` and `chgrp_ok` of the kernel for a process without capabilities; -1 leaves an id
alone. -/
def MayChown (c : Creds) (cur new : Owner) : Prop :=
  (new.uid = noid ∨ c.fsuid = cur.uid ∧ new.uid = cur.uid) ∧
  (new.gid = noid ∨
    c.fsuid = cur.uid ∧ (new.gid = cur.gid ∨ new.gid = c.fsgid ∨ new.gid ∈ c.groups))

instance (c : Creds) (cur new : Owner) : Decidable (MayChown c cur new) :=
  inferInstanceAs (Decidable (_ ∧ _))

section
variable (P : Platform w σ)

/-- The file that the engine finds for a call of the chown family, the owner shown for it, and the
owner asked for. -/
def chownAsked (s : St w σ) : Option Chown :=
  (chownStat P (resetCall P s) (s.sysno P) (findPathSyscall P.nr (s.sysno P))).map fun st =>
    { key := st.key
      cur := (ownerLookup s.ctx.owners st.key).getD (seenOwner P s.ctx ⟨st.uid, st.gid⟩)
      new := notedOwner P s }

/-- A process that dropped the fake root's privileges enters a call of the chown family. -/
structure DroppedChown (s : St w σ) : Prop where
  fake : s.ctx.hasFakeIds = true
  action : P.actionOf (s.sysno P) = some .chown
  euid : s.t.creds.uid.effective ≠ 0
  fsuid : s.t.creds.fsuid ≠ 0

/-- What the guest sees as the result of the call. -/
def guestResult (s : St w σ) (kern : Kernel w σ) : Int :=
  ((afterCall P s kern).regs P.arch.ret).toInt

/-- Linux allows the request. -/
def Allowed (s : St w σ) : Prop := ∃ c ∈ chownAsked P s, MayChown s.t.creds c.cur c.new

/-- The kernel got as far as the permission: it let the call through, or refused it for lack of
privilege (`EINVAL` for an id that is not mapped). -/
def Decided (kern : Kernel w σ) : Prop :=
  (kern.regs P.arch.ret).toInt ∈ [0, -EPERM, -EINVAL]

instance (kern : Kernel w σ) : Decidable (Decided P kern) := inferInstanceAs (Decidable (_ ∈ _))

/-- The table changes only as Linux allows, and what is not allowed is refused. -/
structure OwnersKept (s : St w σ) (kern : Kernel w σ) : Prop where
  table : ∀ k, ownerLookup (afterCall P s kern).ctx.owners k ≠ ownerLookup s.ctx.owners k →
    ∃ c ∈ chownAsked P s, c.key = k ∧ MayChown s.t.creds c.cur c.new ∧
      ownerLookup (afterCall P s kern).ctx.owners k = some (c.cur.request c.new)
  refused : Decided P kern → ¬Allowed P s → guestResult P s kern = -EPERM

end

variable {P : Platform w σ} {s : St w σ} {kern : Kernel w σ}

/-- The only entry that an assignment can change, whatever `calloc` says. -/
theorem ownerSet_changes {calloc : Nat → Bool} {owners : Option OwnerDb} {k k' : FileKey}
    {o : Owner} (h : ownerLookup (ownerSet calloc owners k o) k' ≠ ownerLookup owners k') :
    k' = k ∧ ownerLookup (ownerSet calloc owners k o) k' = some o := by
  -- the table that the assignment is made in
  have hset : ∀ db : OwnerDb, ownerLookup (some (db.set calloc k o)) k' ≠ db.get k' →
      k' = k ∧ ownerLookup (some (db.set calloc k o)) k' = some o := by
    intro db hne
    rw [ownerLookup_some] at hne ⊢
    by_cases hg : db.Grants calloc
    · rw [db.get_set hg] at hne ⊢
      by_cases hk : k' = k
      · exact ⟨hk, if_pos hk⟩
      · exact (hne (if_neg hk)).elim
    · rw [db.set_of_not_grants hg] at hne
      exact (hne rfl).elim
  cases owners with
  | none =>
    by_cases hc : calloc 1 = true
    · simp only [ownerSet, hc, if_true] at h ⊢
      apply hset
      rwa [OwnerDb.get_of_count _ rfl]
    · simp only [ownerSet, hc] at h
      exact (h rfl).elim
  | some db =>
    apply hset db
    rwa [← ownerLookup_some]

namespace DroppedChown

theorem plainEntry_eq (h : DroppedChown P s) :
    plainEntry P s .chown =
      { resetCall P s with t := { (resetCall P s).t with chown := chownAsked P s } } := by
  cases hst : chownStat P (resetCall P s) (s.sysno P) (findPathSyscall P.nr (s.sysno P)) with
  | some st =>
    rw [plainEntry_chown h.fake hst, chownAsked, hst]
    rfl
  | none =>
    unfold plainEntry identityEntry
    rw [if_pos h.fake, if_pos rfl, chownAsked, hst]
    rw [show neutralizeIdChange P (resetCall P s) (some .chown) = resetCall P s from rfl, noteChown]
    rw [St.sysno] at hst
    rw [hst]
    rfl

/-- The call at its exit. -/
theorem afterCall_eq (kern : Kernel w σ) (h : DroppedChown P s) :
    (afterCall P s kern).ctx.owners =
      (exitChown P (atExit P s kern) (kern.regs P.arch.ret).toInt).1.ctx.owners ∧
    guestResult P s kern =
      (exitChown P (atExit P s kern) (kern.regs P.arch.ret).toInt).2 ∧
    (atExit P s kern).ctx = s.ctx ∧ (atExit P s kern).t.chown = chownAsked P s := by
  have hid : IdAction .chown := by decide
  have hent := h.plainEntry_eq
  rcases afterCall_id hid kern h.action (by rw [hent]; rfl) (by rw [hent]; rfl) with ⟨buf, hx⟩
  rcases hid.atExit kern h.action with ⟨hctx, ht, -⟩
  have hc : (atExit P s kern).t.chown = chownAsked P s :=
    (congrArg Tracee.chown ht).trans (by rw [hent]; rfl)
  replace hctx : (atExit P s kern).ctx = s.ctx := hctx.trans (by rw [hent]; rfl)
  rw [exitAction_id hid (hctx ▸ h.fake)] at hx
  -- only the record and the result are the exit's
  have hregs : (exitChown P (atExit P s kern) (kern.regs P.arch.ret).toInt).1.regs = kern.regs := by
    unfold exitChown
    dsimp only
    split
    · rfl
    · split <;> rfl
  have hzero : (exitChown P (atExit P s kern) (kern.regs P.arch.ret).toInt).2 ≠
      (kern.regs P.arch.ret).toInt →
      (exitChown P (atExit P s kern) (kern.regs P.arch.ret).toInt).2 = 0 := by
    unfold exitChown
    dsimp only
    split
    · exact fun _ => rfl
    · exact fun hn => (hn rfl).elim
  unfold guestResult
  rw [hx]
  refine ⟨?_, ?_, hctx, hc⟩
  · show (ite _ _ _ : St w σ).ctx.owners = _
    split <;> rfl
  · show BitVec.toInt ((ite _ _ _ : St w σ).regs P.arch.ret) = _
    split
    · rename_i hne
      have h0 := hzero hne
      simp only [emulateResult, St.setRet, Regs.put_self, h0]
      simp
    · rename_i heq
      simp only [emulateResult, ne_eq, not_not] at heq
      rw [heq]
      exact congrArg (fun r : Regs w => (r P.arch.ret).toInt) hregs

end DroppedChown

/-- **Dropped privileges give no file away** exactly where Linux would allow the request, or where
the kernel fails the call for another reason. -/
theorem chown_dropped_iff (h : DroppedChown P s) :
    OwnersKept P s kern ↔ (Decided P kern → Allowed P s) := by
  rcases h.afterCall_eq kern with ⟨howners, hres, hctx, hc⟩
  constructor
  · intro hk hd
    by_contra hn
    have hr := hk.refused hd hn
    rw [hres] at hr
    -- the exit never answers EPERM
    unfold exitChown at hr
    dsimp only at hr
    split at hr
    · cases hr
    · rename_i hne
      rcases not_or.1 hne with ⟨he, -⟩
      exact he hr
  · intro ha
    refine ⟨fun k hne => ?_, fun hd hn => (hn (ha hd)).elim⟩
    rw [howners] at hne ⊢
    unfold exitChown at hne ⊢
    rw [hc] at hne ⊢
    cases hasked : chownAsked P s with
    | none =>
      rw [hasked, ← hctx] at hne
      exact (hne rfl).elim
    | some c =>
      rw [hasked] at hne
      dsimp only at hne ⊢
      by_cases hd : (kern.regs P.arch.ret).toInt = 0 ∨ (kern.regs P.arch.ret).toInt = -EPERM ∨
          (kern.regs P.arch.ret).toInt = -EINVAL
      · rw [if_pos hd] at hne ⊢
        have hdec : Decided P kern := by
          unfold Decided
          simpa using hd
        rcases ha hdec with ⟨c', hc', hmay⟩
        cases hasked.symm.trans hc'
        rw [← hctx] at hne
        rcases ownerSet_changes hne with ⟨rfl, hset⟩
        exact ⟨c, rfl, rfl, hmay, hset⟩
      · rw [if_neg hd, ← hctx] at hne
        exact (hne rfl).elim

/-! ## A file of another user -/

/-- User 1000 of the fake root's session, with group 1000, enters `fchown(3, uid, gid)` on a file
that the table gives to `owner`. -/
def droppedCall (owner : Owner) (uid gid : Word 64) : St 64 Unit :=
  let ctx : Ctx := { fakeRootCtx with
    owners := ownerSet (fun _ => true) none ⟨1, 2⟩ owner }
  let s := callState ctx (callRegs 93 3 uid gid)
  { s with t := { s.t with creds := credsInit 1000 1000 } }

/-- The kernel refuses it. -/
def droppedRefused (uid gid : Word 64) : Kernel 64 Unit :=
  ⟨Regs.put (callRegs 93 3 uid gid) 10 (-1), statMem, ()⟩

theorem droppedChown (owner : Owner) (uid gid : Word 64) :
    DroppedChown oneFile (droppedCall owner uid gid) where
  fake := rfl
  action := by rfl
  euid := (by decide : (1000 : UInt32) ≠ 0)
  fsuid := (by decide : (1000 : UInt32) ≠ 0)

/-- User 1000 takes root's file over, and is told that it worked. -/
theorem chown_takes_over :
    DroppedChown oneFile (droppedCall ⟨0, 0⟩ 1000 1000) ∧
    guestResult oneFile (droppedCall ⟨0, 0⟩ 1000 1000) (droppedRefused 1000 1000) = 0 ∧
    ownerLookup (afterCall oneFile (droppedCall ⟨0, 0⟩ 1000 1000)
      (droppedRefused 1000 1000)).ctx.owners ⟨1, 2⟩ = some ⟨1000, 1000⟩ ∧
    ¬OwnersKept oneFile (droppedCall ⟨0, 0⟩ 1000 1000) (droppedRefused 1000 1000) := by
  have hres : guestResult oneFile (droppedCall ⟨0, 0⟩ 1000 1000) (droppedRefused 1000 1000) = 0 := by
    decide +kernel
  have hasked : chownAsked oneFile (droppedCall ⟨0, 0⟩ 1000 1000) =
      some ⟨⟨1, 2⟩, ⟨0, 0⟩, ⟨1000, 1000⟩⟩ := by decide +kernel
  refine ⟨droppedChown _ _ _, hres, by decide +kernel, fun h => ?_⟩
  have hr := h.refused (by decide +kernel) ?_
  · rw [hres] at hr
    exact absurd hr (by decide)
  · rintro ⟨c, hc, hmay⟩
    cases hasked.symm.trans hc
    revert hmay
    decide

/-- A file of its own, to a group of its own. -/
theorem chown_dropped_own :
    OwnersKept oneFile (droppedCall ⟨1000, 0⟩ 0xffffffff 1000) (droppedRefused 0xffffffff 1000) := by
  apply (chown_dropped_iff (droppedChown _ _ _)).2
  intro _
  exact ⟨⟨⟨1, 2⟩, ⟨1000, 0⟩, ⟨noid, 1000⟩⟩, by decide +kernel, by decide⟩

end Emuroot
