import Emuroot.Proof.Alike
import Emuroot.Proof.ExitBuffers
import Emuroot.Proof.Fakeroot

/-!
# What mounts do to the bindings

`MountCall.ctx_eq`: what a mount or umount of the fake root makes of the context. The contexts before
and after it are the same, or one binding apart (`MountCall.apart`), and what the binding does not
take lies where it did (`mapToHost_extends`).
-/

namespace Emuroot

open Words Relation

variable {nb : Binding} {ctx ctx' : Ctx} {root : CStr} {cs ts : List CStr}

/-! ## One binding more -/

/-- The second context has one binding more. -/
def Extends (nb : Binding) (ctx ctx' : Ctx) : Prop :=
  ∃ l l', ctx.bindings = l ++ l' ∧ ctx'.bindings = l ++ nb :: l'

/-- The path is mapped through this binding. -/
def Takes (nb : Binding) (ctx : Ctx) (root guest : CStr) : Prop :=
  bestBinding ctx guest = some nb ∨
  bestBinding ctx guest = none ∧ mountedBinding ctx (snprintf pathLen (root ++ guest)) = some nb

theorem Extends.pick (h : Extends nb ctx ctx') (f : Binding → Nat) (ok : Binding → Bool) :
    Pick.pick f ok ctx'.bindings.reverse = some nb ∨
      Pick.pick f ok ctx'.bindings.reverse = Pick.pick f ok ctx.bindings.reverse := by
  obtain ⟨l, l', h1, h2⟩ := h
  rw [h1, h2, List.reverse_append, List.reverse_append, List.reverse_cons, List.append_assoc,
    List.singleton_append]
  exact Pick.pick_insert f ok _ _ nb

theorem mapToHost_extends (h : Extends nb ctx ctx') {guest : CStr} (hn : ¬Takes nb ctx' root guest) :
    mapToHost ctx' root guest pathLen = mapToHost ctx root guest pathLen := by
  obtain hb | hb := h.pick (fun b => b.guest.length) (guestMatches guest)
  · exact absurd (.inl hb) hn
  have hbest : bestBinding ctx' guest = bestBinding ctx guest := hb
  cases hg : bestBinding ctx guest with
  | some best => rw [mapToHost_best hg, mapToHost_best (hbest.trans hg)]
  | none =>
    obtain hm | hm := h.pick (fun b => b.mount.length) fun b =>
      b.mount.length > 1 && hasPrefix (snprintf pathLen (root ++ guest)) b.mount
    · exact absurd (.inr ⟨hbest.trans hg, hm⟩) hn
    have hmount : mountedBinding ctx' (snprintf pathLen (root ++ guest)) =
      mountedBinding ctx (snprintf pathLen (root ++ guest)) := hm
    cases hmm : mountedBinding ctx (snprintf pathLen (root ++ guest)) with
    | some m => rw [mapToHost_mounted hg hmm, mapToHost_mounted (hbest.trans hg) (hmount.trans hmm)]
    | none => rw [mapToHost_root hg hmm, mapToHost_root (hbest.trans hg) (hmount.trans hmm)]

theorem Extends.unmapped (h : Extends nb ctx ctx') : unmapped ctx' root = false := by
  obtain ⟨l, l', -, h2⟩ := h
  simp [Emuroot.unmapped, h2]

theorem prefix_of_stem (hts : ts ≠ []) (hw : ∀ c ∈ ts, IsWord slash c) (hcs : ∀ c ∈ cs, IsWord slash c)
    (h : Stem slash (pathStr ts) (pathStr cs)) : ts <+: cs := by
  have hne : pathStr ts ≠ [] := fun h0 => by simpa [h0] using head?_pathStr ts
  obtain ⟨k, -, -, hk⟩ := stem_pathStr hcs h hne (getLast?_pathStr_ne hw hts)
  have hwords := congrArg (words slash) hk
  rw [words_pathStr hw, words_pathStr fun c hc => hcs c (List.mem_of_mem_take hc)] at hwords
  rw [hwords]
  exact List.take_prefix k cs

/-- A binding that is attached where the root maps its name takes what is below its name only. -/
theorem Takes.below {H : CStr} (hts : ts ≠ []) (hw : ∀ c ∈ ts, IsWord slash c)
    (hcs : ∀ c ∈ cs, IsWord slash c) (hlen : (root ++ pathStr ts).length + 1 < pathLen)
    (h : Takes ⟨H, pathStr ts, root ++ pathStr ts⟩ ctx root (pathStr cs)) : ts <+: cs := by
  refine prefix_of_stem hts hw hcs ?_
  obtain hb | ⟨-, hm⟩ := h
  · obtain hr | hst := guestMatches_iff.1 (bestBinding_mem hb).2
    · have := congrArg (words slash) (show pathStr ts = pathStr [] by rw [pathStr_nil]; exact hr)
      rw [words_pathStr hw] at this
      exact absurd this hts
    · exact hst
  · obtain hst | hcut := stem_take (mounted_stem hm).2
    · obtain ⟨v, hv, hst⟩ := hst.of_append (by simp)
      rw [List.append_cancel_left hv]
      exact hst
    · -- so short a mount point is not what a cut path ends at
      have hle := congrArg List.length hcut
      dsimp only at hcut hle
      rw [List.length_take] at hle
      rw [List.take_of_length_le (by omega)] at hcut
      rw [List.append_cancel_left hcut]
      exact .refl _

/-! ## The calls -/

variable {w : Nat} {σ : Type}

section
variable (P : Platform w σ)

/-- A mount or umount made with the privileges of the fake root. -/
structure MountCall (s : St w σ) (a : Action) : Prop where
  fake : s.ctx.hasFakeIds
  action : P.actionOf (s.sysno P) = some a
  kind : a = .mount ∨ a = .umount
  root : s.t.creds.uid.effective = 0

/-- The argument with the target. -/
def targetSlot : Action → Nat
  | .mount => 2
  | _ => 1

/-- The target, as an absolute guest path. -/
def targetPath (s : St w σ) (a : Action) : Option CStr :=
  (givenPath P s (targetSlot a)).bind fun given =>
    absoluteGuestPath P s (dirfdSlot P.nr (s.sysno P) (targetSlot a)) given (2 * pathLen)

/-- What the walk over the target gives in a context. -/
def targetIn (s : St w σ) (ctx : Ctx) (target : CStr) : Translated :=
  translatePathEx { s.walkEnv P true with ctx := ctx } target pathLen pathLen

/-- The context with a mount's binding. -/
def mountedCtx (s : St w σ) (target : CStr) : Ctx :=
  let r := targetIn P s s.ctx target
  match mountSource P s (s.sysno P) with
  | none => s.ctx
  | some host => bindAt s.ctx (canonical P s host) r.guestOut r.out

/-- The context without an umount's binding. -/
def unmountedCtx (s : St w σ) (target : CStr) : Ctx :=
  emurootUnbind s.ctx (targetIn P s s.ctx target).guestOut

/-- The context after the call. -/
def changedCtx (s : St w σ) (a : Action) : Ctx :=
  match targetPath P s a with
  | none => s.ctx
  | some target => if a = .mount then mountedCtx P s target else unmountedCtx P s target

end

variable {P : Platform w σ} {s : St w σ} {a : Action}

theorem guestPathArg_target (s : St w σ) (a : Action) :
    guestPathArg P s (s.sysno P) (targetSlot a) =
      (targetPath P s a).map fun target =>
        ((targetIn P s s.ctx target).guestOut, (targetIn P s s.ctx target).out) := by
  unfold guestPathArg targetPath
  cases givenPath P s (targetSlot a) with
  | none => rfl
  | some given =>
    dsimp only [Option.bind_some]
    cases absoluteGuestPath P s (dirfdSlot P.nr (s.sysno P) (targetSlot a)) given (2 * pathLen) <;> rfl

theorem MountCall.onEntry_eq (h : MountCall P s a) :
    onEntry P s = (emulateMounts P (resetCall P s) (s.sysno P) (some a)).1 := by
  have hid : identityEntry P (resetCall P s) (s.sysno P) (some a) = resetCall P s := by
    obtain rfl | rfl := h.kind <;> rfl
  have hem : emulateMounts P (resetCall P s) (s.sysno P) (some a) =
      ((emulateMounts P (resetCall P s) (s.sysno P) (some a)).1, true) := by
    have hroot : ¬(resetCall P s).t.creds.uid.effective ≠ 0 := not_not.2 h.root
    obtain rfl | rfl := h.kind <;> rw [emulateMounts, if_neg hroot]
  have he : emulateEntry P (resetCall P s) (s.sysno P) =
      ((emulateMounts P (resetCall P s) (s.sysno P) (some a)).1, true) := by
    have hfake : (resetCall P s).ctx.hasFakeIds := h.fake
    unfold emulateEntry
    rw [if_pos hfake, h.action, hid, ← hem]
  unfold onEntry
  dsimp only
  rw [show (resetCall P s).t.sysno = s.sysno P from rfl, he]
  rfl

theorem emulateMount_ctx (s : St w σ) :
    (emulateMount P s (s.sysno P)).ctx = changedCtx P s .mount := by
  have harg : guestPathArg P s (s.sysno P) 2 = _ := guestPathArg_target s .mount
  unfold emulateMount changedCtx
  rw [harg]
  cases targetPath P s .mount with
  | none => rfl
  | some target =>
    dsimp only [Option.map_some]
    rw [(neutralize_frame ..).ctx]
    rfl

theorem emulateUmount_ctx (s : St w σ) :
    (emulateUmount P s (s.sysno P)).ctx = changedCtx P s .umount := by
  have harg : guestPathArg P s (s.sysno P) 1 = _ := guestPathArg_target s .umount
  unfold emulateUmount changedCtx
  rw [harg]
  cases targetPath P s .umount with
  | none => rfl
  | some target =>
    dsimp only [Option.map_some]
    rw [(neutralize_frame ..).ctx]
    rfl

theorem MountCall.entry_ctx (h : MountCall P s a) : (onEntry P s).ctx = changedCtx P s a := by
  have hroot : ¬(resetCall P s).t.creds.uid.effective ≠ 0 := not_not.2 h.root
  obtain rfl | rfl := h.kind
  · rw [h.onEntry_eq, emulateMounts, if_neg hroot]
    exact emulateMount_ctx (resetCall P s)
  · rw [h.onEntry_eq, emulateMounts, if_neg hroot]
    exact emulateUmount_ctx (resetCall P s)

theorem MountCall.created (h : MountCall P s a) : (onEntry P s).t.created = [] := by
  have hroot : ¬(resetCall P s).t.creds.uid.effective ≠ 0 := not_not.2 h.root
  obtain rfl | rfl := h.kind
  · rw [h.onEntry_eq, emulateMounts, if_neg hroot]
    show (emulateMount P (resetCall P s) (s.sysno P)).t.created = []
    unfold emulateMount
    split <;> rfl
  · rw [h.onEntry_eq, emulateMounts, if_neg hroot]
    show (emulateUmount P (resetCall P s) (s.sysno P)).t.created = []
    unfold emulateUmount
    split <;> rfl

theorem exitAction_mount_ctx (s : St w σ) (buf : Word w) (ha : a = .mount ∨ a = .umount) (ret : Int) :
    (exitAction P s buf a ret).ctx = s.ctx := by
  have hres : emulateResult P s a ret = (s, ret) := by obtain rfl | rfl := ha <;> rfl
  have hneg : a ≠ .getcwd ∧ a ≠ .execve ∧ a ≠ .chroot ∧ a ≠ .readlink ∧ a ≠ .uname := by
    obtain rfl | rfl := ha <;> decide
  obtain ⟨h1, h2, h3, h4, h5⟩ := hneg
  unfold exitAction
  rw [if_neg h1, if_neg h2, if_neg fun h => h3 h.1, if_neg h4, if_neg h5, hres]
  split
  · rfl
  split
  · rfl
  · exact congrArg St.ctx (if_neg (not_not.2 rfl))

/-- **What a mount or umount does to the context.** -/
theorem MountCall.ctx_eq (h : MountCall P s a) (kern : Kernel w σ) :
    (afterCall P s kern).ctx = changedCtx P s a := by
  have hcreated : (atExit P s kern).t.created = [] := h.created
  have hcommit : ∀ ret, commitCreated P (atExit P s kern) ret = atExit P s kern := fun ret =>
    if_pos hcreated
  unfold afterCall onExit onExitAt
  dsimp only
  rw [hcommit, atExit_sysno, show P.actionOf (s.regs P.arch.sysno).toInt = some a from h.action]
  dsimp only
  rw [exitAction_mount_ctx _ _ h.kind, ← h.entry_ctx]
  rfl

/-! ## The binding of a call -/

/-- Of the contexts before and after the call, the one without the binding. -/
def withoutCtx (P : Platform w σ) (s : St w σ) (a : Action) : Ctx :=
  if a = .mount then s.ctx else changedCtx P s a

/-- Of the contexts before and after the call, the one with the binding. -/
def withCtx (P : Platform w σ) (s : St w σ) (a : Action) : Ctx :=
  if a = .mount then changedCtx P s a else s.ctx

theorem bindAt_cases (ctx : Ctx) (host guestTarget hostTarget : CStr) :
    bindAt ctx host guestTarget hostTarget = ctx ∨
    bindAt ctx host guestTarget hostTarget =
      { ctx with bindings := ctx.bindings ++ [⟨host, guestTarget, snprintf pathLen hostTarget⟩] } := by
  unfold bindAt
  split
  · exact .inl rfl
  · exact .inr rfl

/-- What is dropped is the latest binding of the name. -/
theorem emurootUnbind_cases (ctx : Ctx) (guest : CStr) :
    emurootUnbind ctx guest = ctx ∧ (∀ b ∈ ctx.bindings, b.guest ≠ guest) ∨
    ∃ b l l', b.guest = guest ∧ (∀ b ∈ l', b.guest ≠ guest) ∧ ctx.bindings = l ++ b :: l' ∧
      emurootUnbind ctx guest = { ctx with bindings := l ++ l' } := by
  by_cases hex : ∃ b ∈ ctx.bindings.reverse, (b.guest == guest) = true
  · obtain ⟨b, hb, hg⟩ := hex
    obtain ⟨c, l1, l2, hn, hc, h1, h2⟩ := List.exists_of_eraseP (p := fun b => b.guest == guest) hb hg
    refine .inr ⟨c, l2.reverse, l1.reverse, by simpa using hc, ?_, ?_, ?_⟩
    · intro d hd
      simpa using hn d (List.mem_reverse.1 hd)
    · have := congrArg List.reverse h1
      simpa using this
    · unfold emurootUnbind
      rw [h2]
      simp
  · refine .inl ⟨?_, fun b hb hg => hex ⟨b, List.mem_reverse.2 hb, by simpa using hg⟩⟩
    unfold emurootUnbind
    rw [List.eraseP_of_forall_not fun b hb hg => hex ⟨b, hb, hg⟩, List.reverse_reverse]

/-- The contexts before and after a call are the same, or one binding apart. -/
theorem MountCall.apart (h : MountCall P s a) :
    changedCtx P s a = s.ctx ∨ ∃ nb, Extends nb (withoutCtx P s a) (withCtx P s a) := by
  unfold withoutCtx withCtx
  cases ht : targetPath P s a with
  | none =>
    unfold changedCtx
    rw [ht]
    exact .inl rfl
  | some target =>
    obtain rfl | rfl := h.kind
    · rw [if_pos rfl, if_pos rfl]
      unfold changedCtx
      rw [ht]
      dsimp only
      rw [if_pos rfl]
      unfold mountedCtx
      dsimp only
      split
      · exact .inl rfl
      · obtain he | he := bindAt_cases s.ctx (canonical P s _) (targetIn P s s.ctx target).guestOut
          (targetIn P s s.ctx target).out
        · exact .inl he
        · rw [he]
          exact .inr ⟨_, s.ctx.bindings, [], by simp, rfl⟩
    · have hne : ¬Action.umount = .mount := by decide
      rw [if_neg hne, if_neg hne]
      unfold changedCtx
      rw [ht]
      dsimp only
      rw [if_neg hne, unmountedCtx]
      obtain ⟨he, -⟩ | ⟨b, l, l', -, -, hb, he⟩ :=
        emurootUnbind_cases s.ctx (targetIn P s s.ctx target).guestOut
      · exact .inl he
      · rw [he]
        exact .inr ⟨b, l, l', rfl, hb⟩

/-! ## A mount in a chroot -/

/-- A fake root at `/r`. -/
def rootJailCtx : Ctx := { Ctx.create with root := cstr "/r", hasFakeIds := true }

/-- `mount("/x", "/usr", NULL, MS_BIND, NULL)` by a process that has chrooted to `/new`. -/
def bindUsr : St 64 Unit :=
  linuxCall rootJailCtx (cstr "/r/new") 165 [4096, 8192, 0, 4096] [(4096, cstr "/x"),
    (8192, cstr "/usr")]

theorem bindUsr_call : MountCall linuxPlatform bindUsr .mount :=
  ⟨by decide, by decide +kernel, .inl rfl, by decide⟩

/-- The kernel refuses the neutralized call. -/
def bindUsrDone : Kernel 64 Unit := ⟨linuxRegs 165 [], linuxMem [], ()⟩

end Emuroot
