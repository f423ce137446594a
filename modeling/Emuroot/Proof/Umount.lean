import Emuroot.Proof.MountFrame

/-!
# A mount and its umount

`mount_umount`: an umount right after a mount of the same target path takes back what the mount did
exactly when it looks for the binding that the mount has added, or the mount added none and there
is none of the name looked for.
-/

namespace Emuroot

variable {w : Nat} {σ : Type} (P : Platform w σ)

/-- The binding that a mount adds, if it is of a kind that becomes one and there is room. -/
def addedBinding (s : St w σ) : Option Binding :=
  (targetPath P s .mount).bind fun target =>
    let r := targetIn P s s.ctx target
    (mountSource P s (s.sysno P)).bind fun host =>
      if (emurootBind s.ctx (canonical P s host) r.guestOut).isSome then
        some ⟨canonical P s host, r.guestOut, snprintf pathLen r.out⟩
      else none

/-- The guest name whose latest binding an umount drops. -/
def droppedName (s : St w σ) : Option CStr :=
  (targetPath P s .umount).map fun target => (targetIn P s s.ctx target).guestOut

/-- A mount, and right after it an umount of the same target path by the same process. -/
structure MountUmount (s : St w σ) (kern : Kernel w σ) (s' : St w σ) : Prop where
  mount : MountCall P s .mount
  umount : MountCall P s' .umount
  ctx : s'.ctx = (afterCall P s kern).ctx
  fs : s'.fs = (afterCall P s kern).fs
  record : s'.t = (afterCall P s kern).t
  target : givenPath P s' 1 = givenPath P s 2

/-- The umount looks for the binding that the mount has added, or, where that added none, for a name
that has none. -/
def LooksForAdded (s s' : St w σ) : Prop :=
  match addedBinding P s with
  | some b => droppedName P s' = some b.guest
  | none => ∀ guest ∈ droppedName P s', ∀ b ∈ s.ctx.bindings, b.guest ≠ guest

variable {P : Platform w σ} {s s' : St w σ} {kern kern' : Kernel w σ}

theorem changedCtx_mount (s : St w σ) :
    changedCtx P s .mount =
      { s.ctx with bindings := s.ctx.bindings ++ (addedBinding P s).toList } := by
  unfold changedCtx addedBinding
  cases targetPath P s .mount with
  | none => simp
  | some target =>
    dsimp only [Option.bind_some]
    rw [if_pos rfl, mountedCtx]
    cases mountSource P s (s.sysno P) with
    | none => simp
    | some host =>
      dsimp only [Option.bind_some, bindAt]
      cases emurootBind s.ctx (canonical P s host) (targetIn P s s.ctx target).guestOut <;> simp

theorem changedCtx_umount (s : St w σ) :
    changedCtx P s .umount =
      match droppedName P s with
      | none => s.ctx
      | some guest => emurootUnbind s.ctx guest := by
  unfold changedCtx droppedName
  cases targetPath P s .umount with
  | none => rfl
  | some target => rfl

/-- Dropping a name takes back an added binding exactly when it is that binding's. -/
theorem unbind_added_iff (ctx : Ctx) (b : Binding) (guest : CStr) :
    (emurootUnbind { ctx with bindings := ctx.bindings ++ [b] } guest).bindings = ctx.bindings ↔
      b.guest = guest := by
  obtain ⟨he, hn⟩ | ⟨c, l, l', hc, hn, hb, he⟩ :=
    emurootUnbind_cases { ctx with bindings := ctx.bindings ++ [b] } guest
  · rw [he]
    exact iff_of_false (by simp) (hn b (by simp))
  · rw [he]
    dsimp only at hb ⊢
    obtain rfl | ⟨l'', d, rfl⟩ := List.eq_nil_or_concat' l'
    · -- the latest binding is the added one
      obtain ⟨rfl, hcb⟩ := List.append_inj' hb rfl
      obtain rfl := (List.cons.inj hcb).1
      exact iff_of_true (List.append_nil _) hc
    · rw [← List.cons_append, ← List.append_assoc] at hb
      obtain ⟨hl, hdb⟩ := List.append_inj' hb rfl
      obtain rfl := (List.cons.inj hdb).1
      refine iff_of_false (fun heq => ?_) (hn b (by simp))
      rw [hl] at heq
      have hmem : c ∈ l'' ++ [b] := by
        rw [List.append_cancel_left heq]
        exact List.mem_cons_self
      exact hn c hmem hc

theorem unbind_none_iff (ctx : Ctx) (guest : CStr) :
    (emurootUnbind ctx guest).bindings = ctx.bindings ↔ ∀ b ∈ ctx.bindings, b.guest ≠ guest := by
  obtain ⟨he, hn⟩ | ⟨c, l, l', hc, -, hb, he⟩ := emurootUnbind_cases ctx guest
  · rw [he]
    exact iff_of_true rfl hn
  · refine iff_of_false (fun heq => ?_) fun hn => hn c (by simp [hb]) hc
    have := congrArg List.length (heq.symm.trans (by rw [he]))
    simp [hb] at this

/-- **An umount takes a mount of the same target path back** exactly when it looks for the binding
that the mount added, or for a name that has none; then every guest path of every process translates
as before. -/
theorem mount_umount (h : MountUmount P s kern s') (kern' : Kernel w σ) :
    ((afterCall P s' kern').ctx.bindings = s.ctx.bindings ↔ LooksForAdded P s s') ∧
    (LooksForAdded P s s' → ∀ root rl follow guest,
      (translatePath ⟨(afterCall P s' kern').ctx, root, rl, follow⟩ guest pathLen).out =
        (translatePath ⟨s.ctx, root, rl, follow⟩ guest pathLen).out) := by
  have hctx : s'.ctx = { s.ctx with bindings := s.ctx.bindings ++ (addedBinding P s).toList } := by
    rw [h.ctx, h.mount.ctx_eq, changedCtx_mount]
  have hafter := h.umount.ctx_eq kern'
  rw [changedCtx_umount, hctx] at hafter
  -- the rest of the context is never touched
  have hrest : (afterCall P s' kern').ctx =
      { s.ctx with bindings := (afterCall P s' kern').ctx.bindings } := by
    rw [hafter]
    split <;> rfl
  have hiff : (afterCall P s' kern').ctx.bindings = s.ctx.bindings ↔ LooksForAdded P s s' := by
    unfold LooksForAdded
    rw [hafter]
    cases addedBinding P s with
    | none =>
      cases droppedName P s' with
      | none => simp
      | some guest => simpa using unbind_none_iff s.ctx guest
    | some b =>
      cases droppedName P s' with
      | none => simp
      | some guest => simpa [eq_comm] using unbind_added_iff s.ctx b guest
  refine ⟨hiff, fun hl root rl follow guest => ?_⟩
  rw [hrest, hiff.2 hl]

/-! ## Two umounts -/

/-- `umount("/usr")`, after the mount. -/
def umountUsr : St 64 Unit :=
  { linuxCall rootJailCtx (cstr "/r/new") 166 [8192] [(8192, cstr "/usr")] with
    t := (afterCall linuxPlatform bindUsr bindUsrDone).t
    ctx := (afterCall linuxPlatform bindUsr bindUsrDone).ctx }

theorem bindUsr_umount : MountUmount linuxPlatform bindUsr bindUsrDone umountUsr where
  mount := bindUsr_call
  umount := ⟨by decide +kernel, by decide +kernel, .inr rfl, by decide +kernel⟩
  ctx := rfl
  fs := rfl
  record := rfl
  target := by decide +kernel

theorem mount_umount_usr :
    (afterCall linuxPlatform umountUsr bindUsrDone).ctx.bindings = bindUsr.ctx.bindings := by
  refine ((mount_umount bindUsr_umount bindUsrDone).1).2 ?_
  have hadd : addedBinding linuxPlatform bindUsr =
      some ⟨cstr "/r/new/x", cstr "/usr", cstr "/r/new/usr"⟩ := by decide +kernel
  rw [LooksForAdded, hadd]
  decide +kernel

/-- `mount(NULL, "/dev", "tmpfs", 0, NULL)`, with the host's `/dev` bound. -/
def mountTmpfs : St 64 Unit :=
  linuxCall { rootJailCtx with bindings := [⟨cstr "/dev", cstr "/dev", cstr "/r/dev"⟩] } (cstr "/r") 165
    [0, 8192, 4096] [(4096, cstr "tmpfs"), (8192, cstr "/dev")]

/-- `umount("/dev")`, after the mount. -/
def umountTmpfs : St 64 Unit :=
  { linuxCall rootJailCtx (cstr "/r") 166 [8192] [(8192, cstr "/dev")] with
    t := (afterCall linuxPlatform mountTmpfs bindUsrDone).t
    ctx := (afterCall linuxPlatform mountTmpfs bindUsrDone).ctx }

/-- The umount of a mount that added nothing drops the binding that was there before. -/
theorem umount_drops_dev :
    MountUmount linuxPlatform mountTmpfs bindUsrDone umountTmpfs ∧
    (afterCall linuxPlatform mountTmpfs bindUsrDone).regs linuxPlatform.arch.ret = 0 ∧
    (translatePath ⟨(afterCall linuxPlatform umountTmpfs bindUsrDone).ctx, cstr "/r",
        linuxPlatform.readlink (), true⟩ (cstr "/dev/null") pathLen).out = cstr "/r/dev/null" ∧
    (translatePath ⟨mountTmpfs.ctx, cstr "/r", linuxPlatform.readlink (), true⟩ (cstr "/dev/null")
        pathLen).out = cstr "/dev/null" := by
  refine ⟨⟨⟨by decide, by decide +kernel, .inl rfl, by decide⟩,
    ⟨by decide +kernel, by decide +kernel, .inr rfl, by decide +kernel⟩, rfl, rfl, rfl,
    by decide +kernel⟩, by decide +kernel, by decide +kernel, by decide +kernel⟩

end Emuroot
