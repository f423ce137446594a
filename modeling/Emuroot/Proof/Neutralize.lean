import Emuroot.Proof.MountFrame

/-!
# Mounts are made harmless

`mount_neutralized_iff`: the entry of a mount or umount of the fake root hands the kernel a null
target, and uses the target that the path from the working directory names, exactly when the base
that `dirfd_slot` chooses gives that target. For a relative target of a mount it chooses the source
pointer, as a descriptor.
-/

namespace Emuroot

variable {w : Nat} {σ : Type} (P : Platform w σ)

/-- A mount or umount of the fake root whose target is `given`; from the working directory that is
the guest path `guest`. -/
structure TargetFromCwd (s : St w σ) (a : Action) (given guest : CStr) : Prop where
  call : MountCall P s a
  reads : givenPath P s (targetSlot a) = some given
  fromCwd : absoluteGuestPath P s 0 given (2 * pathLen) = some guest

/-- The target as the entry resolves it: its guest path and its host path. -/
def targetUsed (s : St w σ) (a : Action) : Option (CStr × CStr) :=
  guestPathArg P s (s.sysno P) (targetSlot a)

/-- Where a guest path leads, as a guest path and on the host. -/
def leadsTo (s : St w σ) (guest : CStr) : CStr × CStr :=
  ((targetIn P s s.ctx guest).guestOut, (targetIn P s s.ctx guest).out)

/-- The kernel gets a null target, the call counts as handled, and the target used is that of
`guest`. -/
structure Neutralized (s : St w σ) (a : Action) (guest : CStr) : Prop where
  null : (onEntry P s).arg P (targetSlot a) = 0
  handled : (onEntry P s).t.mountHandled = true
  target : targetUsed P s a = some (leadsTo P s guest)

/-- An umount; or an absolute target; or the first argument, as a descriptor, is of a directory of
the name space from which the target leads to the same place. -/
def BaseAgrees (s : St w σ) (a : Action) (given guest : CStr) : Prop :=
  a = .umount ∨ given.head? = some slash ∨
    ∃ guest', absoluteGuestPath P s 1 given (2 * pathLen) = some guest' ∧
      leadsTo P s guest' = leadsTo P s guest

variable {P : Platform w σ} {s : St w σ} {a : Action} {given guest : CStr}

/-! ## A call whose target is found -/

theorem neutralize_arg (u : St w σ) (slot : Nat) : (neutralize P u slot false).arg P slot = 0 :=
  arg_setArg u slot 0

theorem emulateMount_found {u : St w σ} {x : Int} (h : (guestPathArg P u x 2).isSome) :
    (emulateMount P u x).arg P 2 = 0 ∧ (emulateMount P u x).t.mountHandled = true := by
  rcases Option.isSome_iff_exists.1 h with ⟨r, hr⟩
  unfold emulateMount
  rw [hr]
  exact ⟨neutralize_arg _ 2, rfl⟩

theorem emulateUmount_found {u : St w σ} {x : Int} (h : (guestPathArg P u x 1).isSome) :
    (emulateUmount P u x).arg P 1 = 0 ∧ (emulateUmount P u x).t.mountHandled = true := by
  rcases Option.isSome_iff_exists.1 h with ⟨r, hr⟩
  unfold emulateUmount
  rw [hr]
  exact ⟨neutralize_arg _ 1, rfl⟩

/-- A target that is found is kept from the kernel. -/
theorem MountCall.neutralized (h : MountCall P s a) (ht : (targetUsed P s a).isSome) :
    (onEntry P s).arg P (targetSlot a) = 0 ∧ (onEntry P s).t.mountHandled = true := by
  have hroot : ¬(resetCall P s).t.creds.uid.effective ≠ 0 := not_not.2 h.root
  rw [h.onEntry_eq]
  rcases h.kind with rfl | rfl
  · rw [emulateMounts, if_neg hroot]
    exact emulateMount_found (u := resetCall P s) ht
  · rw [emulateMounts, if_neg hroot]
    exact emulateUmount_found (u := resetCall P s) ht

/-! ## The base -/

/-- Where the entry looks for the target. -/
theorem TargetFromCwd.used_eq (h : TargetFromCwd P s a given guest) :
    targetUsed P s a =
      (absoluteGuestPath P s (dirfdSlot P.nr (s.sysno P) (targetSlot a)) given
        (2 * pathLen)).map (leadsTo P s) := by
  have hpath : targetPath P s a = absoluteGuestPath P s
      (dirfdSlot P.nr (s.sysno P) (targetSlot a)) given (2 * pathLen) := by
    rw [targetPath, h.reads, Option.bind_some]
  rw [targetUsed, guestPathArg_target, hpath]
  rfl

/-- A mount is neither symlink nor inotify_add_watch. -/
theorem MountCall.dirfdSlot_mount (h : MountCall P s .mount) :
    dirfdSlot P.nr (s.sysno P) (targetSlot .mount) = 1 := by
  have hnot : ∀ x ∈ [Sys.symlink, .inotify_add_watch], P.nr.is x (s.sysno P) = false := by
    intro x hx
    refine is_of_action h.action fun d hd _ => ?_
    have : ∀ d ∈ actionTable, d.nr ∉ [Sys.symlink, .inotify_add_watch] := by decide
    exact fun he => this d hd (he ▸ hx)
  unfold dirfdSlot targetSlot
  rw [hnot .symlink (by decide), hnot .inotify_add_watch (by decide)]
  rfl

theorem absoluteGuestPath_of_slash (hs : given.head? = some slash) (fd fd' : Nat) (size : Nat) :
    absoluteGuestPath P s fd given size = absoluteGuestPath P s fd' given size := by
  unfold absoluteGuestPath
  rw [if_pos hs, if_pos hs]

/-- The target used is the one from the working directory where the bases agree. -/
theorem TargetFromCwd.target_iff (h : TargetFromCwd P s a given guest) :
    targetUsed P s a = some (leadsTo P s guest) ↔ BaseAgrees P s a given guest := by
  rw [h.used_eq, Option.map_eq_some_iff]
  unfold BaseAgrees
  rcases h.call.kind with rfl | rfl
  · rw [h.call.dirfdSlot_mount]
    constructor
    · exact fun he => .inr (.inr he)
    · rintro (he | hs | he)
      · cases he
      · rw [absoluteGuestPath_of_slash hs 1 0]
        exact ⟨guest, h.fromCwd, rfl⟩
      · exact he
  · have hslot : dirfdSlot P.nr (s.sysno P) (targetSlot .umount) = 0 := rfl
    rw [hslot]
    exact iff_of_true ⟨guest, h.fromCwd, rfl⟩ (.inl rfl)

/-- **A mount or umount is made harmless, at the target from the working directory**, exactly where
the base of its target agrees with that directory. -/
theorem mount_neutralized_iff (h : TargetFromCwd P s a given guest) :
    Neutralized P s a guest ↔ BaseAgrees P s a given guest := by
  constructor
  · intro hn
    exact h.target_iff.1 hn.target
  · intro hb
    have ht := h.target_iff.2 hb
    rcases h.call.neutralized (by rw [ht]; rfl) with ⟨hnull, hhandled⟩
    exact ⟨hnull, hhandled, ht⟩

/-! ## A relative target -/

/-- A host on which the process is in `/r/d`. -/
def inDir : Platform 64 Unit :=
  { linuxPlatform with
    readlink := fun _ path => if path = cstr "/proc/7/cwd" then some (cstr "/r/d") else none }

/-- `mount("/x", target, NULL, MS_BIND, NULL)` -/
def mountCall (target : String) : St 64 Unit :=
  linuxCall { Ctx.create with root := cstr "/r", hasFakeIds := true } (cstr "/r") 165
    [4096, 8192, 0, 4096] [(4096, cstr "/x"), (8192, cstr target)]

theorem mountCall_call (target : String) : MountCall inDir (mountCall target) .mount :=
  ⟨by rfl, by rfl, .inl rfl, by rfl⟩

/-- In `/d` the relative target `m` goes to the kernel as it is, and nothing is handled. -/
theorem mount_relative_target :
    TargetFromCwd inDir (mountCall "m") .mount (cstr "m") (cstr "/d/m") ∧
    (onEntry inDir (mountCall "m")).arg inDir 2 = 8192 ∧
    (onEntry inDir (mountCall "m")).t.mountHandled = false ∧
    ¬Neutralized inDir (mountCall "m") .mount (cstr "/d/m") := by
  have harg : (onEntry inDir (mountCall "m")).arg inDir 2 = 8192 := by decide +kernel
  refine ⟨⟨mountCall_call _, by decide +kernel, by decide +kernel⟩, harg, by decide +kernel,
    fun h => ?_⟩
  exact absurd (harg.symm.trans h.null) (by decide)

theorem mount_absolute_target : Neutralized inDir (mountCall "/m") .mount (cstr "/m") := by
  have h : TargetFromCwd inDir (mountCall "/m") .mount (cstr "/m") (cstr "/m") :=
    ⟨mountCall_call _, by decide +kernel, by decide +kernel⟩
  apply (mount_neutralized_iff h).2
  exact .inr (.inl (by decide))

end Emuroot
