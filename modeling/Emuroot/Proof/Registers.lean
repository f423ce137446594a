import Emuroot.Model.Linux
import Emuroot.Model.Ptrace
import Emuroot.Proof.EntryFrame
import Emuroot.Proof.ExitFrame

/-!
# The argument registers of a call that returned

The engine puts no argument register back: `args_after_call` says that each holds what the entry of
the call left in it, which for the slots outside `entrySlots` is what the guest passed.
-/

namespace Emuroot

variable {w : Nat} {σ : Type} {P : Platform w σ}

/-- The kernel keeps the argument registers, but for the one that it answers in. A successful execve
does not. -/
def KeepsArgs (P : Platform w σ) (s : St w σ) (kern : Kernel w σ) : Prop :=
  ∀ n ∈ argNumbers, P.arch.regArg n ≠ P.arch.ret →
    kern.regs (P.arch.regArg n) = (onEntry P s).arg P n

theorem pathSlots_args (nr : Numbers) (sysno : Int) : pathSlots nr sysno ⊆ argNumbers := by
  have ht : ∀ d ∈ pathTable, argSlots [d.slot1, d.slot2] ⊆ argNumbers := by decide
  unfold pathSlots
  split
  · decide
  split
  · decide
  split
  · decide
  split
  · rename_i d hd
    exact ht d (List.mem_of_find?_eq_some hd)
  · split <;> split <;> decide

theorem idSlots_args (a : Option Action) : idSlots a ⊆ argNumbers := by
  unfold idSlots
  split <;> decide

theorem mountSlots_args (nr : Numbers) (sysno : Int) (a : Option Action) :
    mountSlots nr sysno a ⊆ argNumbers := by
  have ht : ∀ d ∈ pathTable, d.slot1 ∈ argNumbers := by decide
  unfold mountSlots
  split
  · intro n hn
    obtain ⟨d, hd, rfl⟩ := List.mem_map.1 hn
    exact ht d (List.mem_of_find?_eq_some (Option.mem_toList.1 hd))
  · decide
  · decide
  · decide

/-- What the entry may rewrite are arguments. -/
theorem entrySlots_args (P : Platform w σ) (sysno : Int) : entrySlots P sysno ⊆ argNumbers := by
  have he : (if P.nr.is .execve sysno then [1, 2] else []) ⊆ argNumbers := by split <;> decide
  exact List.append_subset.2 ⟨List.append_subset.2 ⟨List.append_subset.2
    ⟨idSlots_args _, mountSlots_args P.nr sysno _⟩, he⟩, pathSlots_args P.nr sysno⟩

/-- **The argument registers after a call** are as its entry left them, and as the guest passed them
where the entry rewrites nothing. -/
theorem args_after_call {s : St w σ} {kern : Kernel w σ} (hk : KeepsArgs P s kern)
    {n : Nat} (hn : n ∈ argNumbers) (hr : P.arch.regArg n ≠ P.arch.ret) :
    (afterCall P s kern).arg P n = (onEntry P s).arg P n ∧
    (n ∉ entrySlots P (s.regs P.arch.sysno).toInt → (afterCall P s kern).arg P n = s.arg P n) := by
  have hx : (afterCall P s kern).arg P n = (onEntry P s).arg P n :=
    (onExit_regs (atExit P s kern) _ hr).trans (hk n hn hr)
  refine ⟨hx, fun hs => hx.trans ((onEntry_frame (P := P) s).regs _ ?_)⟩
  intro m hm he
  have hmn : m = n := regArg_inj P.arch (entrySlots_args P _ hm) hn he
  exact hs (hmn ▸ hm)

/-! ## An open -/

def openCtx : Ctx := { Ctx.create with root := cstr "/r" }

/-- The guest's memory, with a path at 4096. -/
def openMem : GuestMem 64 where
  byte := fun a => some ((cstr "/etc" ++ [0]).getD (a.toNat - 4096) 0)
  writable := fun _ => true
  errno := 0

/-- `open("/etc", O_RDONLY)` -/
def openCall : St 64 Unit where
  t := (traceeNew openCtx 7 none).toTracee
  regs := fun i => if i = 15 then 2 else if i = 14 then 4096 else if i = 19 then 65536 else 0
  mem := openMem
  ctx := openCtx
  fs := ()
  log := []

/-- The kernel answers 3. -/
def openDone : Kernel 64 Unit :=
  ⟨(onEntry linuxPlatform openCall).regs.put 10 3, (onEntry linuxPlatform openCall).mem, ()⟩

theorem openDone_keepsArgs : KeepsArgs linuxPlatform openCall openDone :=
  fun _ _ hn => Regs.put_of_ne _ _ hn

theorem args_after_open :
    (afterCall linuxPlatform openCall openDone).arg linuxPlatform 2 =
      openCall.arg linuxPlatform 2 :=
  (args_after_call openDone_keepsArgs (by decide) (by decide)).2 (by decide +kernel)

/-- The path argument of this open is left at a copy of the host path. -/
theorem open_leaves_scratch :
    KeepsArgs linuxPlatform openCall openDone ∧
    linuxPlatform.arch.regArg 1 ≠ linuxPlatform.arch.ret ∧
    (afterCall linuxPlatform openCall openDone).arg linuxPlatform 1 ≠
      openCall.arg linuxPlatform 1 :=
  ⟨openDone_keepsArgs, by decide, by decide +kernel⟩

end Emuroot
