import Mathlib.Data.List.Nodup

/-!
# The system-call tables (`syscalls.h`, `syscalls.c`)

Calls are named; their numbers are the kernel's, so they are a parameter (`Numbers`), in which a
call that the ABI lacks has none and no two calls share one.
-/

namespace Emuroot

/-- The calls whose `__NR_` the sources mention. -/
inductive Sys
  | chroot | open | creat | stat | stat64 | lstat | lstat64 | access | readlink | chdir | rmdir
  | unlink | mkdir | chmod | chown | chown32 | lchown | lchown32 | truncate | truncate64 | utime
  | utimes | mknod | statfs | statfs64 | getxattr | lgetxattr | setxattr | lsetxattr | listxattr
  | llistxattr | removexattr | lremovexattr | rename | link | symlink | openat | openat2
  | mkdirat | unlinkat | newfstatat | fstatat64 | statx | readlinkat | fchmodat | fchmodat2
  | fchownat | utimensat | futimesat | faccessat | faccessat2 | mknodat | renameat | renameat2
  | linkat | symlinkat | inotify_add_watch | getuid | getuid32 | geteuid | geteuid32 | getgid
  | getgid32 | getegid | getegid32 | getresuid | getresuid32 | getresgid | getresgid32
  | getgroups | getgroups32 | setuid | setuid32 | setgid | setgid32 | setreuid | setreuid32
  | setregid | setregid32 | setresuid | setresuid32 | setresgid | setresgid32 | setgroups
  | setgroups32 | setfsuid | setfsuid32 | setfsgid | setfsgid32 | fchown | fchown32 | fstat
  | fstat64 | mount | umount | umount2 | execve | getcwd | uname | bind | connect | sendto
  | execveat
  deriving DecidableEq, Repr

/-- The `__NR_` numbers of an ABI. -/
structure Numbers where
  nr : Sys → Option Int
  distinct : ∀ {x y n}, nr x = some n → nr y = some n → x = y

/-- `enum follow_mode` -/
inductive FollowMode
  | follow | noFollow | open | openat2 | at | linkat
  deriving DecidableEq, Repr

/-- `path_syscall_t` -/
structure PathSyscall where
  nr : Sys
  slot1 : Nat
  slot2 : Nat
  mode : FollowMode
  flagSlot : Nat
  deriving DecidableEq, Repr

/-- `enum action`, without the `A_` -/
inductive Action
  | getuid | geteuid | getgid | getegid | getresuid | getresgid | getgroups | setuid | setgid
  | setreuid | setregid | setresuid | setresgid | setgroups | setfsuid | setfsgid | chown | stat2
  | stat3 | statx | getcwd | chroot | mount | umount | readlink | execve | uname
  deriving DecidableEq, Repr

/-- `action_syscall_t`; some entries are compiled for LP64 only. -/
structure ActionSyscall where
  nr : Sys
  action : Action
  lp64Only : Bool
  deriving DecidableEq, Repr

/-- `path_syscalls`, those the ABI lacks included -/
def pathTable : List PathSyscall := [
  ⟨.chroot, 1, 0, .follow, 0⟩,
  ⟨.open, 1, 0, .open, 2⟩,
  ⟨.creat, 1, 0, .follow, 0⟩,
  ⟨.stat, 1, 0, .follow, 0⟩,
  ⟨.stat64, 1, 0, .follow, 0⟩,
  ⟨.lstat, 1, 0, .noFollow, 0⟩,
  ⟨.lstat64, 1, 0, .noFollow, 0⟩,
  ⟨.access, 1, 0, .follow, 0⟩,
  ⟨.readlink, 1, 0, .noFollow, 0⟩,
  ⟨.chdir, 1, 0, .follow, 0⟩,
  ⟨.rmdir, 1, 0, .noFollow, 0⟩,
  ⟨.unlink, 1, 0, .noFollow, 0⟩,
  ⟨.mkdir, 1, 0, .noFollow, 0⟩,
  ⟨.chmod, 1, 0, .follow, 0⟩,
  ⟨.chown, 1, 0, .follow, 0⟩,
  ⟨.chown32, 1, 0, .follow, 0⟩,
  ⟨.lchown, 1, 0, .noFollow, 0⟩,
  ⟨.lchown32, 1, 0, .noFollow, 0⟩,
  ⟨.truncate, 1, 0, .follow, 0⟩,
  ⟨.truncate64, 1, 0, .follow, 0⟩,
  ⟨.utime, 1, 0, .follow, 0⟩,
  ⟨.utimes, 1, 0, .follow, 0⟩,
  ⟨.mknod, 1, 0, .noFollow, 0⟩,
  ⟨.statfs, 1, 0, .follow, 0⟩,
  ⟨.statfs64, 1, 0, .follow, 0⟩,
  ⟨.getxattr, 1, 0, .follow, 0⟩,
  ⟨.lgetxattr, 1, 0, .noFollow, 0⟩,
  ⟨.setxattr, 1, 0, .follow, 0⟩,
  ⟨.lsetxattr, 1, 0, .noFollow, 0⟩,
  ⟨.listxattr, 1, 0, .follow, 0⟩,
  ⟨.llistxattr, 1, 0, .noFollow, 0⟩,
  ⟨.removexattr, 1, 0, .follow, 0⟩,
  ⟨.lremovexattr, 1, 0, .noFollow, 0⟩,
  ⟨.rename, 1, 2, .noFollow, 0⟩,
  ⟨.link, 1, 2, .noFollow, 0⟩,
  ⟨.symlink, 2, 0, .noFollow, 0⟩,
  ⟨.openat, 2, 0, .open, 3⟩,
  ⟨.openat2, 2, 0, .openat2, 3⟩,
  ⟨.mkdirat, 2, 0, .noFollow, 0⟩,
  ⟨.unlinkat, 2, 0, .noFollow, 0⟩,
  ⟨.newfstatat, 2, 0, .at, 4⟩,
  ⟨.fstatat64, 2, 0, .at, 4⟩,
  ⟨.statx, 2, 0, .at, 3⟩,
  ⟨.readlinkat, 2, 0, .noFollow, 0⟩,
  ⟨.fchmodat, 2, 0, .follow, 0⟩,
  ⟨.fchmodat2, 2, 0, .at, 4⟩,
  ⟨.fchownat, 2, 0, .at, 5⟩,
  ⟨.utimensat, 2, 0, .at, 4⟩,
  ⟨.futimesat, 2, 0, .follow, 0⟩,
  ⟨.faccessat, 2, 0, .follow, 0⟩,
  ⟨.faccessat2, 2, 0, .at, 4⟩,
  ⟨.mknodat, 2, 0, .noFollow, 0⟩,
  ⟨.renameat, 2, 4, .noFollow, 0⟩,
  ⟨.renameat2, 2, 4, .noFollow, 0⟩,
  ⟨.linkat, 2, 4, .linkat, 5⟩,
  ⟨.symlinkat, 3, 0, .noFollow, 0⟩,
  ⟨.inotify_add_watch, 2, 0, .follow, 0⟩]

/-- `action_syscalls`, those the ABI lacks included -/
def actionTable : List ActionSyscall := [
  ⟨.getuid, .getuid, false⟩,
  ⟨.getuid32, .getuid, false⟩,
  ⟨.geteuid, .geteuid, false⟩,
  ⟨.geteuid32, .geteuid, false⟩,
  ⟨.getgid, .getgid, false⟩,
  ⟨.getgid32, .getgid, false⟩,
  ⟨.getegid, .getegid, false⟩,
  ⟨.getegid32, .getegid, false⟩,
  ⟨.getresuid, .getresuid, false⟩,
  ⟨.getresuid32, .getresuid, false⟩,
  ⟨.getresgid, .getresgid, false⟩,
  ⟨.getresgid32, .getresgid, false⟩,
  ⟨.getgroups, .getgroups, false⟩,
  ⟨.getgroups32, .getgroups, false⟩,
  ⟨.setuid, .setuid, false⟩,
  ⟨.setuid32, .setuid, false⟩,
  ⟨.setgid, .setgid, false⟩,
  ⟨.setgid32, .setgid, false⟩,
  ⟨.setreuid, .setreuid, false⟩,
  ⟨.setreuid32, .setreuid, false⟩,
  ⟨.setregid, .setregid, false⟩,
  ⟨.setregid32, .setregid, false⟩,
  ⟨.setresuid, .setresuid, false⟩,
  ⟨.setresuid32, .setresuid, false⟩,
  ⟨.setresgid, .setresgid, false⟩,
  ⟨.setresgid32, .setresgid, false⟩,
  ⟨.setgroups, .setgroups, false⟩,
  ⟨.setgroups32, .setgroups, false⟩,
  ⟨.setfsuid, .setfsuid, false⟩,
  ⟨.setfsuid32, .setfsuid, false⟩,
  ⟨.setfsgid, .setfsgid, false⟩,
  ⟨.setfsgid32, .setfsgid, false⟩,
  ⟨.chown, .chown, false⟩,
  ⟨.chown32, .chown, false⟩,
  ⟨.lchown, .chown, false⟩,
  ⟨.lchown32, .chown, false⟩,
  ⟨.fchown, .chown, false⟩,
  ⟨.fchown32, .chown, false⟩,
  ⟨.fchownat, .chown, false⟩,
  ⟨.stat, .stat2, true⟩,
  ⟨.lstat, .stat2, true⟩,
  ⟨.fstat, .stat2, true⟩,
  ⟨.newfstatat, .stat3, true⟩,
  ⟨.stat64, .stat2, false⟩,
  ⟨.lstat64, .stat2, false⟩,
  ⟨.fstat64, .stat2, false⟩,
  ⟨.fstatat64, .stat3, false⟩,
  ⟨.statx, .statx, false⟩,
  ⟨.chroot, .chroot, false⟩,
  ⟨.mount, .mount, false⟩,
  ⟨.umount, .umount, false⟩,
  ⟨.umount2, .umount, false⟩,
  ⟨.readlink, .readlink, false⟩,
  ⟨.readlinkat, .readlink, false⟩,
  ⟨.execve, .execve, false⟩,
  ⟨.getcwd, .getcwd, false⟩,
  ⟨.uname, .uname, false⟩]

/-- `sysno == __NR_x`, false where the ABI lacks `x` -/
def Numbers.is (N : Numbers) (x : Sys) (sysno : Int) : Bool := N.nr x == some sysno

theorem Numbers.is_iff {N : Numbers} {x : Sys} {sysno : Int} :
    N.is x sysno = true ↔ N.nr x = some sysno := by rw [Numbers.is, beq_iff_eq]

theorem Numbers.is_eq {N : Numbers} {x y : Sys} {sysno : Int} (h : N.is x sysno) :
    N.is y sysno = decide (y = x) := by
  rw [is_iff] at h
  rw [Bool.eq_iff_iff, is_iff, decide_eq_true_iff]
  constructor
  · exact fun hy => N.distinct hy h
  · rintro rfl
    exact h

/-- The numbers that a list gives. -/
def Numbers.ofList (l : List (Sys × Int)) (h : (l.map Prod.snd).Nodup) : Numbers where
  nr := fun x => l.lookup x
  distinct := by
    intro x y n hx hy
    have hmem : ∀ {x}, l.lookup x = some n → (x, n) ∈ l := by
      intro x hx
      obtain ⟨l1, l2, rfl, -⟩ := List.lookup_eq_some_iff.1 hx
      simp
    exact congrArg Prod.fst (List.inj_on_of_nodup_map h (hmem hx) (hmem hy) rfl)

/-- `emuroot_find_path_syscall` -/
def findPathSyscall (N : Numbers) (sysno : Int) : Option PathSyscall :=
  pathTable.find? fun d => N.is d.nr sysno

/-- `emuroot_action_of`; `none` is -1. -/
def actionOf (N : Numbers) (lp64 : Bool) (sysno : Int) : Option Action :=
  (actionTable.find? fun d => (!d.lp64Only || lp64) && N.is d.nr sysno).map (·.action)

/-- `traced_syscalls` -/
def tracedSyscalls (N : Numbers) (lp64 : Bool) : List Int :=
  pathTable.filterMap (N.nr ·.nr) ++
  (actionTable.filter fun d => !d.lp64Only || lp64).filterMap (N.nr ·.nr) ++
  [.execve, .bind, .connect, .sendto].filterMap N.nr

/-! ## What the tables give -/

theorem actionOf_eq_some {N : Numbers} {lp64 : Bool} {sysno : Int} {a : Action}
    (h : actionOf N lp64 sysno = some a) :
    ∃ d ∈ actionTable, d.action = a ∧ N.is d.nr sysno := by
  obtain ⟨d, hd, rfl⟩ := Option.map_eq_some_iff.1 h
  have hp := List.find?_some hd
  simp only [Bool.and_eq_true] at hp
  exact ⟨d, List.mem_of_find?_eq_some hd, rfl, hp.2⟩

/-- The entries of a known call can be read off the tables. -/
theorem findPathSyscall_of_is {N : Numbers} {x : Sys} {sysno : Int} (h : N.is x sysno) :
    findPathSyscall N sysno = pathTable.find? fun d => d.nr = x := by
  unfold findPathSyscall
  congr 1
  funext d
  exact Numbers.is_eq h

theorem actionOf_of_is {N : Numbers} {lp64 : Bool} {x : Sys} {sysno : Int} (h : N.is x sysno) :
    actionOf N lp64 sysno =
      (actionTable.find? fun d => (!d.lp64Only || lp64) && decide (d.nr = x)).map (·.action) := by
  unfold actionOf
  congr 2
  funext d
  rw [Numbers.is_eq h]

/-- Whether a call with an action is `x` can be read off the table. -/
theorem is_of_action {N : Numbers} {lp64 : Bool} {sysno : Int} {a : Action} {x : Sys}
    (h : actionOf N lp64 sysno = some a) (hx : ∀ d ∈ actionTable, d.action = a → d.nr ≠ x) :
    N.is x sysno = false := by
  obtain ⟨d, hd, ha, hn⟩ := actionOf_eq_some h
  rw [Numbers.is_eq hn]
  exact decide_eq_false (hx d hd ha).symm

end Emuroot
