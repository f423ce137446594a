import Emuroot.Model.Tracee

/-!
# The x86_64 ABI of Linux

The call numbers and the layout of `struct stat`, a host of that kind on which no file is there, and
the state of a process on it at the entry of a call.
-/

namespace Emuroot

/-- `<sys/syscall.h>` on x86_64 -/
def linuxNumbers : Numbers :=
  .ofList
    [(.open, 2), (.stat, 4), (.fstat, 5), (.lstat, 6), (.access, 21), (.connect, 42), (.sendto, 44),
      (.bind, 49), (.execve, 59), (.uname, 63), (.truncate, 76), (.getcwd, 79), (.chdir, 80),
      (.rename, 82), (.mkdir, 83), (.rmdir, 84), (.creat, 85), (.link, 86), (.unlink, 87),
      (.symlink, 88), (.readlink, 89), (.chmod, 90), (.chown, 92), (.fchown, 93), (.lchown, 94),
      (.getuid, 102), (.getgid, 104), (.setuid, 105), (.setgid, 106), (.geteuid, 107),
      (.getegid, 108), (.setreuid, 113), (.setregid, 114), (.getgroups, 115), (.setgroups, 116),
      (.setresuid, 117), (.getresuid, 118), (.setresgid, 119), (.getresgid, 120), (.setfsuid, 122),
      (.setfsgid, 123), (.utime, 132), (.mknod, 133), (.statfs, 137), (.chroot, 161), (.mount, 165),
      (.umount2, 166), (.setxattr, 188), (.lsetxattr, 189), (.getxattr, 191), (.lgetxattr, 192),
      (.listxattr, 194), (.llistxattr, 195), (.removexattr, 197), (.lremovexattr, 198),
      (.utimes, 235), (.inotify_add_watch, 254), (.openat, 257), (.mkdirat, 258), (.mknodat, 259),
      (.fchownat, 260), (.futimesat, 261), (.newfstatat, 262), (.unlinkat, 263), (.renameat, 264),
      (.linkat, 265), (.symlinkat, 266), (.readlinkat, 267), (.fchmodat, 268), (.faccessat, 269),
      (.utimensat, 280), (.renameat2, 316), (.execveat, 322), (.statx, 332), (.openat2, 437),
      (.faccessat2, 439), (.fchmodat2, 452)]
    (by decide +kernel)

/-- `struct stat` on x86_64 -/
def linuxStatLayout : StatLayout where
  uid := 28
  gid := 32
  dev := 0
  ino := 8
  statx := false
  apart := by decide
  fits := by decide

/-- An unprivileged user's host without files. -/
def linuxPlatform : Platform 64 Unit where
  arch := x86_64
  nr := linuxNumbers
  statLayout := linuxStatLayout
  oNofollow := 0o400000
  offBits := 64
  readlink := fun _ _ => none
  stat := fun _ _ => none
  lstat := fun _ _ => none
  realpath := fun _ _ => none
  content := fun _ _ => none
  chmod := fun fs _ _ => fs
  geteuid := 1000
  getegid := 1000
  calloc := fun _ _ => true

/-- The registers at the entry of call `nr`. -/
def linuxRegs (nr : Nat) (args : List Nat) : Regs 64 := fun i =>
  let arg (n : Nat) : Word 64 := BitVec.ofNat 64 (args.getD (n - 1) 0)
  if i = 15 then BitVec.ofNat 64 nr
  else if i = 14 then arg 1
  else if i = 13 then arg 2
  else if i = 12 then arg 3
  else if i = 7 then arg 4
  else if i = 9 then arg 5
  else if i = 8 then arg 6
  else if i = 19 then BitVec.ofNat 64 65536
  else 0

/-- Memory with these bytes from these addresses on. -/
def linuxMem (texts : List (Nat × List Byte)) : GuestMem 64 where
  byte := fun a => some ((texts.findSome? fun t =>
    if t.1 ≤ a.toNat then t.2[a.toNat - t.1]? else none).getD 0)
  writable := fun _ => true
  errno := 0

/-- A process of the fake root, with its root at `root`, at the entry of call `nr`. -/
def linuxCall (ctx : Ctx) (root : CStr) (nr : Nat) (args : List Nat)
    (texts : List (Nat × List Byte)) : St 64 Unit where
  t :=
    { pid := 7
      root := root
      sysno := 0
      args := fun _ => 0
      creds := credsInit ctx.fakeUid ctx.fakeGid
      scratchTop := 0
      exe := []
      pendingExe := []
      chown := none
      created := []
      pendingRoot := []
      mountHandled := false
      procLink := false
      procLinkExe := false }
  regs := linuxRegs nr args
  mem := linuxMem texts
  ctx := ctx
  fs := ()
  log := []

end Emuroot
