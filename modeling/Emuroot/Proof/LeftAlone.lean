import Emuroot.Model.Linux
import Emuroot.Proof.Lookups

/-!
# Paths left as the guest gave them

`left_alone`: a path that the rewriting leaves names for the kernel what its translation names, if
it is absolute or its base has the same name in the guest as on the host. A relative path of openat2
with RESOLVE flags is always left, and one whose base has another name may be: in
`relative_shadowed` the kernel looks for a bound directory below the root.
-/

namespace Emuroot

variable {w : Nat} {σ : Type} {P : Platform w σ}

/-- **A path left alone names the same file**: the kernel finds under it what it finds under its
translation, from the same directory, with or without a last symlink followed. -/
theorem left_alone {s : St w σ} (K : Lookups P s.t.pid) {follow : Bool}
    (hE : ProperNames (s.walkEnv P follow)) {x : Int} {d : PathSyscall} (hd : d ∈ pathTable)
    (hx : P.nr.is d.nr x) {n : Nat} (hn : n ≠ 0) {given host guest : CStr}
    (hslot : n = d.slot1 ∨
      n = d.slot2 ∧ (given.head? = some slash ∨ d.nr ≠ .rename ∧ d.nr ≠ .link))
    (hr : Reads P s n given) (hne : given ≠ [])
    (hlen : given.length < pathLen)
    (hs : Spells P s.ctx s.t.root s.t.pid s.fs (s.dirfd P (dirSlot d.nr n)) given host guest)
    (hstrict : given.head? = some slash ∨ strictOpenat2 P s x n = false)
    (hsame : host = guest) {which : Nat}
    (ha : Reads P (rewritePathArg P s x n follow which) n given) (last : Bool) :
    K.find s.fs (s.dirfd P (dirSlot d.nr n)) given last =
      K.find s.fs (s.dirfd P (dirSlot d.nr n))
        (translatePath (s.walkEnv P follow) guest pathLen).out last := by
  have hs' : Spells P s.ctx s.t.root s.t.pid s.fs (s.dirfd P (dirfdSlot P.nr x n)) given host guest := by
    by_cases habs : given.head? = some slash
    · cases hs with
      | absolute => exact .absolute habs
      | relative h => exact (h habs).elim
    · rw [dirfdSlot_eq hd hx (hslot.imp_right fun h => ⟨h.1, h.2.resolve_left habs⟩)]
      exact hs
  exact rewritten_found K hn hE hr hne hlen hstrict hs' (.inl hsame) ha hs last

/-! ## A device directory bound into a root -/

/-- A host with a null device, but none below `/r`; the guest is in `/r`. -/
def deviceHost : Platform 64 Unit :=
  let look (path : CStr) : Option Stat :=
    if path = cstr "/dev/null" then some ⟨5, 3, 0, 0, 0o20666⟩
    else if path = cstr "/r" ∨ path = cstr "/proc/7/cwd" then some ⟨8, 2, 1000, 1000, 0o40755⟩
    else none
  { linuxPlatform with
    readlink := fun _ path => if path = cstr "/proc/7/cwd" then some (cstr "/r") else none
    stat := fun _ => look
    lstat := fun _ => look }

def deviceLookups : Lookups deviceHost 7 :=
  .ofHost deviceHost 7 (fun _ => rfl) fun {fs path} h => by
    by_cases hp : path = cstr "/proc/7/cwd"
    · subst hp
      exact absurd (show deviceHost.lstat () (cstr "/proc/7/cwd") = none from h) (by decide +kernel)
    · exact if_neg hp

/-- A process whose root is `/r`, with the host's `/dev` bound, and `dev/null` in its memory. -/
def deviceCall (nr : Nat) (args : List Nat) : St 64 Unit :=
  linuxCall { Ctx.create with bindings := [⟨cstr "/dev", cstr "/dev", cstr "/r/dev"⟩] } (cstr "/r") nr
    args [(8192, cstr "dev/null"), (12288, List.replicate 16 0 ++ [2])]

/-- `open("dev/null")`, and openat2 of it with `RESOLVE_NO_MAGICLINKS` -/
def deviceOpen : St 64 Unit := deviceCall 2 [8192]
def deviceOpenat2 : St 64 Unit := deviceCall 437 [0xffffff9c, 8192, 12288, 24]

theorem device_spells (s : St 64 Unit) (hctx : s.ctx = deviceOpen.ctx) (ht : s.t = deviceOpen.t) :
    Spells deviceHost s.ctx s.t.root s.t.pid s.fs AT_FDCWD (cstr "dev/null") (cstr "/r/dev/null")
      (cstr "/dev/null") := by
  have hb : Standing deviceHost () 7 AT_FDCWD (cstr "/r") :=
    ⟨by decide +kernel, by decide +kernel, by decide +kernel, by decide +kernel⟩
  rw [hctx, ht]
  exact .relative (by decide +kernel) hb (by decide +kernel : _ = some (cstr "/"))

/-- In `/`, `dev/null` is left as it is, by openat2 by design and by open because `/dev/null` stays
`/dev/null`; the kernel finds no file, and the device is there. -/
theorem relative_shadowed :
    (Spells deviceHost deviceOpenat2.ctx deviceOpenat2.t.root deviceOpenat2.t.pid deviceOpenat2.fs
      (deviceOpenat2.dirfd deviceHost (dirSlot .openat2 2)) (cstr "dev/null") (cstr "/r/dev/null")
      (cstr "/dev/null") ∧
    Reads deviceHost (rewritePathArg deviceHost deviceOpenat2 437 2 true 0) 2 (cstr "dev/null")) ∧
    (Spells deviceHost deviceOpen.ctx deviceOpen.t.root deviceOpen.t.pid deviceOpen.fs
      (deviceOpen.dirfd deviceHost (dirSlot .open 1)) (cstr "dev/null") (cstr "/r/dev/null")
      (cstr "/dev/null") ∧
    Reads deviceHost (rewritePathArg deviceHost deviceOpen 2 1 true 0) 1 (cstr "dev/null")) ∧
    deviceLookups.find () AT_FDCWD (cstr "dev/null") true = none ∧
    (deviceLookups.find () AT_FDCWD
      (translatePath (deviceOpen.walkEnv deviceHost true) (cstr "/dev/null") pathLen).out
        true).isSome := by
  have hcwd : deviceOpenat2.dirfd deviceHost (dirSlot .openat2 2) = AT_FDCWD := by decide +kernel
  refine ⟨⟨?_, by decide +kernel, by decide +kernel, by decide +kernel⟩,
    ⟨device_spells _ rfl rfl, by decide +kernel, by decide +kernel, by decide +kernel⟩,
    by decide +kernel, by decide +kernel⟩
  rw [hcwd]
  exact device_spells _ rfl rfl

/-- `open("/dev/null")` is left as it is too. -/
def deviceAbsolute : St 64 Unit := { deviceOpen with mem := linuxMem [(8192, cstr "/dev/null")] }

theorem left_alone_device :
    deviceLookups.find () AT_FDCWD (cstr "/dev/null") true =
      deviceLookups.find () AT_FDCWD
        (translatePath (deviceAbsolute.walkEnv deviceHost true) (cstr "/dev/null") pathLen).out
          true := by
  have hE : ProperNames (deviceAbsolute.walkEnv deviceHost true) :=
    { root := by decide +kernel
      hosts := by decide +kernel
      guests := by decide +kernel
      rootNul := by decide +kernel
      hostsNul := by decide +kernel
      guestsNul := by decide +kernel
      links := fun path text h => by
        have htext : text = cstr "/r" := by
          have h' : (if path = cstr "/proc/7/cwd" then some (cstr "/r") else none) = some text := h
          split at h'
          · exact (Option.some.inj h').symm
          · cases h'
        rw [htext]
        decide +kernel }
  have ha : Reads deviceHost (rewritePathArg deviceHost deviceAbsolute 2 1 true 0) 1
      (cstr "/dev/null") := ⟨by decide +kernel, by decide +kernel, by decide +kernel⟩
  exact left_alone (s := deviceAbsolute) deviceLookups hE (d := ⟨.open, 1, 0, .open, 2⟩)
    (by decide) (by decide +kernel : linuxNumbers.is .open 2 = true) (by decide) (.inl rfl)
    ⟨by decide +kernel, by decide +kernel, by decide +kernel⟩ (by decide +kernel) (by decide +kernel)
    (.absolute (by decide +kernel)) (.inl (by decide +kernel)) rfl
    ha true

end Emuroot
