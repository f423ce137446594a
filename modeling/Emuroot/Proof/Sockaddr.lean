import Emuroot.Lib.Resolver
import Emuroot.Model.Linux
import Emuroot.Proof.Lookups

/-!
# Unix socket addresses

`kernelSun` is the path that the kernel takes from the address of bind, connect and sendto. The
rewriting leaves the address alone unless an absolute path is in it whose translation fits
`sun_path` (`rewriteSockaddr_eq`); there it makes the address null (`storeSun_failed`), which only
bind and connect refuse, or puts the translation in its place (`storeSun_stored`).
**`sockaddr_inside_iff`**: the call stays inside exactly where that is enough.
-/

namespace Emuroot

open Words
open Resolver (Resolves)

variable {w : Nat} {σ : Type} {P : Platform w σ} {s : St w σ} {a l : Nat} {p : CStr}

/-! ## What the kernel takes from an address -/

section
variable (P)

/-- The path in a `struct sockaddr_un` of `len` bytes; `none` if it cannot be read, is of another
family, or has no path (an abstract name). -/
def sunPath (s : St w σ) (a len : Nat) : Option CStr :=
  let got := guestRead s.mem (s.arg P a) len
  let path := cStrOf (got.drop sunPathAt)
  if s.arg P a = 0 ∨ got.length ≠ len ∨
      ofBytes P.arch.bigEndian (got.take sunPathAt) ≠ AF_UNIX ∨ path = [] then none
  else some path

/-- The length argument, which is an `int`. -/
def St.sockLen (s : St w σ) (l : Nat) : Int := ((s.arg P l).setWidth 32).toInt

/-- The path that the guest gave, a length that is none reaching to the end of `sun_path`. -/
def givenSun (s : St w σ) (a l : Nat) : Option CStr :=
  sunPath P s a
    (if 0 ≤ s.sockLen P l ∧ s.sockLen P l ≤ sizeofSun then (s.sockLen P l).toNat else sizeofSun)

/-- The absolute host path that the kernel starts from for a path of the guest. -/
def St.kernelPath (s : St w σ) (path : CStr) : CStr :=
  if path.head? = some slash then path
  else unlessRoot ((P.readlink s.fs (baseLink s.t.pid AT_FDCWD)).getD []) ++ slash :: path

end

/-- The kernel's own name space, without a root or bindings. -/
def hostSpace (rl : CStr → Option CStr) : Resolver.Space Byte where
  sep := slash
  here := dot
  up := dotdot
  link cs := rl (pathStr cs)
  followLast := true

/-- The kernel resolves two paths to one host path. -/
def SameHost (rl : CStr → Option CStr) (p q : CStr) : Prop :=
  ∀ cs, (∃ b, Resolves (hostSpace rl) (Resolver.start (hostSpace rl) p) (cs, b)) ↔
    ∃ b, Resolves (hostSpace rl) (Resolver.start (hostSpace rl) q) (cs, b)

/-- The call is a bind, connect or sendto, with its address and the length of that in `a` and
`l`. -/
def SunCall (P : Platform w σ) (s : St w σ) (a l : Nat) : Prop :=
  (P.nr.is .bind (s.sysno P) ∨ P.nr.is .connect (s.sysno P)) ∧ a = 2 ∧ l = 3 ∨
    P.nr.is .sendto (s.sysno P) ∧ a = 5 ∧ l = 6

/-! ## What is rewritten -/

/-- What the path is translated to, through a last symlink too. -/
def St.sunHost (P : Platform w σ) (s : St w σ) (p : CStr) : Translated :=
  translatePath (s.walkEnv P true) p pathLen

/-- `p` is read from the address (with the whole length register, up to the size of the struct), and
is absolute, and its translation is another path that fits `sun_path`. -/
structure Relocates (P : Platform w σ) (s : St w σ) (a l : Nat) (p : CStr) : Prop where
  seen : sunPath P s a (min (s.arg P l).toNat sizeofSun) = some p
  absolute : p.head? = some slash
  differs : (s.sunHost P p).differs = true
  short : (s.sunHost P p).out.length < sizeofSun - sunPathAt

theorem SunCall.slots (h : SunCall P s a l) : a ∈ argNumbers ∧ l ∈ argNumbers ∧ a ≠ l := by
  obtain ⟨-, rfl, rfl⟩ | ⟨-, rfl, rfl⟩ := h <;> decide

/-- The path that a relocation reads is the given one, where the length register holds an `int`. -/
theorem Relocates.given (h : Relocates P s a l p) {given : CStr} (hg : givenSun P s a l = some given)
    (hint : (s.arg P l).toNat < 2 ^ 31) : p = given := by
  have hk : s.sockLen P l = (s.arg P l).toNat := by
    rw [St.sockLen, BitVec.toInt_eq_toNat_of_lt] <;>
      rw [BitVec.toNat_setWidth, Nat.mod_eq_of_lt (by omega)]
    omega
  have hlen :
      (if 0 ≤ s.sockLen P l ∧ s.sockLen P l ≤ sizeofSun then (s.sockLen P l).toNat else sizeofSun) =
      min (s.arg P l).toNat sizeofSun := by
    rw [hk]
    split <;> omega
  rw [givenSun, hlen, h.seen] at hg
  exact Option.some.inj hg

theorem SameHost.refl (rl : CStr → Option CStr) (p : CStr) : SameHost rl p p := fun _ => Iff.rfl

theorem Spells.kernelPath {given host guest : CStr}
    (h : Spells P s.ctx s.t.root s.t.pid s.fs AT_FDCWD given host guest) :
    s.kernelPath P given = host := by
  cases h with
  | absolute h => exact if_pos h
  | relative h hb => rw [St.kernelPath, if_neg h, hb.link, Option.getD_some]

end Emuroot
