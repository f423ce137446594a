import Emuroot.Lib.Runs

/-!
# Fake credentials (`creds.c`)

The uid and the gid side of each call are one definition with a parameter (`Which`); the calls
under the source's names are that definition at their side.
-/

namespace Emuroot

/-- `NOID` -/
def noid : UInt32 := 0xffffffff

/-- `CREDS_MAX_GROUPS` -/
def credsMaxGroups : Nat := 32

def EPERM : Int := 1
def EINVAL : Int := 22

/-- `uint32_t ids[3]`: real, effective, saved. -/
structure Ids where
  real : UInt32
  effective : UInt32
  saved : UInt32
  deriving DecidableEq, Repr

/-- `creds_t`; `ngroups` is the length of `groups`. -/
structure Creds where
  uid : Ids
  gid : Ids
  fsuid : UInt32
  fsgid : UInt32
  groups : List UInt32
  ngroups_le : groups.length ≤ credsMaxGroups
  deriving DecidableEq

/-- `creds_init` -/
def credsInit (uid gid : UInt32) : Creds where
  uid := ⟨uid, uid, uid⟩
  gid := ⟨gid, gid, gid⟩
  fsuid := uid
  fsgid := gid
  groups := [gid]
  ngroups_le := Nat.le_of_ble_eq_true rfl

/-- `in3` -/
def in3 (ids : Ids) (v : UInt32) : Bool := v == ids.real || v == ids.effective || v == ids.saved

/-- `privileged` -/
def privileged (c : Creds) : Bool := c.uid.effective == 0

/-- The side of the credentials a call works on. -/
inductive Which
  | user
  | group
  deriving DecidableEq, Repr

def Creds.ids (c : Creds) : Which → Ids
  | .user => c.uid
  | .group => c.gid

def Creds.fs (c : Creds) : Which → UInt32
  | .user => c.fsuid
  | .group => c.fsgid

def Creds.put (c : Creds) (w : Which) (ids : Ids) (fs : UInt32) : Creds :=
  match w with
  | .user => { c with uid := ids, fsuid := fs }
  | .group => { c with gid := ids, fsgid := fs }

@[simp] theorem Creds.ids_put (c : Creds) (w : Which) (ids : Ids) (fs : UInt32) :
    (c.put w ids fs).ids w = ids := by cases w <;> rfl

@[simp] theorem Creds.fs_put (c : Creds) (w : Which) (ids : Ids) (fs : UInt32) :
    (c.put w ids fs).fs w = fs := by cases w <;> rfl

@[simp] theorem Creds.groups_put (c : Creds) (w : Which) (ids : Ids) (fs : UInt32) :
    (c.put w ids fs).groups = c.groups := by cases w <;> rfl

theorem Creds.ids_put_ne (c : Creds) {w v : Which} (ids : Ids) (fs : UInt32) (h : v ≠ w) :
    (c.put w ids fs).ids v = c.ids v ∧ (c.put w ids fs).fs v = c.fs v := by
  cases w <;> cases v <;> first | exact absurd rfl h | exact ⟨rfl, rfl⟩

/-- `apply_uid` / `apply_gid` -/
def applyIds (w : Which) (c : Creds) (r e s : UInt32) : Creds :=
  let ids : Ids :=
    { real := if r ≠ noid then r else (c.ids w).real
      effective := if e ≠ noid then e else (c.ids w).effective
      saved := if s ≠ noid then s else (c.ids w).saved }
  c.put w ids ids.effective

def setId (w : Which) (c : Creds) (u : UInt32) : Creds × Int :=
  if privileged c then (applyIds w c u u u, 0)
  else if u = (c.ids w).real ∨ u = (c.ids w).saved then (applyIds w c noid u noid, 0)
  else (c, -EPERM)

def setresId (w : Which) (c : Creds) (r e s : UInt32) : Creds × Int :=
  if !privileged c && ((r != noid && !in3 (c.ids w) r) || (e != noid && !in3 (c.ids w) e) ||
      (s != noid && !in3 (c.ids w) s)) then (c, -EPERM)
  else (applyIds w c r e s, 0)

def setreId (w : Which) (c : Creds) (r e : UInt32) : Creds × Int :=
  if !privileged c && ((r != noid && r != (c.ids w).real && r != (c.ids w).effective) ||
      (e != noid && !in3 (c.ids w) e)) then (c, -EPERM)
  else
    let oldReal := (c.ids w).real
    let newE := if e ≠ noid then e else (c.ids w).effective
    let save := r ≠ noid ∨ (e ≠ noid ∧ e ≠ oldReal)
    (applyIds w c r e (if save then newE else noid), 0)

/-- Returns the old id, as the call does. -/
def setfsId (w : Which) (c : Creds) (u : UInt32) : Creds × Int :=
  let old := c.fs w
  (if u ≠ noid ∧ (privileged c ∨ u = c.fs w ∨ in3 (c.ids w) u) then c.put w (c.ids w) u else c,
    old.toNat)

def credsSetuid := setId .user
def credsSetgid := setId .group
def credsSetresuid := setresId .user
def credsSetresgid := setresId .group
def credsSetreuid := setreId .user
def credsSetregid := setreId .group
def credsSetfsuid := setfsId .user
def credsSetfsgid := setfsId .group

/-- `creds_setgroups` -/
def credsSetgroups (c : Creds) (list : List UInt32) (n : Int) : Creds × Int :=
  if !privileged c then (c, -EPERM)
  else if h : n < 0 ∨ n > credsMaxGroups then (c, -EINVAL)
  else
    ({ c with
        groups := list.take n.toNat
        ngroups_le := by rw [List.length_take]; omega }, 0)

/-- A credential-changing call with its arguments. -/
inductive CredCall
  | setuid (u : UInt32)
  | setgid (g : UInt32)
  | setreuid (r e : UInt32)
  | setregid (r e : UInt32)
  | setresuid (r e s : UInt32)
  | setresgid (r e s : UInt32)
  | setfsuid (u : UInt32)
  | setfsgid (g : UInt32)
  | setgroups (list : List UInt32) (n : Int)

/-- What a call does to the credentials, and what it returns. -/
def CredCall.run (c : Creds) : CredCall → Creds × Int
  | .setuid u => credsSetuid c u
  | .setgid g => credsSetgid c g
  | .setreuid r e => credsSetreuid c r e
  | .setregid r e => credsSetregid c r e
  | .setresuid r e s => credsSetresuid c r e s
  | .setresgid r e s => credsSetresgid c r e s
  | .setfsuid u => credsSetfsuid c u
  | .setfsgid g => credsSetfsgid c g
  | .setgroups list n => credsSetgroups c list n

end Emuroot
