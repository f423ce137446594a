import Mathlib.Data.List.Sort
import Mathlib.Tactic.TypeStar

/-!
# The credential calls of Linux

What `set*id` and `setgroups` do to a process's credentials, and what they return. `Caps` says
whether the process has `CAP_SETUID` and `CAP_SETGID`. `Cred.Valid.run`: no call makes -1 an
effective id.
-/

namespace Linux

abbrev Id := UInt32

/-- `(uid_t)-1`: no id. -/
def noId : Id := 0xffffffff

def EPERM : Int := 1
def EINVAL : Int := 22

/-- `NGROUPS_MAX` -/
def ngroupsMax : Nat := 65536

/-- The user ids of a process, or its group ids. -/
structure Side where
  real : Id
  effective : Id
  saved : Id
  fs : Id
  deriving DecidableEq, Repr

/-- `struct cred` -/
structure Cred where
  user : Side
  group : Side
  groups : List Id
  deriving DecidableEq, Repr

structure Caps where
  setuid : Bool
  setgid : Bool
  deriving DecidableEq, Repr

/-! ## One side -/

namespace Side

/-- `u` is the real, the effective or the saved id. -/
def holds (s : Side) (u : Id) : Bool := u == s.real || u == s.effective || u == s.saved

/-- `setuid` and `setgid` -/
def setId (cap : Bool) (s : Side) (u : Id) : Except Int Side :=
  if u = noId then .error EINVAL
  else if cap then .ok ⟨u, u, u, u⟩
  else if u = s.real ∨ u = s.saved then .ok { s with effective := u, fs := u }
  else .error EPERM

/-- `setreuid` and `setregid`: the saved id follows where the real id is set, or the effective one
to something other than the real id. -/
def setreId (cap : Bool) (s : Side) (r e : Id) : Except Int Side :=
  if r ≠ noId ∧ r ≠ s.real ∧ r ≠ s.effective ∧ cap = false then .error EPERM
  else if e ≠ noId ∧ s.holds e = false ∧ cap = false then .error EPERM
  else
    let effective := if e = noId then s.effective else e
    .ok
      { real := if r = noId then s.real else r
        effective := effective
        saved := if r ≠ noId ∨ e ≠ noId ∧ e ≠ s.real then effective else s.saved
        fs := effective }

/-- `setresuid` and `setresgid` -/
def setresId (cap : Bool) (s : Side) (r e v : Id) : Except Int Side :=
  if cap = false ∧ ∃ u ∈ [r, e, v], u ≠ noId ∧ s.holds u = false then .error EPERM
  else
    let effective := if e = noId then s.effective else e
    .ok
      { real := if r = noId then s.real else r
        effective := effective
        saved := if v = noId then s.saved else v
        fs := effective }

/-- `setfsuid` and `setfsgid`, which never fail. -/
def setfsId (cap : Bool) (s : Side) (u : Id) : Side :=
  if u ≠ noId ∧ (cap ∨ s.holds u ∨ u = s.fs) then { s with fs := u } else s

section
variable {cap : Bool} {s s' : Side} {r e v u : Id}

theorem setId_cap (hu : u ≠ noId) (h : cap = true) : s.setId cap u = .ok ⟨u, u, u, u⟩ := by
  rw [setId, if_neg hu, if_pos h]

theorem setId_held (hu : u ≠ noId) (hc : cap = false) (h : u = s.real ∨ u = s.saved) :
    s.setId cap u = .ok { s with effective := u, fs := u } := by
  rw [setId, if_neg hu, if_neg (by simp [hc]), if_pos h]

theorem setId_refused (hu : u ≠ noId) (hc : cap = false) (h : ¬(u = s.real ∨ u = s.saved)) :
    s.setId cap u = .error EPERM := by
  rw [setId, if_neg hu, if_neg (by simp [hc]), if_neg h]

theorem setreId_refused (h : r ≠ noId ∧ r ≠ s.real ∧ r ≠ s.effective ∧ cap = false ∨
    e ≠ noId ∧ s.holds e = false ∧ cap = false) : s.setreId cap r e = .error EPERM := by
  unfold setreId
  split
  · rfl
  · rename_i h1
    rw [if_pos (h.resolve_left h1)]

theorem setreId_ok (hr : ¬(r ≠ noId ∧ r ≠ s.real ∧ r ≠ s.effective ∧ cap = false))
    (he : ¬(e ≠ noId ∧ s.holds e = false ∧ cap = false)) :
    s.setreId cap r e = .ok
      { real := if r = noId then s.real else r
        effective := if e = noId then s.effective else e
        saved := if r ≠ noId ∨ e ≠ noId ∧ e ≠ s.real then if e = noId then s.effective else e
          else s.saved
        fs := if e = noId then s.effective else e } := by
  rw [setreId, if_neg hr, if_neg he]

theorem setId_effective (h : s.setId cap u = .ok s') : s'.effective ≠ noId := by
  by_cases hu : u = noId
  · rw [setId, if_pos hu] at h
    cases h
  · cases hc : cap with
    | true =>
      rw [setId_cap hu hc] at h
      cases h
      exact hu
    | false =>
      by_cases hh : u = s.real ∨ u = s.saved
      · rw [setId_held hu hc hh] at h
        cases h
        exact hu
      · rw [setId_refused hu hc hh] at h
        cases h

theorem effective_or_old (hs : s.effective ≠ noId) : (if e = noId then s.effective else e) ≠ noId := by
  split
  · exact hs
  · assumption

theorem setreId_effective (hs : s.effective ≠ noId) (h : s.setreId cap r e = .ok s') :
    s'.effective ≠ noId := by
  unfold setreId at h
  split at h
  · cases h
  split at h
  · cases h
  · cases h
    exact effective_or_old hs

theorem setresId_refused (h : cap = false ∧ ∃ u ∈ [r, e, v], u ≠ noId ∧ s.holds u = false) :
    s.setresId cap r e v = .error EPERM := if_pos h

theorem setresId_ok (h : ¬(cap = false ∧ ∃ u ∈ [r, e, v], u ≠ noId ∧ s.holds u = false)) :
    s.setresId cap r e v = .ok
      { real := if r = noId then s.real else r
        effective := if e = noId then s.effective else e
        saved := if v = noId then s.saved else v
        fs := if e = noId then s.effective else e } := if_neg h

theorem setresId_effective (hs : s.effective ≠ noId) (h : s.setresId cap r e v = .ok s') :
    s'.effective ≠ noId := by
  unfold setresId at h
  split at h
  · cases h
  · cases h
    exact effective_or_old hs

theorem setfsId_effective (cap : Bool) (s : Side) (u : Id) :
    (s.setfsId cap u).effective = s.effective := by
  unfold setfsId
  split
  · rfl
  · rfl

end

end Side

/-! ## The calls -/

inductive Call
  | setuid (u : Id)
  | setgid (g : Id)
  | setreuid (r e : Id)
  | setregid (r e : Id)
  | setresuid (r e s : Id)
  | setresgid (r e s : Id)
  | setfsuid (u : Id)
  | setfsgid (g : Id)
  /-- a count, and the list that is read for it -/
  | setgroups (n : Int) (list : List Id)
  deriving DecidableEq, Repr

namespace Cred

/-- The user ids replaced, or the error. -/
def setUser (c : Cred) : Except Int Side → Cred × Int
  | .ok s => ({ c with user := s }, 0)
  | .error e => (c, -e)

/-- The group ids replaced, or the error. -/
def setGroup (c : Cred) : Except Int Side → Cred × Int
  | .ok s => ({ c with group := s }, 0)
  | .error e => (c, -e)

/-- `setgroups`; the kernel keeps the list sorted. -/
def setgroups (cap : Bool) (c : Cred) (n : Int) (list : List Id) : Cred × Int :=
  if cap = false then (c, -EPERM)
  else if n < 0 ∨ n > ngroupsMax then (c, -EINVAL)
  else if noId ∈ list then (c, -EINVAL)
  else ({ c with groups := list.mergeSort }, 0)

end Cred

/-- What a call does to the credentials, and what it returns. -/
def Call.run (caps : Caps) (c : Cred) : Call → Cred × Int
  | .setuid u => c.setUser (c.user.setId caps.setuid u)
  | .setgid g => c.setGroup (c.group.setId caps.setgid g)
  | .setreuid r e => c.setUser (c.user.setreId caps.setuid r e)
  | .setregid r e => c.setGroup (c.group.setreId caps.setgid r e)
  | .setresuid r e s => c.setUser (c.user.setresId caps.setuid r e s)
  | .setresgid r e s => c.setGroup (c.group.setresId caps.setgid r e s)
  | .setfsuid u => ({ c with user := c.user.setfsId caps.setuid u }, c.user.fs.toNat)
  | .setfsgid g => ({ c with group := c.group.setfsId caps.setgid g }, c.group.fs.toNat)
  | .setgroups n list => c.setgroups caps.setgid n list

/-- The effective ids are ids. -/
structure Cred.Valid (c : Cred) : Prop where
  user : c.user.effective ≠ noId
  group : c.group.effective ≠ noId

theorem Cred.Valid.setUser {c : Cred} (h : c.Valid) {r : Except Int Side}
    (hr : ∀ s, r = .ok s → s.effective ≠ noId) : (c.setUser r).1.Valid := by
  cases r with
  | ok s => exact ⟨hr s rfl, h.group⟩
  | error e => exact h

theorem Cred.Valid.setGroup {c : Cred} (h : c.Valid) {r : Except Int Side}
    (hr : ∀ s, r = .ok s → s.effective ≠ noId) : (c.setGroup r).1.Valid := by
  cases r with
  | ok s => exact ⟨h.user, hr s rfl⟩
  | error e => exact h

theorem Cred.Valid.setgroups {c : Cred} (h : c.Valid) (cap : Bool) (n : Int) (list : List Id) :
    (c.setgroups cap n list).1.Valid := by
  unfold Cred.setgroups
  split
  · exact h
  split
  · exact h
  split
  · exact h
  · exact ⟨h.user, h.group⟩

/-- No call makes -1 an effective id. -/
theorem Cred.Valid.run {c : Cred} (h : c.Valid) (caps : Caps) (call : Call) :
    (call.run caps c).1.Valid := by
  cases call with
  | setuid u => exact h.setUser fun _ => Side.setId_effective
  | setgid g => exact h.setGroup fun _ => Side.setId_effective
  | setreuid r e => exact h.setUser fun _ => Side.setreId_effective h.user
  | setregid r e => exact h.setGroup fun _ => Side.setreId_effective h.group
  | setresuid r e s => exact h.setUser fun _ => Side.setresId_effective h.user
  | setresgid r e s => exact h.setGroup fun _ => Side.setresId_effective h.group
  | setfsuid u => exact ⟨by rw [Call.run, Side.setfsId_effective]; exact h.user, h.group⟩
  | setfsgid g => exact ⟨h.user, by rw [Call.run, Side.setfsId_effective]; exact h.group⟩
  | setgroups n list => exact h.setgroups caps.setgid n list

end Linux
