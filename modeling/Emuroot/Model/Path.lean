import Emuroot.Lib.Loop
import Emuroot.Lib.Pick
import Emuroot.Model.Context

/-!
# Guest path to host path (`path.c`)

`translatePathEx` walks the guest path component by component (`walkStep`, run by `Loop`), looking
up symlinks on the host through `rl`, which answers `readlink` with the link's text.
-/

namespace Emuroot

/-- `MAX_SYMLINK_HOPS` -/
def maxSymlinkHops : Nat := 40

def endsWithSlash (s : CStr) : Bool := s.getLast? == some slash

/-- `has_prefix` -/
def hasPrefix (s pre : CStr) : Bool :=
  pre.isPrefixOf s && match (s.drop pre.length).head? with
    | none => true
    | some c => c == slash

/-- `pop_component` -/
def popComponent (path : CStr) : CStr :=
  match strrchr path slash with
  | none => path
  | some 0 => path.take 1
  | some i => path.take i

/-- The guest prefix of the binding matches. -/
def guestMatches (guest : CStr) (b : Binding) : Bool :=
  b.guest == [slash] || hasPrefix guest b.guest

/-- `strcmp(s, "/") == 0 ? "" : s` -/
def unlessRoot (s : CStr) : CStr := if s = [slash] then [] else s

def orSlash (s : CStr) : CStr := if s = [] then [slash] else s

/-- The binding that `map_to_host` takes the path through. -/
def bestBinding (ctx : Ctx) (guest : CStr) : Option Binding :=
  Pick.pick (fun b => b.guest.length) (guestMatches guest) ctx.bindings.reverse

/-- The binding at or above which, on the host, the path lies. -/
def mountedBinding (ctx : Ctx) (out : CStr) : Option Binding :=
  Pick.pick (fun b => b.mount.length) (fun b => b.mount.length > 1 && hasPrefix out b.mount)
    ctx.bindings.reverse

/-- `map_to_host` -/
def mapToHost (ctx : Ctx) (root guest : CStr) (outsz : Nat) : CStr :=
  match bestBinding ctx guest with
  | some best =>
    let rest := guest.drop (if best.guest = [slash] then 0 else best.guest.length)
    orSlash (snprintf outsz (unlessRoot best.host ++ rest))
  | none =>
    let out := snprintf outsz (root ++ guest)
    match mountedBinding ctx out with
    | some mounted =>
      let moved := snprintf (2 * pathLen) (unlessRoot mounted.host ++ out.drop mounted.mount.length)
      orSlash (moved.take (outsz - 1))
    | none => out

/-- Under the host's `/proc`. -/
def underProc (host : CStr) : Bool := host.take 6 == cstr "/proc/"

/-! ## The walk -/

/-- The loop's variables: the components still to walk, from `p` on, and the guest path so far. -/
structure Walk where
  p : CStr
  cur : CStr
  trailingSlash : Bool
  hops : Nat
  deriving DecidableEq, Repr

/-- What the walk of one path reads and never changes. -/
structure WalkEnv where
  ctx : Ctx
  root : CStr
  rl : CStr → Option CStr
  followLast : Bool

/-- One round of the loop: `inl` goes round again, `inr` leaves. -/
def walkStep (E : WalkEnv) (s : Walk) : Walk ⊕ Walk :=
  let p := s.p.dropWhile (· == slash)
  if p = [] then .inr { s with p := [] }
  else
    let comp := (p.takeWhile (· != slash)).take 255
    let next := p.dropWhile (· != slash)
    let isLast := next = [] ∨ (next.all (· == slash) ∧ s.trailingSlash = false)
    if comp = dot then .inl { s with p := next }
    else if comp = dotdot then .inl { s with p := next, cur := popComponent s.cur }
    else if s.cur.length + 1 + comp.length ≥ pathLen then .inr { s with p := next }
    else
      let cur := s.cur ++ (if s.cur.length > 1 then [slash] else []) ++ comp
      if isLast ∧ E.followLast = false then .inr { s with p := next, cur := cur }
      else
        let host := mapToHost E.ctx E.root cur pathLen
        -- /proc symlinks are per-process: left to the kernel
        if underProc host then .inr { s with p := next, cur := cur }
        else
          match E.rl host with
          | none => .inl { s with p := next, cur := cur }
          | some link =>
            let hops := s.hops + 1
            if hops > maxSymlinkHops then .inr { s with p := next, cur := cur, hops := hops }
            else
              let target := link.take (pathLen - 1)
              let tail := snprintf (2 * pathLen) (target ++ next)
              .inl
                { p := tail
                  cur := if target.head? = some slash then [slash] else popComponent cur
                  trailingSlash := endsWithSlash tail
                  hops := hops }

/-- Rounds without a symlink consume text; at most 40 symlinks are looked through. -/
def walkMeasure (s : Walk) : Nat := (maxSymlinkHops + 1 - s.hops) * (2 * pathLen) + s.p.length

theorem length_dropWhile_lt {p : CStr} (h : p ≠ []) (hs : p.head? ≠ some slash) :
    (p.dropWhile (· != slash)).length < p.length := by
  cases p with
  | nil => exact absurd rfl h
  | cons c p =>
    have hc : (c != slash) = true := by simpa using hs
    rw [List.dropWhile_cons, if_pos hc, List.length_cons]
    exact Nat.lt_succ_of_le (List.dropWhile_suffix _).length_le

theorem head?_dropWhile_slash (p : CStr) : (p.dropWhile (· == slash)).head? ≠ some slash := by
  intro h
  have := List.head?_dropWhile_not (· == slash) p
  rw [h] at this
  exact absurd this (by decide)

theorem walkStep_decreases {E : WalkEnv} {s s' : Walk} (h : walkStep E s = .inl s') :
    walkMeasure s' < walkMeasure s := by
  unfold walkStep at h
  extract_lets p comp next isLast cur host hops at h
  have hle : p.length ≤ s.p.length := (List.dropWhile_suffix _).length_le
  split at h
  · cases h
  · rename_i hp
    have hlt : next.length < p.length := length_dropWhile_lt hp (head?_dropWhile_slash _)
    -- a round that only consumes text
    have hnext : ∀ {c : CStr}, walkMeasure { s with p := next, cur := c } < walkMeasure s := by
      intro c
      simp only [walkMeasure]
      omega
    split at h
    · cases h; exact hnext
    split at h
    · cases h; exact hnext
    split at h
    · cases h
    split at h
    · cases h
    split at h
    · cases h
    split at h
    · cases h; exact hnext
    · split at h
      · cases h
      · extract_lets target tail at h
        cases h
        have ht : tail.length ≤ 2 * pathLen - 1 := length_snprintf_le _ _
        simp only [walkMeasure, maxSymlinkHops, pathLen, hops] at *
        omega

/-- The loop of `emuroot_translate_path_ex`. -/
def walkLoop (E : WalkEnv) : Loop Walk Walk where
  step := walkStep E
  measure := walkMeasure
  decreases := walkStep_decreases

/-! ## The two directions -/

/-- What `emuroot_translate_path_ex` writes and returns. -/
structure Translated where
  out : CStr
  guestOut : CStr
  differs : Bool

/-- The host path for where the walk stopped: anything still unwalked is appended verbatim. -/
def unwalked (E : WalkEnv) (s : Walk) : CStr :=
  let host := mapToHost E.ctx E.root s.cur pathLen
  let host :=
    if s.p = [] then host
    else host ++ snprintf (pathLen - host.length)
      ((if endsWithSlash host then [] else [slash]) ++ s.p.dropWhile (· == slash))
  if s.trailingSlash && !endsWithSlash host && host.length + 1 < pathLen then host ++ [slash]
  else host

/-- The state in which the loop is entered. -/
def walkStart (guestPath : CStr) : Walk where
  p := snprintf (2 * pathLen) guestPath
  cur := [slash]
  trailingSlash := endsWithSlash guestPath
  hops := 0

/-- There is nothing to map the path through. -/
def unmapped (ctx : Ctx) (root : CStr) : Bool := root.isEmpty && ctx.bindings.isEmpty

/-- `emuroot_translate_path_ex` -/
def translatePathEx (E : WalkEnv) (guestPath : CStr) (outsz guestOutsz : Nat) : Translated :=
  if guestPath.head? ≠ some slash ∨ unmapped E.ctx E.root then
    { out := snprintf outsz guestPath
      guestOut := snprintf guestOutsz guestPath
      differs := false }
  else
    let s := (walkLoop E).run (walkStart guestPath)
    let host := unwalked E s
    { out := snprintf outsz host
      guestOut := snprintf guestOutsz s.cur
      differs := host != guestPath }

/-- `emuroot_translate_path` -/
def translatePath (E : WalkEnv) (guestPath : CStr) (outsz : Nat) : Translated :=
  translatePathEx E guestPath outsz 0

/-- The binding that `emuroot_host_to_guest` names the path through. -/
def hostBinding (ctx : Ctx) (host : CStr) : Option Binding :=
  Pick.pick (fun b => b.host.length) (fun b => b.host.length > 1 && hasPrefix host b.host)
    ctx.bindings

/-- `emuroot_host_to_guest` -/
def hostToGuest (ctx : Ctx) (root host : CStr) (outsz : Nat) : Option CStr :=
  match hostBinding ctx host with
  | some best => some (orSlash (snprintf outsz (unlessRoot best.guest ++ host.drop best.host.length)))
  | none =>
    if root ≠ [] ∧ hasPrefix host root then some (orSlash (snprintf outsz (host.drop root.length)))
    else none

end Emuroot
