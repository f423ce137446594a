import Emuroot.Lib.Decimal
import Emuroot.Lib.Loop
import Emuroot.Model.CString
import Mathlib.Data.Finset.Card
import Mathlib.Data.Finset.Range
import Mathlib.Data.Nat.Find

/-!
# The supervisor's descriptors (`spawn.c`)

The supervisor takes its standard descriptors from the caller's (`giveStd`) and closes the others
(`closeInheritedFds`). `F` are the open files that descriptors refer to.
-/

namespace Emuroot

/-- A process's descriptors, with the open file that each refers to. -/
structure Fds (F : Type) where
  file : Nat → Option F
  size : Nat
  unused : ∀ fd, size ≤ fd → file fd = none

namespace Fds

variable {F : Type}

def isOpen (t : Fds F) (fd : Nat) : Bool := (t.file fd).isSome

def set (t : Fds F) (fd : Nat) (f : F) : Fds F where
  file := Function.update t.file fd (some f)
  size := max t.size (fd + 1)
  unused := fun n hn => by
    rw [Function.update_of_ne (by omega), t.unused n (by omega)]

def close (t : Fds F) (fd : Nat) : Fds F where
  file := Function.update t.file fd none
  size := t.size
  unused := fun n hn => by
    by_cases h : n = fd
    · rw [h, Function.update_self]
    · rw [Function.update_of_ne h, t.unused n hn]

/-- `close` of each. -/
def closeAll (t : Fds F) (fds : List Nat) : Fds F := fds.foldl close t

/-- The descriptor that the next `open` gets. -/
def lowest (t : Fds F) : Nat :=
  Nat.find (p := fun fd => t.isOpen fd = false) ⟨t.size, by rw [isOpen, t.unused _ (Nat.le_refl _)]; rfl⟩

/-- `dup2`, which fails for a descriptor that is not open. -/
def dup2 (t : Fds F) (old new : Nat) : Option (Fds F) := (t.file old).map (t.set new)

/-- How many descriptors are open. -/
def count (t : Fds F) : Nat := ((Finset.range t.size).filter fun fd => t.isOpen fd).card

@[simp] theorem set_file (t : Fds F) (fd : Nat) (f : F) :
    (t.set fd f).file = Function.update t.file fd (some f) := rfl

@[simp] theorem close_file (t : Fds F) (fd : Nat) :
    (t.close fd).file = Function.update t.file fd none := rfl

theorem lowest_unused (t : Fds F) : t.file t.lowest = none := by
  have h : t.isOpen t.lowest = false := Nat.find_spec (p := fun fd => t.isOpen fd = false) _
  rwa [isOpen, Option.isSome_eq_false_iff, Option.isNone_iff_eq_none] at h

theorem closeAll_file (t : Fds F) (fds : List Nat) (fd : Nat) :
    (t.closeAll fds).file fd = if fd ∈ fds then none else t.file fd := by
  induction fds generalizing t with
  | nil => simp [closeAll]
  | cons x fds ih =>
    have hcons : t.closeAll (x :: fds) = (t.close x).closeAll fds := rfl
    rw [hcons, ih, close_file]
    by_cases hx : fd = x
    · simp [hx]
    · simp [hx, Function.update_of_ne]

theorem closeAll_size (t : Fds F) (fds : List Nat) : (t.closeAll fds).size = t.size := by
  induction fds generalizing t with
  | nil => rfl
  | cons x fds ih => exact ih (t.close x)

theorem isOpen_lt {t : Fds F} {fd : Nat} (h : t.isOpen fd = true) : fd < t.size := by
  by_contra hge
  rw [isOpen, t.unused fd (Nat.le_of_not_lt hge)] at h
  cases h

/-- Closing an open descriptor leaves fewer. -/
theorem count_closeAll {t : Fds F} {fds : List Nat} {fd : Nat} (hfd : fd ∈ fds)
    (hopen : t.isOpen fd = true) : (t.closeAll fds).count < t.count := by
  apply Finset.card_lt_card
  rw [Finset.ssubset_iff_of_subset]
  · refine ⟨fd, by simp [isOpen_lt hopen, hopen], ?_⟩
    simp [isOpen, closeAll_file, hfd]
  · intro x hx
    rw [Finset.mem_filter, closeAll_size, isOpen, closeAll_file] at hx
    rw [Finset.mem_filter]
    refine ⟨hx.1, ?_⟩
    by_cases hm : x ∈ fds
    · simp [hm] at hx
    · rw [if_neg hm] at hx
      exact hx.2

end Fds

/-! ## The closing loop -/

/-- `atoi` of a name without blanks or sign. -/
def atoi (s : CStr) : Nat := Decimal.value (s.takeWhile Decimal.isDigit)

/-- What the supervisor's kernel answers about its descriptors. -/
structure FdHost (F : Type) where
  /-- the names that `readdir` yields in `/proc/self/fd` -/
  names : Fds F → List CStr
  mem_names : ∀ t n, n ∈ names t ↔
    n = dot ∨ n = dotdot ∨ ∃ fd, t.isOpen fd = true ∧ n = Decimal.text fd
  /-- `opendir` succeeds -/
  opens : Bool
  /-- the open directory -/
  dir : F
  /-- `sysconf(_SC_OPEN_MAX)` -/
  openMax : Int

/-- What `closeInheritedFds` collects of the names before it closes, with `more`. -/
def collect (self : Nat) : List CStr → List Nat → List Nat × Bool
  | [], fds => (fds, false)
  | name :: names, fds =>
    if fds.length < 1024 then
      let fd := atoi name
      collect self names (if fd > 2 ∧ fd ≠ self then fds ++ [fd] else fds)
    else (fds, true)

/-- A round of the loop over the directory open as `self`. -/
def closeStep {F : Type} (K : FdHost F) (self : Nat) (t : Fds F) : Fds F ⊕ Fds F :=
  let (fds, more) := collect self (K.names t) []
  if more then .inl (t.closeAll fds) else .inr (t.closeAll fds)

theorem atoi_text (n : Nat) : atoi (Decimal.text n) = n := by
  rw [atoi, List.takeWhile_eq_self_iff.2 fun c hc => Decimal.isDigit_text hc, Decimal.value_text]

theorem atoi_dots {n : CStr} (h : n = dot ∨ n = dotdot) : atoi n = 0 := by
  rcases h with rfl | rfl <;> rfl

/-- What is collected are the descriptors to close. -/
theorem mem_collect {self fd : Nat} {names : List CStr} {fds : List Nat}
    (h : fd ∈ (collect self names fds).1) :
    fd ∈ fds ∨ fd > 2 ∧ fd ≠ self ∧ ∃ n ∈ names, atoi n = fd := by
  induction names generalizing fds with
  | nil => exact .inl h
  | cons name names ih =>
    rw [collect] at h
    split at h
    · rcases ih h with h | ⟨h2, hs, n, hn, he⟩
      · split at h
        · rename_i hfd
          rcases List.mem_append.1 h with h | h
          · exact .inl h
          · obtain rfl := List.mem_singleton.1 h
            exact .inr ⟨hfd.1, hfd.2, name, List.mem_cons_self, rfl⟩
        · exact .inl h
      · exact .inr ⟨h2, hs, n, List.mem_cons_of_mem _ hn, he⟩
    · exact .inl h

/-- There is more behind 1024 descriptors only. -/
theorem collect_more {self : Nat} {names : List CStr} {fds : List Nat}
    (h : (collect self names fds).2 = true) : 1024 ≤ (collect self names fds).1.length := by
  induction names generalizing fds with
  | nil => cases h
  | cons name names ih =>
    rw [collect] at h ⊢
    split at h
    · rename_i hlt
      rw [if_pos hlt]
      exact ih h
    · rename_i hge
      rw [if_neg hge]
      exact Nat.le_of_not_lt hge

/-- With no more, all of the names were read. -/
theorem collect_all {self fd : Nat} {names : List CStr} {fds : List Nat}
    (h : (collect self names fds).2 = false)
    (hfd : fd ∈ fds ∨ fd > 2 ∧ fd ≠ self ∧ ∃ n ∈ names, atoi n = fd) :
    fd ∈ (collect self names fds).1 := by
  induction names generalizing fds with
  | nil => exact hfd.resolve_right (by simp)
  | cons name names ih =>
    rw [collect] at h ⊢
    split at h
    · rename_i hlt
      rw [if_pos hlt]
      apply ih h
      rcases hfd with hfd | ⟨h2, hs, n, hn, he⟩
      · left
        split
        · exact List.mem_append_left _ hfd
        · exact hfd
      · rcases List.mem_cons.1 hn with rfl | hn
        · left
          rw [he, if_pos ⟨h2, hs⟩]
          exact List.mem_append_right _ (List.mem_singleton_self fd)
        · exact .inr ⟨h2, hs, n, hn, he⟩
    · cases h

section
variable {F : Type} (K : FdHost F)

/-- A descriptor above the standard ones among the names is open. -/
theorem FdHost.named_iff (t : Fds F) {fd : Nat} (h2 : fd > 2) :
    (∃ n ∈ K.names t, atoi n = fd) ↔ t.isOpen fd = true := by
  constructor
  · rintro ⟨n, hn, rfl⟩
    rw [K.mem_names, ← or_assoc] at hn
    rcases hn with hn | ⟨x, hx, rfl⟩
    · rw [atoi_dots hn] at h2
      cases h2
    · rwa [atoi_text]
  · intro h
    exact ⟨Decimal.text fd, (K.mem_names t _).2 (.inr (.inr ⟨fd, h, rfl⟩)), atoi_text fd⟩

theorem closeStep_decreases {self : Nat} {t t' : Fds F} (h : closeStep K self t = .inl t') :
    t'.count < t.count := by
  unfold closeStep at h
  dsimp only at h
  split at h
  · rename_i hmore
    cases h
    have hlen := collect_more hmore
    obtain ⟨fd, hfd⟩ := List.exists_mem_of_length_pos (Nat.lt_of_lt_of_le (by decide) hlen)
    rcases mem_collect hfd with hfd' | ⟨h2, -, hn⟩
    · cases hfd'
    · exact Fds.count_closeAll hfd ((K.named_iff t h2).1 hn)
  · cases h

/-- The `do` loop of `close_inherited_fds`. -/
def closeLoop (self : Nat) : Loop (Fds F) (Fds F) where
  step := closeStep K self
  measure := Fds.count
  decreases := closeStep_decreases K

/-- `close_inherited_fds` -/
def closeInheritedFds (t : Fds F) : Fds F :=
  if K.opens then
    let self := t.lowest
    ((closeLoop K self).run (t.set self K.dir)).close self
  else
    let max := if K.openMax < 0 ∨ K.openMax > 65536 then 65536 else K.openMax.toNat
    t.closeAll (List.range' 3 (max - 3))

/-! ## The supervisor -/

/-- `emuroot_spawn_opts_t`, as far as descriptors go. -/
structure SpawnOpts where
  stdinFd : Int
  stdoutFd : Int
  stderrFd : Int

/-- `if (fd >= 0 && dup2(fd, std) < 0) _exit(127)` -/
def giveStd (fd : Int) (std : Nat) (t : Fds F) : Option (Fds F) :=
  if fd ≥ 0 then t.dup2 fd.toNat std else some t

/-- The descriptors with which `emuroot_spawn`'s supervisor calls `emuroot_run`; none if it exits
before. -/
def spawnFds (opts : Option SpawnOpts) (t : Fds F) : Option (Fds F) :=
  let o := opts.getD ⟨-1, -1, -1⟩
  (giveStd o.stdinFd 0 t).bind fun t =>
    (giveStd o.stdoutFd 1 t).bind fun t =>
      (giveStd o.stderrFd 2 t).map (closeInheritedFds K)

end

end Emuroot
