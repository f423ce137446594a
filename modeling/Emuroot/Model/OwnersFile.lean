import Emuroot.Lib.Decimal
import Emuroot.Model.CString
import Emuroot.Model.Ownership

/-!
# The saved ownership table (`ownership.c`)

One line `"%llu %llu %u %u\n"` for each entry, in the order of the slots, and `fscanf` of the same
four fields. A file is its bytes, or `none` where it cannot be opened for reading.
-/

namespace Emuroot

/-! ## `emuroot_owners_save` -/

/-- `"%llu %llu %u %u\n"` -/
def ownerLine (e : FileKey × Owner) : CStr :=
  Decimal.text e.1.dev.toNat ++ 32 :: (Decimal.text e.1.ino.toNat ++ 32 ::
    (Decimal.text e.2.uid.toNat ++ 32 :: (Decimal.text e.2.gid.toNat ++ [10])))

/-- The entries, in the order of the slots. -/
def OwnerDb.entries (db : OwnerDb) : List (FileKey × Owner) := (List.range db.cap).filterMap db.slots

/-- `emuroot_owners_save`: what the file holds afterwards. -/
def ownersSave (writable : Bool) (owners : Option OwnerDb) (file : Option CStr) : Option CStr :=
  match owners with
  | none => file
  | some db => if writable then some (db.entries.flatMap ownerLine) else file

/-! ## `emuroot_owners_load` -/

/-- `isspace` -/
def isSpace (c : Byte) : Bool := c = 32 || 9 ≤ c && c ≤ 13

/-- The value of `strtoull`, which saturates. -/
def strtoull (neg : Bool) (ds : CStr) : UInt64 :=
  let n := Decimal.value ds
  if 2 ^ 64 ≤ n then UInt64.ofNat (2 ^ 64 - 1) else if neg then -UInt64.ofNat n else UInt64.ofNat n

/-- The sign of a number, and what follows it. -/
def scanSign (s : CStr) : Bool × CStr :=
  match s with
  | [] => (false, [])
  | c :: rest => if c = 45 then (true, rest) else if c = 43 then (false, rest) else (false, c :: rest)

/-- A conversion `%llu` of `fscanf`: white space, a sign, and all the digits that follow. -/
def scanUnsigned (s : CStr) : Option (UInt64 × CStr) :=
  let (neg, s) := scanSign (s.dropWhile isSpace)
  let ds := s.takeWhile Decimal.isDigit
  if ds = [] then none else some (strtoull neg ds, s.dropWhile Decimal.isDigit)

/-- `fscanf(f, "%llu %llu %u %u", ...)` when it returns 4; `%u` is cut to 32 bits. -/
def scanOwner (s : CStr) : Option ((FileKey × Owner) × CStr) := do
  let (dev, s) ← scanUnsigned s
  let (ino, s) ← scanUnsigned (s.dropWhile isSpace)
  let (uid, s) ← scanUnsigned (s.dropWhile isSpace)
  let (gid, s) ← scanUnsigned (s.dropWhile isSpace)
  some ((⟨dev, ino⟩, ⟨uid.toUInt32, gid.toUInt32⟩), s)

theorem length_scanSign (s : CStr) : (scanSign s).2.length ≤ s.length := by
  unfold scanSign
  split
  · exact Nat.le_refl _
  · split
    · exact Nat.le_succ _
    · split
      · exact Nat.le_succ _
      · exact Nat.le_refl _

theorem scanUnsigned_length {s rest : CStr} {v : UInt64} (h : scanUnsigned s = some (v, rest)) :
    rest.length < s.length := by
  unfold scanUnsigned at h
  split at h
  rename_i neg s' hs
  simp only at h
  split at h
  · cases h
  · rename_i hds
    cases h
    have hsign : s'.length ≤ s.length := by
      have h1 := length_scanSign (s.dropWhile isSpace)
      have h2 := (List.dropWhile_sublist (l := s) isSpace).length_le
      rw [hs] at h1
      exact h1.trans h2
    have happ := congrArg List.length (List.takeWhile_append_dropWhile (p := Decimal.isDigit) (l := s'))
    have hpos := List.length_pos_iff.2 hds
    rw [List.length_append] at happ
    omega

theorem scanOwner_length {s rest : CStr} {e : FileKey × Owner} (h : scanOwner s = some (e, rest)) :
    rest.length < s.length := by
  simp only [scanOwner, Option.bind_eq_bind, Option.bind_eq_some_iff, Option.some.injEq,
    Prod.mk.injEq, Prod.exists] at h
  obtain ⟨dev, s1, h1, ino, s2, h2, uid, s3, h3, gid, s4, h4, -, rfl⟩ := h
  have hd (t : CStr) : (t.dropWhile isSpace).length ≤ t.length :=
    (List.dropWhile_sublist isSpace).length_le
  have := scanUnsigned_length h1
  have := scanUnsigned_length h2
  have := scanUnsigned_length h3
  have := scanUnsigned_length h4
  have := hd s1
  have := hd s2
  have := hd s3
  omega

/-- The loop of `emuroot_owners_load`; `calloc n` are the allocations of its `n`th call. -/
def loadLoop (calloc : Nat → Nat → Bool) (n : Nat) (owners : Option OwnerDb) (s : CStr) :
    Option OwnerDb :=
  match h : scanOwner s with
  | none => owners
  | some (e, rest) => loadLoop calloc (n + 1) (ownerSet (calloc n) owners e.1 e.2) rest
termination_by s.length
decreasing_by exact scanOwner_length h

/-- `emuroot_owners_load` -/
def ownersLoad (calloc : Nat → Nat → Bool) (owners : Option OwnerDb) (file : Option CStr) :
    Option OwnerDb :=
  match file with
  | none => owners
  | some s => loadLoop calloc 0 owners s

end Emuroot
