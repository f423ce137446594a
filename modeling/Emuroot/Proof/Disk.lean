import Emuroot.Proof.Permissions

/-!
# A disk

A host that can be run: a list of places with what lies there. `diskHost`: its readlink, stat and
chmod are those of a host with permission bits.
-/

namespace Emuroot

open Resolver (look)

/-- The places and what lies there, for a user without other groups. -/
abbrev Disk := List (List CStr × Node)

namespace Disk

def rights (euid : UInt32) (st : Stat) : Nat :=
  (if st.uid = euid then st.mode >>> 6 else st.mode) &&& 7

def node (fs : Disk) (cs : List CStr) : Option Node := fs.lookup cs

def places (euid : UInt32) : Places Disk where
  node := node
  rights := rights euid
  cwd := []
  base := fun _ _ => []

def has (euid : UInt32) (fs : Disk) (cs : List CStr) (a : Perm) : Bool :=
  match node fs cs with
  | some (.other st) => (rights euid st).testBit a.bit
  | _ => false

def searchable (euid : UInt32) (fs : Disk) (cs : List CStr) : Bool :=
  (places euid).kind fs cs = some (.inr true) && has euid fs cs .search

/-- The lookup of a path. -/
def find (euid : UInt32) (fs : Disk) (follow : Bool) (path : CStr) : Option (List CStr × Bool) :=
  if path = [] then none
  else look ((places euid).space fs follow) (searchable euid fs) MAXSYMLINKS (lookupOf [] path)

def readlink (euid : UInt32) (fs : Disk) (path : CStr) : Option CStr :=
  (find euid fs false path).bind fun goal => (places euid).link fs goal.1

def stat (euid : UInt32) (fs : Disk) (path : CStr) : Option Stat :=
  (find euid fs true path).bind fun goal =>
    match node fs goal.1 with
    | some (.other st) => if goal.2 && !isDir st.mode then none else some st
    | _ => none

/-- The mode of an object is changed, but for its type. -/
def setMode (st : Stat) (mode : Nat) (x : Node) : Node :=
  if x = .other st then .other { st with mode := st.mode &&& S_IFMT ||| mode &&& 0o7777 } else x

def chmod (euid : UInt32) (fs : Disk) (path : CStr) (mode : Nat) : Disk :=
  match stat euid fs path with
  | none => fs
  | some st => if st.uid = euid then fs.map fun e => (e.1, setMode st mode e.2) else fs

end Disk

/-- The engine on a disk. -/
def diskPlatform : Platform 64 Disk :=
  { linuxPlatform with
    readlink := Disk.readlink 1000
    stat := Disk.stat 1000
    lstat := fun _ _ => none
    realpath := fun _ _ => none
    content := fun _ _ => none
    chmod := Disk.chmod 1000
    calloc := fun _ _ => true }

/-- `open` of a path with some flags by the fake root in `/r`. -/
def diskOpen (fs : Disk) (path : String) (flags : Nat) : St 64 Disk :=
  { linuxCall { Ctx.create with hasFakeIds := true } (cstr "/r") 2 [8192, flags] [(8192, cstr path)] with
    fs := fs }

def openEntry : PathSyscall := ⟨.open, 1, 0, .open, 2⟩

/-- A directory and a file of the engine's user. -/
def ownDir (ino : UInt64) (mode : Nat) : Node := .other ⟨1, ino, 1000, 1000, S_IFDIR ||| mode⟩
def ownFile (ino : UInt64) (mode : Nat) : Node := .other ⟨1, ino, 1000, 1000, 0o100000 ||| mode⟩

variable {euid : UInt32} {fs : Disk} {cs : List CStr} {path : CStr} {follow : Bool}

theorem has_iff {a : Perm} : Disk.has euid fs cs a = true ↔ (Disk.places euid).Has fs cs a := by
  have hnode : (Disk.places euid).node fs cs = Disk.node fs cs := rfl
  unfold Disk.has Places.Has
  rw [hnode]
  split
  · rename_i st h
    simp [h, Disk.places]
  · rename_i h
    exact iff_of_false (by simp) fun ⟨st, hst, _⟩ => h st hst

theorem searchable_iff : Disk.searchable euid fs cs = true ↔ (Disk.places euid).Searchable fs cs := by
  rw [Disk.searchable, Bool.and_eq_true, decide_eq_true_iff, has_iff]
  rfl

/-- Lookups on a disk are those of a host with permission bits. -/
theorem find_iff {goal : List CStr × Bool} :
    Disk.find euid fs follow path = some goal ↔ path ≠ [] ∧
      Resolver.Finds ((Disk.places euid).space fs follow) ((Disk.places euid).Searchable fs)
        MAXSYMLINKS (lookupOf [] path) goal := by
  have hmay : (fun cs => Disk.searchable euid fs cs = true) = (Disk.places euid).Searchable fs :=
    funext fun cs => propext searchable_iff
  unfold Disk.find
  by_cases hp : path = []
  · simp [hp]
  · rw [if_neg hp, Resolver.look_iff, hmay, and_iff_right hp]
    rfl

theorem lookup_map {α β : Type} [BEq α] (f : β → β) (l : List (α × β)) (a : α) :
    (l.map fun e => (e.1, f e.2)).lookup a = (l.lookup a).map f := by
  induction l with
  | nil => rfl
  | cons e l ih =>
    rw [List.map_cons, List.lookup_cons, List.lookup_cons]
    cases a == e.1 with
    | true => rfl
    | false => exact ih

/-- On a disk without links there is none. -/
theorem link_eq_none (h : ∀ e ∈ fs, ∃ st, e.2 = .other st) (cs : List CStr) :
    (Disk.places euid).link fs cs = none := by
  have hnode : (Disk.places euid).node fs cs = List.lookup cs fs := rfl
  unfold Places.link Places.kind
  rw [hnode]
  cases hx : List.lookup cs fs with
  | none => rfl
  | some x =>
    obtain ⟨l1, l2, rfl, -⟩ := List.lookup_eq_some_iff.1 hx
    obtain ⟨st, rfl⟩ := h (cs, x) (by simp)
    rfl

theorem stat_iff {st : Stat} :
    Disk.stat euid fs path = some st ↔ (Disk.places euid).Names fs path st := by
  unfold Disk.stat
  rw [Option.bind_eq_some_iff]
  constructor
  · rintro ⟨⟨cs, b⟩, hfind, h⟩
    obtain ⟨hne, hfinds⟩ := find_iff.1 hfind
    dsimp only at h
    split at h
    · rename_i st' hst
      split at h
      · cases h
      · rename_i hb
        cases h
        refine ⟨hne, cs, b, hst, fun hb' => ?_, hfinds⟩
        simpa [hb'] using hb
    · cases h
  · rintro ⟨hne, cs, b, hst, hb, hfinds⟩
    refine ⟨(cs, b), find_iff.2 ⟨hne, hfinds⟩, ?_⟩
    have hst' : Disk.node fs cs = some (.other st) := hst
    rw [hst']
    dsimp only
    cases b with
    | false => rfl
    | true => simp [hb rfl]

/-- A mode with new permission bits is of the same type. -/
theorem newMode (m mode : Nat) :
    isDir (m &&& S_IFMT ||| mode &&& 0o7777) = isDir m ∧
      (m &&& S_IFMT ||| mode &&& 0o7777) &&& 0o777 = mode &&& 0o777 := by
  constructor
  · rw [isDir, isDir, Nat.and_or_distrib_right, Nat.and_assoc, Nat.and_assoc]
    simp [S_IFMT]
  · rw [Nat.and_or_distrib_right, Nat.and_assoc, Nat.and_assoc]
    simp [S_IFMT]

/-- The engine's host is one with permission bits. -/
def diskHost : DacHost diskPlatform where
  toPlaces := Disk.places 1000
  rights_own := by
    intro _ st h
    exact congrArg (· &&& 7) (if_pos h)
  stat_iff := fun _ _ _ => stat_iff
  readlink_iff := by
    intro fs path text
    show Disk.readlink 1000 fs path = some text ↔ _
    unfold Disk.readlink
    rw [Option.bind_eq_some_iff]
    constructor
    · rintro ⟨⟨cs, b⟩, hfind, h⟩
      obtain ⟨hne, hfinds⟩ := find_iff.1 hfind
      exact ⟨hne, cs, b, h, hfinds⟩
    · rintro ⟨hne, cs, b, h, hfinds⟩
      exact ⟨(cs, b), find_iff.2 ⟨hne, hfinds⟩, h⟩
  chmod_own := by
    intro _ fs path mode st hn ho
    have hchmod : diskPlatform.chmod fs path mode =
        fs.map fun e => (e.1, Disk.setMode st mode e.2) := by
      show Disk.chmod 1000 fs path mode = _
      rw [Disk.chmod, stat_iff.2 hn]
      exact if_pos ho
    refine ⟨_, (newMode st.mode mode).1, (newMode st.mode mode).2, fun cs => ?_⟩
    show Disk.node (diskPlatform.chmod fs path mode) cs =
      if Disk.node fs cs = some (.other st) then _ else Disk.node fs cs
    rw [hchmod, Disk.node, lookup_map]
    show (Disk.node fs cs).map (Disk.setMode st mode) = _
    cases Disk.node fs cs with
    | none => rfl
    | some x =>
      rw [Option.map_some, Disk.setMode]
      by_cases hx : x = .other st
      · rw [if_pos hx, if_pos (congrArg some hx)]
      · rw [if_neg hx, if_neg fun h => hx (Option.some.inj h)]

end Emuroot
