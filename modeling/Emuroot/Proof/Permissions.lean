import Emuroot.Lib.Lookup
import Emuroot.Proof.Grants

/-!
# A host with permission bits

`Places`: what lies where on a host, and what the user of the tracer may do there. On a `DacHost`
readlink, stat and chmod look paths up there, and need search permission on each directory on the
way. `has_ensureDac` and `has_onEntry`: what the user may do after a grant, and after the entry of a
call.
-/

namespace Emuroot

open Resolver (Reading)

variable {w : Nat} {σ : Type} {P : Platform w σ} {s u : St w σ} {d : PathSyscall} {fs fs' : σ}
  {host path : CStr} {need : Dac} {slot which : Nat} {follow : Bool} {cs : List CStr}

/-- What lies at a place: a symlink, or something else with its attributes. -/
inductive Node
  | link (text : CStr)
  | other (st : Stat)
  deriving DecidableEq

/-- The permissions, and their bits of three. -/
inductive Perm
  | search | write | read
  deriving DecidableEq

def Perm.bit : Perm → Nat
  | .search => 0
  | .write => 1
  | .read => 2

/-- `MAXSYMLINKS` of the kernel -/
def MAXSYMLINKS : Nat := 40

/-- The places of a host, by their components from the real root on, and the three permission bits
that hold for the user of the tracer. `cwd` is where the tracer works, and `base` where a process
does, or where one of its descriptors is open. -/
structure Places (σ : Type) where
  node : σ → List CStr → Option Node
  rights : Stat → Nat
  cwd : List CStr
  base : Nat → Int → List CStr

/-- The lookup of a path that starts in this directory. -/
def lookupOf (dir : List CStr) (path : CStr) : Reading Byte :=
  ⟨if path.head? = some slash then [] else dir, path.splitOn slash, 0, false⟩

namespace Places

variable (V : Places σ)

/-- The text of a link, or whether it is a directory. -/
def kind (fs : σ) (cs : List CStr) : Option (CStr ⊕ Bool) :=
  (V.node fs cs).map fun
    | .link text => .inl text
    | .other st => .inr (isDir st.mode)

def link (fs : σ) (cs : List CStr) : Option CStr := (V.kind fs cs).bind Sum.getLeft?

def space (fs : σ) (follow : Bool) : Resolver.Space Byte where
  sep := slash
  here := dot
  up := dotdot
  link := V.link fs
  followLast := follow

/-- What lies there has the permission. -/
def Has (fs : σ) (cs : List CStr) (a : Perm) : Prop :=
  ∃ st, V.node fs cs = some (.other st) ∧ (V.rights st).testBit a.bit = true

def Searchable (fs : σ) (cs : List CStr) : Prop :=
  V.kind fs cs = some (.inr true) ∧ V.Has fs cs .search

/-- `stat` finds this at the path. -/
def Names (fs : σ) (path : CStr) (st : Stat) : Prop :=
  path ≠ [] ∧ ∃ cs b, V.node fs cs = some (.other st) ∧ (b = true → isDir st.mode = true) ∧
    Resolver.Finds (V.space fs true) (V.Searchable fs) MAXSYMLINKS (lookupOf V.cwd path) (cs, b)

/-- `readlink` finds this text at the path, where these directories may be searched. -/
def Reads (fs : σ) (may : List CStr → Prop) (path text : CStr) : Prop :=
  path ≠ [] ∧ ∃ cs b, V.link fs cs = some text ∧
    Resolver.Finds (V.space fs false) may MAXSYMLINKS (lookupOf V.cwd path) (cs, b)

end Places

/-- A host whose user finds and changes what the permission bits let it. -/
structure DacHost (P : Platform w σ) extends Places σ where
  rights_own : P.geteuid ≠ 0 → ∀ st : Stat, st.uid = P.geteuid → rights st = st.mode >>> 6 &&& 7
  stat_iff : ∀ fs path st, P.stat fs path = some st ↔ toPlaces.Names fs path st
  readlink_iff : ∀ fs path text, P.readlink fs path = some text ↔
    toPlaces.Reads fs (toPlaces.Searchable fs) path text
  /-- The mode of an object changes, wherever it lies. -/
  chmod_own : P.geteuid ≠ 0 → ∀ fs path mode st, toPlaces.Names fs path st → st.uid = P.geteuid →
    ∃ m, isDir m = isDir st.mode ∧ m &&& 0o777 = mode &&& 0o777 ∧ ∀ cs,
      node (P.chmod fs path mode) cs =
        if node fs cs = some (.other st) then some (.other { st with mode := m }) else node fs cs

variable (H : DacHost P) {a : Perm}

/-! ## One grant -/

/-- A grant gives the object at this place the permission. -/
inductive Gains (H : DacHost P) (fs : σ) (host : CStr) (need : Dac) (cs : List CStr) (a : Perm) : Prop
  | mk {path : CStr} {st : Stat} (user : P.geteuid ≠ 0) (target : dacPath host need = some path)
    (names : H.Names fs path st) (own : st.uid = P.geteuid)
    (here : H.node fs cs = some (.other st))
    (bit : (dacBits P fs host need).testBit (6 + a.bit) = true)

theorem DacHost.testBit_rights (hu : P.geteuid ≠ 0) (st : Stat) (ho : st.uid = P.geteuid) (a : Perm) :
    (H.rights st).testBit a.bit = st.mode.testBit (6 + a.bit) := by
  have hmask : (7).testBit a.bit = true := by cases a <;> rfl
  rw [H.rights_own hu st ho, Nat.testBit_and, Nat.testBit_shiftRight, hmask, Bool.and_true]

theorem testBit_perm {m m' : Nat} (h : m &&& 0o777 = m' &&& 0o777) (a : Perm) :
    m.testBit (6 + a.bit) = m'.testBit (6 + a.bit) := by
  have hbit := congrArg (Nat.testBit · (6 + a.bit)) h
  have hmask : (0o777).testBit (6 + a.bit) = true := by cases a <;> rfl
  rwa [Nat.testBit_and, Nat.testBit_and, hmask, Bool.and_true, Bool.and_true] at hbit

/-- Modes change, and what lies where does not. -/
theorem kind_chmod {mode : Nat} {st : Stat} (hu : P.geteuid ≠ 0) (hn : H.Names fs path st)
    (ho : st.uid = P.geteuid) : H.kind (P.chmod fs path mode) = H.kind fs := by
  obtain ⟨m, hdir, -, hnode⟩ := H.chmod_own hu fs path mode st hn ho
  funext cs
  unfold Places.kind
  rw [hnode]
  by_cases h : H.node fs cs = some (.other st)
  · rw [if_pos h, h]
    exact congrArg (fun b => some (Sum.inr b)) hdir
  · rw [if_neg h]

theorem kind_ensureDac : H.kind (ensureDac P fs host need) = H.kind fs := by
  rcases ensureDac_cases P fs host need with ⟨heq, -⟩ | ⟨path, st, hdue, hst, heq⟩
  · rw [heq]
  · obtain ⟨st', hst', ho, -⟩ := hdue.missing
    rw [hst] at hst'
    obtain rfl := Option.some.inj hst'
    rw [heq]
    exact kind_chmod H hdue.user ((H.stat_iff fs path st).1 hst) ho

/-- Bits added to the mode of an object. -/
theorem has_chmod {st : Stat} {bits : Nat} (hu : P.geteuid ≠ 0) (hn : H.Names fs path st)
    (ho : st.uid = P.geteuid) :
    H.Has (P.chmod fs path (st.mode ||| bits)) cs a ↔
      H.Has fs cs a ∨ H.node fs cs = some (.other st) ∧ bits.testBit (6 + a.bit) = true := by
  obtain ⟨m, -, hperm, hnode⟩ := H.chmod_own hu fs path (st.mode ||| bits) st hn ho
  unfold Places.Has
  rw [hnode]
  by_cases hcs : H.node fs cs = some (.other st)
  · have hafter : (H.rights { st with mode := m }).testBit a.bit =
        ((H.rights st).testBit a.bit || bits.testBit (6 + a.bit)) := by
      rw [H.testBit_rights hu { st with mode := m } ho, H.testBit_rights hu st ho,
        testBit_perm hperm, Nat.testBit_or]
    rw [if_pos hcs, hcs]
    constructor
    · rintro ⟨st', hst', hbit⟩
      obtain rfl := Node.other.inj (Option.some.inj hst')
      rw [hafter, Bool.or_eq_true] at hbit
      rcases hbit with hbit | hbit
      · exact .inl ⟨st, rfl, hbit⟩
      · exact .inr ⟨rfl, hbit⟩
    · intro h
      refine ⟨_, rfl, ?_⟩
      rw [hafter, Bool.or_eq_true]
      rcases h with ⟨st', hst', hbit⟩ | ⟨-, hbit⟩
      · obtain rfl := Node.other.inj (Option.some.inj hst')
        exact .inl hbit
      · exact .inr hbit
  · rw [if_neg hcs]
    exact ⟨.inl, fun h => h.elim id fun h => absurd h.1 hcs⟩

/-- **What may be done after a grant** is what could be done before, and what the grant gives. -/
theorem has_ensureDac :
    H.Has (ensureDac P fs host need) cs a ↔ H.Has fs cs a ∨ Gains H fs host need cs a := by
  rcases ensureDac_cases P fs host need with ⟨heq, hnone⟩ | ⟨path, st, hdue, hst, heq⟩
  · -- bits that are given without a change are there
    rw [heq]
    refine ⟨.inl, fun h => h.elim id ?_⟩
    rintro ⟨hu, htarget, hnames, hown, hhere, hbit⟩
    rename_i path st
    refine ⟨st, hhere, ?_⟩
    by_cases hm : st.mode &&& dacBits P fs host need = dacBits P fs host need
    · have hb := congrArg (Nat.testBit · (6 + a.bit)) hm
      rw [Nat.testBit_and, hbit, Bool.and_true] at hb
      rw [H.testBit_rights hu st hown, hb]
    · exact absurd ⟨hu, htarget, st, (H.stat_iff fs path st).2 hnames, hown, hm⟩ (hnone path)
  · obtain ⟨st', hst', hown, -⟩ := hdue.missing
    rw [hst] at hst'
    obtain rfl := Option.some.inj hst'
    have hnames := (H.stat_iff fs path st).1 hst
    rw [heq, has_chmod H hdue.user hnames hown]
    refine or_congr_right ⟨fun ⟨hcs, hbit⟩ => ⟨hdue.user, hdue.target, hnames, hown, hcs, hbit⟩, ?_⟩
    rintro ⟨-, htarget, hnames', -, hhere, hbit⟩
    rename_i path' st'
    obtain rfl : path' = path := Option.some.inj (htarget.symm.trans hdue.target)
    have heq := (H.stat_iff fs path' st').2 hnames'
    rw [hst] at heq
    obtain rfl := Option.some.inj heq
    exact ⟨hhere, hbit⟩

/-! ## The entry -/

theorem kind_rewrite (n : Int) :
    H.kind (rewritePathArg P u n slot follow which).fs = H.kind u.fs := by
  rw [rewritePathArg_fs]
  split
  · rfl
  · split
    · exact kind_ensureDac H
    · rfl

/-- The grant at an argument gives the object at this place the permission. -/
inductive GivenAt (H : DacHost P) (n : Int) (u : St w σ) (slot : Nat) (follow : Bool) (which : Nat)
    (cs : List CStr) (a : Perm) : Prop
  | mk {guest : CStr} (looked : argGuest P u n slot = some guest)
    (fakeRoot : u.ctx.hasFakeIds = true ∧ u.t.creds.uid.effective = 0)
    (gains : Gains H u.fs (translatePath (u.walkEnv P follow) guest pathLen).out
      (dacFor P u n which) cs a)

/-- One of the grants of an entry does. -/
def Given (H : DacHost P) (s : St w σ) (d : PathSyscall) (cs : List CStr) (a : Perm) : Prop :=
  ∃ u slot follow which, PathTurn P s d u slot follow which ∧
    GivenAt H (s.sysno P) u slot follow which cs a

theorem has_rewrite (n : Int) :
    H.Has (rewritePathArg P u n slot follow which).fs cs a ↔
      H.Has u.fs cs a ∨ GivenAt H n u slot follow which cs a := by
  rw [rewritePathArg_fs]
  cases hguest : argGuest P u n slot with
  | none =>
    refine ⟨.inl, fun h => h.elim id ?_⟩
    rintro ⟨hl, -, -⟩
    rw [hguest] at hl
    cases hl
  | some guest =>
    dsimp only
    split
    · rename_i hfake
      rw [has_ensureDac]
      refine or_congr_right ⟨fun h => ⟨hguest, hfake, h⟩, ?_⟩
      rintro ⟨hl, -, h⟩
      rw [hguest] at hl
      cases hl
      exact h
    · rename_i hfake
      refine ⟨.inl, fun h => h.elim id ?_⟩
      rintro ⟨-, hf, -⟩
      exact absurd hf hfake

theorem noted_fs (P : Platform w σ) (s : St w σ) (d : PathSyscall) : (noted P s d).fs = s.fs :=
  (noteCreation_fs ..).trans (emulateEntry_fs ..)

theorem PathTurn.kind (h : PathTurn P s d u slot follow which) : H.kind u.fs = H.kind s.fs := by
  cases h with
  | first => rw [noted_fs]
  | second => rw [kind_rewrite, noted_fs]

section
variable (hd : findPathSyscall P.nr (s.sysno P) = some d)
include hd

theorem kind_onEntry : H.kind (onEntry P s).fs = H.kind s.fs := by
  rw [onEntry_table hd]
  split
  · rw [emulateEntry_fs]
    rfl
  · rw [kind_rewrite, kind_rewrite, noted_fs]

/-- **What may be done after the entry of a call** is what could be done before, and what the grants
at its arguments give. -/
theorem has_onEntry : H.Has (onEntry P s).fs cs a ↔ H.Has s.fs cs a ∨ Given H s d cs a := by
  rw [onEntry_table hd]
  cases hem : (emulateEntry P (resetCall P s) (s.sysno P)).2 with
  | true =>
    rw [if_pos rfl, emulateEntry_fs]
    refine ⟨.inl, fun h => h.elim id ?_⟩
    rintro ⟨v, slot, follow, which, h | h, -⟩ <;> rw [hem] at h <;> cases h
  | false =>
    rw [if_neg (by simp), has_rewrite, has_rewrite, noted_fs, or_assoc]
    apply or_congr_right
    constructor
    · rintro (hg | hg)
      · exact ⟨_, _, _, _, .first hem, hg⟩
      · exact ⟨_, _, _, _, .second hem, hg⟩
    · rintro ⟨v, slot, follow, which, hturn, hg⟩
      cases hturn with
      | first => exact .inl hg
      | second => exact .inr hg

/-- The same from where an argument is looked up. -/
theorem PathTurn.has_onEntry (h : PathTurn P s d u slot follow which) :
    H.Has (onEntry P s).fs cs a ↔ H.Has u.fs cs a ∨ Given H s d cs a := by
  rw [Emuroot.has_onEntry H hd]
  cases h with
  | first => rw [noted_fs]
  | second hem =>
    rw [has_rewrite, noted_fs, or_assoc]
    refine or_congr_right ⟨.inr, fun h => h.elim (fun hg => ?_) id⟩
    exact ⟨_, _, _, _, .first hem, hg⟩

theorem PathTurn.searchable_onEntry (h : PathTurn P s d u slot follow which) :
    H.Searchable (onEntry P s).fs cs ↔
      H.Searchable u.fs cs ∨ H.kind u.fs cs = some (.inr true) ∧ Given H s d cs .search := by
  unfold Places.Searchable
  rw [h.has_onEntry H hd, kind_onEntry H hd, h.kind H, and_or_left]

end

/-! ## The handed path -/

/-- The kernel's lookup of an argument: of the host path that it was rewritten to, or of what the
guest gave. -/
def handed (V : Places σ) (P : Platform w σ) (n : Int) (u : St w σ) (slot : Nat) (follow : Bool) :
    Option (Reading Byte) :=
  if slot = 0 then none
  else
    (givenPath P u slot).map fun given =>
      let fdSlot := dirfdSlot P.nr n slot
      let fd := if fdSlot ≠ 0 then ((u.arg P fdSlot).setWidth 32).toInt else AT_FDCWD
      lookupOf (V.base u.t.pid fd) <|
        match argGuest P u n slot with
        | none => given
        | some guest =>
          let r := translatePath (u.walkEnv P follow) guest pathLen
          if r.differs then r.out else given

/-- A call with one path has one lookup. -/
theorem PathTurn.only {V : Places σ} {n : Int} {r : Reading Byte}
    (h : PathTurn P s d u slot follow which) (h0 : d.slot2 = 0)
    (hl : handed V P n u slot follow = some r) :
    u = noted P s d ∧ slot = d.slot1 ∧ follow = followLast P (noted P s d) d ∧ which = 0 := by
  cases h with
  | first => exact ⟨rfl, rfl, rfl, rfl⟩
  | second =>
    rw [handed, if_pos h0] at hl
    cases hl

end Emuroot
