import Emuroot.Proof.Disk

/-!
# The permissions that a call needs

`Demanded`: what the kernel asks for when it runs a call on the paths handed to it. `checks_pass_iff`:
after the entry all of it is there exactly if what was missing before is what the entry gives, the
bits of one object for each argument.
-/

namespace Emuroot

open Resolver (Reaches Resolves Reading)

variable {w : Nat} {σ : Type} {P : Platform w σ} {s u : St w σ} {d : PathSyscall} {fs : σ}
  {cs : List CStr} {a : Perm}

def O_PATH : Nat := 0o10000000

/-- What an existing file is opened for, `ACC_MODE` of the kernel. -/
def accMode (flags : Nat) : List Perm :=
  if flags &&& O_PATH ≠ 0 then []
  else
    (if flags &&& O_ACCMODE = O_WRONLY then [] else [.read]) ++
      if flags &&& O_ACCMODE ≠ 0 ∨ flags &&& O_TRUNC ≠ 0 then [.write] else []

/-- What `open` asks for where its path leads. -/
def openAsks (flags : Nat) (isThere : Bool) (place : List CStr) : List (List CStr × Perm) :=
  if isThere then
    if flags &&& (O_CREAT ||| O_EXCL) = O_CREAT ||| O_EXCL then [] -- EEXIST
    else (accMode flags).map fun a => (place, a)
  else if flags &&& O_CREAT ≠ 0 ∧ flags &&& O_PATH = 0 then [(place.dropLast, .write)]
  else []

/-- What a call asks for where one of its paths leads: to write the directory for a creation or a
removal, to read or write a file that is opened. -/
def asks (P : Platform w σ) (u : St w σ) (n : Int) (which : Nat) (isThere : Bool)
    (place : List CStr) : List (List CStr × Perm) :=
  let is (l : List Sys) : Bool := l.any (P.nr.is · n)
  if which = 0 then
    if is [.open] then openAsks (u.arg P 2).toNat isThere place
    else if is [.openat] then openAsks (u.arg P 3).toNat isThere place
    else if is [.creat] then openAsks (O_CREAT ||| O_WRONLY ||| O_TRUNC) isThere place
    else if is [.truncate, .truncate64] then [(place, .write)]
    else if is [.mkdir, .mkdirat, .mknod, .mknodat, .symlink, .symlinkat, .unlink, .unlinkat,
        .rmdir, .rename, .renameat, .renameat2] then [(place.dropLast, .write)]
    else []
  else if is [.rename, .renameat, .renameat2, .link, .linkat] then [(place.dropLast, .write)]
  else []

def RENAME_NOREPLACE : Nat := 1
def RENAME_EXCHANGE : Nat := 2

/-- What a rename asks for besides: a directory that comes to lie in another one is written for its
`..`, and so is the one it changes places with. `kind` tells what there is, `true` for a
directory. -/
def moveAsks (P : Platform w σ) (u : St w σ) (n : Int) (kind : List CStr → Option (CStr ⊕ Bool))
    (old new : List CStr) : List (List CStr × Perm) :=
  let flags := if P.nr.is .renameat2 n then (u.arg P 5).toNat else 0
  let swap := flags &&& RENAME_EXCHANGE ≠ 0
  let isDirAt (cs : List CStr) : Bool := kind cs = some (.inr true)
  if ¬(P.nr.is .rename n ∨ P.nr.is .renameat n ∨ P.nr.is .renameat2 n) then []
  else if old.dropLast = new.dropLast ∨ old <+: new ∨ new <+: old then [] -- EINVAL, ENOTEMPTY
  else if swap then
    if (kind new).isNone then [] -- ENOENT
    else ([old, new].filter isDirAt).map fun cs => (cs, .write)
  else if (kind new).isSome ∧ (flags &&& RENAME_NOREPLACE ≠ 0 ∨ isDirAt new = false) then
    [] -- EEXIST, ENOTDIR
  else if isDirAt old then [(old, .write)]
  else []

/-- The kernel asks for this permission on what lies there. -/
inductive Demanded (V : Places σ) (P : Platform w σ) (s : St w σ) (d : PathSyscall) (fs : σ) :
    List CStr → Perm → Prop
  | search {u : St w σ} {slot which : Nat} {follow : Bool} {r e : Reading Byte} {c : CStr}
    (turn : PathTurn P s d u slot follow which)
    (lookup : handed V P (s.sysno P) u slot follow = some r)
    (way : Reaches (V.space fs follow) r e) (item : e.items.head? = some c) (name : c ≠ []) :
    Demanded V P s d fs e.dir .search
  | ask {u : St w σ} {slot which : Nat} {follow b : Bool} {r : Reading Byte}
    {place cs : List CStr} {a : Perm} (turn : PathTurn P s d u slot follow which)
    (lookup : handed V P (s.sysno P) u slot follow = some r)
    (leads : Resolves (V.space fs follow) r (place, b))
    (asked : (cs, a) ∈ asks P u (s.sysno P) which (V.kind fs place).isSome place) :
    Demanded V P s d fs cs a
  | move {u u' : St w σ} {slot slot' : Nat} {follow follow' b b' : Bool} {r r' : Reading Byte}
    {old new cs : List CStr} {a : Perm} (turn : PathTurn P s d u slot follow 0)
    (lookup : handed V P (s.sysno P) u slot follow = some r)
    (leads : Resolves (V.space fs follow) r (old, b))
    (turn' : PathTurn P s d u' slot' follow' 1)
    (lookup' : handed V P (s.sysno P) u' slot' follow' = some r')
    (leads' : Resolves (V.space fs follow') r' (new, b'))
    (asked : (cs, a) ∈ moveAsks P u (s.sysno P) (V.kind fs) old new) :
    Demanded V P s d fs cs a

namespace Places

variable (V : Places σ)

/-- There is an object whose permission is looked at; only directories are searched. -/
def Bears (fs : σ) (cs : List CStr) (a : Perm) : Prop :=
  ∃ b, V.kind fs cs = some (.inr b) ∧ (a = .search → b = true)

/-- Nothing there refuses it. -/
def Permits (fs : σ) (cs : List CStr) (a : Perm) : Prop := V.Bears fs cs a → V.Has fs cs a

end Places

/-- The kernel's checks pass. -/
def ChecksPass (V : Places σ) (P : Platform w σ) (s : St w σ) (d : PathSyscall) (fs : σ) : Prop :=
  ∀ cs a, Demanded V P s d fs cs a → V.Permits fs cs a

variable (H : DacHost P)

theorem demanded_congr {V : Places σ} {fs' : σ} (h : V.kind fs' = V.kind fs) :
    Demanded V P s d fs' cs a ↔ Demanded V P s d fs cs a := by
  have hspace : ∀ follow, V.space fs' follow = V.space fs follow := by
    intro follow
    unfold Places.space Places.link
    rw [h]
  constructor
  · rintro (⟨turn, lookup, way, item, name⟩ | ⟨turn, lookup, leads, asked⟩ |
      ⟨turn, lookup, leads, turn', lookup', leads', asked⟩)
    · exact .search turn lookup (hspace _ ▸ way) item name
    · exact .ask turn lookup (hspace _ ▸ leads) (h ▸ asked)
    · exact .move turn lookup (hspace _ ▸ leads) turn' lookup' (hspace _ ▸ leads') (h ▸ asked)
  · rintro (⟨turn, lookup, way, item, name⟩ | ⟨turn, lookup, leads, asked⟩ |
      ⟨turn, lookup, leads, turn', lookup', leads', asked⟩)
    · exact .search turn lookup (hspace _ ▸ way) item name
    · exact .ask turn lookup (hspace _ ▸ leads) (h ▸ asked)
    · exact .move turn lookup (hspace _ ▸ leads) turn' lookup' (hspace _ ▸ leads') (h ▸ asked)

theorem permits_onEntry (hd : findPathSyscall P.nr (s.sysno P) = some d) :
    H.Permits (onEntry P s).fs cs a ↔ H.Permits s.fs cs a ∨ Given H s d cs a := by
  have hbears : H.Bears (onEntry P s).fs cs a ↔ H.Bears s.fs cs a := by
    unfold Places.Bears
    rw [kind_onEntry H hd]
  unfold Places.Permits
  rw [hbears, has_onEntry H hd]
  constructor
  · intro h
    by_cases hb : H.Bears s.fs cs a
    · exact (h hb).imp_left fun hs _ => hs
    · exact .inl fun hb' => absurd hb' hb
  · exact fun h hb => h.imp_left fun hs => hs hb

/-- **The checks pass after the entry** exactly if all that was missing before is given. -/
theorem checks_pass_iff (hd : findPathSyscall P.nr (s.sysno P) = some d) :
    ChecksPass H.toPlaces P s d (onEntry P s).fs ↔
      ∀ cs a, Demanded H.toPlaces P s d s.fs cs a →
        H.Permits s.fs cs a ∨ Given H s d cs a := by
  unfold ChecksPass
  apply forall_congr'
  intro cs
  apply forall_congr'
  intro a
  rw [demanded_congr (kind_onEntry H hd), permits_onEntry H hd]

/-! ## A directory above the parent -/

/-- The rootfs `/r` with `/r/a/b`, where `/r/a` and `/r/a/b` have these modes. -/
def nestedDisk (a b : Nat) : Disk :=
  [([], ownDir 1 0o755), ([cstr "r"], ownDir 2 0o755), ([cstr "r", cstr "a"], ownDir 3 a),
    ([cstr "r", cstr "a", cstr "b"], ownDir 4 b)]

/-- `open("/a/b/f", O_WRONLY | O_CREAT)` -/
def nestedOpen (a b : Nat) : St 64 Disk := diskOpen (nestedDisk a b) "/a/b/f" 0o101

/-- `/r/a` cannot be searched, and stays so. -/
theorem ancestor_stays_closed :
    (∀ x ∈ nestedDisk 0o600 0o700, ∃ st, x.2 = .other st ∧ st.uid = diskPlatform.geteuid) ∧
    (onEntry diskPlatform (nestedOpen 0o600 0o700)).fs = nestedDisk 0o600 0o700 ∧
    ¬ChecksPass diskHost.toPlaces diskPlatform (nestedOpen 0o600 0o700) openEntry
      (onEntry diskPlatform (nestedOpen 0o600 0o700)).fs := by
  have hfs : (onEntry diskPlatform (nestedOpen 0o600 0o700)).fs = nestedDisk 0o600 0o700 := by
    decide +kernel
  refine ⟨?_, hfs, fun h => ?_⟩
  · intro x hx
    simp only [nestedDisk, List.mem_cons, List.not_mem_nil, or_false] at hx
    rcases hx with rfl | rfl | rfl | rfl <;> exact ⟨_, rfl, rfl⟩
  · rw [hfs] at h
    have hem : (emulateEntry diskPlatform (resetCall diskPlatform (nestedOpen 0o600 0o700))
        ((nestedOpen 0o600 0o700).sysno diskPlatform)).2 = false := by decide +kernel
    have hf : followLast diskPlatform (noted diskPlatform (nestedOpen 0o600 0o700) openEntry)
        openEntry = true := by decide +kernel
    have hturn : PathTurn diskPlatform (nestedOpen 0o600 0o700) openEntry
        (noted diskPlatform (nestedOpen 0o600 0o700) openEntry) 1 true 0 := hf ▸ PathTurn.first hem
    have hlook : handed diskHost.toPlaces diskPlatform
        ((nestedOpen 0o600 0o700).sysno diskPlatform)
        (noted diskPlatform (nestedOpen 0o600 0o700) openEntry) 1 true =
        some (lookupOf [] (cstr "/r/a/b/f")) := by decide +kernel
    have hway : Reaches (diskHost.space (nestedDisk 0o600 0o700) true)
        (lookupOf [] (cstr "/r/a/b/f")) ⟨[cstr "r", cstr "a"], [cstr "b", cstr "f"], 0, false⟩ :=
      Steps.reaches_of_after (n := 3) (by decide +kernel)
    have hhas : (Disk.places 1000).Has (nestedDisk 0o600 0o700) [cstr "r", cstr "a"] .search :=
      h _ _ (.search hturn hlook hway rfl (by decide : cstr "b" ≠ []))
        ⟨true, by decide +kernel, fun _ => rfl⟩
    exact absurd (has_iff.2 hhas) (by decide +kernel)

/-- The parent `/r/a/b` is made writable. -/
theorem parent_made_writable :
    (onEntry diskPlatform (nestedOpen 0o700 0o500)).fs = nestedDisk 0o700 0o700 ∧
    ChecksPass diskHost.toPlaces diskPlatform (nestedOpen 0o700 0o500) openEntry
      (onEntry diskPlatform (nestedOpen 0o700 0o500)).fs ∧
    ∀ cs a, Demanded diskHost.toPlaces diskPlatform (nestedOpen 0o700 0o500) openEntry
        (nestedDisk 0o700 0o500) cs a →
      diskHost.Permits (nestedDisk 0o700 0o500) cs a ∨
        Given diskHost (nestedOpen 0o700 0o500) openEntry cs a := by
  have hd : findPathSyscall diskPlatform.nr ((nestedOpen 0o700 0o500).sysno diskPlatform) =
      some openEntry := by decide +kernel
  have hfs : (onEntry diskPlatform (nestedOpen 0o700 0o500)).fs = nestedDisk 0o700 0o700 := by
    decide +kernel
  have hf : followLast diskPlatform (noted diskPlatform (nestedOpen 0o700 0o500) openEntry)
      openEntry = true := by decide +kernel
  have hlook : handed diskHost.toPlaces diskPlatform
      ((nestedOpen 0o700 0o500).sysno diskPlatform)
      (noted diskPlatform (nestedOpen 0o700 0o500) openEntry) 1 true =
      some (lookupOf [] (cstr "/r/a/b/f")) := by decide +kernel
  have hone : ∀ {u slot follow which r},
      PathTurn diskPlatform (nestedOpen 0o700 0o500) openEntry u slot follow which →
      handed diskHost.toPlaces diskPlatform ((nestedOpen 0o700 0o500).sysno diskPlatform) u slot
        follow = some r →
      u = noted diskPlatform (nestedOpen 0o700 0o500) openEntry ∧ follow = true ∧ which = 0 ∧
        r = lookupOf [] (cstr "/r/a/b/f") := by
    intro u slot follow which r turn lookup
    obtain ⟨rfl, rfl, rfl, rfl⟩ := turn.only rfl lookup
    rw [hf] at lookup ⊢
    exact ⟨rfl, rfl, rfl, (Option.some.inj (hlook.symm.trans lookup)).symm⟩
  have hpass : ChecksPass diskHost.toPlaces diskPlatform (nestedOpen 0o700 0o500) openEntry
      (onEntry diskPlatform (nestedOpen 0o700 0o500)).fs := by
    rw [hfs]
    intro cs a hdem hbears
    apply has_iff.1
    cases hdem with
    | @search _ _ _ _ _ e _ turn lookup way item name =>
      obtain ⟨rfl, rfl, rfl, rfl⟩ := hone turn lookup
      have hall := Steps.of_always (n := 16) (p := fun e =>
        e.items.head?.all (· = []) || Disk.has 1000 (nestedDisk 0o700 0o700) e.dir .search)
        (by decide +kernel) way
      simpa [item, name] using hall
    | @ask _ _ _ _ b _ place _ _ turn lookup leads asked =>
      obtain ⟨rfl, rfl, rfl, rfl⟩ := hone turn lookup
      have hlead : Resolves (diskHost.space (nestedDisk 0o700 0o700) true)
          (lookupOf [] (cstr "/r/a/b/f")) ([cstr "r", cstr "a", cstr "b", cstr "f"], false) :=
        Steps.ends_of_lead (n := 16) (by decide +kernel)
      obtain rfl := congrArg Prod.fst (leads.unique hlead)
      have hasks : asks diskPlatform (noted diskPlatform (nestedOpen 0o700 0o500) openEntry)
          ((nestedOpen 0o700 0o500).sysno diskPlatform) 0
          (diskHost.kind (nestedDisk 0o700 0o700)
            [cstr "r", cstr "a", cstr "b", cstr "f"]).isSome
          [cstr "r", cstr "a", cstr "b", cstr "f"] =
          [([cstr "r", cstr "a", cstr "b"], .write)] := by decide +kernel
      rw [hasks, List.mem_singleton] at asked
      cases asked
      decide +kernel
    | move _ _ _ turn' lookup' _ _ => exact absurd (hone turn' lookup').2.2.1 (by decide)
  exact ⟨hfs, hpass, (checks_pass_iff diskHost hd).1 hpass⟩

end Emuroot
