import Emuroot.Proof.Lifetimes
import Emuroot.Proof.Recorded

/-!
# Files belong to who made them

`creation_owner`: a file that a process with ids of its own makes is recorded for these ids, and a
file that was there keeps its record, but for what openat2 and bind make and for what is made where
a last symlink leads: `creation_unrecorded`.
-/

namespace Emuroot

variable {w : Nat} {σ : Type}

/-- The table gives file `st` to the ids of the process if the file is new, and is else as
before. -/
def OwnedByMaker (s s' : St w σ) (before : Option Stat) (st : Stat) : Prop :=
  ∀ k, ownerLookup s'.ctx.owners k =
    if k = st.key ∧ before = none then some ⟨s.t.creds.fsuid, s.t.creds.fsgid⟩
    else ownerLookup s.ctx.owners k

/-- The process has other ids than the files are reported to have. -/
def HasOwnIds (s : St w σ) : Prop :=
  s.ctx.hasFakeIds = true ∧ ¬(s.t.creds.fsuid = s.ctx.fakeUid ∧ s.t.creds.fsgid = s.ctx.fakeGid)

/-- A call with a known path that succeeds, for which the kernel found `before` and then has file
`st`: the same lookup before and after the bits granted at the entry, the directory still there at
the exit, and no symlink made by a call that follows them. -/
structure Made {P : Platform w σ} {s : St w σ} (K : Lookups P s.t.pid) (kern : Kernel w σ) (y : Sys)
    (d : PathSyscall) (given host guest path : CStr) (before : Option Stat) (st : Stat) : Prop where
  known : Known P s y d given host guest
  creating : y ∈ creatingCalls
  creates : createsFile P s (s.sysno P) = true
  reads : Reads P (onEntry P s) d.slot1 path
  succeeds : 0 ≤ (kern.regs P.arch.ret).toInt
  found : K.find (onEntry P s).fs (s.base P y d) path (kernelFollows P s y) = before
  granted : before = none ↔ K.find s.fs (s.base P y d) path (kernelFollows P s y) = none
  made : K.find kern.fs (s.base P y d) path (kernelFollows P s y) = some st
  standing : Spells P s.ctx s.t.root s.t.pid kern.fs (s.base P y d) given host guest
  quiet : ∀ p, kernelFollows P s y = true → P.readlink s.fs p = none → P.readlink kern.fs p = none
  shared : ∀ fs, ¬K.own fs (s.hostOf P guest (kernelFollows P s y)) (kernelFollows P s y)

variable {P : Platform w σ} {s : St w σ} {kern : Kernel w σ} {y : Sys} {d : PathSyscall}
  {given host guest path : CStr} {before : Option Stat} {st : Stat}

/-! ## The table after the call -/

/-- Where nothing is recorded, the table is right for a file that was there. -/
theorem ownedByMaker_of_noRecord (ha : P.actionOf (s.sysno P) = none)
    (hrec : creationRecord P s kern = none)
    (hstale : before = none →
      ownerLookup s.ctx.owners st.key ≠ some ⟨s.t.creds.fsuid, s.t.creds.fsgid⟩) :
    OwnedByMaker s (afterCall P s kern) before st ↔ before ≠ none := by
  have hc := (afterCall_noAction kern ha).2
  rw [hrec] at hc
  unfold OwnedByMaker
  rw [hc]
  constructor
  · intro h hb
    have hk := h st.key
    rw [if_pos ⟨rfl, hb⟩] at hk
    exact hstale hb hk
  · intro hb k
    rw [if_neg fun h => hb h.2]

/-- A record for the new file is what the table has then. -/
theorem ownedByMaker_of_record (hcalloc : ∀ n, P.calloc kern.fs n = true)
    (ha : P.actionOf (s.sysno P) = none) (hb : before = none)
    (hrec : creationRecord P s kern = some (st.key, ⟨s.t.creds.fsuid, s.t.creds.fsgid⟩)) :
    OwnedByMaker s (afterCall P s kern) before st := by
  have hc := (afterCall_noAction kern ha).2
  rw [hrec] at hc
  intro k
  rw [hc]
  refine (ownerLookup_ownerSet hcalloc _ _ _ _).trans ?_
  simp only [hb, and_true]

/-! ## Calls that are not looked at -/

theorem unseen_noRecord (hy : y = .openat2 ∨ y = .bind) (hx : P.nr.is y (s.sysno P)) :
    P.actionOf (s.sysno P) = none ∧ creationRecord P s kern = none := by
  have htable : ∀ lp64, ∀ y, y = Sys.openat2 ∨ y = .bind → tableAction lp64 y = none := by
    rintro lp64 y (rfl | rfl) <;> revert lp64 <;> decide
  have hact : P.actionOf (s.sysno P) = none := (actionOf_of_is hx).trans (htable _ y hy)
  have hnot : createsFile P (resetCall P s) (s.sysno P) = false := by
    obtain rfl | rfl := hy <;> simp [createsFile, Numbers.is_eq hx]
  exact ⟨hact, noRecord hact hnot kern⟩

/-! ## Calls that are looked at -/

/-- What the engine finds at the entry under the path it notes: nothing, if and only if the kernel
is about to make a file and no symlink is there. -/
theorem lstat_created (K : Lookups P s.t.pid) (h : Known P s y d given host guest)
    (hr : Reads P (onEntry P s) d.slot1 path)
    (hown : ¬K.own s.fs (s.hostOf P guest (kernelFollows P s y)) (kernelFollows P s y)) :
    P.lstat s.fs (s.hostOf P guest false) = none ↔
      K.find s.fs (s.base P y d) path (kernelFollows P s y) = none ∧
        ¬(kernelFollows P s y = true ∧ (P.readlink s.fs (s.hostOf P guest false)).isSome) := by
  by_cases hlink : P.readlink s.fs (s.hostOf P guest false) = none
  · rw [look_created K h hr h.spells hlink (fun _ => hlink) hown, hlink]
    simp
  · have hsome : (P.readlink s.fs (s.hostOf P guest false)).isSome := Option.isSome_iff_ne_none.2 hlink
    have hl : P.lstat s.fs (s.hostOf P guest false) ≠ none := fun hl => hlink (K.noFile hl)
    refine ⟨fun hl' => (hl hl').elim, fun ⟨hf, hd⟩ => ?_⟩
    -- a symlink that is not followed is there itself
    have hfollow : kernelFollows P s y = false := by
      simpa [hsome] using hd
    rw [h.found K hr h.spells hown, hfollow] at hf
    exact hf

/-- A file made by a call that is looked at belongs to its maker, unless a last symlink led
there. -/
theorem creation_path (K : Lookups P s.t.pid) (hcalloc : ∀ n, P.calloc kern.fs n = true)
    (hids : HasOwnIds s) (h : Made K kern y d given host guest path before st)
    (hstale : before = none →
      ownerLookup s.ctx.owners st.key ≠ some ⟨s.t.creds.fsuid, s.t.creds.fsgid⟩) :
    OwnedByMaker s (afterCall P s kern) before st ↔
      (before = none →
        ¬(kernelFollows P s y = true ∧ (P.readlink s.fs (s.hostOf P guest false)).isSome)) := by
  have ha : P.actionOf (s.sysno P) = none := by
    have htable : ∀ lp64, ∀ y ∈ creatingCalls, tableAction lp64 y = none := by decide
    exact h.known.action.trans (htable _ y h.creating)
  have hlstat := lstat_created K h.known h.reads (h.shared s.fs)
  rw [← h.granted] at hlstat
  have hcreated := entry_created h.known
  by_cases hnew : P.lstat s.fs (s.hostOf P guest false) = none
  · obtain ⟨hb, hd⟩ := hlstat.1 hnew
    rw [if_pos ⟨hids.1, hids.2, h.creates, hnew⟩] at hcreated
    have hne : s.hostOf P guest false ≠ [] := fun h0 => by
      have habs := translate_absolute (E := s.walkEnv P false) h.known.proper.any
        h.known.guest_proper.1
      rw [show (translatePath (s.walkEnv P false) guest pathLen).out = [] from h0] at habs
      cases habs
    have hfound : P.lstat kern.fs (s.hostOf P guest false) = some st := by
      have hlink := K.noFile hnew
      rw [← look_created K h.known h.reads h.standing hlink (fun hf => h.quiet _ hf hlink)
        (h.shared kern.fs)]
      exact h.made
    have hrec : creationRecord P s kern = some (st.key, ⟨s.t.creds.fsuid, s.t.creds.fsgid⟩) := by
      rw [creationRecord, hcreated, if_neg (not_or.2 ⟨hne, not_lt.2 h.succeeds⟩), hfound]
      rfl
    exact iff_of_true (ownedByMaker_of_record hcalloc ha hb hrec) fun _ => hd
  · have hrec : creationRecord P s kern = none := by
      rw [if_neg fun h => hnew h.2.2.2] at hcreated
      exact if_pos (.inl hcreated)
    rw [ownedByMaker_of_noRecord ha hrec hstale]
    constructor
    · exact fun hb hb' => (hb hb').elim
    · exact fun hd hb => hnew (hlstat.2 ⟨hb, hd hb⟩)

/-- **A file belongs to who made it** if and only if the call is neither openat2 nor bind and
followed no last symlink to where it made the file; a file that was there keeps its record. -/
theorem creation_owner (K : Lookups P s.t.pid) (hcalloc : ∀ n, P.calloc kern.fs n = true)
    (hids : HasOwnIds s)
    (hstale : before = none →
      ownerLookup s.ctx.owners st.key ≠ some ⟨s.t.creds.fsuid, s.t.creds.fsgid⟩) :
    (∀ y d given host guest path, Made K kern y d given host guest path before st →
      (OwnedByMaker s (afterCall P s kern) before st ↔
        (before = none →
          ¬(kernelFollows P s y = true ∧ (P.readlink s.fs (s.hostOf P guest false)).isSome)))) ∧
    ∀ y, y = .openat2 ∨ y = .bind → P.nr.is y (s.sysno P) →
      (OwnedByMaker s (afterCall P s kern) before st ↔ before ≠ none) := by
  refine ⟨fun y d given host guest path h => creation_path K hcalloc hids h hstale,
    fun y hy hx => ?_⟩
  obtain ⟨ha, hrec⟩ : _ ∧ creationRecord P s kern = none := unseen_noRecord hy hx
  exact ownedByMaker_of_noRecord ha hrec hstale

/-! ## A file made through a dangling symlink, and one made by openat2 -/

/-- A host with a symlink from `/l` to `/t`, and with `/t` once it is made. -/
def linkHost : Platform 64 Bool :=
  let target (made : Bool) : Option Stat := if made then some ⟨8, 9, 1000, 1000, 0o100644⟩ else none
  { linuxPlatform with
    readlink := fun _ path => if path = cstr "/l" then some (cstr "t") else none
    stat := fun made path => if path = cstr "/l" ∨ path = cstr "/t" then target made else none
    lstat := fun made path =>
      if path = cstr "/l" then some ⟨8, 4, 1000, 1000, 0o120777⟩
      else if path = cstr "/t" then target made else none
    realpath := fun _ _ => none
    content := fun _ _ => none
    chmod := fun made _ _ => made
    calloc := fun _ _ => true }

def linkLookups : Lookups linkHost 7 :=
  .ofHost linkHost 7
    (fun {made path} h => by
      have hl : path ≠ cstr "/l" := fun hp => by
        subst hp
        exact absurd (show linkHost.readlink true (cstr "/l") = none from h) (by decide +kernel)
      simp [linkHost, hl])
    fun {made path} h => by
      have hl : path ≠ cstr "/l" := fun hp => by
        subst hp
        exact absurd (show linkHost.lstat made (cstr "/l") = none from h)
          (by cases made <;> decide +kernel)
      simp [linkHost, hl]

/-- A process of user 5 and group 6, with three paths and a `struct open_how` in its memory. -/
def userCall (nr : Nat) (args : List Nat) : St 64 Bool :=
  let s := linuxCall { Ctx.create with hasFakeIds := true } [] nr args
    [(8192, cstr "/l"), (12288, cstr "/t"), (16384, [0o100])]
  { s with t := { s.t with creds := credsInit 5 6 }, fs := false }

/-- The kernel has made `/t` and answers with descriptor 3. -/
def fileMade (s : St 64 Bool) : Kernel 64 Bool := ⟨s.regs.put 10 3, s.mem, true⟩

/-- `open("/l", O_CREAT)`, and `openat2(AT_FDCWD, "/t", {O_CREAT, 0, 0}, 24)` -/
def openLink : St 64 Bool := userCall 2 [8192, 0o100]
def openat2New : St 64 Bool := userCall 437 [0xffffff9c, 12288, 16384, 24]

/-- The two calls make `/t`, and it is not recorded for user 5. -/
theorem creation_unrecorded :
    linkLookups.find false AT_FDCWD (cstr "/l") true = none ∧
    linkLookups.find false AT_FDCWD (cstr "/t") true = none ∧
    linkLookups.find true AT_FDCWD (cstr "/l") true = some ⟨8, 9, 1000, 1000, 0o100644⟩ ∧
    linkLookups.find true AT_FDCWD (cstr "/t") true = some ⟨8, 9, 1000, 1000, 0o100644⟩ ∧
    ownerLookup (afterCall linkHost openLink (fileMade openLink)).ctx.owners ⟨8, 9⟩ = none ∧
    ownerLookup (afterCall linkHost openat2New (fileMade openat2New)).ctx.owners ⟨8, 9⟩ = none := by
  refine ⟨?_, ?_, ?_, ?_, ?_, ?_⟩ <;> decide +kernel

/-! ## A file made in the working directory -/

/-- A host on which the guest is in `/r/d`, and with `/r/d/t` once it is made. -/
def dirHost : Platform 64 Bool :=
  let look (made : Bool) (path : CStr) : Option Stat :=
    if path = cstr "/r/d" ∨ path = cstr "/proc/7/cwd" then some ⟨8, 2, 1000, 1000, 0o40755⟩
    else if path = cstr "/r/d/t" ∧ made then some ⟨8, 9, 1000, 1000, 0o100644⟩
    else none
  { linkHost with
    readlink := fun _ path => if path = cstr "/proc/7/cwd" then some (cstr "/r/d") else none
    stat := look
    lstat := look }

def dirLookups : Lookups dirHost 7 :=
  .ofHost dirHost 7 (fun _ => rfl) fun {made path} h => by
    by_cases hp : path = cstr "/proc/7/cwd"
    · subst hp
      exact absurd (show dirHost.lstat made (cstr "/proc/7/cwd") = none from h)
        (by cases made <;> decide +kernel)
    · exact if_neg hp

/-- `open("t", O_CREAT)` in the root `/r` -/
def openNew : St 64 Bool :=
  let s := linuxCall { Ctx.create with root := cstr "/r", hasFakeIds := true } (cstr "/r") 2
    [8192, 0o100] [(8192, cstr "t")]
  { s with t := { s.t with creds := credsInit 5 6 }, fs := false }

theorem creation_owner_rooted :
    OwnedByMaker openNew (afterCall dirHost openNew (fileMade openNew)) none
      ⟨8, 9, 1000, 1000, 0o100644⟩ := by
  have hlinks : ∀ path text, dirHost.readlink false path = some text → 0 ∉ text := by
    intro path text h
    have h' : (if path = cstr "/proc/7/cwd" then some (cstr "/r/d") else none) = some text := h
    split at h'
    · cases h'
      decide
    · cases h'
  have hproper : ProperNames (openNew.walkEnv dirHost true) :=
    .bare rfl (by decide +kernel) (by decide +kernel) hlinks
  have hbase : ∀ made, Standing dirHost made 7 AT_FDCWD (cstr "/r/d") := fun made =>
    ⟨by cases made <;> decide +kernel, by decide +kernel, by decide +kernel,
      by cases made <;> decide +kernel⟩
  have hspells : ∀ made, Spells dirHost openNew.ctx (cstr "/r") 7 made AT_FDCWD (cstr "t")
      (cstr "/r/d/t") (cstr "/d/t") := fun made =>
    .relative (by decide) (hbase made) (by decide +kernel : _ = some (cstr "/d"))
  have hknown : Known dirHost openNew .open ⟨.open, 1, 0, .open, 2⟩ (cstr "t") (cstr "/r/d/t")
      (cstr "/d/t") :=
    { noted := by decide
      call := (by decide +kernel : linuxNumbers.is .open 2 = true)
      entry := by decide
      reads := ⟨by decide +kernel, by decide +kernel, by decide +kernel⟩
      nonempty := by decide +kernel
      fits := by decide +kernel
      spells := hspells false
      same := .inr (by decide +kernel)
      proper := hproper }
  have hmade : Made (s := openNew) dirLookups (fileMade openNew) .open ⟨.open, 1, 0, .open, 2⟩
      (cstr "t") (cstr "/r/d/t") (cstr "/d/t") (cstr "/r/d/t") none
      ⟨8, 9, 1000, 1000, 0o100644⟩ :=
    { known := hknown
      creating := by decide
      creates := by decide +kernel
      reads := ⟨by decide +kernel, by decide +kernel, by decide +kernel⟩
      succeeds := by decide +kernel
      found := by decide +kernel
      granted := by decide +kernel
      made := by decide +kernel
      standing := hspells true
      quiet := fun _ _ h => h
      shared := fun _ => id }
  have hids : HasOwnIds openNew := ⟨rfl, by decide +kernel⟩
  exact ((creation_owner dirLookups (fun _ => rfl) hids (by decide +kernel)).1 _ _ _ _ _ _ hmade).2
    (by decide +kernel)

end Emuroot
