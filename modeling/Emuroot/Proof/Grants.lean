import Emuroot.Proof.HostSide
import Emuroot.Proof.TableEntry

/-!
# The permissions that the entry of a call grants

`ensureDac_eq`: at most one object's bits are changed, the path itself or the directory it is in.
`onEntry_fs`: of the entry of a call of the path table, the path arguments are all that changes
anything on the host, and what they change is what `ensure_dac` changes for the path looked up.
-/

namespace Emuroot

variable {w : Nat} {σ : Type} {P : Platform w σ} {s u : St w σ} {d : PathSyscall} {fs : σ}
  {host path : CStr} {need : Dac} {n : Int} {slot which : Nat} {follow : Bool}

/-! ## The object -/

/-- Whose bits are changed. -/
def dacPath (host : CStr) : Dac → Option CStr
  | .none => none
  | .parentW =>
    let dir := snprintf pathLen host
    (strrchr dir slash).map fun i => if i = 0 then dir.take 1 else dir.take i
  | .read | .rw => some host

/-- The bits that are added. -/
def dacBits (P : Platform w σ) (fs : σ) (host : CStr) : Dac → Nat
  | .none => 0
  | .parentW => 0o300
  | .read => if (P.stat fs host).any (isDir ·.mode) then 0o400 ||| 0o100 else 0o400
  | .rw => if (P.stat fs host).any (isDir ·.mode) then 0o600 ||| 0o100 else 0o600

theorem ensureDac_eq (P : Platform w σ) (fs : σ) (host : CStr) (need : Dac) :
    ensureDac P fs host need =
      if P.geteuid = 0 then fs
      else
        match dacPath host need with
        | none => fs
        | some path => grantOwner P fs path (dacBits P fs host need) := by
  unfold ensureDac
  by_cases hroot : P.geteuid = 0
  · rw [if_pos (.inr hroot), if_pos hroot]
  · rw [if_neg hroot]
    cases need with
    | none => rfl
    | parentW =>
      rw [if_neg (by simp [hroot]), if_pos rfl]
      dsimp only [dacPath]
      cases strrchr (snprintf pathLen host) slash <;> rfl
    | read => rw [if_neg (by simp [hroot]), if_neg (by simp)]; rfl
    | rw => rw [if_neg (by simp [hroot]), if_neg (by simp)]; rfl

/-- The bits of this path are changed for the host path of an argument. -/
structure Due (P : Platform w σ) (fs : σ) (host : CStr) (need : Dac) (path : CStr) : Prop where
  user : P.geteuid ≠ 0
  target : dacPath host need = some path
  missing : ∃ st, P.stat fs path = some st ∧ st.uid = P.geteuid ∧
    st.mode &&& dacBits P fs host need ≠ dacBits P fs host need

/-- Either nothing is due and nothing happens, or the bits are added. -/
theorem ensureDac_cases (P : Platform w σ) (fs : σ) (host : CStr) (need : Dac) :
    (ensureDac P fs host need = fs ∧ ∀ path, ¬Due P fs host need path) ∨
    ∃ path st, Due P fs host need path ∧ P.stat fs path = some st ∧
      ensureDac P fs host need = P.chmod fs path (st.mode ||| dacBits P fs host need) := by
  rw [ensureDac_eq]
  by_cases hroot : P.geteuid = 0
  · exact .inl ⟨if_pos hroot, fun _ h => h.user hroot⟩
  · rw [if_neg hroot]
    cases hpath : dacPath host need with
    | none => exact .inl ⟨rfl, fun _ h => by rw [h.target] at hpath; cases hpath⟩
    | some path =>
      dsimp only [grantOwner]
      have hone : ∀ path', Due P fs host need path' → path' = path := fun path' h =>
        Option.some.inj (h.target.symm.trans hpath)
      cases hst : P.stat fs path with
      | none =>
        refine .inl ⟨rfl, fun path' h => ?_⟩
        obtain ⟨st, hs, -⟩ := h.missing
        rw [hone path' h, hst] at hs
        cases hs
      | some st =>
        dsimp only
        by_cases hu : st.uid = P.geteuid
        · rw [if_neg (not_not.2 hu)]
          by_cases hbits : st.mode &&& dacBits P fs host need = dacBits P fs host need
          · refine .inl ⟨if_neg (not_not.2 hbits), fun path' h => ?_⟩
            obtain ⟨st', hs, -, hm⟩ := h.missing
            rw [hone path' h, hst] at hs
            exact hm (Option.some.inj hs ▸ hbits)
          · exact .inr ⟨path, st, ⟨hroot, hpath, st, hst, hu, hbits⟩, hst, if_pos hbits⟩
        · refine .inl ⟨if_pos hu, fun path' h => ?_⟩
          obtain ⟨st', hs, hu', -⟩ := h.missing
          rw [hone path' h, hst] at hs
          exact hu (Option.some.inj hs ▸ hu')

/-! ## A path argument -/

/-- The guest path that `rewrite_path_arg` looks up for argument `slot`, where it gets that far. -/
def argGuest (P : Platform w σ) (s : St w σ) (n : Int) (slot : Nat) : Option CStr :=
  if slot = 0 ∨ unmapped s.ctx s.t.root then none
  else
    (givenPath P s slot).bind fun given =>
      if given.head? ≠ some slash ∧ strictOpenat2 P s n slot then none
      else absoluteGuestPath P s (dirfdSlot P.nr n slot) given (2 * pathLen)

theorem argGuest_mapped {guest : CStr} (h : argGuest P s n slot = some guest) :
    unmapped s.ctx s.t.root = false := by
  unfold argGuest at h
  split at h
  · cases h
  · rename_i hc
    simpa using (not_or.1 hc).2

theorem argGuest_absolute {guest : CStr} (hguests : ∀ b ∈ s.ctx.bindings, b.guest.head? = some slash)
    (h : argGuest P s n slot = some guest) : guest.head? = some slash := by
  have hcut : ∀ {p : CStr}, p.head? = some slash → (snprintf (2 * pathLen) p).head? = some slash :=
    fun hp => (List.head?_take ..).trans hp
  unfold argGuest at h
  split at h
  · cases h
  · obtain ⟨given, -, h⟩ := Option.bind_eq_some_iff.1 h
    split at h
    · cases h
    · unfold absoluteGuestPath at h
      split at h
      · rename_i habs
        cases h
        exact hcut habs
      · dsimp only at h
        split at h
        · cases h
        · split at h
          · cases h
          · split at h
            · cases h
            · rename_i hg
              cases h
              exact hcut (head?_behind (hostToGuest_absolute hguests hg) given)

theorem argGuest_length {guest : CStr} (h : argGuest P s n slot = some guest) :
    guest.length < 2 * pathLen := by
  have hcut : ∀ p, (snprintf (2 * pathLen) p).length < 2 * pathLen := fun p =>
    Nat.lt_of_le_of_lt (length_snprintf_le (2 * pathLen) p) (by decide)
  unfold argGuest at h
  split at h
  · cases h
  · obtain ⟨given, -, h⟩ := Option.bind_eq_some_iff.1 h
    split at h
    · cases h
    · unfold absoluteGuestPath at h
      split at h
      · cases h
        exact hcut given
      · dsimp only at h
        split at h
        · cases h
        · split at h
          · cases h
          · split at h
            · cases h
            · cases h
              exact hcut _

theorem repoint_fs (s : St w σ) (slot : Nat) (host : CStr) : (repoint P s slot host).fs = s.fs := by
  have hs : (scratch s (host.length + 1)).2.fs = s.fs := by
    unfold scratch
    dsimp only
    split <;> rfl
  unfold repoint
  generalize scratch s (host.length + 1) = q at hs
  obtain ⟨addr, s1⟩ := q
  dsimp only at hs ⊢
  split
  · exact hs
  · split <;> exact hs

theorem rewriteGuest_fs (s : St w σ) (n : Int) (slot : Nat) (follow : Bool) (which : Nat)
    (guest : CStr) :
    (rewriteGuest P s n slot follow which guest).fs =
      if s.ctx.hasFakeIds ∧ s.t.creds.uid.effective = 0 then
        ensureDac P s.fs (translatePath (s.walkEnv P follow) guest pathLen).out (dacFor P s n which)
      else s.fs := by
  have hgrant : ∀ u : St w σ, u.fs = s.fs → u.ctx = s.ctx → u.t.creds = s.t.creds →
      u.walkEnv P follow = s.walkEnv P follow → dacFor P u n which = dacFor P s n which →
      (let r := translatePath (u.walkEnv P follow) guest pathLen
       let v := if u.ctx.hasFakeIds ∧ u.t.creds.uid.effective = 0 then grantAccess P u n which r.out
         else u
       if r.differs then repoint P v slot r.out else v).fs =
      if s.ctx.hasFakeIds ∧ s.t.creds.uid.effective = 0 then
        ensureDac P s.fs (translatePath (s.walkEnv P follow) guest pathLen).out (dacFor P s n which)
      else s.fs := by
    intro u hfs hctx hcreds henv hdac
    dsimp only
    rw [hctx, hcreds, henv]
    have hv : ∀ v : St w σ, (if (translatePath (s.walkEnv P follow) guest pathLen).differs = true then
        repoint P v slot (translatePath (s.walkEnv P follow) guest pathLen).out else v).fs = v.fs := by
      intro v
      split
      · exact repoint_fs ..
      · rfl
    rw [hv]
    split
    · rw [grantAccess, hfs, hdac]
    · exact hfs
  unfold rewriteGuest
  split
  · exact hgrant _ rfl rfl rfl rfl rfl
  · exact hgrant _ rfl rfl rfl rfl rfl

/-- What the rewriting of an argument does to the host. -/
theorem rewritePathArg_fs (P : Platform w σ) (s : St w σ) (n : Int) (slot : Nat) (follow : Bool)
    (which : Nat) :
    (rewritePathArg P s n slot follow which).fs =
      match argGuest P s n slot with
      | none => s.fs
      | some guest =>
        if s.ctx.hasFakeIds ∧ s.t.creds.uid.effective = 0 then
          ensureDac P s.fs (translatePath (s.walkEnv P follow) guest pathLen).out (dacFor P s n which)
        else s.fs := by
  rw [rewritePathArg_eq]
  unfold argGuest givenPath
  by_cases hslot : slot = 0 ∨ unmapped s.ctx s.t.root = true
  · rw [if_pos hslot, if_pos (by rcases hslot with h | h <;> simp [h])]
  · rw [if_neg hslot]
    by_cases harg : s.arg P slot = 0
    · rw [if_pos (.inr (.inr harg)), if_pos harg]
      rfl
    · obtain ⟨hs, hm⟩ := not_or.1 hslot
      rw [if_neg (not_or.2 ⟨hs, not_or.2 ⟨hm, harg⟩⟩), if_neg harg]
      cases guestReadStr s.mem (s.arg P slot) pathLen with
      | none =>
        dsimp only
        split <;> rfl
      | some given =>
        dsimp only
        by_cases hne : given = []
        · rw [if_pos hne, hne]
          rfl
        · have hfilter : (some given).filter (fun x => decide (x ≠ [])) = some given := by
            rw [Option.filter_some, if_pos (by simpa using hne)]
          rw [if_neg hne, hfilter, Option.bind_some]
          by_cases hstrict : given.head? ≠ some slash ∧ strictOpenat2 P s n slot = true
          · rw [if_pos hstrict, if_pos hstrict]
          · rw [if_neg hstrict, if_neg hstrict]
            cases absoluteGuestPath P s (dirfdSlot P.nr n slot) given (2 * pathLen) with
            | none => rfl
            | some guest =>
              exact rewriteGuest_fs ..

/-! ## The entry -/

theorem neutralize_fs (s : St w σ) (slot : Nat) (toRoot : Bool) :
    (neutralize P s slot toRoot).fs = s.fs := by
  have hs : (scratch s 2).2.fs = s.fs := by
    unfold scratch
    dsimp only
    split <;> rfl
  unfold neutralize
  generalize scratch s 2 = q at hs
  obtain ⟨addr, s1⟩ := q
  dsimp only at hs ⊢
  split
  · split <;> exact hs
  · rfl

theorem identityEntry_fs (s : St w σ) (n : Int) (a : Option Action) :
    (identityEntry P s n a).fs = s.fs := by
  have hneutral : (neutralizeIdChange P s a).fs = s.fs := by
    unfold neutralizeIdChange
    dsimp only
    split <;> rfl
  unfold identityEntry
  dsimp only
  split
  · unfold noteChown
    dsimp only
    split <;> exact hneutral
  · exact hneutral

theorem emulateMounts_fs (s : St w σ) (n : Int) (a : Option Action) :
    (emulateMounts P s n a).1.fs = s.fs := by
  unfold emulateMounts
  split
  · rfl
  split
  · unfold emulateChroot
    repeat' split
    all_goals first | rfl | exact neutralize_fs ..
  · unfold emulateMount
    split
    · rfl
    · exact neutralize_fs ..
  · unfold emulateUmount
    split
    · rfl
    · exact neutralize_fs ..
  · rfl

theorem emulateEntry_fs (s : St w σ) (n : Int) : (emulateEntry P s n).1.fs = s.fs := by
  unfold emulateEntry
  split
  · exact (emulateMounts_fs ..).trans (identityEntry_fs ..)
  · rfl

/-- An entry that does not emulate the call keeps the name space. -/
theorem emulateEntry_kept (s : St w σ) (h : (emulateEntry P s n).2 = false) :
    (emulateEntry P s n).1.ctx = s.ctx ∧ (emulateEntry P s n).1.t.root = s.t.root := by
  have hroot : (emulateEntry P s n).1.t.root = s.t.root :=
    congrArg (·.root) (emulateEntry_frame (P := P) s n).t
  refine ⟨?_, hroot⟩
  have hident : ∀ a, (identityEntry P s n a).ctx = s.ctx := by
    intro a
    have hneutral : (neutralizeIdChange P s a).ctx = s.ctx := by
      unfold neutralizeIdChange
      dsimp only
      split <;> rfl
    unfold identityEntry noteChown
    dsimp only
    split
    · split <;> exact hneutral
    · exact hneutral
  have hneutralize : ∀ (u : St w σ) slot toRoot, (neutralize P u slot toRoot).ctx = u.ctx := by
    intro u slot toRoot
    exact (neutralize_frame u slot toRoot).ctx
  unfold emulateEntry at h ⊢
  split
  · rename_i hf
    rw [if_pos hf] at h
    unfold emulateMounts at h ⊢
    dsimp only at h ⊢
    split at h
    · rename_i hroot
      rw [if_pos hroot]
      exact hident _
    · rename_i hroot
      rw [if_neg hroot]
      split at h
      · rename_i ha
        rw [ha]
        dsimp only
        unfold emulateChroot
        repeat' split
        all_goals first | exact hident _ | exact (hneutralize ..).trans (hident _)
      · cases h
      · cases h
      · exact hident _
  · rfl

theorem noteCreation_fs (s : St w σ) (n : Int) (d : PathSyscall) :
    (noteCreation P s n d).fs = s.fs := by
  unfold noteCreation
  repeat' split
  all_goals rfl

/-- The state in which the path arguments of a call of the table are rewritten. -/
def noted (P : Platform w σ) (s : St w σ) (d : PathSyscall) : St w σ :=
  noteCreation P (emulateEntry P (resetCall P s) (s.sysno P)).1 (s.sysno P) d

/-- The entry of a call of the table. -/
theorem onEntry_table (hd : findPathSyscall P.nr (s.sysno P) = some d) :
    onEntry P s =
      if (emulateEntry P (resetCall P s) (s.sysno P)).2 then
        (emulateEntry P (resetCall P s) (s.sysno P)).1
      else
        rewritePathArg P
          (rewritePathArg P (noted P s d) (s.sysno P) d.slot1 (followLast P (noted P s d) d) 0)
          (s.sysno P) d.slot2 false 1 := by
  have hnot : ∀ z, (pathTable.find? fun d => decide (d.nr = z)) = none →
      P.nr.is z (s.sysno P) = false := by
    intro z hz
    by_contra hx
    rw [findPathSyscall_of_is (Bool.not_eq_false _ ▸ hx)] at hd
    rw [hz] at hd
    cases hd
  unfold onEntry
  dsimp only
  rw [show (resetCall P s).t.sysno = s.sysno P from rfl]
  generalize hem : emulateEntry P (resetCall P s) (s.sysno P) = r
  obtain ⟨u, handled⟩ := r
  have hu : noted P s d = noteCreation P u (s.sysno P) d := by rw [noted, hem]
  cases handled with
  | true => rfl
  | false =>
    dsimp only
    rw [hnot .execve (by decide), if_neg (by simp), if_neg (by simp), if_neg (by simp), rewritePaths,
      hnot .bind (by decide), hnot .connect (by decide), hnot .sendto (by decide), hd, hu]
    rfl

/-- The arguments of a call of the table, each with the state it is rewritten in. -/
inductive PathTurn (P : Platform w σ) (s : St w σ) (d : PathSyscall) :
    St w σ → Nat → Bool → Nat → Prop
  | first (h : (emulateEntry P (resetCall P s) (s.sysno P)).2 = false) :
    PathTurn P s d (noted P s d) d.slot1 (followLast P (noted P s d) d) 0
  | second (h : (emulateEntry P (resetCall P s) (s.sysno P)).2 = false) :
    PathTurn P s d
      (rewritePathArg P (noted P s d) (s.sysno P) d.slot1 (followLast P (noted P s d) d) 0) d.slot2
      false 1

theorem noted_kept (h : (emulateEntry P (resetCall P s) (s.sysno P)).2 = false) :
    (noted P s d).ctx = s.ctx ∧ (noted P s d).t.root = s.t.root := by
  obtain ⟨hctx, hroot⟩ := emulateEntry_kept _ h
  refine ⟨(noteCreation_ctx ..).trans hctx, ?_⟩
  exact (congrArg (·.root) (noteCreation_frame (P := P) _ _ d).t).trans hroot

/-- They are looked up in the name space of the process. -/
theorem PathTurn.kept (h : PathTurn P s d u slot follow which) :
    u.ctx = s.ctx ∧ u.t.root = s.t.root := by
  cases h with
  | first h => exact noted_kept h
  | second h =>
    have hframe := rewritePathArg_frame (P := P) (noted P s d) (s.sysno P) d.slot1
      (followLast P (noted P s d) d) 0
    obtain ⟨hctx, hroot⟩ := noted_kept (d := d) h
    exact ⟨hframe.ctx.trans hctx, (congrArg (·.root) hframe.t).trans hroot⟩

/-! ## A record of what is changed -/

/-- A host that notes its changes of permission bits, each with the links as they were. -/
def NotesChmods (P : Platform w σ) (chmods : σ → List ((CStr → Option CStr) × CStr)) : Prop :=
  ∀ fs path mode, chmods (P.chmod fs path mode) = chmods fs ++ [(P.readlink fs, path)]

/-- In `u`, bits are added to `path`, for an argument of a process of the fake root whose walk stops
at `pt`. -/
inductive GrantsAt (P : Platform w σ) (s : St w σ) (d : PathSyscall) (u : St w σ) (follow : Bool)
    (why : Why) (pt : Point) (path : CStr) : Prop
  | mk {slot which : Nat} {guest : CStr} (turn : PathTurn P s d u slot follow which)
    (looked : argGuest P u (s.sysno P) slot = some guest)
    (fakeRoot : u.ctx.hasFakeIds = true ∧ u.t.creds.uid.effective = 0)
    (stops : StopsAt (u.walkEnv P follow) guest why pt)
    (due : Due P u.fs (unwalked (u.walkEnv P follow) pt.walk) (dacFor P u (s.sysno P) which) path)

variable {chmods : σ → List ((CStr → Option CStr) × CStr)} {c : (CStr → Option CStr) × CStr}

theorem mem_chmods_ensureDac (hP : NotesChmods P chmods) :
    c ∈ chmods (ensureDac P fs host need) ↔
      c ∈ chmods fs ∨ ∃ path, Due P fs host need path ∧ c = (P.readlink fs, path) := by
  rcases ensureDac_cases P fs host need with ⟨heq, hnone⟩ | ⟨path, st, hdue, -, heq⟩
  · rw [heq]
    exact ⟨.inl, fun h => h.resolve_right fun ⟨path, hdue, _⟩ => hnone path hdue⟩
  · rw [heq, hP, List.mem_append, List.mem_singleton]
    refine or_congr_right ⟨fun h => ⟨path, hdue, h⟩, ?_⟩
    rintro ⟨path', hdue', rfl⟩
    rw [Option.some.inj (hdue'.target.symm.trans hdue.target)]

/-- A turn's own changes. -/
theorem PathTurn.mem_chmods (hP : NotesChmods P chmods)
    (hguests : ∀ b ∈ s.ctx.bindings, b.guest.head? = some slash)
    (h : PathTurn P s d u slot follow which) :
    c ∈ chmods (rewritePathArg P u (s.sysno P) slot follow which).fs ↔
      c ∈ chmods u.fs ∨
      ∃ guest why pt path, argGuest P u (s.sysno P) slot = some guest ∧
        (u.ctx.hasFakeIds = true ∧ u.t.creds.uid.effective = 0) ∧
        StopsAt (u.walkEnv P follow) guest why pt ∧
        Due P u.fs (unwalked (u.walkEnv P follow) pt.walk) (dacFor P u (s.sysno P) which) path ∧
        c = (P.readlink u.fs, path) := by
  rw [rewritePathArg_fs]
  cases hguest : argGuest P u (s.sysno P) slot with
  | none => simp
  | some guest =>
    dsimp only
    have habs := argGuest_absolute (h.kept.1 ▸ hguests) hguest
    have hout : ∀ {why pt}, StopsAt (u.walkEnv P follow) guest why pt →
        (translatePath (u.walkEnv P follow) guest pathLen).out = unwalked (u.walkEnv P follow) pt.walk :=
      fun hs => (translate_stopsAt hs habs (argGuest_mapped hguest) 0).1
    split
    · rename_i hfake
      rw [mem_chmods_ensureDac hP]
      refine or_congr_right ⟨?_, ?_⟩
      · rintro ⟨path, hdue, hc⟩
        obtain ⟨why, pt, hs⟩ := stopsAt_exists (u.walkEnv P follow) guest
        exact ⟨guest, why, pt, path, rfl, hfake, hs, hout hs ▸ hdue, hc⟩
      · rintro ⟨guest', why, pt, path, hg, -, hs, hdue, hc⟩
        cases hg
        exact ⟨path, (hout hs).symm ▸ hdue, hc⟩
    · rename_i hfake
      refine ⟨.inl, fun h => h.resolve_right ?_⟩
      rintro ⟨-, -, -, -, -, hf, -⟩
      exact hfake hf

/-- **All that the entry of a call changes on the host** are the grants at its arguments. -/
theorem mem_chmods_onEntry (hP : NotesChmods P chmods) (h0 : chmods s.fs = [])
    (hguests : ∀ b ∈ s.ctx.bindings, b.guest.head? = some slash)
    (hd : findPathSyscall P.nr (s.sysno P) = some d) :
    c ∈ chmods (onEntry P s).fs ↔
      ∃ u follow why pt path, GrantsAt P s d u follow why pt path ∧ c = (P.readlink u.fs, path) := by
  have hfs : (noted P s d).fs = s.fs := (noteCreation_fs ..).trans (emulateEntry_fs ..)
  rw [onEntry_table hd]
  cases hem : (emulateEntry P (resetCall P s) (s.sysno P)).2 with
  | true =>
    have hs : (emulateEntry P (resetCall P s) (s.sysno P)).1.fs = s.fs := emulateEntry_fs ..
    rw [if_pos rfl, hs, h0]
    refine iff_of_false List.not_mem_nil ?_
    rintro ⟨u, follow, why, pt, path, ⟨turn, -⟩, -⟩
    cases turn with
    | first h => rw [hem] at h; cases h
    | second h => rw [hem] at h; cases h
  | false =>
    rw [if_neg (by simp), (PathTurn.second hem).mem_chmods hP hguests,
      (PathTurn.first hem).mem_chmods hP hguests, hfs, h0]
    constructor
    · rintro ((h | ⟨guest, why, pt, path, hg, hf, hs, hdue, hc⟩) |
        ⟨guest, why, pt, path, hg, hf, hs, hdue, hc⟩)
      · cases h
      · exact ⟨_, _, why, pt, path, ⟨.first hem, hg, hf, hs, hfs ▸ hdue⟩, hfs ▸ hc⟩
      · exact ⟨_, _, why, pt, path, ⟨.second hem, hg, hf, hs, hdue⟩, hc⟩
    · rintro ⟨u, follow, why, pt, path, ⟨turn, hg, hf, hs, hdue⟩, hc⟩
      cases turn with
      | first h => exact .inl (.inr ⟨_, why, pt, path, hg, hf, hs, hfs ▸ hdue, hfs ▸ hc⟩)
      | second h => exact .inr ⟨_, why, pt, path, hg, hf, hs, hdue, hc⟩

end Emuroot
