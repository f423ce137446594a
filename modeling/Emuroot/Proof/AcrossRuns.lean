import Emuroot.Model.Linux
import Emuroot.Proof.Options
import Emuroot.Proof.Outcome

/-!
# Ownership across runs

With `-s` a run saves its ownership table to a file at its end, and the next one loads it. `Carries`
is a run that is handed what the table says and hands it on, with no file. **`owners_survive`**: a
chain of runs on one file is a chain of `Carries`.
-/

namespace Emuroot

variable {w : Nat} {σ : Type} {P : Platform w σ} {seccomp : Bool} {e e' : Engine w} {s : St w σ}
  {file file' : Option CStr}

/-- What a table says of every file. -/
abbrev Owned := FileKey → Option Owner

/-- What a file of owners says, when it is loaded. -/
def fileOwned (file : Option CStr) : Owned := ownerLookup (ownersLoad (fun _ _ => true) none file)

/-! ## A table is never dropped -/

theorem ownerSet_isSome {calloc : Nat → Bool} {owners : Option OwnerDb} (h : owners.isSome)
    (k : FileKey) (o : Owner) : (ownerSet calloc owners k o).isSome := by
  cases owners with
  | none => cases h
  | some db => rfl

theorem commitCreated_isSome (h : s.ctx.owners.isSome) (ret : Int) :
    (commitCreated P s ret).ctx.owners.isSome := by
  unfold commitCreated
  split
  · exact h
  dsimp only
  split
  · exact ownerSet_isSome h _ _
  · exact h

theorem exitChown_isSome (h : s.ctx.owners.isSome) (ret : Int) :
    (exitChown P s ret).1.ctx.owners.isSome := by
  unfold exitChown
  dsimp only
  split
  · exact h
  split
  · exact ownerSet_isSome h _ _
  · exact h

theorem emulateResult_isSome (h : s.ctx.owners.isSome) (a : Action) (ret : Int) :
    (emulateResult P s a ret).1.ctx.owners.isSome := by
  have hf : ∀ (b : Prop) [Decidable b] (buf : Word w) (l : StatLayout),
      (if b then fakeOwner P s buf l else s).ctx.owners.isSome := by
    intro b _ buf l
    split
    · rw [(fakeOwner_memOnly s buf l).ctx]
      exact h
    · exact h
  cases a
  case getgroups => unfold emulateResult exitGetgroups; dsimp only; split <;> [exact h; split <;> exact h]
  case setgroups =>
    unfold emulateResult exitSetgroups
    dsimp only
    split
    · split <;> exact h
    · exact h
  case chown => exact exitChown_isSome h ret
  case stat2 => exact hf _ _ _
  case stat3 => exact hf _ _ _
  case statx => exact hf _ _ _
  all_goals exact h

theorem exitAction_isSome (h : s.ctx.owners.isSome) (buf : Word w) (a : Action) (ret : Int) :
    (exitAction P s buf a ret).ctx.owners.isSome := by
  unfold exitAction
  split
  · rwa [exitGetcwd_ctx]
  split
  · split <;> exact h
  split
  · exact h
  split
  · exact h
  split
  · split
    · exact h
    · rwa [mapProcLink_ctx]
  split
  · rwa [(exitUname_memOnly s buf ret).ctx]
  split
  · exact h
  · have hr := emulateResult_isSome (P := P) h a ret
    dsimp only
    split <;> exact hr

theorem table_kept (P : Platform w σ) :
    Kept P (fun _ => True) (fun ctx => ctx.owners.isSome) fun _ => True where
  new _ _ _ := trivial
  inherit _ _ _ _ := trivial
  entry s _ h _ := by
    have howners := congrArg Ctx.owners (onEntry_sansCache (P := P) s)
    simp only [Ctx.sansCache, Ctx.sansBindings] at howners
    exact ⟨howners ▸ h, trivial⟩
  exit s _ h _ := by
    refine ⟨?_, trivial⟩
    unfold onExit onExitAt
    dsimp only
    split
    · exact commitCreated_isSome h _
    · exact exitAction_isSome (commitCreated_isSome h _) ..

/-! ## The file -/

/-- What is saved is loaded. -/
theorem fileOwned_save (db : OwnerDb) (file : Option CStr) :
    fileOwned (ownersSave true (some db) file) = ownerLookup (some db) := by
  have hnil : ∀ c ∈ ([] : CStr), isSpace c := fun c hc => absurd hc List.not_mem_nil
  have hcalloc : ∀ n size, (fun _ _ => true : Nat → Nat → Bool) n size := fun _ _ => rfl
  have h := Keeps.none.loadLoop hcalloc hnil 0 db.entries
  funext k
  rw [ownerLookup_some, ← db.latest_entries]
  exact h.looks k

/-- No option makes a table. -/
theorem mainOption_owners {cfg cfg' : Config} {o : Getopt.Opt Byte} (h : mainOption cfg o = .ok cfg') :
    cfg'.ctx.owners = cfg.ctx.owners := by
  unfold mainOption at h
  extract_lets optarg at h
  split at h
  · cases h
    show ((setRoot cfg.ctx optarg).getD cfg.ctx).owners = _
    unfold setRoot
    split
    · rfl
    · split <;> rfl
  split at h
  · split at h
    · cases h
    · rename_i ctx hb
      cases h
      unfold optionBind at hb
      split at hb
      · cases hb
      · cases hb
        unfold emurootBind
        split <;> rfl
  split at h
  · split at h
    · cases h
    · cases h
      rfl
  split at h
  · cases h
    rfl
  split at h
  · cases h
    unfold setIdsFile
    split <;> rfl
  split at h
  · cases h
  split at h
  · cases h
    rfl
  split at h
  · cases h
  split at h <;> cases h

/-- A command line that names a file of owners, which can be written; memory does not run out. -/
structure KeepsFile (x : RunHost w σ × Config) : Prop where
  main : ∃ args cmd, emurootMain args = .runs x.2 cmd
  named : x.2.idsFile ≠ []
  writable : x.1.writable = true
  calloc : ∀ n size, x.1.calloc n size

theorem KeepsFile.start_eq {x : RunHost w σ × Config} (hx : KeepsFile x) (file : Option CStr) :
    x.1.start P x.2 file =
      engineStart { canonicalCtx P x.1.fs x.2.ctx with
        owners := ownersLoad (fun _ _ => true) none file } x.1.rootPid := by
  have hcalloc : x.1.calloc = fun _ _ => true := funext fun n => funext fun size => hx.calloc n size
  obtain ⟨args, cmd, hmain⟩ := hx.main
  have hfresh : x.2.ctx.owners = none := emurootMain_inv (I := fun cfg => cfg.ctx.owners = none) rfl
    (fun _ _ _ h ho => (mainOption_owners ho).trans h) hmain
  have howners : (canonicalCtx P x.1.fs x.2.ctx).owners = none := hfresh
  unfold RunHost.start sessionCtx
  dsimp only
  rw [if_neg hx.named, hcalloc, howners]

/-! ## Chains of runs -/

/-- A run on the file of owners. -/
def FileRun (P : Platform w σ) (file : Option CStr) (x : RunHost w σ × Config)
    (file' : Option CStr) : Prop :=
  KeepsFile x ∧ ∃ r, emurootRun P x.1 x.2 file = some r ∧ r.idsFile = file'

/-- The run comes to the event loop, where it waits for these. -/
def RunHost.Traces (H : RunHost w σ) (waits : List (Waited w σ)) : Prop :=
  probeBackend H.forced H.probed = .ptrace ∧ H.tracing = .loops waits

/-- A run that is handed what the table says and hands it on. Its event loop starts with a table that
says so; a run that does not come to the loop hands on what it was handed. -/
inductive Carries (P : Platform w σ) : Owned → RunHost w σ × Config → Owned → Prop
  | traced {m : Owned} {x : RunHost w σ × Config} {owners : Option OwnerDb}
      {waits : List (Waited w σ)} {e : Engine w} {rc : Int} :
      x.1.Traces waits → ownerLookup owners = m →
      ptraceLoop P x.1.seccomp x.1.rootPid
        (engineStart { canonicalCtx P x.1.fs x.2.ctx with owners := owners } x.1.rootPid) waits =
          some (e, rc) →
      Carries P m x (ownerLookup e.ctx.owners)
  | untraced {m : Owned} {x : RunHost w σ × Config} : (∀ waits, ¬x.1.Traces waits) → Carries P m x m

/-- The table that the loop leaves is what the file says. -/
theorem saved_eq {rootPid : Nat} {ctx : Ctx} {waits : List (Waited w σ)} {rc : Int}
    (h : ptraceLoop P seccomp rootPid (engineStart ctx rootPid) waits = some (e, rc))
    (hload : ctx.owners = ownersLoad (fun _ _ => true) none file) :
    fileOwned (ownersSave true e.ctx.owners file) = ownerLookup e.ctx.owners := by
  cases howners : e.ctx.owners with
  | some db => exact fileOwned_save db file
  | none =>
    -- no table: there was none at the start either, and the file stays as it was
    have hnone : ctx.owners = none := by
      by_contra hsome
      obtain ⟨as, e1, hrun, hctx⟩ := ptraceLoop_run h
      have hkept := ((table_kept P).run hrun
        ((table_kept P).start (Option.isSome_iff_ne_none.2 hsome) rootPid)).ctx
      rw [← hctx, howners] at hkept
      cases hkept
    show ownerLookup (ownersLoad _ none file) = _
    rw [← hload, hnone]

theorem fileRun_carries {x : RunHost w σ × Config} (h : FileRun P file x file') :
    Carries P (fileOwned file) x (fileOwned file') := by
  obtain ⟨hx, r, hr, rfl⟩ := h
  unfold emurootRun at hr
  cases hb : probeBackend x.1.forced x.1.probed with
  | envonly =>
    rw [hb] at hr
    cases hr
    exact .untraced fun waits ht => nomatch hb.symm.trans ht.1
  | ptrace =>
    rw [hb] at hr
    obtain ⟨r1, hr1, rfl⟩ := Option.map_eq_some_iff.1 hr
    have hfile : (if r1.rc ≠ EMUROOT_ERR_UNSUPPORTED then r1
        else { r1 with rc := envonlyRc x.1.envonly }).idsFile = r1.idsFile := by split <;> rfl
    rw [hfile]
    unfold emurootRunPtrace at hr1
    cases htr : x.1.tracing with
    | cannotStart =>
      rw [htr] at hr1
      cases hr1
      exact .untraced fun waits ht => nomatch htr.symm.trans ht.2
    | cannotFollow =>
      rw [htr] at hr1
      cases hr1
      exact .untraced fun waits ht => nomatch htr.symm.trans ht.2
    | loops waits =>
      rw [htr] at hr1
      obtain ⟨⟨e, rc⟩, hloop, rfl⟩ := Option.map_eq_some_iff.1 hr1
      rw [hx.start_eq] at hloop
      dsimp only
      rw [if_neg hx.named, hx.writable, saved_eq hloop rfl]
      exact .traced ⟨hb, htr⟩ rfl hloop

/-- **Ownership survives**: over any chain of runs on one file, however each of them ends, every
event loop starts with what the one before it knew of every file. -/
theorem owners_survive {xs : List (RunHost w σ × Config)} (h : Run (FileRun P) file xs file') :
    Run (Carries P) (fileOwned file) xs (fileOwned file') := by
  obtain ⟨m, hm, rfl⟩ := h.sim (R := fun file m => fileOwned file = m)
    (fun file x file' m hm hrun => ⟨fileOwned file', hm ▸ fileRun_carries hrun, rfl⟩) rfl
  exact hm

/-- Two runs with `-s`: one on a system without tracing, and one in which the command ends at once. -/
def savedConfig : Config := { Config.create with idsFile := cstr "/o" }

def briefHost : RunHost 64 Unit :=
  { untracedHost with
    probed := some (.stops 19 0)
    tracing := .loops [⟨earlyRound.W, none, .reports 7 (.exits 3) 0⟩] }

def ownersFile : CStr := cstr "8 2 0 20\n"

theorem owners_survive_brief :
    ∃ file', Run (FileRun linuxPlatform) (some ownersFile)
        [(untracedHost, savedConfig), (briefHost, savedConfig)] file' ∧
      Run (Carries linuxPlatform) (fileOwned (some ownersFile))
        [(untracedHost, savedConfig), (briefHost, savedConfig)] (fileOwned file') :=
  have hmain : emurootMain [cstr "-s/o", cstr "ls"] = .runs savedConfig [cstr "ls"] := rfl
  have hnamed : savedConfig.idsFile ≠ [] := by decide
  have hruns : Run (FileRun linuxPlatform) (some ownersFile)
      [(untracedHost, savedConfig), (briefHost, savedConfig)] _ :=
    .cons ⟨⟨⟨_, _, hmain⟩, hnamed, rfl, fun _ _ => rfl⟩, _, rfl, rfl⟩
      (.cons ⟨⟨⟨_, _, hmain⟩, hnamed, rfl, fun _ _ => rfl⟩, _, rfl, rfl⟩ (.nil _))
  ⟨_, hruns, owners_survive hruns⟩

end Emuroot
