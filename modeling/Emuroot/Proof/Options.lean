import Emuroot.Model.Linux
import Emuroot.Model.Main
import Emuroot.Proof.Buffers
import Emuroot.Proof.SavedOwners

/-!
# What the command line configures

`settings_read_back`: settings spelled as options, in any of the ways that `getopt` has, give the
context that the calls of the library give. **`program_fits`**: whatever the command line, nothing
that the engine keeps during the session outgrows its array.
-/

namespace Emuroot

open Getopt

variable {w : Nat} {σ : Type} {P : Platform w σ} {cfg cfg' : Config} {cmd args : List CStr}

/-! ## What fits -/

/-- The context and the name of the file of owners fit. -/
structure Config.Fits (cfg : Config) : Prop where
  ctx : cfg.ctx.Fits
  idsFile : FitsPath cfg.idsFile

theorem length_snprintf_lt (s : CStr) {size : Nat} (h : 0 < size) : (snprintf size s).length < size := by
  have := length_snprintf_le size s
  omega

theorem create_fits : Config.create.Fits where
  ctx := ⟨fitsPath_nil, Nat.zero_le _, List.forall_mem_nil _, by decide, by decide, by decide,
    Nat.zero_le _, List.forall_mem_nil _⟩
  idsFile := fitsPath_nil

theorem setRoot_fits {ctx ctx' : Ctx} (h : ctx.Fits) {path : CStr} (hs : setRoot ctx path = some ctx') :
    ctx'.Fits := by
  have hput : ∀ root, FitsPath root → { ctx with root := root }.Fits := fun root hroot =>
    ⟨hroot, h.nbindings, h.bindings, h.sysname, h.release, h.machine, h.used, h.cache⟩
  unfold setRoot at hs
  split at hs
  · cases hs
  · rename_i hlen
    have hpath : FitsPath path := Nat.lt_of_not_le hlen
    split at hs
    · cases hs
      refine hput _ (Nat.lt_of_le_of_lt ?_ hpath)
      simp
    · cases hs
      exact hput _ hpath

theorem optionBind_fits {ctx ctx' : Ctx} (h : ctx.Fits) {arg : CStr}
    (hb : optionBind ctx arg = some ctx') : ctx'.Fits := by
  unfold optionBind at hb
  split at hb
  · cases hb
  · dsimp only at hb
    cases hc : emurootBind ctx (arg.takeWhile (· != colon))
        (arg.drop ((arg.takeWhile (· != colon)).length + 1)) with
    | none =>
      rw [hc] at hb
      cases hb
      exact h
    | some ctx1 =>
      rw [hc] at hb
      cases hb
      exact h.emurootBind hc

theorem mainOption_fits (h : cfg.Fits) {o : Opt Byte} (ho : mainOption cfg o = .ok cfg') :
    cfg'.Fits := by
  unfold mainOption at ho
  extract_lets optarg at ho
  split at ho
  · cases ho
    refine ⟨?_, h.idsFile⟩
    cases hr : setRoot cfg.ctx optarg with
    | none => exact h.ctx
    | some ctx => exact setRoot_fits h.ctx hr
  split at ho
  · split at ho
    · cases ho
    · rename_i ctx hb
      cases ho
      exact ⟨optionBind_fits h.ctx hb, h.idsFile⟩
  split at ho
  · split at ho
    · cases ho
    · cases ho
      have hc := h.ctx
      exact ⟨⟨hc.root, hc.nbindings, hc.bindings, hc.sysname, hc.release, hc.machine, hc.used,
        hc.cache⟩, h.idsFile⟩
  split at ho
  · cases ho
    have hc := h.ctx
    have hfield : ∀ s : CStr, (snprintf utsField s).length < utsField := fun s =>
      length_snprintf_lt s (by decide)
    exact ⟨⟨hc.root, hc.nbindings, hc.bindings, hfield _, hfield _, hfield _, hc.used, hc.cache⟩,
      h.idsFile⟩
  split at ho
  · cases ho
    unfold setIdsFile
    split
    · exact h
    · rename_i hlen
      exact ⟨h.ctx, Nat.lt_of_not_le hlen⟩
  split at ho
  · cases ho
  split at ho
  · cases ho
    exact ⟨h.ctx, h.idsFile⟩
  split at ho
  · cases ho
  split at ho <;> cases ho

/-- What every option keeps holds of what `main` runs. -/
theorem emurootMain_inv {I : Config → Prop} (h0 : I .create)
    (hI : ∀ cfg o cfg', I cfg → mainOption cfg o = .ok cfg' → I cfg')
    (h : emurootMain args = .runs cfg cmd) : I cfg := by
  obtain ⟨e, he, hend⟩ := mainLoop.run_spec (I := fun s => I s.1) (s := (.create, ⟨[], args⟩))
    (fun s s' hs hstep => by
      change mainStep s = .inl s' at hstep
      unfold mainStep at hstep
      split at hstep
      · cases hstep
      · split at hstep
        · rename_i cfg ho
          cases hstep
          exact hI _ _ _ hs ho
        · cases hstep
      · split at hstep <;> cases hstep)
    h0
  change mainStep e = .inr (emurootMain args) at hend
  rw [h] at hend
  unfold mainStep at hend
  split at hend
  · cases hend
  · split at hend
    · cases hend
    · cases hend
  · split at hend
    · cases hend
    · cases hend
      exact he

theorem emurootMain_fits (h : emurootMain args = .runs cfg cmd) : cfg.Fits :=
  emurootMain_inv create_fits (fun _ _ _ hcfg ho => mainOption_fits hcfg ho) h

theorem sessionCtx_fits (hreal : P.ShortNames) (h : cfg.Fits) (fs : σ)
    (calloc : Nat → Nat → Bool) (idsFile : Option CStr) :
    (sessionCtx P fs calloc idsFile cfg).Fits := by
  have hc := canonicalCtx_fits hreal fs h.ctx
  unfold sessionCtx
  dsimp only
  split
  · exact hc
  · exact hc.owners _

variable {seccomp : Bool}

/-- **Nothing outgrows its array**: from any command line on, in every state that the event loop
reaches, the context and the record of every process fit. -/
theorem program_fits (hreal : P.ShortNames) (hmain : emurootMain args = .runs cfg cmd) (fs : σ)
    (calloc : Nat → Nat → Bool) (idsFile : Option CStr) (rootPid : Nat) {as : List (StopRound w σ)}
    {e : Engine w}
    (h : Run (LoopStep P seccomp fun _ => True)
      (engineStart (sessionCtx P fs calloc idsFile cfg) rootPid) as e) :
    FitsPath cfg.idsFile ∧ e.ctx.Fits ∧ ∀ t ∈ e.tab, t.Fits := by
  have hcfg := emurootMain_fits hmain
  exact ⟨hcfg.idsFile, session_fits (sessionCtx_fits hreal hcfg fs calloc idsFile) rootPid h⟩

/-- A session rooted in `/r`, in which a process appears before its parent's fork event. -/
def rootedConfig : Config := { Config.create with ctx := { Ctx.create with root := cstr "/r" } }

def rootedStart : Engine 64 :=
  engineStart (sessionCtx linuxPlatform () (fun _ _ => true) none rootedConfig) 7

def earlyRound : StopRound 64 Unit where
  W :=
    { regs := fun _ => none
      space := id
      mem := fun _ => linuxMem []
      fs := () }
  pid := 8
  st := .stopped ⟨SIGSTOP, 0, 0⟩

theorem program_fits_early :
    let e := (waitStep linuxPlatform true rootedStart earlyRound.W earlyRound.pid earlyRound.st).1
    FitsPath rootedConfig.idsFile ∧ e.ctx.Fits ∧ ∀ t ∈ e.tab, t.Fits :=
  have hreal : linuxPlatform.ShortNames := fun _ _ _ h => nomatch h
  have hmain : emurootMain [cstr "-r/r", cstr "ls"] = .runs rootedConfig [cstr "ls"] := rfl
  have hstep : LoopStep linuxPlatform true (fun _ => True) rootedStart earlyRound
      (waitStep linuxPlatform true rootedStart earlyRound.W earlyRound.pid earlyRound.st).1 :=
    ⟨trivial, rfl⟩
  program_fits hreal hmain () (fun _ _ => true) none 7 (.cons hstep (.nil _))

/-! ## The loop over the options -/

/-- The options that are read are those whose settings are made. -/
theorem mainLoop_reads {os : List (Opt Byte)} {s s' : State Byte}
    (h : Run (Getopt.Reads dash mainOptions) s os s') (hcfg : os.foldlM mainOption cfg = .ok cfg') :
    mainLoop.run (cfg, s) = mainLoop.run (cfg', s') := by
  induction h generalizing cfg with
  | nil =>
    cases hcfg
    rfl
  | @cons s s1 _ o os ho _ ih =>
    rw [List.foldlM_cons] at hcfg
    cases hopt : mainOption cfg o with
    | error e =>
      rw [hopt] at hcfg
      cases hcfg
    | ok cfg1 =>
      rw [hopt] at hcfg
      have hstep : mainLoop.step (cfg, s) = .inl (cfg1, s1) := by
        show mainStep (cfg, s) = _
        unfold mainStep
        rw [ho]
        dsimp only
        rw [hopt]
      rw [mainLoop.run_again hstep]
      exact ih hcfg

theorem mainDash : mainOptions dash = none := by decide

/-- **What `main` runs**: the operands, in the context of the options before them. -/
theorem emurootMain_runs_iff : emurootMain args = .runs cfg cmd ↔
    ∃ os used rest, args = used ++ rest ∧ Spelled dash mainOptions os used ∧
      Operands dash rest cmd ∧ cmd ≠ [] ∧ os.foldlM mainOption .create = .ok cfg := by
  constructor
  · intro h
    obtain ⟨e, ⟨os, hrun, hcfg⟩, hend⟩ := mainLoop.run_spec
      (I := fun s => ∃ os, Run (Getopt.Reads dash mainOptions) ⟨[], args⟩ os s.2 ∧
        os.foldlM mainOption Config.create = .ok s.1) (s := (.create, ⟨[], args⟩))
      (fun s s' hs hstep => by
        obtain ⟨os, hrun, hcfg⟩ := hs
        change mainStep s = .inl s' at hstep
        unfold mainStep at hstep
        split at hstep
        · cases hstep
        · rename_i o rest ho
          split at hstep
          · rename_i cfg1 hopt
            cases hstep
            refine ⟨os ++ [o], hrun.snoc ho, ?_⟩
            rw [List.foldlM_append, hcfg]
            show (mainOption s.1 o >>= fun cfg => List.foldlM mainOption cfg []) = _
            rw [hopt]
            rfl
          · cases hstep
        · split at hstep <;> cases hstep)
      ⟨[], .nil _, rfl⟩
    change mainStep e = .inr (emurootMain args) at hend
    rw [h] at hend
    unfold mainStep at hend
    split at hend
    · cases hend
    · split at hend
      · cases hend
      · cases hend
    · rename_i hnone
      split at hend
      · cases hend
      · rename_i hne
        cases hend
        obtain ⟨cfg, left, rest⟩ := e
        obtain rfl : left = [] := by
          cases left with
          | nil => rfl
          | cons c left => cases hnone
        obtain ⟨used, hargs, hs⟩ := (spelled_iff mainDash).1 hrun
        exact ⟨os, used, rest, hargs, hs, operands_of_ends hnone rfl hne, hne, hcfg⟩
  · rintro ⟨os, used, rest, rfl, hs, hrest, hne, hcfg⟩
    obtain ⟨hend, hcmd⟩ := hrest.ends mainOptions
    unfold emurootMain
    rw [mainLoop_reads (hs.run mainDash rest) hcfg]
    apply mainLoop.run_leave
    show mainStep (cfg, ⟨[], rest⟩) = _
    unfold mainStep
    rw [hend]
    dsimp only
    rw [hcmd]
    split
    · exact absurd rfl hne
    · rfl

/-! ## Settings -/

/-- A call of the library that an option stands for. -/
inductive Setting
  | root (path : CStr)
  | bind (host guest : CStr)
  | ids (uid gid : UInt32)
  | uname (sysname release machine : CStr)
  | idsFile (path : CStr)
  | verbose

namespace Setting

/-- The call; its error is let pass. -/
def call (cfg : Config) : Setting → Config
  | root path => { cfg with ctx := (setRoot cfg.ctx path).getD cfg.ctx }
  | bind host guest => { cfg with ctx := (emurootBind cfg.ctx host guest).getD cfg.ctx }
  | ids uid gid => { cfg with ctx := setFakeIds cfg.ctx uid gid }
  | uname sysname release machine =>
    { cfg with ctx := setFakeUname cfg.ctx sysname release machine }
  | idsFile path => (setIdsFile cfg path).getD cfg
  | verbose => { cfg with verbose := true }

/-- The option. -/
def opt : Setting → Opt Byte
  | root path => ('r'.toUInt8, some path)
  | bind host guest => ('b'.toUInt8, some (host ++ colon :: guest))
  | ids uid gid =>
    ('u'.toUInt8, some (Decimal.text uid.toNat ++ colon :: Decimal.text gid.toNat))
  | uname sysname release machine =>
    ('n'.toUInt8, some (sysname ++ colon :: (release ++ colon :: machine)))
  | idsFile path => ('s'.toUInt8, some path)
  | verbose => ('v'.toUInt8, none)

/-- A part of the argument of `-n`. -/
structure IsField (s : CStr) : Prop where
  ne_nil : s ≠ []
  short : s.length ≤ 64
  noColon : colon ∉ s

/-- The parts of the argument can be told apart. -/
def Clear : Setting → Prop
  | bind host _ => colon ∉ host
  | uname sysname release machine => IsField sysname ∧ IsField release ∧ IsField machine
  | _ => True

end Setting

theorem takeWhile_colon {s : CStr} (h : colon ∉ s) (t : CStr) :
    (s ++ colon :: t).takeWhile (· != colon) = s := by
  rw [List.takeWhile_append_of_pos]
  · simp
  · intro c hc
    simpa using fun he : c = colon => h (he ▸ hc)

/-- A binding as `-b` takes it apart. -/
def splitBinding (s : CStr) : Option (CStr × CStr) :=
  if colon ∉ s then none
  else
    let host := s.takeWhile (· != colon)
    some (host, s.drop (host.length + 1))

theorem splitBinding_append {host : CStr} (h : colon ∉ host) (guest : CStr) :
    splitBinding (host ++ colon :: guest) = some (host, guest) := by
  have hguest : (host ++ colon :: guest).drop (host.length + 1) = guest := by
    rw [← List.drop_drop, List.drop_left]
    rfl
  unfold splitBinding
  rw [if_neg (by simp)]
  dsimp only
  rw [takeWhile_colon h, hguest]

theorem optionBind_eq (ctx : Ctx) (s : CStr) :
    optionBind ctx s = (splitBinding s).map fun x => (emurootBind ctx x.1 x.2).getD ctx := by
  unfold optionBind splitBinding
  split <;> rfl

theorem optionBind_text {host : CStr} (h : colon ∉ host) (ctx : Ctx) (guest : CStr) :
    optionBind ctx (host ++ colon :: guest) = some ((emurootBind ctx host guest).getD ctx) := by
  rw [optionBind_eq, splitBinding_append h]
  rfl

/-- A number with nothing behind it. -/
theorem scanUnsigned_last {n : Nat} (hn : n < 2 ^ 64) :
    scanUnsigned (Decimal.text n) = some (UInt64.ofNat n, []) := by
  obtain ⟨d, ds, hds⟩ := List.exists_cons_of_ne_nil (Decimal.text_ne_nil n)
  have hdigits : ∀ c ∈ Decimal.text n, Decimal.isDigit c := fun c hc => Decimal.isDigit_text hc
  have hd : Decimal.isDigit d := hdigits d (hds ▸ List.mem_cons_self)
  have hskip : (Decimal.text n).dropWhile isSpace = Decimal.text n := by
    rw [hds, List.dropWhile_cons_of_neg (by simp [not_isSpace_of_isDigit hd])]
  have hsign : scanSign (Decimal.text n) = (false, Decimal.text n) := by
    rw [hds, scanSign_digit hd]
  have hval : strtoull false (Decimal.text n) = UInt64.ofNat n := by
    simp only [strtoull, Decimal.value_text, Bool.false_eq_true, if_false]
    exact if_neg (by omega)
  rw [scanUnsigned, hskip, hsign]
  dsimp only
  rw [List.takeWhile_eq_self_iff.2 hdigits, List.dropWhile_eq_nil_iff.2 hdigits, hval]
  exact if_neg (Decimal.text_ne_nil n)

theorem scanIds_text (uid gid : UInt32) :
    scanIds (Decimal.text uid.toNat ++ colon :: Decimal.text gid.toNat) = some (uid, gid) := by
  have huid : uid.toNat < 2 ^ 64 := by have := uid.toNat_lt; omega
  have hgid : gid.toNat < 2 ^ 64 := by have := gid.toNat_lt; omega
  have h1 := scanUnsigned_text (List.forall_mem_nil _) huid
    (by decide : Decimal.isDigit colon = false) (Decimal.text gid.toNat)
  rw [List.nil_append] at h1
  unfold scanIds
  rw [h1]
  simp [scanUnsigned_last hgid]

theorem scanField_text {s : CStr} (h : Setting.IsField s) (t : CStr) :
    scanField (s ++ colon :: t) = some (s, colon :: t) := by
  unfold scanField
  dsimp only
  rw [takeWhile_colon h.noColon, List.take_of_length_le h.short, if_neg h.ne_nil, List.drop_left]

theorem scanField_last {s : CStr} (h : Setting.IsField s) : scanField s = some (s, []) := by
  have hall : s.takeWhile (· != colon) = s :=
    List.takeWhile_eq_self_iff.2 fun c hc => by simpa using fun he : c = colon => h.noColon (he ▸ hc)
  unfold scanField
  dsimp only
  rw [hall, List.take_of_length_le h.short, if_neg h.ne_nil, List.drop_length]

theorem scanUname_text {sysname release machine : CStr} (hs : Setting.IsField sysname)
    (hr : Setting.IsField release) (hm : Setting.IsField machine) :
    scanUname (sysname ++ colon :: (release ++ colon :: machine)) = (sysname, release, machine) := by
  have hnext : ∀ t, scanNextField (colon :: t) = scanField t := fun t => if_pos rfl
  unfold scanUname
  rw [scanField_text hs]
  dsimp only
  rw [hnext, scanField_text hr]
  dsimp only
  rw [hnext, scanField_last hm]

/-- The option makes the call. -/
theorem mainOption_opt {st : Setting} (h : st.Clear) (cfg : Config) :
    mainOption cfg st.opt = .ok (st.call cfg) := by
  cases st with
  | root path => rfl
  | bind host guest =>
    unfold mainOption Setting.opt
    dsimp only [Option.getD_some]
    rw [if_neg (by decide), if_pos rfl, optionBind_text h]
    rfl
  | ids uid gid =>
    unfold mainOption Setting.opt
    dsimp only [Option.getD_some]
    rw [if_neg (by decide), if_neg (by decide), if_pos rfl, scanIds_text]
    rfl
  | uname sysname release machine =>
    unfold mainOption Setting.opt
    dsimp only [Option.getD_some]
    rw [if_neg (by decide), if_neg (by decide), if_neg (by decide), if_pos rfl,
      scanUname_text h.1 h.2.1 h.2.2]
    rfl
  | idsFile path => rfl
  | verbose => rfl

/-- **Settings are read back**: spelled as options in any way, before a command, they give the
context that the library's calls give in that order, and the command as it is. -/
theorem settings_read_back {sts : List Setting} (h : ∀ st ∈ sts, st.Clear) {used rest : List CStr}
    (hused : Spelled dash mainOptions (sts.map Setting.opt) used) (hrest : Operands dash rest cmd)
    (hne : cmd ≠ []) :
    emurootMain (used ++ rest) = .runs (sts.foldl Setting.call .create) cmd := by
  refine emurootMain_runs_iff.2 ⟨_, used, rest, rfl, hused, hrest, hne, ?_⟩
  generalize Config.create = cfg
  clear hused
  induction sts generalizing cfg with
  | nil => rfl
  | cons st sts ih =>
    rw [List.map_cons, List.foldlM_cons, mainOption_opt (h st List.mem_cons_self)]
    exact ih (fun st hst => h st (List.mem_cons_of_mem _ hst)) (st.call cfg)

/-- `emuroot -vr /x/ -b/a:/b -u 0:0 -nLi:5:arm -- -ls` -/
theorem settings_read_back_typical :
    emurootMain ([cstr "-vr", cstr "/x/", cstr "-b/a:/b", cstr "-u", cstr "0:0", cstr "-nLi:5:arm"] ++
        [cstr "--", cstr "-ls"]) =
      .runs ([Setting.verbose, .root (cstr "/x/"), .bind (cstr "/a") (cstr "/b"), .ids 0 0,
        .uname (cstr "Li") (cstr "5") (cstr "arm")].foldl Setting.call .create) [cstr "-ls"] := by
  have hfield : ∀ s ∈ [cstr "Li", cstr "5", cstr "arm"], Setting.IsField s := by
    have h : ∀ s ∈ [cstr "Li", cstr "5", cstr "arm"], s ≠ [] ∧ s.length ≤ 64 ∧ colon ∉ s := by
      decide +kernel
    exact fun s hs => ⟨(h s hs).1, (h s hs).2.1, (h s hs).2.2⟩
  refine settings_read_back ?_ ?_ (.marked _) (List.cons_ne_nil _ _)
  · simp only [List.forall_mem_cons, Setting.Clear, List.not_mem_nil, false_implies, implies_true,
      and_true, true_and]
    refine ⟨?_, hfield _ ?_, hfield _ ?_, hfield _ ?_⟩
    · decide +kernel
    all_goals simp
  · have h1 : Bundle mainOptions [('v'.toUInt8, none), ('r'.toUInt8, some (cstr "/x/"))]
        ['v'.toUInt8, 'r'.toUInt8] [cstr "/x/"] := .more rfl (.detached rfl)
    have h2 : Bundle mainOptions [('b'.toUInt8, some (cstr "/a:/b"))]
        ('b'.toUInt8 :: cstr "/a:/b") [] := .attached rfl (List.cons_ne_nil _ _)
    have h3 : Bundle mainOptions [('u'.toUInt8, some (cstr "0:0"))] ['u'.toUInt8] [cstr "0:0"] :=
      .detached rfl
    have h4 : Bundle mainOptions [('n'.toUInt8, some (cstr "Li:5:arm"))]
        ('n'.toUInt8 :: cstr "Li:5:arm") [] := .attached rfl (List.cons_ne_nil _ _)
    exact .cons h1 (.cons h2 (.cons h3 (.cons h4 .nil)))

end Emuroot
