import Emuroot.Lib.Words
import Emuroot.Proof.Options
import Emuroot.Proof.Outcome

/-!
# What a command without tracing is told

`emuroot_run_envonly` exports the settings to its command. **`exports_read_back`**: the buffer for the
bindings is never too small, and what is exported reads back, as the options of the command line do,
as the settings: the root and the ids always, and the bindings unless a path has one of the bytes
that separate them. A setting that is not there is not exported, and not taken out either: the
command then sees what `emuroot` itself was given under that name.
-/

namespace Emuroot

variable {w : Nat} {σ : Type} {P : Platform w σ} {ctx : Ctx} {cfg : Config} {args cmd : List CStr}

/-- A binding as it is exported. -/
def bindingText (b : Binding) : CStr := b.host ++ colon :: b.guest

/-! ## The buffer -/

/-- The bindings behind others, where each has the room that it needs. -/
theorem exportBindings_behind {size room : Nat} {bs : List Binding}
    (hlen : ∀ b ∈ bs, (bindingText b).length < room) {text : CStr} (hne : text ≠ [])
    (hroom : text.length + bs.length * room < size) :
    exportBindings size bs (text, text.length) =
      (text ++ bs.flatMap fun b => semicolon :: bindingText b,
        (text ++ bs.flatMap fun b => semicolon :: bindingText b).length) := by
  induction bs generalizing text with
  | nil => simp [exportBindings]
  | cons b bs ih =>
    obtain ⟨hb, hbs⟩ := List.forall_mem_cons.1 hlen
    rw [List.length_cons, Nat.succ_mul] at hroom
    have hpos : text.length ≠ 0 := fun h => hne (List.eq_nil_of_length_eq_zero h)
    have hentry : snprintf (size - text.length) (semicolon :: bindingText b) =
        semicolon :: bindingText b := by
      unfold snprintf
      apply List.take_of_length_le
      rw [List.length_cons]
      omega
    have htext : (text ++ semicolon :: bindingText b).length =
        text.length + (semicolon :: bindingText b).length := List.length_append
    unfold exportBindings
    rw [if_pos (by omega)]
    dsimp only
    rw [if_neg hpos]
    show exportBindings size bs (text ++ snprintf (size - text.length) (semicolon :: bindingText b),
      text.length + (semicolon :: bindingText b).length) = _
    rw [hentry, ← htext, ih hbs (by simp)]
    · simp
    · rw [htext, List.length_cons]
      omega

theorem intercalate_eq (b : Binding) (bs : List Binding) :
    List.intercalate [semicolon] ((b :: bs).map bindingText) =
      bindingText b ++ bs.flatMap fun b => semicolon :: bindingText b := by
  induction bs generalizing b with
  | nil => simp
  | cons c bs ih =>
    have hc := ih c
    rw [List.map_cons] at hc ⊢
    rw [List.map_cons, List.intercalate_cons_cons, hc]
    simp

/-- **Nothing is cut off.** -/
theorem exportBindings_fits (h : ctx.Fits) (hne : ctx.bindings ≠ []) :
    exportBindings (maxBindings * (2 * pathLen + 2)) ctx.bindings ([], 0) =
      (List.intercalate [semicolon] (ctx.bindings.map bindingText),
        (List.intercalate [semicolon] (ctx.bindings.map bindingText)).length) := by
  have hlen : ∀ b ∈ ctx.bindings, (bindingText b).length < 2 * pathLen := by
    intro b hb
    have hhost := (h.bindings b hb).host
    have hguest := (h.bindings b hb).guest
    unfold FitsPath at hhost hguest
    rw [bindingText, List.length_append, List.length_cons]
    omega
  have hroom : ctx.bindings.length * (2 * pathLen) < maxBindings * (2 * pathLen + 2) :=
    Nat.lt_of_le_of_lt (Nat.mul_le_mul_right (2 * pathLen) h.nbindings) (by decide)
  obtain ⟨b, bs, hbs⟩ := List.exists_cons_of_ne_nil hne
  rw [hbs, List.length_cons, Nat.succ_mul] at hroom
  rw [hbs] at hlen ⊢
  obtain ⟨hb, hlen⟩ := List.forall_mem_cons.1 hlen
  rw [intercalate_eq]
  have hfirst : snprintf (maxBindings * (2 * pathLen + 2)) (bindingText b) = bindingText b := by
    unfold snprintf
    apply List.take_of_length_le
    omega
  have htext : bindingText b ≠ [] := by simp [bindingText]
  unfold exportBindings
  rw [if_pos (by decide)]
  show exportBindings _ bs (snprintf (maxBindings * (2 * pathLen + 2)) (bindingText b),
    0 + (bindingText b).length) = _
  rw [hfirst, Nat.zero_add]
  exact exportBindings_behind hlen htext (by omega)

/-! ## Reading back -/

theorem splitBinding_some {s host guest : CStr} (h : splitBinding s = some (host, guest)) :
    s = host ++ colon :: guest ∧ colon ∉ host := by
  by_cases hmem : colon ∈ s
  · obtain ⟨host', guest', rfl, hno⟩ := List.eq_append_cons_of_mem hmem
    rw [splitBinding_append hno] at h
    cases h
    exact ⟨rfl, hno⟩
  · rw [splitBinding, if_pos hmem] at h
    cases h

/-- The bytes that separate bindings and their parts are in none of them. -/
def Separable (bs : List Binding) : Prop :=
  ∀ b ∈ bs, colon ∉ b.host ∧ semicolon ∉ b.host ∧ semicolon ∉ b.guest

/-- The bindings as they are exported, taken apart. -/
def readBindings (text : CStr) : List (Option (CStr × CStr)) :=
  (text.splitOn semicolon).map splitBinding

theorem readBindings_iff {bs : List Binding} (hne : bs ≠ []) :
    readBindings (List.intercalate [semicolon] (bs.map bindingText)) =
        bs.map (fun b => some (b.host, b.guest)) ↔ Separable bs := by
  have hsemi : semicolon ≠ colon := by decide
  unfold readBindings
  constructor
  · intro h b hb
    have hmem : some (b.host, b.guest) ∈ bs.map fun b => some (b.host, b.guest) :=
      List.mem_map_of_mem (f := fun b : Binding => some (b.host, b.guest)) hb
    obtain ⟨piece, hpiece, hsplit⟩ := List.mem_map.1 (h ▸ hmem)
    obtain ⟨htext, hcolon⟩ := splitBinding_some hsplit
    have hno := Words.sep_not_mem_splitOn hpiece
    rw [htext, List.mem_append, List.mem_cons, not_or, not_or] at hno
    exact ⟨hcolon, hno.1, hno.2.2⟩
  · intro h
    have hpieces : ∀ l ∈ bs.map bindingText, semicolon ∉ l := by
      intro l hl
      obtain ⟨b, hb, rfl⟩ := List.mem_map.1 hl
      obtain ⟨-, hhost, hguest⟩ := h b hb
      rw [bindingText, List.mem_append, List.mem_cons, not_or, not_or]
      exact ⟨hhost, hsemi, hguest⟩
    rw [List.splitOn_intercalate _ hpieces (by simpa using hne), List.map_map]
    exact List.map_congr_left fun b hb => splitBinding_append (h b hb).1 b.guest

/-! ## The environment -/

theorem setenv_self (env : CStr → Option CStr) (name value : CStr) :
    setenv env name value name = some value := Function.update_self ..

theorem setenv_other (env : CStr → Option CStr) {name name' : CStr} (value : CStr)
    (h : name' ≠ name) : setenv env name value name' = env name' := Function.update_of_ne h ..

/-- A name that is set or not leaves the others. -/
theorem setenv_unless (c : Prop) [Decidable c] (env : CStr → Option CStr) {name name' : CStr}
    (value : CStr) (h : name' ≠ name) :
    (if c then env else setenv env name value) name' = env name' := by
  split
  · rfl
  · exact setenv_other env value h

/-- Two numbers of 32 bits and a colon fit their buffer. -/
theorem ids_fit (uid gid : UInt32) :
    snprintf 32 (Decimal.text uid.toNat ++ colon :: Decimal.text gid.toNat) =
      Decimal.text uid.toNat ++ colon :: Decimal.text gid.toNat := by
  have hlen : ∀ v : UInt32, (Decimal.text v.toNat).length ≤ 10 := fun v =>
    Decimal.length_text (Nat.lt_of_lt_of_le v.toNat_lt (by decide)) (by decide)
  have huid := hlen uid
  have hgid := hlen gid
  unfold snprintf
  apply List.take_of_length_le
  rw [List.length_append, List.length_cons]
  omega

/-- The names that are exported. -/
def exportNames : List CStr :=
  [cstr "EMUROOT_ROOT", cstr "EMUROOT_BINDINGS", cstr "EMUROOT_FAKE_IDS"]

theorem envonlyEnv_other (ctx : Ctx) (env : CStr → Option CStr) {name : CStr}
    (h : name ∉ exportNames) : envonlyEnv ctx env name = env name := by
  simp only [exportNames, List.mem_cons, List.not_mem_nil, or_false, not_or] at h
  obtain ⟨hroot, hbindings, hids⟩ := h
  unfold envonlyEnv
  dsimp only
  rw [setenv_unless _ _ _ hids, setenv_unless _ _ _ hbindings, setenv_unless _ _ _ hroot]

/-! What is not set keeps the value that the environment has for it. -/

theorem envonlyEnv_root_unset (h : ctx.root = []) (env : CStr → Option CStr) :
    envonlyEnv ctx env (cstr "EMUROOT_ROOT") = env (cstr "EMUROOT_ROOT") := by
  have hbindings : cstr "EMUROOT_ROOT" ≠ cstr "EMUROOT_BINDINGS" := by decide
  have hids : cstr "EMUROOT_ROOT" ≠ cstr "EMUROOT_FAKE_IDS" := by decide
  unfold envonlyEnv
  dsimp only
  rw [if_pos h, setenv_unless _ _ _ hids, setenv_unless _ _ _ hbindings]

theorem envonlyEnv_bindings_unset (h : ctx.bindings = []) (env : CStr → Option CStr) :
    envonlyEnv ctx env (cstr "EMUROOT_BINDINGS") = env (cstr "EMUROOT_BINDINGS") := by
  have hroot : cstr "EMUROOT_BINDINGS" ≠ cstr "EMUROOT_ROOT" := by decide
  have hids : cstr "EMUROOT_BINDINGS" ≠ cstr "EMUROOT_FAKE_IDS" := by decide
  unfold envonlyEnv
  rw [h, exportBindings]
  dsimp only
  rw [if_pos rfl, setenv_unless _ _ _ hids, setenv_unless _ _ _ hroot]

theorem envonlyEnv_ids_unset (h : ctx.hasFakeIds = false) (env : CStr → Option CStr) :
    envonlyEnv ctx env (cstr "EMUROOT_FAKE_IDS") = env (cstr "EMUROOT_FAKE_IDS") := by
  have hroot : cstr "EMUROOT_FAKE_IDS" ≠ cstr "EMUROOT_ROOT" := by decide
  have hbindings : cstr "EMUROOT_FAKE_IDS" ≠ cstr "EMUROOT_BINDINGS" := by decide
  unfold envonlyEnv
  dsimp only
  rw [if_pos (by rw [h, Bool.not_false]), setenv_unless _ _ _ hbindings,
    setenv_unless _ _ _ hroot]

/-! What is set is read as it was set. -/

theorem envonlyEnv_root (h : ctx.root ≠ []) (env : CStr → Option CStr) :
    envonlyEnv ctx env (cstr "EMUROOT_ROOT") = some ctx.root := by
  have hbindings : cstr "EMUROOT_ROOT" ≠ cstr "EMUROOT_BINDINGS" := by decide
  have hids : cstr "EMUROOT_ROOT" ≠ cstr "EMUROOT_FAKE_IDS" := by decide
  unfold envonlyEnv
  dsimp only
  rw [if_neg h, setenv_unless _ _ _ hids, setenv_unless _ _ _ hbindings, setenv_self]

theorem envonlyEnv_bindings (h : ctx.Fits) (hne : ctx.bindings ≠ []) (env : CStr → Option CStr) :
    envonlyEnv ctx env (cstr "EMUROOT_BINDINGS") =
      some (List.intercalate [semicolon] (ctx.bindings.map bindingText)) := by
  have hids : cstr "EMUROOT_BINDINGS" ≠ cstr "EMUROOT_FAKE_IDS" := by decide
  have hpos : (List.intercalate [semicolon] (ctx.bindings.map bindingText)).length ≠ 0 := by
    obtain ⟨b, bs, hbs⟩ := List.exists_cons_of_ne_nil hne
    rw [hbs, intercalate_eq]
    simp [bindingText]
  unfold envonlyEnv
  rw [exportBindings_fits h hne]
  dsimp only
  rw [setenv_unless _ _ _ hids, if_neg hpos, setenv_self]

theorem envonlyEnv_ids (h : ctx.hasFakeIds) (env : CStr → Option CStr) :
    envonlyEnv ctx env (cstr "EMUROOT_FAKE_IDS") =
      some (Decimal.text ctx.fakeUid.toNat ++ colon :: Decimal.text ctx.fakeGid.toNat) := by
  unfold envonlyEnv
  dsimp only
  rw [if_neg (by simp [h]), setenv_self, ids_fit]

theorem envonlyCtx_fits (hreal : P.ShortNames) (H : RunHost w σ) (h : cfg.Fits) :
    (H.envonlyCtx P cfg).Fits := by
  unfold RunHost.envonlyCtx
  split
  · exact h.ctx
  · exact canonicalCtx_fits hreal H.fs h.ctx

/-- **What a command without tracing is told**: for every command line, whether or not tracing was
tried before, the exports are the settings, in full, and read back as them, the bindings exactly if
their paths have none of the bytes that separate them. What the environment has for a setting that
is not there stays, as does everything else. -/
theorem exports_read_back (hreal : P.ShortNames) (hmain : emurootMain args = .runs cfg cmd)
    (H : RunHost w σ) (env : CStr → Option CStr) :
    let ctx := H.envonlyCtx P cfg
    let out := envonlyEnv ctx env
    (ctx.root ≠ [] → out (cstr "EMUROOT_ROOT") = some ctx.root) ∧
      (ctx.hasFakeIds →
        (out (cstr "EMUROOT_FAKE_IDS")).bind scanIds = some (ctx.fakeUid, ctx.fakeGid)) ∧
      (ctx.bindings ≠ [] →
        out (cstr "EMUROOT_BINDINGS") =
            some (List.intercalate [semicolon] (ctx.bindings.map bindingText)) ∧
          ((out (cstr "EMUROOT_BINDINGS")).map readBindings =
              some (ctx.bindings.map fun b => some (b.host, b.guest)) ↔
            Separable ctx.bindings)) ∧
      (ctx.root = [] → out (cstr "EMUROOT_ROOT") = env (cstr "EMUROOT_ROOT")) ∧
      (ctx.hasFakeIds = false →
        out (cstr "EMUROOT_FAKE_IDS") = env (cstr "EMUROOT_FAKE_IDS")) ∧
      (ctx.bindings = [] →
        out (cstr "EMUROOT_BINDINGS") = env (cstr "EMUROOT_BINDINGS")) ∧
      ∀ name, name ∉ exportNames → out name = env name := by
  have hfits : (H.envonlyCtx P cfg).Fits := envonlyCtx_fits hreal H (emurootMain_fits hmain)
  refine ⟨fun h => envonlyEnv_root h env, fun h => ?_, fun h => ?_,
    fun h => envonlyEnv_root_unset h env, fun h => envonlyEnv_ids_unset h env,
    fun h => envonlyEnv_bindings_unset h env, fun name h => envonlyEnv_other _ env h⟩
  · rw [envonlyEnv_ids h, Option.bind_some, scanIds_text]
  · have hvalue := envonlyEnv_bindings hfits h env
    refine ⟨hvalue, ?_⟩
    rw [hvalue, Option.map_some, Option.some_inj]
    exact readBindings_iff h

/-- A root, two bindings and ids on a system without tracing. -/
def exportedConfig : Config :=
  { Config.create with
    ctx :=
      { Ctx.create with
        root := cstr "/r"
        bindings := [⟨cstr "/h", cstr "/g", []⟩, ⟨cstr "/etc", cstr "/host/etc", []⟩]
        hasFakeIds := true
        fakeUid := 0
        fakeGid := 7 } }

theorem exports_read_back_typical :
    let out := envonlyEnv exportedConfig.ctx fun _ => none
    out (cstr "EMUROOT_ROOT") = some (cstr "/r") ∧
      (out (cstr "EMUROOT_FAKE_IDS")).bind scanIds = some (0, 7) ∧
      out (cstr "EMUROOT_BINDINGS") = some (cstr "/h:/g;/etc:/host/etc") ∧
      (out (cstr "EMUROOT_BINDINGS")).map readBindings =
        some [some (cstr "/h", cstr "/g"), some (cstr "/etc", cstr "/host/etc")] := by
  have hreal : linuxPlatform.ShortNames := fun _ _ _ h => nomatch h
  have hmain : emurootMain
      [cstr "-r/r", cstr "-b/h:/g", cstr "-b/etc:/host/etc", cstr "-u0:7", cstr "ls"] =
      .runs exportedConfig [cstr "ls"] := rfl
  have hsep : Separable exportedConfig.ctx.bindings := by
    unfold Separable
    decide
  obtain ⟨hroot, hids, hbindings, -⟩ :=
    exports_read_back hreal hmain untracedHost fun _ => none
  obtain ⟨htext, hread⟩ := hbindings (by decide)
  exact ⟨hroot (by decide), hids rfl, htext, hread.2 hsep⟩

end Emuroot
