import Emuroot.Proof.Chroot
import Emuroot.Proof.Confined
import Emuroot.Proof.Grants
import Emuroot.Proof.Links

/-!
# Where permissions are granted

`stat` and `chmod` of the tracer follow every symlink in the real root. `grants_inside_iff`: all
that the entry of a call makes accessible lies inside exactly if what it reaches by one of the ways
around the resolver does (`Exposed`).
-/

namespace Emuroot

open Words

variable {w : Nat} {σ : Type} {P : Platform w σ} {s u : St w σ} {d : PathSyscall}
  {E : WalkEnv} {pt : Point} {why : Why} {path : CStr} {need : Dac} {ws : List CStr}

/-- The root and the hosts of the bindings are canonical paths, and guest names are absolute. -/
structure CanonicalNames (E : WalkEnv) : Prop where
  root : Tight E.root
  hosts : ∀ b ∈ E.ctx.bindings, Tight (unlessRoot b.host)
  guests : ∀ b ∈ E.ctx.bindings, b.guest.head? = some slash

/-- The host directory of the mapping for a guest path, by its components. -/
def WalkEnv.baseDir (E : WalkEnv) (cs : List CStr) : List CStr :=
  words slash (hostBase E.ctx E.root (pathStr cs))

/-- How a path that bits are added to can lie outside: the walk stopped early, the path is a symlink
that was not followed, the path lies above the root or the host of the binding, a symlink leads to
that, or the host path did not fit the buffers. -/
inductive Exposed (E : WalkEnv) (why : Why) (pt : Point) (path : CStr) : Prop
  | early (h : why.isEarly)
  | link (h : E.rl (E.img pt.cs) ≠ none) (hp : words slash path = words slash (E.img pt.cs))
  | above (h : (words slash path).length < (E.baseDir pt.cs).length)
  | way {k : Nat} (hk : k < (E.baseDir pt.cs).length)
    (h : E.rl (pathStr ((E.baseDir pt.cs).take (k + 1))) ≠ none)
  | cut (h : ¬((E.root ++ pathStr pt.cs).length < pathLen ∧
      (dirPlaced E.ctx E.root pt.cs).length + 1 < pathLen))

/-! ## The host path that bits are added to -/

theorem Tight.words_names {p : CStr} (h : Tight p) :
    (∀ c ∈ words slash p, IsName c) ∧ p = glue slash (words slash p) := by
  obtain ⟨ws, hw, rfl⟩ := h
  rw [words_glue fun c hc => (hw c hc).word]
  exact ⟨hw, rfl⟩

/-- The host path, with a slash behind it or not. -/
theorem unwalked_tight (hs : ¬why.isEarly) {pt' : Point} (hh : Halt E pt' why pt)
    (hfit : (E.root ++ pathStr pt.cs).length < pathLen)
    (hhost : (dirPlaced E.ctx E.root pt.cs).length + 1 < pathLen)
    (hws : dirPlaced E.ctx E.root pt.cs = glue slash ws) :
    (E.img pt.cs = glue slash ws ∨ E.img pt.cs = glue slash ws ++ [slash]) ∧
      (unwalked E pt.walk = glue slash ws ∧ ws ≠ [] ∨
        unwalked E pt.walk = glue slash ws ++ [slash]) := by
  have himg : E.img pt.cs = glue slash ws ∧ ws ≠ [] ∨ E.img pt.cs = glue slash ws ++ [slash] := by
    rcases img_dirPlaced hfit hhost with hi | hi
    · rw [hws] at hi
      by_cases hne : ws = []
      · right
        rw [hi, hne]
        rfl
      · left
        rw [hi, orSlash, if_neg fun h0 => hne (glue_eq_nil.1 h0)]
        exact ⟨rfl, hne⟩
    · right
      rw [hi, hws]
  refine ⟨himg.imp_left And.left, ?_⟩
  -- a slash is put behind a path without one
  have hends : endsWithSlash (E.img pt.cs) = true → unwalked E pt.walk = E.img pt.cs := by
    intro he
    have hj : pt.joined E = E.img pt.cs := by
      unfold Point.joined
      rw [hh.slashes hs, he]
      split
      · rfl
      · simp [snprintf]
    rw [unwalked_eq, hj, he]
    simp
  have hone : unwalked E pt.walk = E.img pt.cs ∨ unwalked E pt.walk = E.img pt.cs ++ [slash] := by
    have hj : pt.joined E = E.img pt.cs ∨ pt.joined E = E.img pt.cs ++ [slash] := by
      unfold Point.joined
      rw [hh.slashes hs]
      split
      · exact .inl rfl
      · cases he : endsWithSlash (E.img pt.cs) with
        | true => simp [snprintf]
        | false =>
          rcases hn : pathLen - (E.img pt.cs).length - 1 with _ | m <;> simp [snprintf, hn]
    rw [unwalked_eq]
    split
    · rename_i hcond
      simp only [Bool.and_eq_true, Bool.not_eq_true'] at hcond
      refine .inr ?_
      rcases hj with hj | hj
      · rw [hj]
      · rw [hj, endsWithSlash_append (by simp)] at hcond
        exact absurd hcond.1.2 (by decide)
    · exact hj
  rcases himg with ⟨hi, hne⟩ | hi
  · rw [hi] at hone
    exact hone.imp_left fun h => ⟨h, hne⟩
  · right
    rw [hends (by rw [hi, endsWithSlash_append (by simp)]; rfl), hi]

/-- Bits are added to the host path itself or to the directory it is in. -/
theorem dacPath_words {host : CStr} (hw : ∀ c ∈ ws, IsWord slash c)
    (hhost : host = glue slash ws ∧ ws ≠ [] ∨ host = glue slash ws ++ [slash])
    (hlen : host.length < pathLen) (h : dacPath host need = some path) :
    ∃ k ≤ ws.length, words slash path = ws.take k := by
  have hself : words slash host = ws := by
    rcases hhost with ⟨h, -⟩ | h
    · rw [h, words_glue hw]
    · rw [h, words_append_sep_end, words_glue hw]
  have hparent : ∀ (vs : List CStr) (c : CStr), (∀ v ∈ vs, IsWord slash v) → slash ∉ c →
      host = glue slash vs ++ slash :: c → dacPath host .parentW = some path →
      words slash path = vs := by
    intro vs c hvs hc heq hp
    rw [dacPath, snprintf_of_lt hlen, heq, strrchr_append hc] at hp
    dsimp only [Option.map_some] at hp
    cases hp
    by_cases h0 : (glue slash vs).length = 0
    · have hnil : vs = [] := glue_eq_nil.1 (List.length_eq_zero_iff.1 h0)
      rw [if_pos h0, hnil]
      exact words_sep_cons []
    · rw [if_neg h0, List.take_left, words_glue hvs]
  cases need with
  | none => cases h
  | read | rw =>
    cases h
    exact ⟨ws.length, Nat.le_refl _, by rw [List.take_length, hself]⟩
  | parentW =>
    rcases hhost with ⟨heq, hne⟩ | heq
    · rcases List.eq_nil_or_concat' ws with h0 | ⟨vs, c, rfl⟩
      · exact (hne h0).elim
      · have hvs : ∀ v ∈ vs, IsWord slash v := fun v hv => hw v (List.mem_append_left _ hv)
        refine ⟨vs.length, by simp, ?_⟩
        rw [List.take_left]
        refine hparent vs c hvs (hw c (by simp)).sep_not_mem ?_ h
        rw [heq, glue_append, glue_cons, glue_nil, List.append_nil]
    · refine ⟨ws.length, Nat.le_refl _, ?_⟩
      rw [List.take_length]
      exact hparent ws [] hw (by simp) heq h

/-- The directory of the mapping is on the way. -/
theorem hostBase_stem (hfit : (E.root ++ pathStr pt.cs).length < pathLen) :
    Stem slash (hostBase E.ctx E.root (pathStr pt.cs)) (dirPlaced E.ctx E.root pt.cs) := by
  have hcut : snprintf pathLen (E.root ++ pathStr pt.cs) = E.root ++ pathStr pt.cs :=
    snprintf_of_lt hfit
  have hglue : pt.cs ≠ [] → pathStr pt.cs = glue slash pt.cs := pathStr_of_ne
  unfold hostBase dirPlaced place
  rw [hcut]
  cases hb : bestBinding E.ctx (pathStr pt.cs) with
  | some b =>
    obtain ⟨-, -, hrest, -⟩ := Binding.exists_rest (bestBinding_mem hb).2 (head?_pathStr pt.cs)
    refine ⟨_, rfl, fun a ha => ?_⟩
    dsimp only at ha
    rw [drop_append_length_add] at ha
    by_cases hne : pt.cs = []
    · rw [hne, glue_nil, List.drop_nil] at ha
      cases ha
    · rw [← hglue hne] at ha
      exact hrest a ha
  | none =>
    dsimp only
    cases hm : mountedBinding E.ctx (E.root ++ pathStr pt.cs) with
    | none => exact ⟨glue slash pt.cs, rfl, head?_glue _⟩
    | some m =>
      refine ⟨(glue slash pt.cs).drop (m.mount.length - E.root.length), ?_, fun a ha => ?_⟩
      · dsimp only [placed]
        rw [List.drop_append, List.append_assoc]
      · by_cases hne : pt.cs = []
        · rw [hne, glue_nil, List.drop_nil] at ha
          cases ha
        by_cases hle : m.mount.length ≤ E.root.length
        · rw [Nat.sub_eq_zero_of_le hle, List.drop_zero] at ha
          exact head?_glue _ a ha
        · obtain ⟨r, hr, hslash⟩ := (mounted_stem hm).2
          have hdrop := congrArg (List.drop m.mount.length) hr
          rw [List.drop_left, List.drop_append, List.drop_eq_nil_of_le (by omega), List.nil_append,
            hglue hne] at hdrop
          exact hslash a (hdrop ▸ ha)

/-- It lies at the root or at the host of a binding, or below. -/
theorem exists_top (hE : CanonicalNames E) (hfit : (E.root ++ pathStr pt.cs).length < pathLen) :
    Tight (hostBase E.ctx E.root (pathStr pt.cs)) ∧
      ∃ top ∈ E.tops, words slash top <+: E.baseDir pt.cs ∧ ∀ c ∈ words slash top, IsName c := by
  have htop : ∀ b ∈ E.ctx.bindings, b.host ∈ E.tops := fun b hb =>
    List.mem_cons_of_mem _ (List.mem_map_of_mem hb)
  have hcut : snprintf pathLen (E.root ++ pathStr pt.cs) = E.root ++ pathStr pt.cs :=
    snprintf_of_lt hfit
  unfold WalkEnv.baseDir hostBase
  rw [hcut]
  cases hb : bestBinding E.ctx (pathStr pt.cs) with
  | some b =>
    have hmem := (bestBinding_mem hb).1
    have ht := hE.hosts b hmem
    refine ⟨ht, b.host, htop b hmem, ?_⟩
    rw [← words_unlessRoot b.host]
    exact ⟨List.prefix_rfl, ht.words_names.1⟩
  | none =>
    dsimp only
    cases hm : mountedBinding E.ctx (E.root ++ pathStr pt.cs) with
    | none =>
      refine ⟨hE.root, orSlash E.root, List.mem_cons_self, ?_⟩
      rw [words_orSlash]
      exact ⟨List.prefix_rfl, hE.root.words_names.1⟩
    | some m =>
      dsimp only
      have hmem := mountedBinding_mem hm
      have ht := hE.hosts m hmem
      have htail : Tight (E.root.drop m.mount.length) := by
        by_cases hle : m.mount.length ≤ E.root.length
        · exact hE.root.drop (Stem.of_prefix (mounted_stem hm).2 (List.prefix_append _ _) hle)
        · rw [List.drop_eq_nil_of_le (by omega)]
          exact ⟨[], by simp, rfl⟩
      refine ⟨ht.append htail, m.host, htop m hmem, ?_⟩
      rw [words_append_of_head (by rw [htail.words_names.2]; exact head?_glue _),
        ← words_unlessRoot m.host]
      exact ⟨List.prefix_append _ _, ht.words_names.1⟩

/-- The host path at `pt`, by its components: the mapping's own directory comes first, and of those
behind it only the last one may be a link, one that is not followed. -/
structure Laid (E : WalkEnv) (why : Why) (pt : Point) (ws : List CStr) : Prop where
  names : ∀ c ∈ ws, IsName c
  img : E.img pt.cs = glue slash ws ∨ E.img pt.cs = glue slash ws ++ [slash]
  host : unwalked E pt.walk = glue slash ws ∧ ws ≠ [] ∨ unwalked E pt.walk = glue slash ws ++ [slash]
  base : E.baseDir pt.cs <+: ws
  below : ∀ j, (E.baseDir pt.cs).length ≤ j → j < ws.length →
    E.rl (pathStr (ws.take (j + 1))) = none ∨
      why = .last ∧ E.followLast = false ∧ j + 1 = ws.length ∧ pathStr ws = E.img pt.cs

theorem Laid.isWord (h : Laid E why pt ws) : ∀ c ∈ ws, IsWord slash c := fun c hc => (h.names c hc).word

theorem Laid.words_img (h : Laid E why pt ws) : words slash (E.img pt.cs) = ws := by
  rcases h.img with hi | hi
  · rw [hi, words_glue h.isWord]
  · rw [hi, words_append_sep_end, words_glue h.isWord]

/-- A component behind the mapping's own directory is one that the walk has gone past. -/
theorem below_placed {guest : CStr} (hs : StopsAt E guest why pt) (hearly : ¬why.isEarly)
    (hw : ∀ c ∈ ws, IsWord slash c)
    (himg : E.img pt.cs = glue slash ws ∨ E.img pt.cs = glue slash ws ++ [slash])
    (hbaseEq : hostBase E.ctx E.root (pathStr pt.cs) = glue slash (E.baseDir pt.cs))
    (hbase : E.baseDir pt.cs <+: ws) {j : Nat} (hle : (E.baseDir pt.cs).length ≤ j)
    (hj : j < ws.length) :
    E.rl (pathStr (ws.take (j + 1))) = none ∨
      why = .last ∧ E.followLast = false ∧ j + 1 = ws.length ∧ pathStr ws = E.img pt.cs := by
  have hne : ws.take (j + 1) ≠ [] := by
    intro h0
    have := congrArg List.length h0
    rw [List.length_take, List.length_nil] at this
    omega
  have hwords : ∀ c ∈ ws.take (j + 1), IsWord slash c := fun c hc => hw c (List.mem_of_mem_take hc)
  have hstem : Stem slash (glue slash (ws.take (j + 1))) (E.img pt.cs) := by
    have h : Stem slash (glue slash (ws.take (j + 1))) (glue slash ws) := stem_glue_take ws (j + 1)
    rcases himg with hi | hi
    · rwa [hi]
    · rw [hi]
      exact h.trans ⟨[slash], rfl, by simp⟩
  have hlonger : (hostBase E.ctx E.root (pathStr pt.cs)).length <
      (glue slash (ws.take (j + 1))).length := by
    obtain ⟨r, hr⟩ : E.baseDir pt.cs <+: ws.take (j + 1) :=
      List.prefix_take_iff.2 ⟨hbase, Nat.le_succ_of_le hle⟩
    have hrne : r ≠ [] := by
      rintro rfl
      have := congrArg List.length hr
      rw [List.append_nil, List.length_take] at this
      omega
    rw [← hr, glue_append, hbaseEq, List.length_append]
    exact Nat.lt_add_of_pos_right (List.length_pos_iff.2 fun h0 => hrne (glue_eq_nil.1 h0))
  obtain ⟨m, hm, hmle, heq⟩ := below_img E hs.good.words hstem hlonger (getLast?_glue_ne hwords)
  rcases hs.resolved with hres | ⟨hres, hlast⟩
  · exact .inl (by rw [pathStr_of_ne hne, heq]; exact hres m hm hmle)
  rcases Nat.lt_or_eq_of_le hmle with hlt | rfl
  · have h := hres m hm (by rw [List.length_dropLast]; omega)
    rw [List.dropLast_eq_take, List.take_take, Nat.min_eq_left (by omega)] at h
    exact .inl (by rw [pathStr_of_ne hne, heq]; exact h)
  · -- all of the path, so it is the component that the walk stopped at
    rw [List.take_length] at heq
    have hself : words slash (E.img pt.cs) = ws := by
      rcases himg with hi | hi
      · rw [hi, words_glue hw]
      · rw [hi, words_append_sep_end, words_glue hw]
    have hall : ws.take (j + 1) = ws := by
      rw [← words_glue hwords, heq, hself]
    have hlen := congrArg List.length hall
    rw [List.length_take] at hlen
    rw [hall] at hne heq
    have hpath : pathStr ws = E.img pt.cs := (pathStr_of_ne hne).trans heq
    rcases hlast with ⟨hwhy, hf⟩ | ⟨rfl, -⟩ | rfl
    · exact .inr ⟨hwhy, hf, by omega, hpath⟩
    · exact absurd trivial hearly
    · exact absurd trivial hearly

theorem exists_laid {guest : CStr} (hE : CanonicalNames E) (hs : StopsAt E guest why pt)
    (hearly : ¬why.isEarly) (hfit : (E.root ++ pathStr pt.cs).length < pathLen)
    (hhost : (dirPlaced E.ctx E.root pt.cs).length + 1 < pathLen) : ∃ ws, Laid E why pt ws := by
  obtain ⟨ws, hws, hD⟩ : Tight (dirPlaced E.ctx E.root pt.cs) :=
    tight_dirPlaced hE.root hE.hosts hs.good.names
  have hword : ∀ c ∈ ws, IsWord slash c := fun c hc => (hws c hc).word
  obtain ⟨himg, hun⟩ : (E.img pt.cs = glue slash ws ∨ E.img pt.cs = glue slash ws ++ [slash]) ∧
      (unwalked E pt.walk = glue slash ws ∧ ws ≠ [] ∨
        unwalked E pt.walk = glue slash ws ++ [slash]) := by
    obtain ⟨p, -, hh⟩ := id hs
    exact unwalked_tight hearly hh hfit hhost hD
  have hbaseEq := (exists_top hE hfit).1.words_names.2
  have hbase : E.baseDir pt.cs <+: ws := by
    have h : Stem slash (hostBase E.ctx E.root (pathStr pt.cs)) (dirPlaced E.ctx E.root pt.cs) :=
      hostBase_stem hfit
    rw [hD] at h
    obtain ⟨n, -, hn⟩ := stem_glue hword h
    rw [WalkEnv.baseDir, hn, words_glue fun c hc => hword c (List.mem_of_mem_take hc)]
    exact List.take_prefix n ws
  exact ⟨ws, hws, himg, hun, hbase, fun j hle hj =>
    below_placed hs hearly hword himg hbaseEq hbase hle hj⟩

/-- **What is not exposed lies inside.** -/
theorem leadsInside_of_not_exposed {guest : CStr} (hE : CanonicalNames E)
    (hs : StopsAt E guest why pt) (hpath : dacPath (unwalked E pt.walk) need = some path)
    (hx : ¬Exposed E why pt path) : LeadsInside E path := by
  obtain ⟨hfit, hhost⟩ := not_not.1 fun h => hx (.cut h)
  obtain ⟨ws, hl⟩ := exists_laid hE hs (fun h => hx (.early h)) hfit hhost
  obtain ⟨k, hk, hwords⟩ := dacPath_words hl.isWord hl.host (length_unwalked_lt E pt) hpath
  obtain ⟨-, top, htop, hpre, htopNames⟩ := exists_top hE hfit
  have habove : (E.baseDir pt.cs).length ≤ k := by
    by_contra hlt
    refine hx (.above ?_)
    rw [hwords, List.length_take]
    omega
  have hnames : ∀ c ∈ words slash path, IsName c := by
    intro c hc
    rw [hwords] at hc
    exact hl.names c (List.mem_of_mem_take hc)
  have hplain : ∀ {cs : List CStr}, (∀ c ∈ cs, IsName c) → ∀ c ∈ cs, c ≠ dot ∧ c ≠ dotdot :=
    fun h c hc => ⟨(h c hc).ne_dot, (h c hc).ne_dotdot⟩
  -- no directory on the way to the mapping's own is a link
  have hway : ∀ j < (E.baseDir pt.cs).length, E.rl (pathStr ((E.baseDir pt.cs).take (j + 1))) = none := by
    intro j hj
    by_contra h
    exact hx (.way hj h)
  have hbelow : ∀ j, (E.baseDir pt.cs).length ≤ j → j < k → E.rl (pathStr (ws.take (j + 1))) = none := by
    intro j hle hj
    rcases hl.below j hle (by omega) with h | ⟨-, -, hend, himg⟩
    · exact h
    · by_contra hlink
      rw [hend, List.take_length, himg] at hlink
      refine hx (.link hlink ?_)
      rw [hwords, hl.words_img, List.take_of_length_le (by omega)]
  refine ⟨top, htop, words slash top, words slash path, ?_, ?_, ?_⟩
  · apply leadsTo_of_linkless (hplain htopNames)
    intro j hj
    obtain ⟨r, hr⟩ := hpre
    have htake : (words slash top).take (j + 1) = (E.baseDir pt.cs).take (j + 1) := by
      rw [← hr, List.take_append_of_le_length hj]
    rw [htake]
    refine hway j (Nat.lt_of_lt_of_le hj ?_)
    rw [← hr, List.length_append]
    exact Nat.le_add_right _ _
  · apply leadsTo_of_linkless (hplain hnames)
    intro j hj
    rw [hwords, List.length_take] at hj
    rw [hwords, List.take_take, Nat.min_eq_left (by omega)]
    rcases Nat.lt_or_ge j (E.baseDir pt.cs).length with hlt | hge
    · obtain ⟨r, hr⟩ := hl.base
      rw [← hr, List.take_append_of_le_length hlt]
      exact hway j hlt
    · exact hbelow j hge (by omega)
  · rw [hwords]
    exact List.prefix_take_iff.2 ⟨hpre.trans hl.base, hpre.length_le.trans habove⟩

/-! ## The entry -/

/-- What the entry changes the bits of lies inside, as the host is then. -/
def ChangesInside (P : Platform w σ) (s : St w σ) (chmods : σ → List ((CStr → Option CStr) × CStr)) :
    Prop :=
  ∀ c ∈ chmods (onEntry P s).fs, LeadsInside { s.walkEnv P true with rl := c.1 } c.2

theorem GrantsAt.env {follow : Bool} (h : GrantsAt P s d u follow why pt path) :
    u.walkEnv P follow =
      { s.walkEnv P true with rl := P.readlink u.fs, followLast := follow } := by
  obtain ⟨turn, -, -, -, -⟩ := h
  rw [St.walkEnv, turn.kept.1, turn.kept.2]
  rfl

/-- **Permissions are granted inside** exactly if those that are granted by a way around the resolver
are. -/
theorem grants_inside_iff {chmods : σ → List ((CStr → Option CStr) × CStr)} (hP : NotesChmods P chmods)
    (h0 : chmods s.fs = []) (hd : findPathSyscall P.nr (s.sysno P) = some d)
    (hE : CanonicalNames (s.walkEnv P true)) :
    ChangesInside P s chmods ↔
      ∀ u follow why pt path, GrantsAt P s d u follow why pt path →
        Exposed (u.walkEnv P follow) why pt path → LeadsInside (u.walkEnv P follow) path := by
  have hinside : ∀ {u follow why pt path}, GrantsAt P s d u follow why pt path →
      (LeadsInside (u.walkEnv P follow) path ↔
        LeadsInside { s.walkEnv P true with rl := P.readlink u.fs } path) := by
    intro u follow why pt path h
    rw [h.env]
    exact Iff.rfl
  constructor
  · intro h u follow why pt path hg _
    refine (hinside hg).2 (h (P.readlink u.fs, path) ?_)
    exact (mem_chmods_onEntry hP h0 hE.guests hd).2 ⟨u, follow, why, pt, path, hg, rfl⟩
  · intro h c hc
    obtain ⟨u, follow, why, pt, path, hg, rfl⟩ := (mem_chmods_onEntry hP h0 hE.guests hd).1 hc
    refine (hinside hg).1 ?_
    by_cases hx : Exposed (u.walkEnv P follow) why pt path
    · exact h u follow why pt path hg hx
    · have hcanon : CanonicalNames (u.walkEnv P follow) := by
        rw [hg.env]
        exact ⟨hE.root, hE.hosts, hE.guests⟩
      obtain ⟨-, -, -, hs, hdue⟩ := hg
      exact leadsInside_of_not_exposed hcanon hs hdue.target hx

/-! ## A link that is not followed -/

/-- A host that notes its chmods: in the rootfs `/r`, `l` is a link to `/x`; its user may read
neither that nor `/r/f`. -/
def secretHost : Platform 64 (List CStr) :=
  { linuxPlatform with
    readlink := fun _ path => if path = cstr "/r/l" then some (cstr "/x") else none
    stat := fun _ path =>
      if path ∈ [cstr "/r/l", cstr "/x", cstr "/r/f"] then some ⟨1, 2, 1000, 1000, 0o100000⟩ else none
    lstat := fun _ _ => none
    realpath := fun _ _ => none
    content := fun _ _ => none
    chmod := fun fs path _ => fs ++ [path]
    calloc := fun _ _ => true }

/-- `open` of a path with some flags by the fake root in `/r`. -/
def secretOpen (path : String) (flags : Nat) : St 64 (List CStr) :=
  { linuxCall { Ctx.create with hasFakeIds := true } (cstr "/r") 2 [8192, flags] [(8192, cstr path)] with
    fs := [] }

/-- Its record. -/
def secretChmods (fs : List CStr) : List ((CStr → Option CStr) × CStr) :=
  fs.map fun path => (secretHost.readlink [], path)

theorem secretHost_notes : NotesChmods secretHost secretChmods := by
  intro fs path mode
  exact List.map_append

/-- `open("/l", O_NOFOLLOW)` makes `/x` readable. -/
theorem link_made_readable :
    (onEntry secretHost (secretOpen "/l" 0o400000)).fs = [cstr "/r/l"] ∧
    ¬ChangesInside secretHost (secretOpen "/l" 0o400000) secretChmods := by
  have hfs : (onEntry secretHost (secretOpen "/l" 0o400000)).fs = [cstr "/r/l"] := by decide +kernel
  refine ⟨hfs, fun h => ?_⟩
  obtain ⟨top, htop, ds, cs, hds, hcs, hpre⟩ :=
    h (secretHost.readlink [], cstr "/r/l") (by rw [hfs]; exact List.mem_singleton_self _)
  have hcs' : LeadsTo (secretHost.readlink []) (cstr "/r/l") [cstr "x"] :=
    leadsTo_of_lead 16 (by decide +kernel)
  have hds' : LeadsTo (secretHost.readlink []) (cstr "/r") [cstr "r"] :=
    leadsTo_of_lead 16 (by decide +kernel)
  rw [List.mem_singleton.1 htop] at hds
  obtain rfl : ds = [cstr "r"] := hds.unique hds'
  obtain rfl : cs = [cstr "x"] := hcs.unique hcs'
  revert hpre
  decide

/-- `open("/f", O_RDONLY)` makes `/r/f` readable. -/
theorem file_made_readable :
    (onEntry secretHost (secretOpen "/f" 0)).fs = [cstr "/r/f"] ∧
    ChangesInside secretHost (secretOpen "/f" 0) secretChmods := by
  have hd : findPathSyscall secretHost.nr ((secretOpen "/f" 0).sysno secretHost) =
      some ⟨.open, 1, 0, .open, 2⟩ := by decide +kernel
  have hE : CanonicalNames ((secretOpen "/f" 0).walkEnv secretHost true) :=
    ⟨⟨[cstr "r"], by decide, by decide +kernel⟩, nofun, nofun⟩
  have hfs : (onEntry secretHost (secretOpen "/f" 0)).fs = [cstr "/r/f"] := by decide +kernel
  refine ⟨hfs, (grants_inside_iff secretHost_notes rfl hd hE).2 ?_⟩
  intro u follow why pt path hg _
  have hmem := (mem_chmods_onEntry secretHost_notes rfl hE.guests hd).2
    ⟨u, follow, why, pt, path, hg, rfl⟩
  rw [hfs] at hmem
  obtain rfl : path = cstr "/r/f" := congrArg Prod.snd (List.mem_singleton.1 hmem)
  rw [hg.env]
  have htop : LeadsTo (secretHost.readlink []) (cstr "/r") [cstr "r"] :=
    leadsTo_of_lead 16 (by decide +kernel)
  have hfile : LeadsTo (secretHost.readlink []) (cstr "/r/f") [cstr "r", cstr "f"] :=
    leadsTo_of_lead 16 (by decide +kernel)
  exact ⟨cstr "/r", List.mem_cons_self, _, _, htop, hfile, by decide⟩

end Emuroot
