import Emuroot.Model.Linux
import Emuroot.Proof.ScriptChain

/-!
# What an execve hands to the kernel

`rewriteExec_outcome`: the path and the argument vector that a rewritten execve finds in memory.
`execFront_copy_iff` says when the loop's copy of `argv[0]` is as good as the guest's.
-/

namespace Emuroot

open Memory

variable {w : Nat} {σ : Type} {P : Platform w σ} {s : St w σ} {m : GuestMem w}
  {ps : List (Word w)} {p0 a0 q : CStr} {ls : List (CStr × Option CStr)}

/-! ## Strings -/

theorem guestReadStr_proper {addr : Word w} {x : CStr}
    (h : guestReadStr m addr pathLen = some x) : Proper x := by
  let L : Loop (List Byte) (Option CStr) :=
    { step := readStrStep m addr pathLen
      measure := fun buf => pathLen - buf.length
      decreases := readStrStep_decreases }
  have hcut : ∀ buf : List Byte, buf.length < pathLen → Proper (cStrOf buf) := fun buf hb =>
    ⟨cStrOf_noNul buf, Nat.lt_of_le_of_lt (List.takeWhile_sublist _).length_le hb⟩
  have hmore : ∀ buf : List Byte, buf.length + 1 < pathLen →
      (buf ++ guestRead m (addr + BitVec.ofNat w buf.length)
        (min (pathLen - 1 - buf.length) 128)).length < pathLen := by
    intro buf hb
    have := length_read_le m.toMemory (addr + BitVec.ofNat w buf.length)
      (min (pathLen - 1 - buf.length) 128)
    rw [guestRead, List.length_append]
    omega
  have hI : ∀ buf buf' : List Byte, buf.length < pathLen → L.step buf = .inl buf' →
      buf'.length < pathLen := by
    intro buf buf' hb hs
    simp only [L, readStrStep] at hs
    split at hs
    · repeat' split at hs
      all_goals cases hs
      exact hmore buf ‹_›
    · cases hs
  obtain ⟨buf, hb, hs⟩ := L.run_spec (I := fun buf => buf.length < pathLen) hI
    (s := []) (by decide)
  rw [show L.run [] = some x from h] at hs
  simp only [L, readStrStep] at hs
  split at hs
  · rename_i hlt
    split at hs
    · split at hs
      · cases hs
      · cases hs
        exact hcut buf hb
    · split at hs
      · cases hs
        exact hcut _ (hmore buf hlt)
      · split at hs
        · cases hs
          exact hcut _ (hmore buf hlt)
        · cases hs
  · split at hs
    · cases hs
    · cases hs
      exact hcut buf hb

theorem hostPathOf_proper (hE : ProperNames (s.walkEnv P true)) (h0 : 0 ∉ q) :
    Proper (hostPathOf P s q pathLen) := by
  unfold hostPathOf
  split
  · exact ⟨translate_noNul hE ‹_› h0, length_translate_lt _ _⟩
  · dsimp only
    split
    · exact ⟨List.not_mem_nil, by decide⟩
    · rename_i hlen
      refine ⟨?_, by simp at hlen ⊢; omega⟩
      have hcwd : 0 ∉ realCwd P s := by
        unfold realCwd Platform.readlinkBuf
        cases hl : P.readlink s.fs (baseLink s.t.pid AT_FDCWD) with
        | none => exact List.not_mem_nil
        | some text => exact fun hm => hE.links _ _ hl (List.mem_of_mem_take hm)
      intro hm
      rcases List.mem_append.1 hm with hm | hm
      · exact hcwd hm
      · rcases List.mem_cons.1 hm with hm | hm
        · exact absurd hm (by decide)
        · exact h0 hm

theorem usesLoader_proper {loader : CStr} (h : usesLoader P s q = some loader) : Proper loader := by
  obtain ⟨f, -, hl⟩ := Option.bind_eq_some_iff.1 h
  exact elfInterp_proper (Option.filter_eq_some_iff.1 hl).1

/-- A program that asks for a loader can be read and is no script. -/
theorem scriptAt_of_usesLoader {loader : CStr} (h : usesLoader P s q = some loader) :
    ∃ f, P.content s.fs (hostPathOf P s q pathLen) = some f ∧ parseShebang (f.take 256) = none := by
  obtain ⟨f, hf, hl⟩ := Option.bind_eq_some_iff.1 h
  exact ⟨f, hf, parseShebang_of_elf (Option.filter_eq_some_iff.1 hl).1⟩

/-- A loader's name is absolute, or it is left as it is. -/
theorem loaderHost_proper (hE : ProperNames (s.walkEnv P true)) {loader : CStr} (h : 0 ∉ loader) :
    Proper (loaderHost P s loader) := by
  refine ⟨?_, length_translate_lt _ _⟩
  by_cases habs : loader.head? = some slash
  · exact translate_noNul hE habs h
  · rw [loaderHost, translatePath, translatePathEx, if_pos (.inl habs)]
    exact fun hm => h (List.mem_of_mem_take hm)

theorem lastHost_proper (hE : ProperNames (s.walkEnv P true)) (h0 : 0 ∉ q) :
    Proper (lastHost P s q) := by
  unfold lastHost
  split
  · exact hostPathOf_proper hE h0
  · exact loaderHost_proper hE (usesLoader_proper ‹_›).1

theorem loaderArgs_proper {a : CStr} (ha : Proper a) : ∀ x ∈ loaderArgs P s q a, Proper x := by
  intro x hx
  unfold loaderArgs at hx
  split at hx
  · cases hx
  · rename_i loader hl
    rcases List.mem_cons.1 hx with rfl | hx
    · exact usesLoader_proper hl
    · split at hx
      · rcases List.mem_cons.1 hx with rfl | hx
        · exact ⟨by decide, by decide⟩
        · rw [List.mem_singleton.1 hx]
          exact ha
      · cases hx

theorem length_loaderArgs_le (a : CStr) : (loaderArgs P s q a).length ≤ 3 := by
  unfold loaderArgs
  split
  · simp
  · split <;> simp

theorem argv0_proper (p : Word w) : Proper (argv0 s [.ptr p]) := by
  show Proper ((guestReadStr s.mem p pathLen).getD [])
  cases hr : guestReadStr s.mem p pathLen with
  | none => exact ⟨List.not_mem_nil, by decide⟩
  | some y => exact guestReadStr_proper hr

theorem execFront_proper (h : Scripts P s (P.content s.fs) p0 ls q) (hp : Proper p0)
    (ha : Proper a0) : ∀ x ∈ execFront P s p0 a0 ls q, Proper x := by
  intro x hx
  rcases List.mem_append.1 hx with hx | hx
  · refine loaderArgs_proper ?_ x hx
    split
    · exact ha
    · exact h.last_proper hp
  · exact scriptArgs_proper (fun x hx => List.mem_singleton.1 hx ▸ hp) h.proper x hx

/-! ## The call -/

/-- An execve as the kernel takes it: the program `p0` with the arguments at `ps`, the first of them
`a0`. -/
structure ExecCall (P : Platform w σ) (s : St w σ) (p0 : CStr) (ps : List (Word w)) (a0 : CStr) :
    Prop where
  path : Reads P s 1 p0
  short : p0.length < pathLen
  argv : s.arg P 2 ≠ 0
  vector : s.mem.HoldsVector P.arch.bigEndian (wordBytes w) (s.arg P 2) ps
  first : ∃ p ∈ ps.head?, s.mem.HoldsString p a0

/-- The strings come first in the argument vector, then `rest`. -/
def HasArgs (P : Platform w σ) (u : St w σ) (strs : List CStr) (rest : List (Word w)) : Prop :=
  ∃ ptrs : List (Word w), List.Forall₂ u.mem.HoldsString ptrs strs ∧
    u.mem.HoldsVector P.arch.bigEndian (wordBytes w) (u.arg P 2) (ptrs ++ rest)

/-- The loop's variables at its start. -/
def execStart (s : St w σ) (p0 : CStr) (ps : List (Word w)) : ExecState w where
  execPath := p0
  host := []
  args := (ps.take maxExecArgs).map .ptr
  rewritten := false
  pendingExe := s.t.pendingExe
  cache := s.ctx.loaderCache

/-- The record of the tracee and the context behind the loop. -/
def afterLoop (s : St w σ) (e : ExecState w) : St w σ :=
  { s with
    t := { s.t with pendingExe := e.pendingExe }
    ctx := { s.ctx with loaderCache := e.cache } }

theorem rewriteExec_eq (hc : ExecCall P s p0 ps a0) :
    rewriteExec P s 1 2 =
      if P.calloc s.fs (maxExecArgs + 16) = false then (s, 0)
      else
        let e := expandExec P s maxShebangDepth (execStart s p0 ps)
        if e.rewritten then placeBlock P (afterLoop s e) 1 2 e.host e.args
        else (afterLoop s e, 0) := by
  obtain ⟨p, hp, -⟩ := hc.first
  obtain ⟨rest, rfl⟩ := List.head?_eq_some_iff.1 hp
  have hargs : readArgv s.mem P.arch.bigEndian (s.arg P 2) maxExecArgs =
      ((p :: rest).take maxExecArgs).map .ptr := readArgv_eq P.arch hc.vector _
  have hne : ((p :: rest).take maxExecArgs).map EArg.ptr ≠ [] := by
    simp [maxExecArgs]
  unfold rewriteExec
  rw [if_neg (by simp only [hc.path.1, hc.argv, or_self, not_false_eq_true]),
    hc.path.read hc.short]
  dsimp only
  rw [hargs]
  cases P.calloc s.fs (maxExecArgs + 16) with
  | false => rfl
  | true =>
    rw [if_neg (by simp only [Bool.not_true, Bool.false_eq_true, hne, or_self, not_false_eq_true]),
      if_neg (show ¬true = false from Bool.noConfusion)]
    rfl

theorem execStart_atStart (s : St w σ) (p0 : CStr) (p : Word w) (rest : List (Word w)) :
    AtStart s (execStart s p0 (p :: rest)) p0 (.ptr p)
      (((rest.take (maxExecArgs - 1)).map .ptr)) :=
  ⟨rfl, rfl, rfl, rfl⟩

/-- The text of proper strings. -/
theorem length_text_le {strs : List CStr} (h : ∀ x ∈ strs, x.length < pathLen) :
    ((strs.map (EArg.str (w := w))).flatMap EArg.text).length ≤ strs.length * pathLen := by
  induction strs with
  | nil => simp
  | cons x strs ih =>
    have hx := h x List.mem_cons_self
    have hrest := ih fun y hy => h y (List.mem_cons_of_mem _ hy)
    rw [List.map_cons, List.flatMap_cons, List.length_append, List.length_cons, Nat.succ_mul]
    simp only [EArg.text, List.length_append, List.length_singleton]
    omega

/-- The room for a path and some strings in front of the guest's arguments. -/
theorem blockRoom_le (A : Arch w) {host : CStr} {strs : List CStr} {rest : List (Word w)}
    (hhost : host.length < pathLen) (hstrs : ∀ x ∈ strs, x.length < pathLen)
    (hlen : strs.length ≤ 14) (hrest : rest.length ≤ maxExecArgs) :
    blockRoom host (strs.map EArg.str ++ rest.map (EArg.ptr (w := w))) + 16 ≤ 2 ^ 18 := by
  have htext : ((strs.map EArg.str ++ rest.map EArg.ptr).flatMap EArg.text).length ≤
      strs.length * pathLen := by
    rw [List.flatMap_append, List.length_append]
    have hptr : ((rest.map EArg.ptr).flatMap EArg.text).length = 0 := by
      simp [List.flatMap_map, EArg.text]
    rw [hptr, Nat.add_zero]
    exact length_text_le hstrs
  have hvec : (strs.length + rest.length + 1) * wordBytes w ≤ (14 + maxExecArgs + 1) * 8 :=
    Nat.mul_le_mul (by omega) A.wordBytes_le
  have hstrs' : strs.length * pathLen ≤ 14 * pathLen := Nat.mul_le_mul_right _ hlen
  rw [blockRoom, List.length_append, List.length_map, List.length_map]
  simp only [pathLen, maxExecArgs] at *
  omega

/-- A vector of made-up strings and guest pointers, as it was laid out. -/
theorem forall₂_entries {ptrs : List (Word w)} {strs : List CStr} {rest : List (Word w)}
    (h : List.Forall₂ (EntryAt m) ptrs (strs.map EArg.str ++ rest.map EArg.ptr)) :
    ∃ front, ptrs = front ++ rest ∧ List.Forall₂ m.HoldsString front strs := by
  induction strs generalizing ptrs with
  | nil =>
    refine ⟨[], ?_, .nil⟩
    have h' := List.forall₂_map_right_iff.1 h
    exact List.forall₂_eq_eq_eq.symm ▸ h'
  | cons x strs ih =>
    cases h with
    | cons hx h =>
      obtain ⟨front, rfl, hf⟩ := ih h
      exact ⟨_ :: front, rfl, .cons hx hf⟩

/-- Where the strings and the pointers are proper, so is the vector of them. -/
theorem entries_proper {strs : List CStr} {rest : List (Word w)} (hs : ∀ x ∈ strs, Proper x)
    (hr : ∀ p ∈ rest, p ≠ 0) :
    (∀ x, EArg.str x ∈ strs.map EArg.str ++ rest.map (EArg.ptr (w := w)) → 0 ∉ x) ∧
      ∀ p, EArg.ptr p ∈ strs.map EArg.str ++ rest.map EArg.ptr → p ≠ 0 := by
  constructor
  · intro x hx
    rcases List.mem_append.1 hx with hx | hx
    · obtain ⟨y, hy, he⟩ := List.mem_map.1 hx
      exact EArg.str.inj he ▸ (hs y hy).1
    · obtain ⟨y, -, he⟩ := List.mem_map.1 hx
      cases he
  · intro p hp
    rcases List.mem_append.1 hp with hp | hp
    · obtain ⟨y, -, he⟩ := List.mem_map.1 hp
      cases he
    · obtain ⟨y, hy, he⟩ := List.mem_map.1 hp
      exact EArg.ptr.inj he ▸ hr y hy

/-- A block of strings and guest pointers. -/
theorem placeBlock_args {host : CStr} {strs : List CStr} {rest : List (Word w)} (hh : Proper host)
    (hs : ∀ x ∈ strs, Proper x) (hlen : strs.length ≤ 14) (hrest : rest.length ≤ maxExecArgs)
    (hr : ∀ p ∈ rest, p ≠ 0)
    (h : (placeBlock P s 1 2 host (strs.map .str ++ rest.map .ptr)).2 = 1) :
    let u := (placeBlock P s 1 2 host (strs.map .str ++ rest.map .ptr)).1
    u.mem.HoldsString (u.arg P 1) host ∧ HasArgs P u strs rest ∧
      ∀ a, a < u.t.scratchTop ∨ s.t.scratchTop ≤ a → u.mem.byte a = s.mem.byte a := by
  have hroom := Nat.le_trans (blockRoom_le P.arch hh.2 (fun x hx => (hs x hx).2) hlen hrest)
    (P.arch.two_pow_le (by decide))
  obtain ⟨hstr, hptr⟩ := entries_proper hs hr
  obtain ⟨hpath, ptrs, hptrs, hvec⟩ := placeBlock_placed hh.1 hstr hptr hroom h
  obtain ⟨front, rfl, hfront⟩ := forall₂_entries hptrs
  exact ⟨hpath, ⟨front, hfront, hvec⟩, fun a ha => placeBlock_byte hroom h ha⟩

/-- The loop has something to place in a call that is rewritten. -/
theorem rewriteExec_placed (hc : ExecCall P s p0 ps a0) (h : (rewriteExec P s 1 2).2 = 1) :
    let e := expandExec P s maxShebangDepth (execStart s p0 ps)
    e.rewritten = true ∧ rewriteExec P s 1 2 = placeBlock P (afterLoop s e) 1 2 e.host e.args := by
  rw [rewriteExec_eq hc] at h ⊢
  dsimp only at h ⊢
  split at h
  · cases h
  split at h
  · rename_i hcalloc hrew
    rw [if_neg hcalloc, if_pos hrew]
    exact ⟨hrew, rfl⟩
  · cases h

/-- **What the loop leaves to be placed**: behind a chain that ends in time, the last program or its
loader, else a script. -/
theorem expandExec_outcome (hc : ExecCall P s p0 ps a0) (hE : ProperNames (s.walkEnv P true))
    (hrew : (expandExec P s maxShebangDepth (execStart s p0 ps)).rewritten = true) :
    let e := expandExec P s maxShebangDepth (execStart s p0 ps)
    ∃ ls q p strs, Scripts P s (P.content s.fs) p0 ls q ∧ ps.head? = some p ∧ Proper e.host ∧
      (∀ x ∈ strs, Proper x) ∧ strs.length ≤ 14 ∧
      e.args = strs.map .str ++ ((ps.take maxExecArgs).drop 1).map .ptr ∧
      (ls.length < maxShebangDepth ∧ scriptAt (P.content s.fs) (hostPathOf P s q pathLen) = none ∧
          e.host = lastHost P s q ∧ strs = execFront P s p0 (argv0 s [.ptr p]) ls q ∨
        ls.length = maxShebangDepth ∧ (scriptAt (P.content s.fs) e.host).isSome ∧
          strs = scriptArgs [p0] ls ∧ ∃ p', Scripts P s (P.content s.fs) p0 ls.dropLast p' ∧
            e.host = hostPathOf P s p' pathLen) := by
  obtain ⟨p, hp, -⟩ := hc.first
  obtain ⟨rest, rfl⟩ := List.head?_eq_some_iff.1 hp
  have hp0 : Proper p0 := ⟨hc.path.2.1, hc.short⟩
  have hstart := execStart_atStart s p0 p rest
  obtain ⟨ls, q, hls, hlen, hend⟩ := ScriptsAt.within (hostPathOf P s · pathLen) (P.content s.fs)
    maxShebangDepth p0
  have hargsLen := length_scriptArgs_le [p0] ls
  rw [List.length_singleton] at hargsLen
  dsimp only
  rcases Nat.lt_or_ge ls.length maxShebangDepth with hlt | hge
  · have hend : scriptAt (P.content s.fs) (hostPathOf P s q pathLen) = none :=
      hend.resolve_left (Nat.ne_of_lt hlt)
    obtain ⟨hhost, -, hargs⟩ := expandExec_short hstart hls hlt hend
    have hloader := length_loaderArgs_le (P := P) (s := s) (q := q)
      (if ls = [] then argv0 s [.ptr p] else q)
    exact ⟨ls, q, p, _, hls, rfl, hhost ▸ lastHost_proper hE (hls.last_proper hp0).1,
      execFront_proper hls hp0 (argv0_proper p),
      by simp only [execFront, List.length_append, maxShebangDepth] at *; omega, hargs hrew,
      .inl ⟨hlt, hend, hhost, rfl⟩⟩
  · have hlen5 : ls.length = maxShebangDepth := Nat.le_antisymm hlen hge
    obtain ⟨⟨p', hp', hhost, hscript⟩, -, hargs⟩ :=
      expandExec_long hstart hls hlen5 (by decide)
    exact ⟨ls, q, p, _, hls, rfl, hhost ▸ hostPathOf_proper hE (hp'.last_proper hp0).1,
      scriptArgs_proper (fun x hx => List.mem_singleton.1 hx ▸ hp0) hls.proper,
      by simp only [maxShebangDepth] at *; omega, hargs, .inr ⟨hlen5, hscript, rfl, p', hp', hhost⟩⟩

theorem rest_proper (hc : ExecCall P s p0 ps a0) :
    ((ps.take maxExecArgs).drop 1).length ≤ maxExecArgs ∧
      ∀ p ∈ (ps.take maxExecArgs).drop 1, p ≠ 0 := by
  constructor
  · rw [List.length_drop]
    exact (Nat.sub_le _ _).trans (List.length_take_le _ _)
  · exact fun p hp => hc.vector.ne_zero p (List.mem_of_mem_take (List.mem_of_mem_drop hp))

/-- **What a rewritten execve hands over**: that, in the guest's memory. -/
theorem rewriteExec_outcome (hc : ExecCall P s p0 ps a0) (hE : ProperNames (s.walkEnv P true))
    (h : (rewriteExec P s 1 2).2 = 1) :
    let u := (rewriteExec P s 1 2).1
    ∃ ls q p host strs, Scripts P s (P.content s.fs) p0 ls q ∧ ps.head? = some p ∧
      u.mem.HoldsString (u.arg P 1) host ∧ HasArgs P u strs ((ps.take maxExecArgs).drop 1) ∧
      (∀ a, a < u.t.scratchTop ∨ s.t.scratchTop ≤ a → u.mem.byte a = s.mem.byte a) ∧
      (ls.length < maxShebangDepth ∧ scriptAt (P.content s.fs) (hostPathOf P s q pathLen) = none ∧
          host = lastHost P s q ∧ strs = execFront P s p0 (argv0 s [.ptr p]) ls q ∨
        ls.length = maxShebangDepth ∧ (scriptAt (P.content s.fs) host).isSome ∧
          strs = scriptArgs [p0] ls ∧ ∃ p', Scripts P s (P.content s.fs) p0 ls.dropLast p' ∧
            host = hostPathOf P s p' pathLen) := by
  obtain ⟨hrew, heq⟩ := rewriteExec_placed hc h
  obtain ⟨ls, q, p, strs, hls, hp, hhost, hstrs, hlen, hargs, hout⟩ := expandExec_outcome hc hE hrew
  rw [heq, hargs] at h ⊢
  obtain ⟨hpath, hargs, hbytes⟩ :=
    placeBlock_args hhost hstrs hlen (rest_proper hc).1 (rest_proper hc).2 h
  exact ⟨ls, q, p, _, strs, hls, hp, hpath, hargs, hbytes, hout⟩

/-- The new vector lies in the room below the guest's stack. -/
theorem rewriteExec_argv (hc : ExecCall P s p0 ps a0) (hE : ProperNames (s.walkEnv P true))
    (h : (rewriteExec P s 1 2).2 = 1) :
    let a := (rewriteExec P s 1 2).1.arg P 2
    a < s.t.scratchTop ∧ s.t.scratchTop.toNat < a.toNat + 2 ^ 18 := by
  obtain ⟨hrew, heq⟩ := rewriteExec_placed hc h
  obtain ⟨ls, q, p, strs, -, -, hhost, hstrs, hlen, hargs, -⟩ := expandExec_outcome hc hE hrew
  have hroom := blockRoom_le P.arch hhost.2 (fun x hx => (hstrs x hx).2) hlen (rest_proper hc).1
  have hw : 2 ^ 18 ≤ 2 ^ w := P.arch.two_pow_le (by decide)
  rw [heq, hargs] at h ⊢
  obtain ⟨hlt, habove⟩ := placeBlock_argv (Nat.le_trans hroom hw) h
  exact ⟨hlt, by
    have : (afterLoop s (expandExec P s maxShebangDepth (execStart s p0 ps))).t.scratchTop =
      s.t.scratchTop := rfl
    rw [this] at habove
    omega⟩

/-- A script's execve is rewritten where there is room for the block. -/
theorem rewriteExec_succeeds (hc : ExecCall P s p0 ps a0) (hE : ProperNames (s.walkEnv P true))
    (hcalloc : ∀ n, P.calloc s.fs n = true) (hw : ∀ a n, s.mem.canWrite a n = true)
    (htop : 2 ^ 18 ≤ s.t.scratchTop.toNat)
    (hrew : (expandExec P s maxShebangDepth (execStart s p0 ps)).rewritten = true) :
    (rewriteExec P s 1 2).2 = 1 := by
  obtain ⟨ls, q, p, strs, -, -, hhost, hstrs, hlen, hargs, -⟩ := expandExec_outcome hc hE hrew
  have hroom := blockRoom_le P.arch hhost.2 (fun x hx => (hstrs x hx).2) hlen (rest_proper hc).1
  rw [rewriteExec_eq hc, if_neg (by simp [hcalloc])]
  dsimp only
  rw [if_pos hrew, hargs]
  exact placeBlock_succeeds (s := afterLoop s _) hcalloc hw (Nat.le_trans hroom htop) 1 2

/-- A call that is not rewritten fails, or is left as it is. -/
theorem rewriteExec_else (hc : ExecCall P s p0 ps a0) :
    let r := rewriteExec P s 1 2
    r.2 = 1 ∨ r.2 = -1 ∧ r.1.arg P 1 = 0 ∨ r.2 = 0 ∧ r.1.regs = s.regs ∧ r.1.mem = s.mem := by
  rw [rewriteExec_eq hc]
  dsimp only
  split
  · exact .inr (.inr ⟨rfl, rfl, rfl⟩)
  split
  · exact (placeBlock_result 1 2).imp id .inl
  · exact .inr (.inr ⟨rfl, rfl, rfl⟩)

/-! ## The guest's `argv[0]` -/

/-- The guest's own `argv[0]` is passed on: the program is run by a loader that is told it. -/
def PassesArgv0 (P : Platform w σ) (s : St w σ) (p0 : CStr) : Prop :=
  ∃ loader, usesLoader P s p0 = some loader ∧ toldArgv0 P s loader = true

variable {u : St w σ} {strs strs' : List CStr} {rest rest' : List (Word w)} {a : CStr}

/-- The vector says what its strings are, and what is behind so many. -/
theorem HasArgs.unique (h : HasArgs P u strs rest) (h' : HasArgs P u strs' rest')
    (hlen : strs.length = strs'.length) : strs = strs' ∧ rest = rest' := by
  obtain ⟨ptrs, hp, hv⟩ := h
  obtain ⟨ptrs', hp', hv'⟩ := h'
  obtain ⟨rfl, rfl⟩ := List.append_inj (hv.unique P.arch.width.1 hv')
    (hp.length_eq.trans (hlen.trans hp'.length_eq.symm))
  refine ⟨?_, rfl⟩
  clear hv hv' hlen
  induction hp generalizing strs' with
  | nil => cases hp'; rfl
  | cons hx _ ih =>
    cases hp' with
    | cons hx' hp' => rw [hx.unique hx', ih hp']

/-- The strings before so much. -/
theorem HasArgs.front (h : HasArgs P u strs rest) (h' : HasArgs P u strs' rest) : strs = strs' := by
  obtain ⟨ptrs, hp, hv⟩ := id h
  obtain ⟨ptrs', hp', hv'⟩ := id h'
  have hlen := congrArg List.length (hv.unique P.arch.width.1 hv')
  rw [List.length_append, List.length_append, hp.length_eq, hp'.length_eq] at hlen
  exact (h.unique h' (Nat.add_right_cancel hlen)).1

theorem length_execFront (a a' : CStr) :
    (execFront P s p0 a ls q).length = (execFront P s p0 a' ls q).length := by
  simp only [execFront, loaderArgs, List.length_append]
  cases usesLoader P s q with
  | none => rfl
  | some loader => by_cases ht : toldArgv0 P s loader = true <;> simp [ht]

/-- The strings depend on `argv[0]` only where it is passed on. -/
theorem execFront_congr (h : Scripts P s (P.content s.fs) p0 ls q)
    (ha : PassesArgv0 P s p0 → a = a0) : execFront P s p0 a ls q = execFront P s p0 a0 ls q := by
  by_cases hls : ls = []
  · subst hls
    cases h
    simp only [execFront, loaderArgs]
    cases hl : usesLoader P s p0 with
    | none => rfl
    | some loader =>
      dsimp only
      cases ht : toldArgv0 P s loader with
      | false => rfl
      | true => rw [ha ⟨loader, hl, ht⟩]
  · simp only [execFront, hls, if_false]

/-- Where it is passed on, they show it. -/
theorem execFront_argv0 (h : Scripts P s (P.content s.fs) p0 ls q) (hp : PassesArgv0 P s p0)
    (he : execFront P s p0 a ls q = execFront P s p0 a0 ls q) : a = a0 := by
  obtain ⟨loader, hl, ht⟩ := hp
  cases h with
  | here => simpa [execFront, loaderArgs, hl, ht, scriptArgs] using he
  | next hs _ =>
    obtain ⟨f, hf, hparse⟩ := scriptAt_of_usesLoader hl
    rw [scriptAt, hf] at hs
    rw [show parseShebang (f.take 256) = _ from hs] at hparse
    cases hparse

/-- **The loop's copy of `argv[0]`** does where it is not passed on or fits a path buffer. -/
theorem execFront_copy_iff (h : Scripts P s (P.content s.fs) p0 ls q) {p : Word w}
    (hp : s.mem.HoldsString p a0) :
    execFront P s p0 (argv0 s [.ptr p]) ls q = execFront P s p0 a0 ls q ↔
      (PassesArgv0 P s p0 → a0.length < pathLen) := by
  constructor
  · intro he hpass
    rw [← execFront_argv0 h hpass he]
    exact (argv0_proper p).2
  · intro hfit
    apply execFront_congr h
    intro hpass
    show (guestReadStr s.mem p pathLen).getD [] = a0
    rw [guestReadStr_of_holds hp (by decide) (hfit hpass)]
    rfl

/-! ## Programs on a host -/

/-- An ELF file for x86_64 with a program header for its loader. -/
def elfFile (loader : CStr) : List Byte :=
  [0x7f, 0x45, 0x4c, 0x46, 2, 1] ++ List.replicate 26 0 ++
    toBytes false 8 64 ++ List.replicate 14 0 ++ toBytes false 2 56 ++ toBytes false 2 1 ++
    List.replicate 6 0 ++
    toBytes false 8 3 ++ toBytes false 8 120 ++ List.replicate 16 0 ++
    toBytes false 8 (loader.length + 1) ++ List.replicate 16 0 ++ loader ++ [0]

/-- A host with these files. -/
def filesAt (files : List (CStr × List Byte)) : Platform 64 Unit :=
  { linuxPlatform with content := fun _ path => files.lookup path }

/-- `execve` of what is at 4096, with the vector at 8192, in the rootfs `/r`, where the engine turns
to it. -/
def execveIn (mem : GuestMem 64) : St 64 Unit :=
  resetCall linuxPlatform
    { linuxCall Ctx.create (cstr "/r") 59 [] [] with
      regs := (linuxRegs 59 [4096, 8192]).put 19 0x7fff0000
      mem := mem }

/-- `execve(path, {argv0}, ...)` -/
def execveCall (path argv0 : CStr) : St 64 Unit :=
  execveIn (linuxMem [(4096, path), (8192, toBytes false 8 12288), (12288, argv0)])

/-- An execve of these arguments. -/
theorem execveIn_args {P : Platform 64 Unit} {mem : GuestMem 64} {path a0 : CStr} {p : Word 64}
    {ps : List (Word 64)} (hP : P.arch = x86_64) (hpath : mem.HoldsString 4096 path)
    (hlen : path.length < pathLen) (hnull : ∀ q ∈ p :: ps, q ≠ 0)
    (hvec : mem.read 8192 ((p :: ps ++ [0]).flatMap fun q : Word 64 => toBytes false 8 q.toNat).length =
      (p :: ps ++ [0]).flatMap fun q : Word 64 => toBytes false 8 q.toNat)
    (ha : mem.HoldsString p a0) : ExecCall P (execveIn mem) path (p :: ps) a0 := by
  have hpathArg : (execveIn mem).arg P 1 = 4096 := by
    rw [St.arg, hP]
    rfl
  have hargv : (execveIn mem).arg P 2 = 8192 := by
    rw [St.arg, hP]
    rfl
  refine ⟨?_, hlen, ?_, ?_, p, rfl, ha⟩
  · rw [Reads, hpathArg]
    exact ⟨by decide, hpath⟩
  · rw [hargv]
    decide
  · rw [hargv, hP]
    exact Memory.holdsVector_of_read hnull hvec

theorem execveIn_call {P : Platform 64 Unit} {mem : GuestMem 64} {path a0 : CStr}
    (hP : P.arch = x86_64) (hpath : mem.HoldsString 4096 path) (hlen : path.length < pathLen)
    (hvec : mem.read 8192 16 = ([12288, 0] : List (Word 64)).flatMap fun p => toBytes false 8 p.toNat)
    (ha : mem.HoldsString 12288 a0) : ExecCall P (execveIn mem) path [12288] a0 :=
  execveIn_args hP hpath hlen (by simp) (by rw [length_vector]; exact hvec) ha

theorem execveIn_proper (files : List (CStr × List Byte)) (mem : GuestMem 64) :
    ProperNames ((execveIn mem).walkEnv (filesAt files) true) :=
  .bare rfl (fun _ ha => (Option.some.inj (ha : some slash = some _)).symm)
    (by decide : 0 ∉ cstr "/r") nofun

/-- A host with these files and links. -/
def linkedHost (files : List (CStr × List Byte)) (links : List (CStr × CStr)) : Platform 64 Unit :=
  { filesAt files with readlink := fun _ path => links.lookup path }

theorem execveLinked_proper {files : List (CStr × List Byte)} {links : List (CStr × CStr)}
    (h : ∀ l ∈ links, 0 ∉ l.2) (mem : GuestMem 64) :
    ProperNames ((execveIn mem).walkEnv (linkedHost files links) true) := by
  have hbase : ProperNames ((execveIn mem).walkEnv (filesAt files) true) := execveIn_proper ..
  refine ⟨hbase.root, hbase.hosts, hbase.guests, hbase.rootNul, hbase.hostsNul, hbase.guestsNul, ?_⟩
  intro path text htext
  have htext : links.lookup path = some text := htext
  obtain ⟨l₁, l₂, hl, -⟩ := List.lookup_eq_some_iff.1 htext
  exact h (path, text) (by rw [hl]; simp)

theorem canWrite_all {m : GuestMem w} (h : ∀ a, m.writable a = true) (a : Word w) (n : Nat) :
    m.canWrite a n = true := by
  induction n generalizing a with
  | zero => rfl
  | succ n ih => rw [Memory.canWrite, h, ih, Bool.and_self]

end Emuroot
