import Emuroot.Proof.ExecArgs

/-!
# What an execve lays out

The argument vector that the expansion loop builds stays within its array and is made of proper
strings and the guest's own pointers (`expandExec_built`); the block it is put into stays within
what was allocated for it, and reads back as the path and that vector (`exec_block_decodes`). So does
what an execve is rewritten to (`rewriteExec_decodes`).
-/

namespace Emuroot

variable {w : Nat} {σ : Type} {P : Platform w σ} {s : St w σ} {p0 host : CStr} {ps : List (Word w)}

/-! ## The guest's vector -/

/-- What is read of the guest's vector are pointers, up to the first null. -/
theorem readArgv_ptrs (m : GuestMem w) (big : Bool) (a : Word w) (n : Nat) :
    ∃ ps : List (Word w), readArgv m big a n = ps.map .ptr ∧ ps.length ≤ n ∧ ∀ p ∈ ps, p ≠ 0 := by
  induction n generalizing a with
  | zero => exact ⟨[], rfl, Nat.le_refl 0, by simp⟩
  | succ n ih =>
    unfold readArgv
    dsimp only
    split
    · exact ⟨[], rfl, Nat.zero_le _, by simp⟩
    · rename_i hp
      rw [not_or] at hp
      obtain ⟨ps, hps, hlen, hne⟩ := ih (a + BitVec.ofNat w (wordBytes w))
      refine ⟨_ :: ps, by rw [hps, List.map_cons], Nat.succ_le_succ hlen, ?_⟩
      intro q hq
      rcases List.mem_cons.1 hq with rfl | hq
      · exact hp.2
      · exact hne q hq

/-- An execve that is rewritten is one whose vector is laid out. -/
theorem rewriteExec_placeBlock (h : (rewriteExec P s 1 2).2 ≠ 0) :
    ∃ p0 ps, guestReadStr s.mem (s.arg P 1) pathLen = some p0 ∧
      readArgv s.mem P.arch.bigEndian (s.arg P 2) maxExecArgs = ps.map .ptr ∧
      ps.length ≤ maxExecArgs ∧ (∀ p ∈ ps, p ≠ 0) ∧
      let e := expandExec P s maxShebangDepth (execStart s p0 ps)
      rewriteExec P s 1 2 = placeBlock P (afterLoop s e) 1 2 e.host e.args := by
  unfold rewriteExec at h ⊢
  split at h
  · exact (h rfl).elim
  · rename_i hargs
    rw [if_neg hargs]
    cases hr : guestReadStr s.mem (s.arg P 1) pathLen with
    | none =>
      rw [hr] at h
      exact (h rfl).elim
    | some p0 =>
      obtain ⟨ps, hps, hlen, hne⟩ :=
        readArgv_ptrs s.mem P.arch.bigEndian (s.arg P 2) maxExecArgs
      refine ⟨p0, ps, rfl, hps, hlen, hne, ?_⟩
      have hstart : execStart s p0 ps =
          { execPath := p0
            host := []
            args := ps.map .ptr
            rewritten := false
            pendingExe := s.t.pendingExe
            cache := s.ctx.loaderCache } := by
        rw [execStart, List.take_of_length_le hlen]
      rw [hr] at h
      dsimp only at h ⊢
      rw [hps] at h ⊢
      rw [hstart]
      split at h
      · exact (h rfl).elim
      · rename_i hc
        rw [if_neg hc]
        split at h
        · rename_i hrew
          rw [if_pos hrew]
          rfl
        · exact (h rfl).elim

/-! ## The vector that is built -/

/-- Entries behind so many programs of the loop: not many more than `k`, of proper strings, of which
not too many bytes, and pointers of the guest's. -/
structure Built (k n : Nat) (ps : List (Word w)) (args : List (EArg w)) : Prop where
  room : args.length ≤ k + n
  text : (args.flatMap EArg.text).length ≤ 2 * n * pathLen
  strs : ∀ x, EArg.str x ∈ args → Proper x
  ptrs : ∀ p, EArg.ptr p ∈ args → p ∈ ps

variable {k n : Nat} {args : List (EArg w)}

theorem Built.mono (h : Built k n ps args) {n' : Nat} (hle : n ≤ n') : Built k n' ps args :=
  ⟨h.room.trans (Nat.add_le_add_left hle k),
    h.text.trans (Nat.mul_le_mul_right _ (Nat.mul_le_mul_left 2 hle)), h.strs, h.ptrs⟩

/-- A head of at most `d + 1` strings instead of the first entry. -/
theorem Built.replaceHead {strs : List CStr} {d : Nat} (h : Built k n ps args) (hk : 0 < k)
    (hs : ∀ x ∈ strs, Proper x) (hlen : strs.length ≤ d + 1) (hd : 0 < d) :
    Built k (n + d) ps (replaceHead args strs) := by
  have hrest : ∀ e, e ∈ args.drop 1 → e ∈ args := fun e he => List.mem_of_mem_drop he
  constructor
  · have := h.room
    rw [Emuroot.replaceHead, List.length_append, List.length_map, List.length_drop]
    omega
  · have htext := length_text_le (w := w) fun x hx => (hs x hx).2
    have hdrop : ((args.drop 1).flatMap EArg.text).length ≤ (args.flatMap EArg.text).length := by
      cases args with
      | nil => exact Nat.le_refl 0
      | cons e args =>
        rw [List.flatMap_cons, List.length_append, List.drop_succ_cons, List.drop_zero]
        exact Nat.le_add_left _ _
    have hmul : strs.length * pathLen ≤ (d + 1) * pathLen := Nat.mul_le_mul_right _ hlen
    have hn := h.text
    rw [Emuroot.replaceHead, List.flatMap_append, List.length_append]
    simp only [pathLen] at *
    omega
  · intro x hx
    rcases List.mem_append.1 hx with hx | hx
    · obtain ⟨y, hy, he⟩ := List.mem_map.1 hx
      cases he
      exact hs x hy
    · exact h.strs x (hrest _ hx)
  · intro p hp
    rcases List.mem_append.1 hp with hp | hp
    · obtain ⟨y, -, he⟩ := List.mem_map.1 hp
      cases he
    · exact h.ptrs p (hrest _ hp)

/-- A string cut to a path buffer. -/
theorem proper_snprintf {x : CStr} (h : 0 ∉ x) : Proper (snprintf pathLen x) :=
  ⟨fun h0 => h (List.mem_of_mem_take h0),
    Nat.lt_of_le_of_lt (length_snprintf_le _ _) (by decide)⟩

theorem argv0_of_built (h : Built k n ps args) : Proper (argv0 s args) := by
  unfold argv0
  cases args with
  | nil => exact ⟨List.not_mem_nil, (by decide : 0 < pathLen)⟩
  | cons e args =>
    cases e with
    | str x => exact proper_snprintf (h.strs x List.mem_cons_self).1
    | ptr p => exact argv0_proper p

/-- **The loop builds such entries**, two more for a script and three for the loader. -/
theorem expandExec_built (d : Nat) {e : ExecState w} (he : Built k n ps e.args) (hk : 0 < k)
    (hp : Proper e.execPath) : Built k (n + (2 * d + 1)) ps (expandExec P s d e).args := by
  induction d generalizing e n with
  | zero => exact he.mono (by omega)
  | succ d ih =>
    unfold expandExec
    dsimp only
    split
    · exact he.mono (by omega)
    · split
      · rename_i interp arg hparse
        obtain ⟨hi, ha⟩ := parseShebang_proper hparse
        have hstrs : ∀ x ∈ interp :: (arg.toList ++ [e.execPath]), Proper x := by
          intro x hx
          rcases List.mem_cons.1 hx with rfl | hx
          · exact hi
          · rcases List.mem_append.1 hx with hx | hx
            · exact ha x (Option.mem_toList.1 hx)
            · exact List.mem_singleton.1 hx ▸ hp
        have hlen : (interp :: (arg.toList ++ [e.execPath])).length ≤ 2 + 1 := by
          cases arg <;> simp
        apply Built.mono (n := n + 2 + (2 * d + 1))
        · exact ih (he.replaceHead hk hstrs hlen (by decide)) (proper_snprintf hi.1)
        · omega
      · split
        · exact he.mono (by omega)
        · rename_i interp helf
          split
          · exact he.mono (by omega)
          · generalize loaderHasArgv0 P s.fs e.cache _ = q
            have hstrs : ∀ x ∈ interp ::
                ((if q.1 then [cstr "--argv0", argv0 s e.args] else []) ++ [e.execPath]), Proper x := by
              intro x hx
              rcases List.mem_cons.1 hx with rfl | hx
              · exact elfInterp_proper helf
              · rcases List.mem_append.1 hx with hx | hx
                · split at hx
                  · rcases List.mem_cons.1 hx with rfl | hx
                    · exact ⟨by decide, by decide⟩
                    · exact List.mem_singleton.1 hx ▸ argv0_of_built he
                  · cases hx
                · exact List.mem_singleton.1 hx ▸ hp
            have hlen : (interp ::
                ((if q.1 then [cstr "--argv0", argv0 s e.args] else []) ++ [e.execPath])).length ≤
                  3 + 1 := by
              split <;> simp
            exact (he.replaceHead hk hstrs hlen (by decide)).mono (by omega)

/-- The host path is a string of a path buffer, too. -/
theorem expandExec_host (hE : ProperNames (s.walkEnv P true)) (d : Nat) {e : ExecState w}
    (hp : Proper e.execPath) (hh : Proper e.host) : Proper (expandExec P s d e).host := by
  induction d generalizing e with
  | zero => exact hh
  | succ d ih =>
    have hhost := hostPathOf_proper hE hp.1
    unfold expandExec
    dsimp only
    split
    · exact hhost
    · split
      · rename_i interp arg hparse
        exact ih (proper_snprintf (parseShebang_proper hparse).1.1) hhost
      · split
        · exact hhost
        · rename_i interp helf
          split
          · exact hhost
          · exact proper_snprintf (loaderHost_proper hE (elfInterp_proper helf).1).1

theorem execStart_built (hps : ps.length ≤ maxExecArgs) :
    Built maxExecArgs 0 ps (execStart s p0 ps).args := by
  rw [execStart, List.take_of_length_le hps]
  refine ⟨by rw [List.length_map]; exact hps, ?_, ?_, ?_⟩
  · simp [List.flatMap_map, EArg.text]
  · simp
  · simp

/-! ## The block -/

/-- The room for a path and such entries. -/
theorem Built.blockRoom_le (A : Arch w) (h : Built maxExecArgs n ps args) (hn : n ≤ 16)
    (hhost : host.length < pathLen) : blockRoom host args + 16 ≤ 2 ^ 18 := by
  have hvec : (args.length + 1) * wordBytes w ≤ (maxExecArgs + 17) * 8 := by
    apply Nat.mul_le_mul _ A.wordBytes_le
    have := h.room
    omega
  have htext : (args.flatMap EArg.text).length ≤ 2 * 16 * pathLen :=
    h.text.trans (Nat.mul_le_mul_right _ (Nat.mul_le_mul_left 2 hn))
  rw [blockRoom]
  simp only [pathLen, maxExecArgs] at *
  omega

/-- The vector lies at a multiple of 16. -/
theorem length_blockText_mod (host : CStr) (args : List (EArg w)) :
    (blockText host args).length % 16 = 0 := by
  rw [length_blockText]
  omega

/-- Scratch is handed out at multiples of 16. -/
theorem scratch_aligned (A : Arch w) (s : St w σ) (len : Nat) :
    (scratch s len).1.toNat % 16 = 0 := by
  have hw : 4 ≤ w := by
    rcases A.bits with rfl | rfl <;> decide
  rw [scratch_eq]
  split
  · exact Nat.zero_mod 16
  · exact Align.down_mod hw _

/-- A block of proper strings and pointers, once it is written. -/
theorem Built.placed (h : Built maxExecArgs n ps args) (hn : n ≤ 16) (hnull : ∀ p ∈ ps, p ≠ 0)
    (hhost : Proper host) (hdone : (placeBlock P s 1 2 host args).2 = 1) :
    let u := (placeBlock P s 1 2 host args).1
    let block := execBlock P.arch.bigEndian (u.arg P 1) host args
    u.mem.toMemory = s.mem.write (u.arg P 1) block ∧
    (∀ i < block.length, i < blockRoom host args ∧
      u.t.scratchTop.toNat + i = (u.arg P 1 + BitVec.ofNat w i).toNat ∧
      u.t.scratchTop.toNat + i < s.t.scratchTop.toNat) ∧
    u.mem.HoldsString (u.arg P 1) host ∧
    (∃ ptrs : List (Word w), List.Forall₂ (EntryAt u.mem) ptrs args ∧
      u.mem.HoldsVector P.arch.bigEndian (wordBytes w) (u.arg P 2) ptrs) ∧
    (u.arg P 2).toNat % wordBytes w = 0 := by
  dsimp only
  have hroom := (h.blockRoom_le P.arch hn hhost.2).trans (P.arch.two_pow_le (by decide))
  obtain ⟨hbase, -, -⟩ := placeBlock_done hdone
  obtain ⟨harg1, harg2, hmem⟩ := placeBlock_regs hdone
  obtain ⟨hpath, hvec⟩ := placeBlock_placed hhost.1 (fun x hx => (h.strs x hx).1)
    (fun p hp => hnull p (h.ptrs p hp)) hroom hdone
  have hlen := length_execBlock_le P.arch.bigEndian (scratch s (blockRoom host args)).1 host args
  refine ⟨?_, ?_, hpath, hvec, ?_⟩
  · rw [harg1, hmem]
    rfl
  · intro i hi
    rw [harg1] at hi ⊢
    obtain ⟨-, hlt, -, heq⟩ := scratch_within hbase hroom (Nat.lt_of_lt_of_le hi hlen)
    rw [placeBlock_top hdone]
    exact ⟨Nat.lt_of_lt_of_le hi hlen, heq.symm, hlt⟩
  · have htext : (blockText host args).length < blockRoom host args := by
      rw [length_blockText, blockRoom]
      omega
    obtain ⟨-, -, -, heq⟩ := scratch_within hbase hroom htext
    have h16 := scratch_aligned P.arch s (blockRoom host args)
    have htext16 := length_blockText_mod host args
    rw [harg2, heq]
    apply Nat.mod_eq_zero_of_dvd
    have hdvd : wordBytes w ∣ 16 := by
      rcases P.arch.bits with rfl | rfl <;> decide
    exact Nat.dvd_trans hdvd (Nat.dvd_of_mod_eq_zero (by omega))

/-- **The block decodes to what was built.** For any host path and the vector of any run of the
expansion loop: the vector fits its array, the block fits what was allocated for it and lies in
scratch; once it is written, the path register points to the path, and the vector register to
aligned addresses that are the guest's own or point to the made-up strings. -/
theorem exec_block_decodes {d : Nat} (hd : d ≤ maxShebangDepth) (hp0 : Proper p0)
    (hps : ps.length ≤ maxExecArgs) (hnull : ∀ p ∈ ps, p ≠ 0) (hhost : Proper host)
    (hdone : (placeBlock P s 1 2 host (expandExec P s d (execStart s p0 ps)).args).2 = 1) :
    let args := (expandExec P s d (execStart s p0 ps)).args
    let u := (placeBlock P s 1 2 host args).1
    let block := execBlock P.arch.bigEndian (u.arg P 1) host args
    args.length ≤ maxExecArgs + 16 ∧
    u.mem.toMemory = s.mem.write (u.arg P 1) block ∧
    (∀ i < block.length, i < blockRoom host args ∧
      u.t.scratchTop.toNat + i = (u.arg P 1 + BitVec.ofNat w i).toNat ∧
      u.t.scratchTop.toNat + i < s.t.scratchTop.toNat) ∧
    u.mem.HoldsString (u.arg P 1) host ∧
    (∃ ptrs : List (Word w), List.Forall₂ (EntryAt u.mem) ptrs args ∧
      u.mem.HoldsVector P.arch.bigEndian (wordBytes w) (u.arg P 2) ptrs) ∧
    (u.arg P 2).toNat % wordBytes w = 0 := by
  dsimp only
  have hbuilt : Built maxExecArgs (0 + (2 * d + 1)) ps
      (expandExec P s d (execStart s p0 ps)).args :=
    expandExec_built d (execStart_built hps) (by decide) hp0
  have hd' : 0 + (2 * d + 1) ≤ 16 := by
    simp only [maxShebangDepth] at hd
    omega
  exact ⟨hbuilt.room.trans (Nat.add_le_add_left hd' _), hbuilt.placed hd' hnull hhost hdone⟩

/-- A script with an argument for its interpreter, in the rootfs. -/
def argScript : Platform 64 Unit := filesAt [(cstr "/r/s", cstr "#!/i -x\n"), (cstr "/r/i", [])]

/-- `execve("/s", {"s", "-n"}, ...)` -/
def argScriptCall : St 64 Unit :=
  execveIn <| linuxMem
    [(4096, cstr "/s"),
      (8192, ([12288, 12304] : List (Word 64)).flatMap fun p => toBytes false 8 p.toNat),
      (12288, cstr "s"), (12304, cstr "-n")]

/-- The vector of the script's run is there, and the guest's pointer is behind its strings. -/
theorem argScript_decodes :
    let args := (expandExec argScript argScriptCall 5
      (execStart argScriptCall (cstr "/s") [12288, 12304])).args
    let u := (placeBlock argScript argScriptCall 1 2 (cstr "/r/i") args).1
    args = [.str (cstr "/i"), .str (cstr "-x"), .str (cstr "/s"), .ptr 12304] ∧
    u.mem.HoldsString (u.arg argScript 1) (cstr "/r/i") ∧
    ∃ ptrs : List (Word 64), List.Forall₂ (EntryAt u.mem) ptrs args ∧
      u.mem.HoldsVector false 8 (u.arg argScript 2) ptrs := by
  have hargs : (expandExec argScript argScriptCall 5
      (execStart argScriptCall (cstr "/s") [12288, 12304])).args =
        [.str (cstr "/i"), .str (cstr "-x"), .str (cstr "/s"), .ptr 12304] := by decide +kernel
  have hdone : (placeBlock argScript argScriptCall 1 2 (cstr "/r/i")
      (expandExec argScript argScriptCall 5
        (execStart argScriptCall (cstr "/s") [12288, 12304])).args).2 = 1 := by
    apply placeBlock_succeeds
    · exact fun _ => rfl
    · exact fun a n => canWrite_all (fun _ => rfl) a n
    · have htop : argScriptCall.t.scratchTop = (0x7fff0000#64 - 512#64) &&& ~~~15#64 := by rfl
      rw [hargs, htop]
      decide
  have hp0 : Proper (cstr "/s") := ⟨by decide, by decide⟩
  have hhost : Proper (cstr "/r/i") := ⟨by decide, by decide⟩
  have hlen : ([12288, 12304] : List (Word 64)).length ≤ maxExecArgs := by simp [maxExecArgs]
  have hnull : ∀ p ∈ ([12288, 12304] : List (Word 64)), p ≠ 0 := by simp
  obtain ⟨-, -, -, hpath, hvec, -⟩ :=
    exec_block_decodes (Nat.le_refl 5) hp0 hlen hnull hhost hdone
  exact ⟨hargs, hpath, hvec⟩

/-- **What a rewritten execve leaves**: the block of the loop's host path and vector, decoded. The
vector was built from the path and the pointers that were read of the guest. -/
theorem rewriteExec_decodes (hE : ProperNames (s.walkEnv P true))
    (h : (rewriteExec P s 1 2).2 = 1) :
    let u := (rewriteExec P s 1 2).1
    ∃ p0 ps, guestReadStr s.mem (s.arg P 1) pathLen = some p0 ∧
      readArgv s.mem P.arch.bigEndian (s.arg P 2) maxExecArgs = ps.map .ptr ∧
      let e := expandExec P s maxShebangDepth (execStart s p0 ps)
      e.args.length ≤ maxExecArgs + 16 ∧ u.mem.HoldsString (u.arg P 1) e.host ∧
      ∃ ptrs : List (Word w), List.Forall₂ (EntryAt u.mem) ptrs e.args ∧
        u.mem.HoldsVector P.arch.bigEndian (wordBytes w) (u.arg P 2) ptrs := by
  dsimp only
  obtain ⟨p0, ps, hr, hps, hlen, hnull, heq⟩ :=
    rewriteExec_placeBlock (show (rewriteExec P s 1 2).2 ≠ 0 from by rw [h]; decide)
  have hp0 := guestReadStr_proper hr
  have hbuilt : Built maxExecArgs (0 + (2 * maxShebangDepth + 1)) ps
      (expandExec P s maxShebangDepth (execStart s p0 ps)).args :=
    expandExec_built maxShebangDepth (execStart_built hlen) (by decide) hp0
  have hhost : Proper (expandExec P s maxShebangDepth (execStart s p0 ps)).host :=
    expandExec_host hE maxShebangDepth hp0 ⟨List.not_mem_nil, (by decide : 0 < pathLen)⟩
  rw [heq] at h ⊢
  obtain ⟨-, -, hpath, hvec, -⟩ := hbuilt.placed (by decide) hnull hhost h
  exact ⟨p0, ps, hr, hps, hbuilt.room.trans (by decide), hpath, hvec⟩

end Emuroot
