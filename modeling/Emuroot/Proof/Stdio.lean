import Emuroot.Lib.Moves
import Emuroot.Model.Spawn

/-!
# What the supervisor inherits

`closeInheritedFds_file`: nothing but the standard descriptors is left where the directory of
descriptors opens. `spawn_stdio_iff`: when the standard ones are what the three given descriptors
were. They are taken one after another, so that a standard descriptor that is given as well may be
overwritten before its turn.
-/

namespace Emuroot

variable {F : Type} {K : FdHost F} {t : Fds F}

/-! ## Closing -/

/-- The loop ends, and then nothing else is open above the standard descriptors. -/
theorem closeLoop_run (K : FdHost F) (self : Nat) (t : Fds F) :
    (∀ fd, fd ≤ 2 ∨ fd = self → ((closeLoop K self).run t).file fd = t.file fd) ∧
      ∀ fd, fd > 2 → fd ≠ self → ((closeLoop K self).run t).file fd = none := by
  let I : Fds F → Prop := fun t' => ∀ fd, fd ≤ 2 ∨ fd = self → t'.file fd = t.file fd
  have hkeep : ∀ t', I t' → I (t'.closeAll (collect self (K.names t') []).1) := by
    intro t' h fd hfd
    rw [Fds.closeAll_file, if_neg, h fd hfd]
    intro hm
    rcases mem_collect hm with hm | ⟨h2, hs, -⟩
    · cases hm
    · rcases hfd with hfd | hfd
      · omega
      · exact hs hfd
  have hI : ∀ t' t'', I t' → (closeLoop K self).step t' = .inl t'' → I t'' := by
    intro t' t'' h hs
    change closeStep K self t' = _ at hs
    unfold closeStep at hs
    dsimp only at hs
    split at hs
    · cases hs
      exact hkeep t' h
    · cases hs
  obtain ⟨e, he, hs⟩ := (closeLoop K self).run_spec hI (s := t) fun _ _ => rfl
  change closeStep K self e = _ at hs
  unfold closeStep at hs
  dsimp only at hs
  split at hs
  · cases hs
  · rename_i hmore
    rw [← Sum.inr.inj hs]
    refine ⟨hkeep e he, fun fd h2 hne => ?_⟩
    rw [Fds.closeAll_file]
    split
    · rfl
    · rename_i hnot
      by_contra hsome
      have hopen : e.isOpen fd = true := Option.isSome_iff_ne_none.2 hsome
      have hnamed := (K.named_iff e h2).2 hopen
      exact hnot (collect_all (Bool.eq_false_iff.2 hmore) (.inr ⟨h2, hne, hnamed⟩))

/-- The descriptors below this one are closed where the directory does not open. -/
def closeMax (K : FdHost F) : Nat :=
  if K.openMax < 0 ∨ K.openMax > 65536 then 65536 else K.openMax.toNat

theorem closeInheritedFds_file (K : FdHost F) (t : Fds F) (fd : Nat) :
    (closeInheritedFds K t).file fd =
      if fd > 2 ∧ (K.opens = true ∨ fd < closeMax K) then none else t.file fd := by
  unfold closeInheritedFds
  cases ho : K.opens with
  | true =>
    dsimp only
    rw [if_pos rfl, Fds.close_file]
    obtain ⟨hkeep, hclosed⟩ := closeLoop_run K t.lowest (t.set t.lowest K.dir)
    by_cases hself : fd = t.lowest
    · rw [hself, Function.update_self, t.lowest_unused]
      simp
    · rw [Function.update_of_ne hself]
      by_cases h2 : fd > 2
      · rw [hclosed fd h2 hself]
        simp [h2]
      · rw [hkeep fd (.inl (by omega)), Fds.set_file, Function.update_of_ne hself]
        simp [h2]
  | false =>
    rw [if_neg Bool.false_ne_true]
    dsimp only
    rw [Fds.closeAll_file]
    have hm : fd ∈ List.range' 3 (closeMax K - 3) ↔ fd > 2 ∧ fd < closeMax K := by
      rw [List.mem_range'_1]
      omega
    show (if fd ∈ List.range' 3 (closeMax K - 3) then none else t.file fd) = _
    simp only [hm, Bool.false_eq_true, false_or]

/-! ## The standard descriptors -/

/-- The descriptor that becomes `std`. -/
def stdSource (fd : Int) (std : Nat) : Nat := if fd ≥ 0 then fd.toNat else std

/-- The three `dup2`s. -/
def stdMoves (o : SpawnOpts) : List (Nat × Nat) :=
  [(0, stdSource o.stdinFd 0), (1, stdSource o.stdoutFd 1), (2, stdSource o.stderrFd 2)]

/-- Options whose descriptors are -1 or open. -/
structure StdGiven (t : Fds F) where
  opts : Option SpawnOpts
  given : ∀ o ∈ opts, ∀ fd ∈ [o.stdinFd, o.stdoutFd, o.stderrFd],
    fd = -1 ∨ ∃ n : Nat, fd = n ∧ t.isOpen n = true

/-- The options in force. -/
def StdGiven.used (g : StdGiven t) : SpawnOpts := g.opts.getD ⟨-1, -1, -1⟩

/-- What the supervisor's descriptors are to be: the given ones at once, and no others. -/
def inherited (t : Fds F) (o : SpawnOpts) (fd : Nat) : Option F :=
  if fd ≤ 2 then Moves.par (stdMoves o) t.file fd else none

theorem StdGiven.used_given (g : StdGiven t) {fd : Int}
    (h : fd ∈ [g.used.stdinFd, g.used.stdoutFd, g.used.stderrFd]) :
    fd = -1 ∨ ∃ n : Nat, fd = n ∧ t.isOpen n = true := by
  unfold used at h
  cases ho : g.opts with
  | none =>
    left
    simpa [ho] using h
  | some o =>
    rw [ho] at h
    exact g.given o ho fd h

/-- Giving a descriptor is a move; what was open stays open. -/
theorem giveStd_eq {fd : Int} (h : fd = -1 ∨ ∃ n : Nat, fd = n ∧ t.isOpen n = true) (std : Nat) :
    ∃ t', giveStd fd std t = some t' ∧
      t'.file = Function.update t.file std (t.file (stdSource fd std)) ∧
      ∀ n, t.isOpen n = true → t'.isOpen n = true := by
  unfold giveStd stdSource
  rcases h with rfl | ⟨n, rfl, hn⟩
  · rw [if_neg (by decide), if_neg (by decide)]
    exact ⟨t, rfl, (Function.update_eq_self std t.file).symm, fun _ h => h⟩
  · rw [if_pos (by simp), if_pos (by simp), Int.toNat_natCast, Fds.dup2]
    obtain ⟨f, hf⟩ := Option.isSome_iff_exists.1 hn
    rw [hf]
    refine ⟨t.set std f, rfl, rfl, fun m hm => ?_⟩
    rw [Fds.isOpen, Fds.set_file]
    by_cases hms : m = std
    · rw [hms, Function.update_self]
      rfl
    · rwa [Function.update_of_ne hms]

/-- The supervisor's descriptors, by the moves made in order. -/
theorem spawnFds_file (K : FdHost F) (g : StdGiven t) :
    ∃ u, spawnFds K g.opts t = some u ∧ ∀ fd, u.file fd =
      if fd > 2 ∧ (K.opens = true ∨ fd < closeMax K) then none
      else Moves.seq (stdMoves g.used) t.file fd := by
  have hlater : ∀ {t' : Fds F} {fd : Int}, (∀ n, t.isOpen n = true → t'.isOpen n = true) →
      fd ∈ [g.used.stdinFd, g.used.stdoutFd, g.used.stderrFd] →
      fd = -1 ∨ ∃ n : Nat, fd = n ∧ t'.isOpen n = true := fun hopen h =>
    (g.used_given h).imp id fun ⟨n, hn, ht⟩ => ⟨n, hn, hopen n ht⟩
  obtain ⟨t1, h1, hf1, ho1⟩ := giveStd_eq (g.used_given (by simp : g.used.stdinFd ∈ _)) 0
  obtain ⟨t2, h2, hf2, ho2⟩ := giveStd_eq (hlater ho1 (by simp : g.used.stdoutFd ∈ _)) 1
  obtain ⟨t3, h3, hf3, -⟩ :=
    giveStd_eq (hlater (fun n hn => ho2 n (ho1 n hn)) (by simp : g.used.stderrFd ∈ _)) 2
  have hseq : Moves.seq (stdMoves g.used) t.file = t3.file := by
    rw [hf3, hf2, hf1]
    rfl
  have hspawn : spawnFds K g.opts t = some (closeInheritedFds K t3) := by
    unfold spawnFds
    dsimp only
    rw [show g.opts.getD ⟨-1, -1, -1⟩ = g.used from rfl, h1, Option.bind_some, h2,
      Option.bind_some, h3, Option.map_some]
  refine ⟨_, hspawn, fun fd => ?_⟩
  rw [closeInheritedFds_file, hseq]

/-- No standard descriptor that is given is overwritten, before its turn, with another file. -/
def ReadInTime (t : Fds F) (o : SpawnOpts) : Prop :=
  (stdSource o.stdoutFd 1 = 0 ∨ stdSource o.stderrFd 2 = 0 →
    t.file (stdSource o.stdinFd 0) = t.file 0) ∧
  (stdSource o.stderrFd 2 = 1 → t.file (stdSource o.stdoutFd 1) = t.file 1)

theorem readInTime_iff (t : Fds F) (o : SpawnOpts) :
    ReadInTime t o ↔ Moves.seq (stdMoves o) t.file = Moves.par (stdMoves o) t.file := by
  rw [Moves.seq_eq_par_iff (by simp [stdMoves])]
  unfold ReadInTime stdMoves
  generalize stdSource o.stdinFd 0 = a
  generalize stdSource o.stdoutFd 1 = b
  generalize stdSource o.stderrFd 2 = c
  have hb : Moves.seq [(0, a)] t.file b = if b = 0 then t.file a else t.file b := by
    simp [Moves.seq, Function.update_apply]
  have hc : Moves.seq [(0, a), (1, b)] t.file c =
      if c = 1 then Moves.seq [(0, a)] t.file b else if c = 0 then t.file a else t.file c := by
    simp [Moves.seq, Function.update_apply]
  constructor
  · rintro ⟨h0, h1⟩ pre d s post hsplit
    rcases pre with _ | ⟨x, _ | ⟨y, _ | ⟨z, pre⟩⟩⟩
    · rfl
    · obtain ⟨rfl, hs, -⟩ : x = (0, a) ∧ (1, b) = (d, s) ∧ _ := by simpa [eq_comm] using hsplit
      cases hs
      rw [hb]
      split
      · rename_i hb0
        rw [h0 (.inl hb0), hb0]
      · rfl
    · obtain ⟨rfl, rfl, hs, -⟩ : x = (0, a) ∧ y = (1, b) ∧ (2, c) = (d, s) ∧ _ := by
        simpa [eq_comm] using hsplit
      cases hs
      rw [hc, hb]
      grind
    · simp at hsplit
  · intro h
    have h1 := h [(0, a)] 1 b [(2, c)] rfl
    have h2 := h [(0, a), (1, b)] 2 c [] rfl
    rw [hb] at h1
    rw [hc, hb] at h2
    constructor
    · grind
    · intro hc1
      grind

/-- What is above the standard descriptors can be found to be closed. -/
def FoundToClose (K : FdHost F) (t : Fds F) : Prop :=
  K.opens = true ∨ ∀ fd, 2 < fd → t.isOpen fd = true → fd < closeMax K

/-- **The supervisor's descriptors.** The loop that closes the others ends; what is open behind it
are the given descriptors, taken at once, exactly when each is read in time and the others are
found. -/
theorem spawn_stdio_iff (K : FdHost F) (t : Fds F) (g : StdGiven t) :
    (∀ self t', ((closeLoop K self).rounds (t'.count + 1) t').isSome = true) ∧
    ((∃ u, spawnFds K g.opts t = some u ∧ ∀ fd, u.file fd = inherited t g.used fd) ↔
      ReadInTime t g.used ∧ FoundToClose K t) := by
  refine ⟨fun self t' => (closeLoop K self).rounds_isSome (Nat.lt_succ_self _), ?_⟩
  obtain ⟨u, hu, hfile⟩ := spawnFds_file K g
  have hhigh : ∀ fd, fd > 2 → Moves.seq (stdMoves g.used) t.file fd = t.file fd := by
    intro fd h2
    apply Moves.seq_of_not_mem
    simp only [stdMoves, List.map_cons, List.map_nil, List.mem_cons, List.not_mem_nil, or_false]
    omega
  rw [readInTime_iff]
  constructor
  · rintro ⟨u', hu', hall⟩
    obtain rfl : u = u' := Option.some.inj (hu.symm.trans hu')
    constructor
    · funext fd
      by_cases h2 : fd > 2
      · rw [hhigh fd h2, Moves.par_of_not_mem]
        simp only [stdMoves, List.map_cons, List.map_nil, List.mem_cons, List.not_mem_nil, or_false]
        omega
      · have := hall fd
        rwa [hfile, if_neg (fun h => h2 h.1), inherited, if_pos (by omega)] at this
    · rw [FoundToClose, or_iff_not_imp_left]
      intro hopens fd h2 hopen
      by_contra hlt
      have := hall fd
      rw [hfile, if_neg (by simp [hopens, hlt]), hhigh fd h2, inherited, if_neg (by omega)] at this
      rw [Fds.isOpen, this] at hopen
      cases hopen
  · rintro ⟨hseq, hclose⟩
    refine ⟨u, hu, fun fd => ?_⟩
    rw [hfile, hseq, inherited]
    by_cases h2 : fd > 2
    · rw [if_neg (by omega : ¬fd ≤ 2)]
      split
      · rfl
      · rename_i hnot
        rw [← hseq, hhigh fd h2]
        by_contra hne
        have hopen : t.isOpen fd = true := Option.isSome_iff_ne_none.2 hne
        exact hnot ⟨h2, hclose.imp id fun h => h fd h2 hopen⟩
    · rw [if_neg (fun h => h2 h.1), if_pos (by omega)]

/-- A kernel that lists the descriptors in order. -/
def procSelfFd : FdHost Nat where
  names t := dot :: dotdot :: ((List.range t.size).filter t.isOpen).map Decimal.text
  mem_names t n := by
    rw [List.mem_cons, List.mem_cons]
    refine or_congr_right (or_congr_right ?_)
    rw [List.mem_map]
    constructor
    · rintro ⟨fd, hfd, rfl⟩
      exact ⟨fd, (List.mem_filter.1 hfd).2, rfl⟩
    · rintro ⟨fd, hfd, rfl⟩
      exact ⟨fd, List.mem_filter.2 ⟨List.mem_range.2 (Fds.isOpen_lt hfd), hfd⟩, rfl⟩
  opens := true
  dir := 99
  openMax := 1024

/-- File 10 at descriptor 0, file 11 at 1, and so on. -/
def openFds (n : Nat) : Fds Nat where
  file fd := if fd < n then some (10 + fd) else none
  size := n
  unused fd hfd := if_neg (by omega)

/-- The ends of two pipes, and a descriptor that nobody gave: standard error goes where standard
output does. -/
def piped : StdGiven (openFds 6) where
  opts := some ⟨3, 4, 4⟩
  given := by
    rintro o ⟨⟩ fd hfd
    simp only [List.mem_cons, List.not_mem_nil, or_false] at hfd
    rcases hfd with rfl | rfl | rfl
    · exact .inr ⟨3, rfl, rfl⟩
    · exact .inr ⟨4, rfl, rfl⟩
    · exact .inr ⟨4, rfl, rfl⟩

/-- They are handed over, and nothing else stays open. -/
theorem piped_handed :
    ∃ u, spawnFds procSelfFd piped.opts (openFds 6) = some u ∧
      u.file 0 = some 13 ∧ u.file 1 = some 14 ∧ u.file 2 = some 14 ∧ ∀ fd > 2, u.file fd = none := by
  have hread : ReadInTime (openFds 6) piped.used :=
    ⟨fun h => absurd h (by decide), fun h => absurd h (by decide)⟩
  obtain ⟨u, hu, hall⟩ :=
    ((spawn_stdio_iff procSelfFd (openFds 6) piped).2).2 ⟨hread, .inl rfl⟩
  refine ⟨u, hu, hall 0, hall 1, hall 2, fun fd hfd => ?_⟩
  rw [hall, inherited, if_neg (by omega)]

/-- Standard input and output, the other way round. -/
def swapped : StdGiven (openFds 3) where
  opts := some ⟨1, 0, -1⟩
  given := by
    rintro o ⟨⟩ fd hfd
    simp only [List.mem_cons, List.not_mem_nil, or_false] at hfd
    rcases hfd with rfl | rfl | rfl
    · exact .inr ⟨1, rfl, rfl⟩
    · exact .inr ⟨0, rfl, rfl⟩
    · exact .inl rfl

/-- The guest's input and output are both the caller's output. -/
theorem swapped_not_handed :
    ¬∃ u, spawnFds procSelfFd swapped.opts (openFds 3) = some u ∧
      ∀ fd, u.file fd = inherited (openFds 3) swapped.used fd := by
  rintro ⟨u, hu, hall⟩
  obtain ⟨u', hu', hfile⟩ := spawnFds_file procSelfFd swapped
  obtain rfl : u = u' := Option.some.inj (hu.symm.trans hu')
  have h1 := (hfile 1).symm.trans (hall 1)
  revert h1
  decide

end Emuroot
