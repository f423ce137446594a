import Emuroot.Proof.Links
import Emuroot.Proof.Rerooted

/-!
# The new root

`chroot_reroots`: on a host without symlinks a guest path of a process that has called chroot goes to
where it went behind the directory just before, exactly if in the two name spaces it ends in the same
place: no binding takes it in the one that does not in the other, or the directory that it puts
somewhere lies there anyway. A directory below the host's `/proc` is left to the kernel before the
call, and so is what is below it afterwards. At the new root `..` stays.
-/

namespace Emuroot

open Words

variable {w : Nat} {σ : Type} {P : Platform w σ} {s : St w σ} {E : WalkEnv} {dir guest : CStr}
  {cs ws : List CStr} {pt : Point} {why : Why}

/-! ## The call -/

section
variable (P : Platform w σ) (s : St w σ) (dir : CStr)

/-- The directory is found, and its host path is one that can be a root. -/
structure Rootable (pt : Point) : Prop where
  mapped : unmapped s.ctx s.t.root = false
  canonical : Canonical s.ctx s.t.root
  stops : StopsAt (s.walkEnv P true) dir .done pt
  absolute : dir.head? = some slash
  fits : (s.t.root ++ pathStr pt.cs).length < pathLen
  hostFits : (dirPlaced s.ctx s.t.root pt.cs).length + 1 < pathLen
  notSlash : dirPlaced s.ctx s.t.root pt.cs ≠ []
  notProc : underProc (dirPlaced s.ctx s.t.root pt.cs) = false

/-- The walk over the directory leaves it to the kernel below `/proc`, with `ws` to go and no symlink
on its host path. -/
structure LeftToKernel (pt : Point) (ws : List CStr) : Prop where
  mapped : unmapped s.ctx s.t.root = false
  canonical : Canonical s.ctx s.t.root
  stops : StopsAt (s.walkEnv P true) dir .proc pt
  absolute : dir.head? = some slash
  spelled : pt.text.dropWhile (· == slash) = (glue slash ws).tail
  names : ∀ c ∈ ws, IsName c
  fits : s.t.root.length + (glue slash pt.cs).length + 1 < pathLen
  hostFits : (dirPlaced s.ctx s.t.root pt.cs ++ glue slash ws).length + 1 < pathLen
  unlinked : ∀ d, Stem slash d (dirPlaced s.ctx s.t.root pt.cs ++ glue slash ws) → d ≠ [] →
    P.readlink s.fs d = none

end

variable {kern : Kernel w σ} {follow : Bool}

theorem Rootable.walkEnv (hok : Rootable P s dir pt) (h : ChrootCall P s dir)
    (hreal : RealpathResolves P s.fs) (hfree : LinkFree (P.readlink s.fs)) (kern : Kernel w σ)
    (follow : Bool) :
    (afterCall P s kern).walkEnv P follow =
      ⟨s.ctx, dirPlaced s.ctx s.t.root pt.cs, P.readlink kern.fs, follow⟩ := by
  have htop := hok.canonical.dirPlaced hok.stops.good.names
  have hfits := hok.hostFits
  have htext : pt.text = [] := by
    obtain ⟨p, -, hh⟩ := hok.stops
    cases hh with
    | done => rfl
  have hhost : UpToSlash (translatePath (s.walkEnv P true) dir pathLen).out
      (dirPlaced s.ctx s.t.root pt.cs) := by
    have hu := unwalked_placed hok.stops (.inl rfl) htop.not_endsWithSlash hok.fits (by
      rw [htext]
      exact hfits)
    rw [htext, show rest [] = [] from rfl, List.append_nil] at hu
    rw [translatePath, (translate_stopsAt hok.stops hok.absolute hok.mapped 0).1]
    exact hu
  refine h.walkEnv hreal htop hok.notSlash (fun d hd _ => hfree d ?_) hhost (by omega) kern follow
  -- a directory below `/proc` has nothing else below it
  cases hp : underProc d with
  | false => rfl
  | true =>
    obtain ⟨r, hr, -⟩ := hd
    have hnot := hok.notProc
    rw [hr, underProc_append hp] at hnot
    cases hnot

theorem LeftToKernel.walkEnv (hok : LeftToKernel P s dir pt ws) (h : ChrootCall P s dir)
    (hreal : RealpathResolves P s.fs) (kern : Kernel w σ) (follow : Bool) :
    (afterCall P s kern).walkEnv P follow =
      ⟨s.ctx, dirPlaced s.ctx s.t.root pt.cs ++ glue slash ws, P.readlink kern.fs, follow⟩ := by
  have hD := hok.canonical.dirPlaced hok.stops.good.names
  have hfits := hok.hostFits
  have hne := dirPlaced_ne_nil hok.stops hok.fits
  have hrest : rest pt.text = glue slash ws := by
    rw [rest, hok.spelled]
    cases ws with
    | nil => rfl
    | cons c ws => rw [if_neg (by simp [(hok.names c List.mem_cons_self).word.ne_nil])]; rfl
  have hhost : UpToSlash (translatePath (s.walkEnv P true) dir pathLen).out
      (dirPlaced s.ctx s.t.root pt.cs ++ glue slash ws) := by
    have hpath := length_pathStr_le pt.cs
    have hroot := hok.fits
    rw [← hrest, translatePath, (translate_stopsAt hok.stops hok.absolute hok.mapped 0).1]
    refine unwalked_placed hok.stops (.inr (.inr rfl)) hD.not_endsWithSlash ?_ ?_
    · rw [List.length_append]
      exact Nat.lt_of_le_of_lt (Nat.add_le_add_left hpath _) hroot
    · rw [hok.spelled, List.length_tail]
      rw [List.length_append] at hfits
      exact Nat.lt_of_le_of_lt (by
        show (dirPlaced s.ctx s.t.root pt.cs).length + ((glue slash ws).length - 1) + 1 ≤ _
        omega) hfits
  exact h.walkEnv hreal (hD.append ⟨ws, hok.names, rfl⟩) (fun h0 => hne (List.append_eq_nil_iff.1 h0).1)
    hok.unlinked hhost (by omega) kern follow

end Emuroot
