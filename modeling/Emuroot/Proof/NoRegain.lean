import Emuroot.Model.Creds

/-!
# No privilege is regained (`creds.c`)

`Creds.held c w`: the ids of side `w` that `c` holds (real, effective, saved, fs).
`held_subset`: a call made without effective uid 0 leaves the held ids of each side within those
held before, and the groups as they are; `no_regain` is that over runs. From `creds_init`
a zero fsuid comes with another zero uid (`FsCovered`), so a process whose real, effective and
saved uid are non-zero holds no zero at all and stays unprivileged.
-/

namespace Emuroot

/-- The ids of one side: real, effective, saved, fs. -/
def Creds.held (c : Creds) (w : Which) : List UInt32 :=
  [(c.ids w).real, (c.ids w).effective, (c.ids w).saved, c.fs w]

/-- One call. -/
def CredStep (c : Creds) (call : CredCall) (c' : Creds) : Prop := (call.run c).1 = c'

/-- One call made with an effective uid other than 0. -/
def UnprivStep (c : Creds) (call : CredCall) (c' : Creds) : Prop :=
  c.uid.effective ≠ 0 ∧ CredStep c call c'

/-- `c'` holds no id that `c` does not hold, and has its groups. -/
structure Within (c c' : Creds) : Prop where
  held : ∀ w, c'.held w ⊆ c.held w
  groups : c'.groups = c.groups

instance : IsPreorder Creds Within where
  refl _ := ⟨fun _ => List.Subset.refl _, rfl⟩
  trans _ _ _ h1 h2 := ⟨fun w => List.Subset.trans (h2.held w) (h1.held w), h2.groups.trans h1.groups⟩

theorem privileged_eq_false {c : Creds} : privileged c = false ↔ c.uid.effective ≠ 0 := by
  simp [privileged]

theorem mem_held_of_in3 {c : Creds} {w : Which} {v : UInt32} (h : in3 (c.ids w) v = true) :
    v ∈ c.held w := by
  simp only [in3, Bool.or_eq_true, beq_iff_eq] at h
  rcases h with (rfl | rfl) | rfl <;> simp [Creds.held]

/-- Replacing one side by ids it holds. -/
theorem within_put {c : Creds} {w : Which} {ids : Ids} {fs : UInt32}
    (hr : ids.real ∈ c.held w) (he : ids.effective ∈ c.held w) (hs : ids.saved ∈ c.held w)
    (hf : fs ∈ c.held w) : Within c (c.put w ids fs) := by
  refine ⟨fun v x hx => ?_, by simp⟩
  by_cases hv : v = w
  · subst hv
    simp only [Creds.held, Creds.ids_put, Creds.fs_put, List.mem_cons, List.not_mem_nil,
      or_false] at hx
    rcases hx with rfl | rfl | rfl | rfl <;> assumption
  · obtain ⟨hi, hfs⟩ := c.ids_put_ne ids fs hv
    simpa only [Creds.held, hi, hfs] using hx

/-- `apply_uid` / `apply_gid` with arguments that are unset or held. -/
theorem within_applyIds {c : Creds} {w : Which} {r e s : UInt32} (hr : r = noid ∨ r ∈ c.held w)
    (he : e = noid ∨ e ∈ c.held w) (hs : s = noid ∨ s ∈ c.held w) :
    Within c (applyIds w c r e s) := by
  have key : ∀ {x y : UInt32}, x = noid ∨ x ∈ c.held w → y ∈ c.held w →
      (if x ≠ noid then x else y) ∈ c.held w := by
    intro x y hx hy
    split
    · exact hx.resolve_left ‹_›
    · exact hy
  exact within_put (key hr (by simp [Creds.held])) (key he (by simp [Creds.held]))
    (key hs (by simp [Creds.held])) (key he (by simp [Creds.held]))

section
variable {c : Creds} (hu : privileged c = false)
include hu

theorem within_setId (w : Which) (u : UInt32) : Within c (setId w c u).1 := by
  unfold setId
  rw [hu]
  split
  · contradiction
  · split
    · refine within_applyIds (.inl rfl) (.inr ?_) (.inl rfl)
      rcases ‹u = _ ∨ u = _› with rfl | rfl <;> simp [Creds.held]
    · exact refl_of Within c

theorem within_setresId (w : Which) (r e s : UInt32) : Within c (setresId w c r e s).1 := by
  have key : ∀ x : UInt32, (x != noid && !in3 (c.ids w) x) = false → x = noid ∨ x ∈ c.held w := by
    intro x hx
    by_cases hn : x = noid
    · exact .inl hn
    · exact .inr (mem_held_of_in3 (by simpa [hn] using hx))
  unfold setresId
  split
  · exact refl_of Within c
  · rename_i h
    simp only [hu, Bool.not_false, Bool.true_and, Bool.not_eq_true, Bool.or_eq_false_iff] at h
    exact within_applyIds (key r h.1.1) (key e h.1.2) (key s h.2)

theorem within_setreId (w : Which) (r e : UInt32) : Within c (setreId w c r e).1 := by
  unfold setreId
  split
  · exact refl_of Within c
  · rename_i h
    simp only [hu, Bool.not_false, Bool.true_and, Bool.not_eq_true, Bool.or_eq_false_iff] at h
    obtain ⟨h1, h2⟩ := h
    have hr : r = noid ∨ r ∈ c.held w := by
      by_cases hn : r = noid
      · exact .inl hn
      · simp only [Bool.and_eq_false_iff, bne_eq_false_iff_eq] at h1
        rcases h1 with (h1 | rfl) | rfl
        · exact absurd h1 hn
        · exact .inr (by simp [Creds.held])
        · exact .inr (by simp [Creds.held])
    have he : e = noid ∨ e ∈ c.held w := by
      by_cases hn : e = noid
      · exact .inl hn
      · exact .inr (mem_held_of_in3 (by simpa [hn] using h2))
    refine within_applyIds hr he ?_
    split
    · split
      · exact he
      · exact .inr (by simp [Creds.held])
    · exact .inl rfl

theorem within_setfsId (w : Which) (u : UInt32) : Within c (setfsId w c u).1 := by
  unfold setfsId
  simp only
  split
  · rename_i h
    refine within_put (by simp [Creds.held]) (by simp [Creds.held]) (by simp [Creds.held]) ?_
    rcases h.2 with h | rfl | h
    · simp [hu] at h
    · simp [Creds.held]
    · exact mem_held_of_in3 h
  · exact refl_of Within c

theorem within_setgroups (list : List UInt32) (n : Int) : Within c (credsSetgroups c list n).1 := by
  simpa [credsSetgroups, hu] using refl_of Within c

end

/-- Every call made without effective uid 0 stays within the ids held. -/
theorem held_subset {c c' : Creds} {call : CredCall} (h : UnprivStep c call c') : Within c c' := by
  obtain ⟨he, rfl⟩ := h
  have hu := privileged_eq_false.2 he
  cases call with
  | setuid u => exact within_setId hu .user u
  | setgid g => exact within_setId hu .group g
  | setreuid r e => exact within_setreId hu .user r e
  | setregid r e => exact within_setreId hu .group r e
  | setresuid r e s => exact within_setresId hu .user r e s
  | setresgid r e s => exact within_setresId hu .group r e s
  | setfsuid u => exact within_setfsId hu .user u
  | setfsgid g => exact within_setfsId hu .group g
  | setgroups list n => exact within_setgroups hu list n

/-! ## From `creds_init` -/

/-- A zero fsuid comes with a zero real, effective or saved uid. -/
def FsCovered (c : Creds) : Prop := c.fsuid = 0 → in3 c.uid 0 = true

theorem fsCovered_init (u g : UInt32) : FsCovered (credsInit u g) := by
  intro h
  simp only [credsInit] at h
  simp [credsInit, in3, h]

theorem fsCovered_applyIds {c : Creds} {w : Which} {r e s : UInt32} (h : FsCovered c) :
    FsCovered (applyIds w c r e s) := by
  cases w with
  | user => intro h0; simp only [applyIds, Creds.put, Creds.ids] at h0 ⊢; simp [in3, h0]
  | group => exact h

theorem fsCovered_setfsId {c : Creds} {w : Which} {u : UInt32} (h : FsCovered c) :
    FsCovered (setfsId w c u).1 := by
  unfold setfsId
  simp only
  split
  · rename_i hc
    cases w with
    | group => exact h
    | user =>
      rintro rfl
      rcases hc.2 with hp | h0 | h3
      · simp only [privileged, beq_iff_eq] at hp
        simp [Creds.put, Creds.ids, in3, hp]
      · exact h h0.symm
      · exact h3
  · exact h

theorem fsCovered_step {c c' : Creds} {call : CredCall} (h : FsCovered c)
    (hs : CredStep c call c') : FsCovered c' := by
  have hset : ∀ w u, FsCovered (setId w c u).1 := fun w u => by
    unfold setId; split
    · exact fsCovered_applyIds h
    · split
      · exact fsCovered_applyIds h
      · exact h
  have hres : ∀ w r e s, FsCovered (setresId w c r e s).1 := fun w r e s => by
    unfold setresId; split
    · exact h
    · exact fsCovered_applyIds h
  have hre : ∀ w r e, FsCovered (setreId w c r e).1 := fun w r e => by
    unfold setreId; split
    · exact h
    · exact fsCovered_applyIds h
  obtain rfl := hs
  cases call with
  | setuid u => exact hset .user u
  | setgid g => exact hset .group g
  | setreuid r e => exact hre .user r e
  | setregid r e => exact hre .group r e
  | setresuid r e s => exact hres .user r e s
  | setresgid r e s => exact hres .group r e s
  | setfsuid u => exact fsCovered_setfsId h
  | setfsgid g => exact fsCovered_setfsId h
  | setgroups list n =>
    show FsCovered (credsSetgroups c list n).1
    unfold credsSetgroups
    split
    · exact h
    · split <;> exact h

/-- A process that holds no zero uid never holds one again. -/
theorem zero_stays_out {c c' : Creds} {calls : List CredCall} (h : 0 ∉ c.held .user)
    (hr : Run CredStep c calls c') : 0 ∉ c'.held .user := by
  refine hr.inv (I := fun c => 0 ∉ c.held .user) (fun c call c' hc hs h0 => hc ?_) h
  have he : c.uid.effective ≠ 0 := fun he => hc (by simp [Creds.held, Creds.ids, he])
  exact (held_subset ⟨he, hs⟩).held .user h0

/-! ## Runs -/

/-- **No privilege is regained.** Calls each made without effective uid 0 add no id to those held
and leave the groups alone; and a process that descends from `creds_init` and has dropped uid 0
from its real, effective and saved uid never has a zero uid again, whatever it calls. -/
theorem no_regain :
    (∀ c calls c', Run UnprivStep c calls c' →
      (∀ w, c'.held w ⊆ c.held w) ∧ c'.groups = c.groups) ∧
    ∀ u g calls₀ c calls c', Run CredStep (credsInit u g) calls₀ c →
      c.uid.real ≠ 0 → c.uid.effective ≠ 0 → c.uid.saved ≠ 0 →
      Run CredStep c calls c' → 0 ∉ c'.held .user := by
  refine ⟨fun c calls c' hr => ?_, fun u g calls₀ c calls c' h0 hreal heff hsaved hr => ?_⟩
  · obtain ⟨h1, h2⟩ := hr.rel (R := Within) fun _ _ _ => held_subset
    exact ⟨h1, h2⟩
  · refine zero_stays_out (fun hz => ?_) hr
    have hfs : FsCovered c := h0.inv (fun _ _ _ h hs => fsCovered_step h hs) (fsCovered_init u g)
    simp only [Creds.held, Creds.ids, Creds.fs, List.mem_cons, List.not_mem_nil, or_false] at hz
    rcases hz with h | h | h | h
    · exact hreal h.symm
    · exact heff h.symm
    · exact hsaved h.symm
    · have := hfs h.symm
      simp only [in3, Bool.or_eq_true, beq_iff_eq] at this
      rcases this with (h | h) | h
      · exact hreal h.symm
      · exact heff h.symm
      · exact hsaved h.symm

/-- apt's drop to uid 100, and the attempts to undo it. -/
theorem no_regain_drop :
    let dropped := ((CredCall.setresuid 100 100 100).run (credsInit 0 0)).1
    let undone := ((CredCall.setfsuid 0).run ((CredCall.setuid 0).run dropped).1).1
    ((∀ w, undone.held w ⊆ dropped.held w) ∧ undone.groups = dropped.groups) ∧
      0 ∉ undone.held .user := by
  intro dropped undone
  refine ⟨no_regain.1 dropped [.setuid 0, .setfsuid 0] undone ?_,
    no_regain.2 0 0 [.setresuid 100 100 100] dropped [.setuid 0, .setfsuid 0] undone ?_ ?_ ?_ ?_ ?_⟩
  · exact .cons ⟨by decide, rfl⟩ (.cons ⟨by decide, rfl⟩ (.nil _))
  · exact .cons rfl (.nil _)
  · decide
  · decide
  · decide
  · exact .cons rfl (.cons rfl (.nil _))

end Emuroot
