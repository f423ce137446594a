import Emuroot.Proof.Walk

/-!
# The rounds of the walk

What holds in every round of the loop of `emuroot_translate_path_ex`, whatever the host answers to
each `readlink`: the rounds come to an end (`round_wellFounded`), and the path so far is normal
(`Normal`), so that `pop_component` has a slash to find and the host path is not empty.
-/

namespace Emuroot

open Words Relation

/-- A round that goes on, with any answer of the host to its `readlink`. -/
def Round (E : WalkEnv) (s s' : Walk) : Prop :=
  ∃ rl, walkStep { E with rl := rl } s = .inl s'

/-- The last round, with any answer of the host to its `readlink`. -/
def LastRound (E : WalkEnv) (s s' : Walk) : Prop :=
  ∃ rl, walkStep { E with rl := rl } s = .inr s'

/-- `/`, or names with a slash before each, within `cur`'s buffer. -/
structure Normal (cur : CStr) : Prop where
  form : cur = [slash] ∨ ∃ cs ≠ [], (∀ c ∈ cs, IsName c) ∧ cur = glue slash cs
  fits : cur.length < pathLen

/-- The values of `cur` in a round: on entry, and with the next component behind it. -/
def curs (s : Walk) : List CStr :=
  let comp := nextComp s.p
  s.cur ::
    if comp ≠ [] ∧ comp ≠ dot ∧ comp ≠ dotdot ∧ s.cur.length + 1 + comp.length < pathLen then
      [s.cur ++ (if s.cur.length > 1 then [slash] else []) ++ comp]
    else []

/-- The host path with what is left unwalked behind it, whose last byte decides on another slash. -/
def joinedHost (E : WalkEnv) (s : Walk) : CStr :=
  let host := mapToHost E.ctx E.root s.cur pathLen
  if s.p = [] then host
  else host ++ snprintf (pathLen - host.length)
    ((if endsWithSlash host then [] else [slash]) ++ s.p.dropWhile (· == slash))

variable {E : WalkEnv}

/-- No answers of the host keep the loop going for ever. -/
theorem round_wellFounded (E : WalkEnv) : WellFounded fun s' s => Round E s s' := by
  apply Subrelation.wf (r := fun s' s => walkMeasure s' < walkMeasure s)
  · rintro s' s ⟨rl, h⟩
    exact walkStep_decreases h
  · exact (measure walkMeasure).wf

/-! ## The path so far -/

theorem strrchr_isSome {s : CStr} (h : slash ∈ s) : (strrchr s slash).isSome := by
  rw [strrchr, Option.isSome_map, List.findIdx?_isSome, List.any_reverse, List.any_eq_true]
  exact ⟨slash, h, beq_self_eq_true slash⟩

theorem Normal.slash_mem {cur : CStr} (h : Normal cur) : slash ∈ cur := by
  rcases h.form with rfl | ⟨cs, hne, -, rfl⟩
  · exact List.mem_singleton_self slash
  · cases cs with
    | nil => exact absurd rfl hne
    | cons c cs => simp

theorem mapToHost_ne_nil {ctx : Ctx} {root guest : CStr} (h : guest ≠ []) :
    mapToHost ctx root guest pathLen ≠ [] := by
  have hor : ∀ s : CStr, orSlash s ≠ [] := by
    intro s
    unfold orSlash
    split
    · simp
    · assumption
  unfold mapToHost
  dsimp only
  split
  · exact hor _
  · split
    · exact hor _
    · rw [snprintf, Ne, List.take_eq_nil_iff, not_or]
      exact ⟨by decide, by simp [h]⟩

theorem joinedHost_ne_nil {s : Walk} (h : s.cur ≠ []) : joinedHost E s ≠ [] := by
  unfold joinedHost
  dsimp only
  split
  · exact mapToHost_ne_nil h
  · exact List.append_ne_nil_of_left_ne_nil (mapToHost_ne_nil h) _

namespace Point

theorem Good.normal {pt : Point} (h : pt.Good) : Normal pt.walk.cur := by
  refine ⟨?_, h.fits⟩
  by_cases hcs : pt.cs = []
  · left
    simp [walk, hcs]
  · exact .inr ⟨pt.cs, hcs, h.names, pathStr_of_ne hcs⟩

/-- A place whose path is normal stays one through a round. -/
theorem Good.normal_of_mem {pt : Point} (h : pt.Good) {cur : CStr} (hc : cur ∈ curs pt.walk) :
    Normal cur := by
  rcases List.mem_cons.1 hc with rfl | hc
  · exact h.normal
  · split at hc
    · rename_i hnext
      obtain ⟨h0, h1, h2, hlen⟩ := hnext
      have hent : pt.Enters (nextComp pt.text) := ⟨rfl, ⟨isWord_nextComp h0, h1, h2⟩, hlen⟩
      have hpush := (h.push hent).normal
      rw [List.mem_singleton.1 hc]
      rwa [walk, Point.push, pathStr_append h.words] at hpush
    · cases hc

end Point

/-- Some place of the walk whose components are good. -/
def Placed (s : Walk) : Prop := ∃ pt : Point, pt.Good ∧ s = pt.walk

theorem Placed.round {s s' : Walk} (h : Placed s) (hr : Round E s s') : Placed s' := by
  obtain ⟨pt, hg, rfl⟩ := h
  obtain ⟨rl, hs⟩ := hr
  rcases turn_or_halt { E with rl := rl } pt with ⟨pt', ht⟩ | ⟨why, pt', hh⟩
  · exact ⟨pt', ht.good hg, Sum.inl.inj (hs.symm.trans (ht.step hg))⟩
  · cases hs.symm.trans (hh.step hg)

theorem Placed.lastRound {s s' : Walk} (h : Placed s) (hr : LastRound E s s') : Placed s' := by
  obtain ⟨pt, hg, rfl⟩ := h
  obtain ⟨rl, hs⟩ := hr
  rcases turn_or_halt { E with rl := rl } pt with ⟨pt', ht⟩ | ⟨why, pt', hh⟩
  · cases hs.symm.trans (ht.step hg)
  · exact ⟨pt', hh.good hg, Sum.inr.inj (hs.symm.trans (hh.step hg))⟩

theorem placed_reached {guest : CStr} {s : Walk} (h : ReflTransGen (Round E) (walkStart guest) s) :
    Placed s := by
  induction h with
  | refl => exact ⟨.start guest, .start guest, rfl⟩
  | tail _ hr ih => exact ih.round hr

theorem Placed.normal_of_mem {s : Walk} (h : Placed s) {cur : CStr} (hc : cur ∈ curs s) :
    Normal cur := by
  obtain ⟨pt, hg, rfl⟩ := h
  exact hg.normal_of_mem hc

/-- The walk over any guest path, under any answers of the host: it ends; whenever it goes round,
and when it leaves, `cur` is normal, so that a slash is found in it; the host paths whose last
character is looked at are not empty. -/
theorem walk_well_behaved (E : WalkEnv) (guest : CStr) :
    (WellFounded fun s' s => Round E s s') ∧
    (∃ s, ReflTransGen (Round E) (walkStart guest) s ∧
      LastRound E s ((walkLoop E).run (walkStart guest))) ∧
    ∀ s, ReflTransGen (Round E) (walkStart guest) s →
      (∀ cur ∈ curs s, Normal cur ∧ (strrchr cur slash).isSome) ∧
      ∀ s', LastRound E s s' →
        Normal s'.cur ∧ mapToHost E.ctx E.root s'.cur pathLen ≠ [] ∧ joinedHost E s' ≠ [] := by
  refine ⟨round_wellFounded E, ?_, fun s hs => ⟨fun cur hc => ?_, fun s' hl => ?_⟩⟩
  · have hround : ∀ s s', ReflTransGen (Round E) (walkStart guest) s →
        (walkLoop E).step s = .inl s' → ReflTransGen (Round E) (walkStart guest) s' :=
      fun s s' h hs => h.tail ⟨E.rl, hs⟩
    obtain ⟨e, he, hr⟩ := (walkLoop E).run_spec hround .refl
    exact ⟨e, he, E.rl, hr⟩
  · have hn := (placed_reached hs).normal_of_mem hc
    exact ⟨hn, strrchr_isSome hn.slash_mem⟩
  · have hn := ((placed_reached hs).lastRound hl).normal_of_mem List.mem_cons_self
    have hne : s'.cur ≠ [] := List.ne_nil_of_mem hn.slash_mem
    exact ⟨hn, mapToHost_ne_nil hne, joinedHost_ne_nil hne⟩

end Emuroot
