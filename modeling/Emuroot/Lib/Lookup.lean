import Emuroot.Lib.Resolver

/-!
# Lookups in directories that may be closed

A resolver that has to search every directory it looks an item up in, and follows `limit` links at
most. `Gets`: so far it comes. `Finds`: it comes to the end. `Follows`: it follows a link, wherever
it ends. `finds_step` is the rule for one item, and `look` computes where a lookup ends
(`look_iff`).
-/

namespace Resolver

open Words Relation

variable {α : Type*} [DecidableEq α] {S : Space α} {may may' : List (List α) → Prop} {limit n : Nat}
  {r r' e : Reading α} {goal : List (List α) × Bool} {dir ws tail : List (List α)} {b : Bool}

deriving instance DecidableEq for Reading

/-- The next item is looked up in a directory that may be searched, behind `limit` links at most. -/
structure Admits (may : List (List α) → Prop) (limit : Nat) (r : Reading α) : Prop where
  links : r.links ≤ limit
  search : ∀ c ∈ r.items.head?, c ≠ [] → may r.dir

section
variable (S : Space α) (may : List (List α) → Prop) (limit : Nat)

/-- The lookup comes from `r` to `r'`. -/
def Gets : Reading α → Reading α → Prop :=
  ReflTransGen fun e e' => Admits may limit e ∧ step S e = .inl e'

/-- The lookup from `r` on ends there. -/
def Finds (r : Reading α) (goal : List (List α) × Bool) : Prop :=
  ∃ e, Gets S may limit r e ∧ Admits may limit e ∧ step S e = .inr goal

/-- The lookup from `r` on follows the link at this place. -/
inductive Follows (r : Reading α) : List (List α) → Prop
  | mk {e : Reading α} {c target : List α} {rest : List (List α)} (gets : Gets S may limit r e)
    (may : may e.dir) (item : e.items = c :: rest) (name : c ≠ [] ∧ c ≠ S.here ∧ c ≠ S.up)
    (goes : ¬(rest = [] ∧ S.followLast = false)) (link : S.link (e.dir ++ [c]) = some target)
    (room : e.links < limit) : Follows r (e.dir ++ [c])

end

theorem Gets.reaches (h : Gets S may limit r r') : Reaches S r r' :=
  ReflTransGen.mono (fun _ _ h => h.2) _ _ h

theorem Finds.resolves (h : Finds S may limit r goal) : Resolves S r goal := by
  obtain ⟨e, hr, -, he⟩ := h
  exact ⟨e, hr.reaches, he⟩

theorem Finds.unique {a b : List (List α) × Bool} (ha : Finds S may limit r a)
    (hb : Finds S may limit r b) : a = b := ha.resolves.unique hb.resolves

/-- More directories that may be searched. -/
theorem Finds.mono (hmay : ∀ d, may d → may' d) (h : Finds S may limit r goal) :
    Finds S may' limit r goal := by
  have hadmits : ∀ {e : Reading α}, Admits may limit e → Admits may' limit e := fun h =>
    ⟨h.links, fun c hc hne => hmay _ (h.search c hc hne)⟩
  obtain ⟨e, hr, ha, he⟩ := h
  exact ⟨e, ReflTransGen.mono (fun _ _ h => ⟨hadmits h.1, h.2⟩) _ _ hr, hadmits ha, he⟩

/-! ## One item -/

theorem finds_end (hs : step S r = .inr goal) {a : List (List α) × Bool} :
    Finds S may limit r a ↔ Admits may limit r ∧ a = goal := by
  constructor
  · rintro ⟨e, hr, ha, he⟩
    rcases ReflTransGen.cases_head hr with rfl | ⟨m, ⟨-, hm⟩, -⟩
    · exact ⟨ha, Sum.inr.inj (he.symm.trans hs)⟩
    · cases hs.symm.trans hm
  · rintro ⟨ha, rfl⟩
    exact ⟨r, .refl, ha, hs⟩

theorem finds_step (hs : step S r = .inl r') :
    Finds S may limit r goal ↔ Admits may limit r ∧ Finds S may limit r' goal := by
  constructor
  · rintro ⟨e, hr, ha, he⟩
    rcases ReflTransGen.cases_head hr with rfl | ⟨m, ⟨ham, hm⟩, hr⟩
    · cases hs.symm.trans he
    · obtain rfl : r' = m := Sum.inl.inj (hs.symm.trans hm)
      exact ⟨ham, e, hr, ha, he⟩
  · rintro ⟨ha, e, hr, hae, he⟩
    exact ⟨e, .head ⟨ha, hs⟩ hr, hae, he⟩

/-- An item that is no link leaves the rest to read; a link is one more. -/
theorem step_inl {c : List α} {rest : List (List α)} (h : step S ⟨dir, c :: rest, n, b⟩ = .inl r') :
    r'.links = n ∧ r'.items = rest ∨ r'.links = n + 1 := by
  unfold step at h
  dsimp only at h
  split at h
  · cases h
    exact .inl ⟨rfl, rfl⟩
  split at h
  · cases h
    exact .inl ⟨rfl, rfl⟩
  split at h
  · cases h
    exact .inl ⟨rfl, rfl⟩
  split at h
  · cases h
  split at h
  · cases h
    exact .inl ⟨rfl, rfl⟩
  · cases h
    exact .inr rfl

/-! ## Computed -/

section
variable (S : Space α) (may : List (List α) → Bool)

/-- The items up to the next link, from which `k` goes on. -/
def lookItems (k : Reading α → Option (List (List α) × Bool)) (n : Nat) :
    List (List α) → List (List α) → Bool → Option (List (List α) × Bool)
  | dir, [], b => some (dir, b)
  | dir, c :: rest, b =>
    if c ≠ [] ∧ may dir = false then none
    else
      match step S ⟨dir, c :: rest, n, b⟩ with
      | .inr goal => some goal
      | .inl r => if r.links = n then lookItems k n r.dir rest r.slash else k r

/-- Where a lookup ends that follows at most so many links more. -/
def look : Nat → Reading α → Option (List (List α) × Bool)
  | 0, r => lookItems S may (fun _ => none) r.links r.dir r.items r.slash
  | m + 1, r => lookItems S may (look m) r.links r.dir r.items r.slash

end

theorem lookItems_iff {may : List (List α) → Bool} {k : Reading α → Option (List (List α) × Bool)}
    (hn : n ≤ limit)
    (hk : ∀ r, r.links = n + 1 → (k r = some goal ↔ Finds S (may · = true) limit r goal)) :
    lookItems S may k n dir ws b = some goal ↔
      Finds S (may · = true) limit ⟨dir, ws, n, b⟩ goal := by
  induction ws generalizing dir b with
  | nil =>
    rw [finds_end (S := S) (r := ⟨dir, [], n, b⟩) rfl, lookItems, Option.some_inj]
    constructor
    · exact fun h => ⟨⟨hn, nofun⟩, h.symm⟩
    · exact fun h => h.2.symm
  | cons c rest ih =>
    have hadmits : Admits (may · = true) limit ⟨dir, c :: rest, n, b⟩ ↔
        ¬(c ≠ [] ∧ may dir = false) := by
      constructor
      · intro h hc
        have hs := h.search c rfl hc.1
        rw [hc.2] at hs
        cases hs
      · intro h
        refine ⟨hn, fun d hd hne => ?_⟩
        cases hd
        simpa using fun hm => h ⟨hne, hm⟩
    rw [lookItems]
    by_cases hc : c ≠ [] ∧ may dir = false
    · rw [if_pos hc]
      refine iff_of_false (by simp) fun h => ?_
      cases hs : step S ⟨dir, c :: rest, n, b⟩ with
      | inl r' => exact hadmits.1 ((finds_step hs).1 h).1 hc
      | inr g => exact hadmits.1 ((finds_end hs).1 h).1 hc
    · rw [if_neg hc]
      cases hs : step S ⟨dir, c :: rest, n, b⟩ with
      | inr g =>
        rw [finds_end hs, Option.some_inj]
        constructor
        · exact fun h => ⟨hadmits.2 hc, h.symm⟩
        · exact fun h => h.2.symm
      | inl r' =>
        rw [finds_step hs, and_iff_right (hadmits.2 hc)]
        dsimp only
        rcases step_inl hs with ⟨hlinks, hitems⟩ | hlinks
        · obtain ⟨dir', items', links', b'⟩ := r'
          dsimp only at hlinks hitems
          subst hlinks hitems
          rw [if_pos rfl]
          exact ih
        · rw [if_neg (by omega)]
          exact hk r' hlinks

/-- **`look` ends where the lookup does.** -/
theorem look_iff {may : List (List α) → Bool} {m : Nat} :
    look S may m r = some goal ↔ Finds S (may · = true) (r.links + m) r goal := by
  induction m generalizing r with
  | zero =>
    refine lookItems_iff (Nat.le_refl _) fun r' hr' => iff_of_false (by simp) ?_
    -- a link too many
    have hover : ¬Admits (may · = true) (r.links + 0) r' := fun h => by
      have := h.links
      omega
    rintro ⟨e, hr, ha, -⟩
    rcases ReflTransGen.cases_head hr with rfl | ⟨m, ⟨hm, -⟩, -⟩
    · exact hover ha
    · exact hover hm
  | succ m ih =>
    refine lookItems_iff (Nat.le_add_right _ _) fun r' hr' => ?_
    rw [ih, hr', Nat.add_right_comm]
    rfl

/-! ## Past names -/

/-- A name that is no link and not the end of the path. -/
theorem step_past {c : List α} {rest : List (List α)} (hc : c ≠ [] ∧ c ≠ S.here ∧ c ≠ S.up)
    (hgo : ¬(rest = [] ∧ S.followLast = false)) (hl : S.link (dir ++ [c]) = none) :
    step S ⟨dir, c :: rest, n, b⟩ = .inl ⟨dir ++ [c], rest, n, false⟩ := by
  unfold step
  dsimp only
  rw [if_neg hc.1, if_neg hc.2.1, if_neg hc.2.2, if_neg hgo, hl]

/-- The last name of a path that is not followed. -/
theorem step_last {c : List α} (hc : c ≠ [] ∧ c ≠ S.here ∧ c ≠ S.up) (hf : S.followLast = false) :
    step S ⟨dir, [c], n, b⟩ = .inr (dir ++ [c], false) := by
  unfold step
  dsimp only
  rw [if_neg hc.1, if_neg hc.2.1, if_neg hc.2.2, if_pos ⟨rfl, hf⟩]

/-- The lookup comes past names that are no links, in directories that may be searched. -/
theorem gets_past (hn : n ≤ limit) (hw : ∀ c ∈ ws, c ≠ [] ∧ c ≠ S.here ∧ c ≠ S.up) (ht : tail ≠ [])
    (hway : ∀ k < ws.length, may (dir ++ ws.take k) ∧ S.link (dir ++ ws.take (k + 1)) = none) :
    ∃ b', Gets S may limit ⟨dir, ws ++ tail, n, b⟩ ⟨dir ++ ws, tail, n, b'⟩ := by
  induction ws generalizing dir b with
  | nil => exact ⟨b, by rw [List.append_nil]; exact .refl⟩
  | cons c ws ih =>
    obtain ⟨hmay, hl⟩ := hway 0 (Nat.succ_pos _)
    rw [List.take_zero, List.append_nil] at hmay
    have hstep : step S ⟨dir, c :: (ws ++ tail), n, b⟩ = .inl ⟨dir ++ [c], ws ++ tail, n, false⟩ :=
      step_past (hw c List.mem_cons_self) (fun h => ht (List.append_eq_nil_iff.1 h.1).2) hl
    have hway' : ∀ k < ws.length,
        may (dir ++ [c] ++ ws.take k) ∧ S.link (dir ++ [c] ++ ws.take (k + 1)) = none := by
      intro k hk
      have := hway (k + 1) (Nat.succ_lt_succ hk)
      simpa using this
    obtain ⟨b', h⟩ := ih (b := false) (fun d hd => hw d (List.mem_cons_of_mem _ hd)) hway'
    rw [List.append_assoc] at h
    exact ⟨b', .head ⟨⟨hn, fun _ _ _ => hmay⟩, hstep⟩ h⟩

/-- The lookup ends at the last name of a path that is not followed. -/
theorem finds_place {c : List α} (hf : S.followLast = false) (hn : n ≤ limit)
    (hw : ∀ d ∈ ws ++ [c], d ≠ [] ∧ d ≠ S.here ∧ d ≠ S.up) (hmay : ∀ k ≤ ws.length, may (ws.take k))
    (hl : ∀ k < ws.length, S.link (ws.take (k + 1)) = none) :
    Finds S may limit ⟨[], [] :: (ws ++ [c]), n, b⟩ (ws ++ [c], false) := by
  have hskip : step S ⟨[], [] :: (ws ++ [c]), n, b⟩ = .inl ⟨[], ws ++ [c], n, true⟩ := rfl
  obtain ⟨b', h⟩ : ∃ b', Gets S may limit ⟨[], ws ++ [c], n, true⟩ ⟨[] ++ ws, [c], n, b'⟩ :=
    gets_past hn (fun d hd => hw d (List.mem_append_left _ hd)) (List.cons_ne_nil c [])
      fun k hk => ⟨hmay k (Nat.le_of_lt hk), hl k hk⟩
  have hend : Admits may limit (⟨ws, [c], n, b'⟩ : Reading α) := by
    refine ⟨hn, fun _ _ _ => ?_⟩
    have := hmay ws.length (Nat.le_refl _)
    rwa [List.take_length] at this
  exact ⟨_, .head ⟨⟨hn, fun d hd hne => by cases hd; exact absurd rfl hne⟩, hskip⟩ h, hend,
    step_last (hw c (by simp)) hf⟩

/-- Where a lookup stands in a path of names, with the separators before and behind them. -/
inductive Along (may : List (List α) → Prop) (ws tail : List (List α)) : Reading α → Prop
  | before {n : Nat} {b : Bool} : Along may ws tail ⟨[], [] :: (ws ++ tail), n, b⟩
  | inside {n i : Nat} {b : Bool} (hi : i ≤ ws.length) (hmay : ∀ j < i, may (ws.take j)) :
    Along may ws tail ⟨ws.take i, ws.drop i ++ tail, n, b⟩
  | behind {dir : List (List α)} {n : Nat} {b : Bool} : Along may ws tail ⟨dir, [], n, b⟩

section
variable (hw : ∀ c ∈ ws, c ≠ [] ∧ c ≠ S.here ∧ c ≠ S.up) (ht : tail = [] ∨ tail = [[]])
  (hl : ∀ i < ws.length, (∀ j ≤ i, may (ws.take j)) →
    S.link (ws.take (i + 1)) = none ∨ tail = [] ∧ i + 1 = ws.length ∧ S.followLast = false)
include hw ht hl

theorem Along.step (h : Along may ws tail e) (ha : Admits may limit e) (hs : step S e = .inl r) :
    Along may ws tail r := by
  cases h with
  | before =>
    cases hs
    exact .inside (i := 0) (Nat.zero_le _) nofun
  | behind => cases hs
  | @inside n i b hi hmay =>
    rcases Nat.lt_or_eq_of_le hi with hlt | rfl
    · have hc := hw _ (List.getElem_mem hlt)
      rw [List.drop_eq_getElem_cons hlt, List.cons_append] at hs ha
      have hall : ∀ j ≤ i, may (ws.take j) := by
        intro j hj
        rcases Nat.lt_or_eq_of_le hj with hj | rfl
        · exact hmay j hj
        · exact ha.search _ rfl hc.1
      have htake : ws.take i ++ [ws[i]] = ws.take (i + 1) := (List.take_succ_eq_append_getElem hlt).symm
      rcases hl i hlt hall with hnone | ⟨rfl, hend, hf⟩
      · by_cases hgo : ws.drop (i + 1) ++ tail = [] ∧ S.followLast = false
        · rw [hgo.1, step_last hc hgo.2] at hs
          cases hs
        · rw [step_past hc hgo (by rw [htake]; exact hnone), htake] at hs
          cases hs
          exact .inside hlt fun j hj => hall j (Nat.le_of_lt_succ hj)
      · rw [hend, List.drop_length, List.append_nil, step_last hc hf] at hs
        cases hs
    · rw [List.drop_length, List.nil_append] at hs
      rcases ht with rfl | rfl
      · cases hs
      · cases hs
        exact .behind

theorem gets_along (h : Gets S may limit ⟨[], [] :: (ws ++ tail), n, b⟩ e) :
    Along may ws tail e := by
  induction h with
  | refl => exact .before
  | tail _ hs ih => exact ih.step hw ht hl hs.1 hs.2

/-- A path of names that are no links is looked up without following one. -/
theorem not_follows {loc : List (List α)} :
    ¬Follows S may limit ⟨[], [] :: (ws ++ tail), n, b⟩ loc := by
  rintro ⟨gets, hmay, hitem, hname, hgo, hlink, -⟩
  have h := gets_along hw ht hl gets
  cases h with
  | before =>
    obtain ⟨hc, -⟩ := List.cons.inj hitem
    exact hname.1 hc.symm
  | behind => cases hitem
  | @inside n i b hi hall =>
    rcases Nat.lt_or_eq_of_le hi with hlt | rfl
    · dsimp only at hitem hmay hlink
      rw [List.drop_eq_getElem_cons hlt, List.cons_append] at hitem
      obtain ⟨rfl, rfl⟩ := List.cons.inj hitem
      rw [← List.take_succ_eq_append_getElem hlt] at hlink
      have hway : ∀ j ≤ i, may (ws.take j) := by
        intro j hj
        rcases Nat.lt_or_eq_of_le hj with hj | rfl
        · exact hall j hj
        · exact hmay
      rcases hl i hlt hway with hnone | ⟨rfl, hend, hf⟩
      · rw [hnone] at hlink
        cases hlink
      · refine hgo ⟨?_, hf⟩
        rw [hend, List.drop_length]
        rfl
    · dsimp only at hitem
      rw [List.drop_length, List.nil_append] at hitem
      rcases ht with rfl | rfl
      · cases hitem
      · obtain ⟨hc, -⟩ := List.cons.inj hitem
        exact hname.1 hc.symm

end

end Resolver
