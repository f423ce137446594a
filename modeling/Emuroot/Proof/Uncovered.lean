import Emuroot.Proof.Disk
import Emuroot.Proof.GrantsInside

/-!
# Symlinks that a grant uncovers

The resolver takes a link for none if it cannot search the directory, and the grant that follows may
open that directory. `stays_valid_iff`: the host path stays the right one exactly if the walk over
the guest path comes to it also where it looks through the links uncovered, and the kernel meets none
of them where the walk has not looked.
-/

namespace Emuroot

open Words Relation
open Resolver (Reading Follows)

variable {w : Nat} {σ : Type} {P : Platform w σ} {s u : St w σ} {d : PathSyscall} {fs : σ}
  {E E' : WalkEnv} {pt pt' p q : Point} {why why' : Why} {guest path text : CStr}
  {slot which : Nat} {follow : Bool} {cs ws : List CStr} {r : Reading Byte}

/-! ## Two walks -/

/-- Both walks come to `p`, and the one goes past a place where the other one sees a link. -/
inductive Parts (E E' : WalkEnv) (guest : CStr) (p : Point) : Prop
  | mk {c text : CStr} (both : ReflTransGen (fun a b => Turn E a b ∧ Turn E' a b) (.start guest) p)
    (enters : p.Enters c) (looks : ¬(p.isLast ∧ E.followLast = false))
    (proc : underProc (E.img (p.cs ++ [c])) = false) (hidden : E.rl (E.img (p.cs ++ [c])) = none)
    (uncovered : E'.rl (E.img (p.cs ++ [c])) = some text)

/-- Where the walks part, the other one comes to the same host path. -/
def SamePath (E E' : WalkEnv) (guest : CStr) : Prop :=
  ∀ p, Parts E E' guest p → ∀ why pt, StopsAt E guest why pt →
    ∀ q why' pt', ReflTransGen (Turn E') p q → Halt E' q why' pt' →
      unwalked E pt'.walk = unwalked E pt.walk

/-- `E'` is `E` with more links. -/
structure Uncovers (E E' : WalkEnv) : Prop where
  ctx : E'.ctx = E.ctx
  root : E'.root = E.root
  followLast : E'.followLast = E.followLast
  rl : ∀ path text, E.rl path = some text → E'.rl path = some text

namespace Uncovers

variable (h : Uncovers E E')
include h

theorem img (cs : List CStr) : E'.img cs = E.img cs := by
  unfold WalkEnv.img
  rw [h.ctx, h.root]

theorem unwalked (pt : Point) : Emuroot.unwalked E' pt.walk = Emuroot.unwalked E pt.walk :=
  unwalked_congr (h.img pt.cs)

/-- A turn is taken by both, or they part. -/
theorem turn (ht : Turn E p q) :
    Turn E' p q ∨ ∃ c text, p.Enters c ∧ ¬(p.isLast ∧ E.followLast = false) ∧
      underProc (E.img (p.cs ++ [c])) = false ∧ E.rl (E.img (p.cs ++ [c])) = none ∧
      E'.rl (E.img (p.cs ++ [c])) = some text := by
  cases ht with
  | here hc => exact .inl (.here hc)
  | up hc => exact .inl (.up hc)
  | @down c hc hl hp hr =>
    cases hr' : E'.rl (E.img (p.cs ++ [c])) with
    | none => exact .inl (.down hc (h.followLast ▸ hl) (h.img _ ▸ hp) (h.img _ ▸ hr'))
    | some text => exact .inr ⟨c, text, hc, hl, hp, hr, hr'⟩
  | link hc hl hp hr hh =>
    exact .inl (.link hc (h.followLast ▸ hl) (h.img _ ▸ hp) (h.img _ ▸ h.rl _ _ hr) hh)

theorem halt (hh : Halt E p why pt) : Halt E' p why pt := by
  cases hh with
  | done hc => exact .done hc
  | tooLong hc hn hlen => exact .tooLong hc hn hlen
  | last hc hl hf => exact .last hc hl (h.followLast.trans hf)
  | proc hc hl hp => exact .proc hc (h.followLast ▸ hl) (h.img _ ▸ hp)
  | hops hc hl hp hr hh =>
    exact .hops hc (h.followLast ▸ hl) (h.img _ ▸ hp) (h.img _ ▸ h.rl _ _ hr) hh

/-- Both walks stop in the same place, or they part. -/
theorem stops_or_parts (hs : StopsAt E guest why pt) :
    StopsAt E' guest why pt ∨ ∃ p, Parts E E' guest p := by
  obtain ⟨q, hq, hh⟩ := hs
  have hboth : ReflTransGen (fun a b => Turn E a b ∧ Turn E' a b) (.start guest) q ∨
      ∃ p, Parts E E' guest p := by
    clear hh
    induction hq with
    | refl => exact .inl .refl
    | tail _ ht ih =>
      rcases ih with ih | ih
      · rcases h.turn ht with ht' | ⟨c, text, hc, hl, hp, hr, hr'⟩
        · exact .inl (ih.tail ⟨ht, ht'⟩)
        · exact .inr ⟨_, ih, hc, hl, hp, hr, hr'⟩
      · exact .inr ih
  refine hboth.imp_left fun hboth => ⟨q, ?_, h.halt hh⟩
  exact ReflTransGen.mono (fun _ _ ht => ht.2) _ _ hboth

/-- **The two translations agree** exactly if the walks come to the same path where they part. -/
theorem translate_iff (habs : guest.head? = some slash) (hmap : unmapped E.ctx E.root = false) :
    (translatePath E' guest pathLen).out = (translatePath E guest pathLen).out ↔
      SamePath E E' guest := by
  have hmap' : unmapped E'.ctx E'.root = false := by rw [h.ctx, h.root, hmap]
  have hafter : ∀ {p q}, Parts E E' guest p → ReflTransGen (Turn E') p q →
      ReflTransGen (Turn E') (.start guest) q := by
    rintro p q ⟨both, -⟩ hq
    exact (ReflTransGen.mono (fun _ _ ht => ht.2) _ _ both).trans hq
  have hout : ∀ {why pt why' pt'}, StopsAt E guest why pt → StopsAt E' guest why' pt' →
      ((translatePath E' guest pathLen).out = (translatePath E guest pathLen).out ↔
        Emuroot.unwalked E pt'.walk = Emuroot.unwalked E pt.walk) := by
    intro why pt why' pt' hs hs'
    rw [translatePath, translatePath, (translate_stopsAt hs habs hmap 0).1,
      (translate_stopsAt hs' habs hmap' 0).1, h.unwalked]
  constructor
  · intro heq p hp why pt hs q why' pt' hq hh
    exact (hout hs ⟨q, hafter hp hq, hh⟩).1 heq
  · intro hsame
    obtain ⟨why, pt, hs⟩ := stopsAt_exists E guest
    rcases h.stops_or_parts hs with hs' | ⟨p, hp⟩
    · exact (hout hs hs').2 rfl
    · obtain ⟨q, why', pt', hq, hh⟩ := stops_from E' (reaches_good (hafter hp .refl) (.start guest))
      exact (hout hs ⟨q, hafter hp hq, hh⟩).2 (hsame p hp why pt hs q why' pt' hq hh)

end Uncovers

/-! ## The links after the entry -/

variable (H : DacHost P)

/-- The directories that may be searched after the entry, from where an argument is looked up. -/
def Opened (H : DacHost P) (s : St w σ) (d : PathSyscall) (u : St w σ) (cs : List CStr) : Prop :=
  H.Searchable u.fs cs ∨ H.kind u.fs cs = some (.inr true) ∧ Given H s d cs .search

open Classical in
/-- The links that can be read with them. -/
noncomputable def uncovered (H : DacHost P) (s : St w σ) (d : PathSyscall) (u : St w σ)
    (path : CStr) : Option CStr :=
  if h : ∃ text, H.Reads u.fs (Opened H s d u) path text then some h.choose else none

theorem Places.Reads.unique {V : Places σ} {may : List CStr → Prop} {text' : CStr}
    (h : V.Reads fs may path text) (h' : V.Reads fs may path text') : text = text' := by
  obtain ⟨-, cs, b, hl, hf⟩ := h
  obtain ⟨-, cs', b', hl', hf'⟩ := h'
  obtain ⟨rfl, rfl⟩ := Prod.ext_iff.1 (hf.unique hf')
  exact Option.some.inj (hl.symm.trans hl')

theorem uncovered_eq_some :
    uncovered H s d u path = some text ↔ H.Reads u.fs (Opened H s d u) path text := by
  unfold uncovered
  split
  · rename_i h
    rw [Option.some_inj]
    constructor
    · rintro rfl
      exact h.choose_spec
    · exact fun ht => h.choose_spec.unique ht
  · rename_i h
    exact iff_of_false (by simp) fun ht => h ⟨text, ht⟩

section
variable (hd : findPathSyscall P.nr (s.sysno P) = some d)
  (turn : PathTurn P s d u slot follow which)
include hd turn

theorem searchable_opened : H.Searchable (onEntry P s).fs = Opened H s d u := by
  funext cs
  exact propext (turn.searchable_onEntry H hd)

theorem space_onEntry (b : Bool) : H.space (onEntry P s).fs b = H.space u.fs b := by
  unfold Places.space Places.link
  rw [kind_onEntry H hd, turn.kind H]

theorem readlink_onEntry : P.readlink (onEntry P s).fs = uncovered H s d u := by
  funext path
  ext text
  rw [uncovered_eq_some, H.readlink_iff, Places.Reads, Places.Reads, searchable_opened H hd turn,
    space_onEntry H hd turn]
  unfold Places.link
  rw [kind_onEntry H hd, turn.kind H]

end

/-- Links that could be read before still can. -/
theorem uncovered_of_readlink (h : P.readlink u.fs path = some text) :
    uncovered H s d u path = some text := by
  obtain ⟨hne, cs, b, hl, hf⟩ := (H.readlink_iff u.fs path text).1 h
  exact (uncovered_eq_some H).2 ⟨hne, cs, b, hl, hf.mono fun _ => .inl⟩

/-- The paths of a process, with the links as they are after the entry. -/
noncomputable def laterEnv (H : DacHost P) (s : St w σ) (d : PathSyscall) (u : St w σ)
    (follow : Bool) : WalkEnv :=
  { u.walkEnv P follow with rl := uncovered H s d u }

theorem uncovers_later : Uncovers (u.walkEnv P follow) (laterEnv H s d u follow) where
  ctx := rfl
  root := rfl
  followLast := rfl
  rl _ _ h := uncovered_of_readlink H h

/-! ## The handed path -/

theorem lookupOf_glue (dir : List CStr) (hw : ∀ c ∈ ws, slash ∉ c) (hne : ws ≠ []) :
    lookupOf dir (glue slash ws) = ⟨[], [] :: ws, 0, false⟩ := by
  have hhead : (glue slash ws).head? = some slash := by
    obtain ⟨c, ws, rfl⟩ := List.exists_cons_of_ne_nil hne
    rfl
  have hsplit : (glue slash ws).splitOn slash = [] :: ws := by
    have h := splitOn_append_glue [] hw
    rwa [List.nil_append, List.splitOn_nil] at h
  rw [lookupOf, if_pos hhead, hsplit]

/-- The link at a place that can be reached can be read there. -/
theorem readlink_place (hw : ∀ c ∈ cs, IsName c) (hne : cs ≠ [])
    (hmay : ∀ k < cs.length, H.Searchable fs (cs.take k))
    (hway : ∀ k, k + 1 < cs.length → H.link fs (cs.take (k + 1)) = none)
    (hl : H.link fs cs = some text) : P.readlink fs (pathStr cs) = some text := by
  have hread := lookupOf_glue H.cwd (fun c hc => (hw c hc).word.sep_not_mem) hne
  obtain ⟨ds, c, rfl⟩ := (List.eq_nil_or_concat' cs).resolve_left hne
  rw [pathStr_of_ne hne]
  refine (H.readlink_iff fs _ text).2 ⟨fun h0 => hne (glue_eq_nil.1 h0), ds ++ [c], false, hl, ?_⟩
  rw [hread]
  refine Resolver.finds_place rfl (Nat.zero_le _) (fun e he => ?_) (fun k hk => ?_) fun k hk => ?_
  · have hn := hw e he
    exact ⟨hn.word.ne_nil, hn.ne_dot, hn.ne_dotdot⟩
  · have := hmay k (by rw [List.length_append, List.length_singleton]; omega)
    rwa [List.take_append_of_le_length hk] at this
  · have := hway k (by rw [List.length_append, List.length_singleton]; omega)
    rwa [List.take_append_of_le_length hk] at this

/-- Where the kernel may meet a link that the walk has not looked at: the walk stopped early, the
root or a host of a binding is not canonical, the host path did not fit the buffers, a link leads to
the directory of the mapping, or the guest's own relative path is handed on. -/
inductive Loose (E : WalkEnv) (why : Why) (pt : Point) (r : Reading Byte) : Prop
  | early (h : why.isEarly)
  | names (h : ¬CanonicalNames E)
  | cut (h : ¬((E.root ++ pathStr pt.cs).length < pathLen ∧
      (dirPlaced E.ctx E.root pt.cs).length + 1 < pathLen))
  | way {k : Nat} (hk : k < (E.baseDir pt.cs).length)
      (h : E.rl (pathStr ((E.baseDir pt.cs).take (k + 1))) ≠ none)
  | given (h : r ≠ lookupOf [] (unwalked E pt.walk))

/-- **Otherwise the kernel follows no link.** -/
theorem not_follows_of_not_loose (hrl : E.rl = P.readlink fs) (hf : E.followLast = follow)
    (hs : StopsAt E guest why pt) (hlen : guest.length < 2 * pathLen) (hloose : ¬Loose E why pt r) :
    ¬Follows (H.space fs follow) (H.Searchable fs) MAXSYMLINKS r cs := by
  have hE : CanonicalNames E := not_not.1 fun h => hloose (.names h)
  obtain ⟨hfit, hhost⟩ := not_not.1 fun h => hloose (.cut h)
  have hr : r = lookupOf [] (unwalked E pt.walk) := not_not.1 fun h => hloose (.given h)
  obtain ⟨ws, hl⟩ := exists_laid hE hs (fun h => hloose (.early h)) hfit hhost
  -- the components and what is behind the last one
  obtain ⟨tail, htail, hread, hlast⟩ : ∃ tail : List CStr, (tail = [] ∨ tail = [[]]) ∧
      r = ⟨[], [] :: (ws ++ tail), 0, false⟩ ∧
      (why = .last → pathStr ws = E.img pt.cs → ws ≠ [] → tail = []) := by
    have hfree : ∀ c ∈ ws, slash ∉ c := fun c hc => (hl.isWord c hc).sep_not_mem
    rcases hl.host with ⟨hh, hne⟩ | hh
    · refine ⟨[], .inl rfl, ?_, fun _ _ _ => rfl⟩
      rw [hr, hh, lookupOf_glue [] hfree hne, List.append_nil]
    · have hglue : glue slash ws ++ [slash] = glue slash (ws ++ [[]]) := by
        rw [glue_append, glue_cons, glue_nil, List.append_nil]
      refine ⟨[[]], .inr rfl, ?_, ?_⟩
      · rw [hr, hh, hglue, lookupOf_glue [] _ (by simp)]
        intro c hc
        rcases List.mem_append.1 hc with hc | hc
        · exact hfree c hc
        · rw [List.mem_singleton.1 hc]
          exact List.not_mem_nil
      · rintro rfl himg hne
        have hlen := congrArg List.length (hh.symm.trans (unwalked_last hs hlen))
        rw [← himg, pathStr_of_ne hne, List.length_append, List.length_singleton] at hlen
        omega
  rw [hread]
  refine Resolver.not_follows (fun c hc => ?_) htail fun i => ?_
  · have hn := hl.names c hc
    exact ⟨hn.word.ne_nil, hn.ne_dot, hn.ne_dotdot⟩
  induction i using Nat.strong_induction_on with
  | _ i ih =>
    intro hi hmay
    cases hlink : H.link fs (ws.take (i + 1)) with
    | none => exact .inl hlink
    | some text =>
      have hlength : (ws.take (i + 1)).length = i + 1 := by rw [List.length_take]; omega
      -- it is the first one, so it can be read
      have hreads : P.readlink fs (pathStr (ws.take (i + 1))) = some text := by
        refine readlink_place H (fun c hc => hl.names c (List.mem_of_mem_take hc)) ?_ ?_ ?_ hlink
        · intro h0
          rw [h0] at hlength
          cases hlength
        · intro k hk
          rw [hlength] at hk
          rw [List.take_take, Nat.min_eq_left (by omega)]
          exact hmay k (by omega)
        · intro k hk
          rw [hlength] at hk
          rw [List.take_take, Nat.min_eq_left (by omega)]
          rcases ih k (by omega) (by omega) fun j hj => hmay j (by omega) with h | ⟨-, h, -⟩
          · exact h
          · omega
      rw [← hrl] at hreads
      rcases Nat.lt_or_ge i (E.baseDir pt.cs).length with hlt | hge
      · obtain ⟨rest, hrest⟩ := hl.base
        rw [← hrest, List.take_append_of_le_length hlt] at hreads
        refine absurd (.way hlt ?_) hloose
        rw [hreads]
        exact Option.some_ne_none text
      · rcases hl.below i hge hi with h | ⟨hwhy, hno, hend, himg⟩
        · rw [hreads] at h
          cases h
        · refine .inr ⟨hlast hwhy himg ?_, hend, hf ▸ hno⟩
          rintro rfl
          cases hi

/-! ## The entry -/

/-- An argument of the call that is looked up in the name space, and the kernel's lookup of it. -/
structure LookedUp (V : Places σ) (P : Platform w σ) (s : St w σ) (d : PathSyscall) (u : St w σ)
    (follow : Bool) (guest : CStr) (r : Reading Byte) : Prop where
  turn : ∃ slot which, PathTurn P s d u slot follow which ∧
    argGuest P u (s.sysno P) slot = some guest ∧ handed V P (s.sysno P) u slot follow = some r
  absolute : guest.head? = some slash

/-- The host paths are those that the resolver would compute on `fs`, and the kernel follows no link
there that was invisible when it looked. -/
def StaysValid (V : Places σ) (P : Platform w σ) (s : St w σ) (d : PathSyscall) (fs : σ) : Prop :=
  ∀ u follow guest r, LookedUp V P s d u follow guest r →
    (translatePath { u.walkEnv P follow with rl := P.readlink fs } guest pathLen).out =
      (translatePath (u.walkEnv P follow) guest pathLen).out ∧
    ∀ cs, Follows (V.space fs follow) (V.Searchable fs) MAXSYMLINKS r cs →
      P.readlink u.fs (pathStr cs) ≠ none

/-- **The host paths stay valid across the grants** exactly if the links uncovered lead the walk to
the same path, and none of them is met where the walk has not looked. -/
theorem stays_valid_iff (hd : findPathSyscall P.nr (s.sysno P) = some d) :
    StaysValid H.toPlaces P s d (onEntry P s).fs ↔
      ∀ u follow guest r, LookedUp H.toPlaces P s d u follow guest r →
        SamePath (u.walkEnv P follow) (laterEnv H s d u follow) guest ∧
        ∀ why pt, StopsAt (laterEnv H s d u follow) guest why pt →
          Loose (laterEnv H s d u follow) why pt r →
          ∀ cs, Follows (H.space u.fs follow) (Opened H s d u) MAXSYMLINKS r cs →
            P.readlink u.fs (pathStr cs) ≠ none := by
  unfold StaysValid
  refine forall_congr' fun u => forall_congr' fun follow => forall_congr' fun guest =>
    forall_congr' fun r => forall_congr' fun hres => ?_
  obtain ⟨⟨slot, which, turn, hguest, -⟩, habs⟩ := hres
  have hmap : unmapped (u.walkEnv P follow).ctx (u.walkEnv P follow).root = false :=
    argGuest_mapped hguest
  have hlater : { u.walkEnv P follow with rl := P.readlink (onEntry P s).fs } =
      laterEnv H s d u follow := by
    rw [laterEnv, readlink_onEntry H hd turn]
  rw [hlater, (uncovers_later H).translate_iff habs hmap, searchable_opened H hd turn,
    space_onEntry H hd turn]
  refine and_congr_right fun _ => ⟨fun h why pt _ _ => h, fun h cs hcs => ?_⟩
  obtain ⟨why, pt, hs⟩ := stopsAt_exists (laterEnv H s d u follow) guest
  by_cases hloose : Loose (laterEnv H s d u follow) why pt r
  · exact h why pt hs hloose cs hcs
  · have hnone : ¬Follows (H.space (onEntry P s).fs follow) (H.Searchable (onEntry P s).fs)
        MAXSYMLINKS r cs :=
      not_follows_of_not_loose H (readlink_onEntry H hd turn).symm rfl hs (argGuest_length hguest)
        hloose
    rw [searchable_opened H hd turn, space_onEntry H hd turn] at hnone
    exact absurd hcs hnone

/-! ## A link in a directory that the grant opens -/

/-- The rootfs `/r` with `/r/d/x`, where `/r/d` has this mode. -/
def closedDisk (mode : Nat) (x : Node) : Disk :=
  [([], ownDir 1 0o755), ([cstr "r"], ownDir 2 0o755), ([cstr "r", cstr "d"], ownDir 3 mode),
    ([cstr "r", cstr "d", cstr "x"], x)]

/-- `open("/d/x", O_WRONLY | O_CREAT)` -/
def closedOpen (x : Node) : St 64 Disk := diskOpen (closedDisk 0o600 x) "/d/x" 0o101

/-- `/r/d/x` is a link to `/etc/x` that only the grant makes visible. -/
theorem link_uncovered :
    (onEntry diskPlatform (closedOpen (.link (cstr "/etc/x")))).fs =
      closedDisk 0o700 (.link (cstr "/etc/x")) ∧
    ¬StaysValid diskHost.toPlaces diskPlatform (closedOpen (.link (cstr "/etc/x"))) openEntry
      (onEntry diskPlatform (closedOpen (.link (cstr "/etc/x")))).fs := by
  have hfs : (onEntry diskPlatform (closedOpen (.link (cstr "/etc/x")))).fs =
      closedDisk 0o700 (.link (cstr "/etc/x")) := by decide +kernel
  refine ⟨hfs, fun h => ?_⟩
  rw [hfs] at h
  have hem : (emulateEntry diskPlatform
      (resetCall diskPlatform (closedOpen (.link (cstr "/etc/x"))))
      ((closedOpen (.link (cstr "/etc/x"))).sysno diskPlatform)).2 = false := by decide +kernel
  have hf : followLast diskPlatform
      (noted diskPlatform (closedOpen (.link (cstr "/etc/x"))) openEntry) openEntry = true := by
    decide +kernel
  have hturn : PathTurn diskPlatform (closedOpen (.link (cstr "/etc/x"))) openEntry
      (noted diskPlatform (closedOpen (.link (cstr "/etc/x"))) openEntry) 1 true 0 :=
    hf ▸ PathTurn.first hem
  have hlooked : LookedUp diskHost.toPlaces diskPlatform (closedOpen (.link (cstr "/etc/x")))
      openEntry (noted diskPlatform (closedOpen (.link (cstr "/etc/x"))) openEntry) true
      (cstr "/d/x") (lookupOf [] (cstr "/r/d/x")) :=
    ⟨⟨1, 0, hturn, by decide +kernel, by decide +kernel⟩, by decide⟩
  exact absurd (h _ _ _ _ hlooked).1 (by decide +kernel)

/-- `/r/d/x` is a file. -/
theorem file_stays :
    (onEntry diskPlatform (closedOpen (ownFile 4 0o644))).fs = closedDisk 0o700 (ownFile 4 0o644) ∧
    StaysValid diskHost.toPlaces diskPlatform (closedOpen (ownFile 4 0o644)) openEntry
      (onEntry diskPlatform (closedOpen (ownFile 4 0o644))).fs := by
  have hd : findPathSyscall diskPlatform.nr
      ((closedOpen (ownFile 4 0o644)).sysno diskPlatform) = some openEntry := by decide +kernel
  refine ⟨by decide +kernel, (stays_valid_iff diskHost hd).2 ?_⟩
  rintro u follow guest r ⟨⟨slot, which, turn, -⟩, -⟩
  have hnolink : ∀ cs, diskHost.link u.fs cs = none := by
    intro cs
    unfold Places.link
    rw [turn.kind diskHost]
    refine link_eq_none (fun e he => ?_) cs
    rcases List.mem_cons.1 he with rfl | he
    · exact ⟨_, rfl⟩
    rcases List.mem_cons.1 he with rfl | he
    · exact ⟨_, rfl⟩
    rcases List.mem_cons.1 he with rfl | he
    · exact ⟨_, rfl⟩
    · rw [List.mem_singleton.1 he]
      exact ⟨_, rfl⟩
  constructor
  · rintro p ⟨-, -, -, -, -, huncovered⟩
    obtain ⟨-, cs, b, hl, -⟩ := (uncovered_eq_some diskHost).1 huncovered
    rw [hnolink] at hl
    cases hl
  · rintro why pt - - cs ⟨-, -, -, -, -, hlink, -⟩
    rw [show (diskHost.space u.fs follow).link = diskHost.link u.fs from rfl, hnolink] at hlink
    cases hlink

end Emuroot
