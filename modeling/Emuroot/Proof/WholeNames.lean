import Emuroot.Lib.Steps
import Emuroot.Proof.Looks

/-!
# Names that do not fit

`wholeStep` is a round of the walk with buffers that hold everything, and `WholePath` the host path
that comes of it. `translate_whole`: where nothing that is met exceeds its buffer (`NothingCut`),
`emuroot_translate_path_ex` returns that path. Where something does, it can return the name of
another file (`component_cut`).
-/

namespace Emuroot

open Words Relation

/-! ## With buffers that hold everything -/

/-- The next component of a text. -/
def wholeComp (text : CStr) : CStr := (text.dropWhile (· == slash)).takeWhile (· != slash)

/-- The host path of the guest path with the components `cs`. -/
def WalkEnv.wholeImg (E : WalkEnv) (cs : List CStr) : CStr :=
  let guest := pathStr cs
  match bestBinding E.ctx guest with
  | some best =>
    orSlash (unlessRoot best.host ++ guest.drop (if best.guest = [slash] then 0 else best.guest.length))
  | none =>
    let out := E.root ++ guest
    match mountedBinding E.ctx out with
    | some mounted => orSlash (unlessRoot mounted.host ++ out.drop mounted.mount.length)
    | none => out

/-- The place from which a symlink's text and the rest are walked. -/
def Point.wholeFollow (pt : Point) (link : CStr) : Point :=
  { cs := if link.head? = some slash then [] else pt.cs
    text := link ++ afterComp pt.text
    trailing := endsWithSlash (link ++ afterComp pt.text)
    hops := pt.hops + 1 }

/-- One round: `inl` goes round again, `inr` leaves. -/
def wholeStep (E : WalkEnv) (pt : Point) : Point ⊕ Point :=
  let c := wholeComp pt.text
  if c = [] then .inr { pt with text := [] }
  else if c = dot then .inl { pt with text := afterComp pt.text }
  else if c = dotdot then .inl { pt with cs := pt.cs.dropLast, text := afterComp pt.text }
  else if pt.isLast ∧ E.followLast = false then .inr (pt.push c)
  else if underProc (E.wholeImg (pt.cs ++ [c])) then .inr (pt.push c)
  else
    match E.rl (E.wholeImg (pt.cs ++ [c])) with
    | none => .inl (pt.push c)
    | some link =>
      if pt.hops < maxSymlinkHops then .inl (pt.wholeFollow link)
      else .inr { pt.push c with hops := pt.hops + 1 }

def wholeStart (guest : CStr) : Point := ⟨[], guest, endsWithSlash guest, 0⟩

/-- The host path with what is still unwalked behind it. -/
def wholeJoined (E : WalkEnv) (pt : Point) : CStr :=
  let host := E.wholeImg pt.cs
  if pt.text = [] then host
  else host ++ ((if endsWithSlash host then [] else [slash]) ++ pt.text.dropWhile (· == slash))

/-- The host path for where the walk stopped. -/
def wholeOut (E : WalkEnv) (pt : Point) : CStr :=
  let host := wholeJoined E pt
  if pt.trailing && !endsWithSlash host then host ++ [slash] else host

/-- The guest path is not translated. -/
def Untranslated (E : WalkEnv) (guest : CStr) : Prop :=
  guest.head? ≠ some slash ∨ unmapped E.ctx E.root = true

instance (E : WalkEnv) (guest : CStr) : Decidable (Untranslated E guest) :=
  inferInstanceAs (Decidable (_ ∨ _))

/-- The host path of a guest path, whatever its length. -/
inductive WholePath (E : WalkEnv) (guest : CStr) : CStr → Prop
  | untranslated (h : Untranslated E guest) : WholePath E guest guest
  | walked (h : ¬Untranslated E guest) {pt : Point}
    (hs : Steps.Ends (wholeStep E) (wholeStart guest) pt) :
      WholePath E guest (wholeOut E pt)

/-- The kernel refuses the path, whatever files there are. -/
def Refused (path : CStr) : Prop :=
  path = [] ∨ pathLen ≤ path.length ∨ ∃ c ∈ words slash path, 255 < c.length

/-- **No truncated name**: the path that is returned is the whole one, or refused. -/
def NamesWhole (E : WalkEnv) (guest : CStr) : Prop :=
  ∃ whole, (∀ p, WholePath E guest p ↔ p = whole) ∧ ∀ guestOutsz,
    (translatePathEx E guest pathLen guestOutsz).out = whole ∨
      Refused (translatePathEx E guest pathLen guestOutsz).out

/-! ## What has to fit -/

/-- The host path fits, and so does the path below the root where there is no binding. -/
structure HostFits (E : WalkEnv) (cs : List CStr) : Prop where
  image : (E.wholeImg cs).length < pathLen
  below : bestBinding E.ctx (pathStr cs) = none → (E.root ++ pathStr cs).length < pathLen

/-- What the walk meets next fits: the component, the guest path up to it, the host path at which it
is looked up, the text of the symlink there and that with the rest, and the host path that is
returned. -/
structure FitsAt (E : WalkEnv) (pt : Point) : Prop where
  comp : (wholeComp pt.text).length ≤ 255
  cur : IsName (wholeComp pt.text) → (pathStr pt.cs).length + 1 + (wholeComp pt.text).length < pathLen
  host : IsName (wholeComp pt.text) → ¬(pt.isLast ∧ E.followLast = false) →
    HostFits E (pt.cs ++ [wholeComp pt.text]) ∧
    ∀ link ∈ E.rl (E.wholeImg (pt.cs ++ [wholeComp pt.text])), pt.hops < maxSymlinkHops →
      link.length < pathLen ∧ (link ++ afterComp pt.text).length < 2 * pathLen
  stop : ∀ pt' ∈ (wholeStep E pt).getRight?, HostFits E pt'.cs ∧ (wholeOut E pt').length < pathLen

instance (E : WalkEnv) (cs : List CStr) : Decidable (HostFits E cs) :=
  decidable_of_iff (_ ∧ _) ⟨fun ⟨h1, h2⟩ => ⟨h1, h2⟩, fun h => ⟨h.image, h.below⟩⟩

instance (E : WalkEnv) (pt : Point) : Decidable (FitsAt E pt) :=
  decidable_of_iff (_ ∧ _ ∧ _ ∧ _) ⟨fun ⟨h1, h2, h3, h4⟩ => ⟨h1, h2, h3, h4⟩,
    fun h => ⟨h.comp, h.cur, h.host, h.stop⟩⟩

/-- Nothing that is met on the way exceeds its buffer. -/
def NothingCut (E : WalkEnv) (guest : CStr) : Prop :=
  if Untranslated E guest then guest.length < pathLen
  else guest.length < 2 * pathLen ∧ ∀ pt, Steps.Reaches (wholeStep E) (wholeStart guest) pt → FitsAt E pt

variable {E : WalkEnv} {pt pt' : Point} {why : Why} {guest : CStr} {cs : List CStr}

/-! ## The walk with buffers -/

theorem nextComp_of_fits (h : (wholeComp pt.text).length ≤ 255) :
    nextComp pt.text = wholeComp pt.text := List.take_of_length_le h

theorem HostFits.img_eq (h : HostFits E cs) : E.img cs = E.wholeImg cs := by
  obtain ⟨himage, hbelow⟩ := h
  -- what is in the buffer before a slash is put in place of nothing
  have horSlash : ∀ {p : CStr}, (orSlash p).length < pathLen → p.length < pathLen := by
    intro p hp
    unfold orSlash at hp
    split at hp
    · rename_i h0
      rw [h0]
      decide
    · exact hp
  unfold WalkEnv.img mapToHost
  unfold WalkEnv.wholeImg at himage ⊢
  dsimp only at himage ⊢
  cases hb : bestBinding E.ctx (pathStr cs) with
  | some best =>
    rw [hb] at himage
    exact congrArg orSlash (snprintf_of_lt (horSlash himage))
  | none =>
    rw [hb] at himage
    dsimp only at himage ⊢
    rw [snprintf_of_lt (hbelow hb)]
    cases hm : mountedBinding E.ctx (E.root ++ pathStr cs) with
    | none => rfl
    | some mounted =>
      rw [hm] at himage
      have hlen := horSlash himage
      dsimp only
      rw [snprintf_of_lt (Nat.lt_of_lt_of_le hlen (by decide)), List.take_of_length_le (by omega)]

theorem follow_of_fits {link : CStr} (h : link.length < pathLen)
    (htail : (link ++ afterComp pt.text).length < 2 * pathLen) :
    pt.follow link = pt.wholeFollow link := by
  have htake : link.take (pathLen - 1) = link := List.take_of_length_le (by omega)
  rw [Point.follow, htake, snprintf_of_lt htail]
  rfl

/-- A round that goes on takes the same step. -/
theorem FitsAt.turn (h : FitsAt E pt) (ht : Turn E pt pt') : wholeStep E pt = .inl pt' := by
  have hcomp := nextComp_of_fits h.comp
  have hname : ∀ {c}, pt.Enters c → wholeComp pt.text = c := fun hc => hcomp.symm.trans hc.comp
  unfold wholeStep
  dsimp only
  cases ht with
  | here hd =>
    rw [← hcomp, hd, if_neg (by decide), if_pos rfl]
  | up hd =>
    rw [← hcomp, hd, if_neg (by decide), if_neg (by decide), if_pos rfl]
  | @down c hc hl hp hr =>
    obtain rfl := hname hc
    have himg := (h.host hc.name hl).1.img_eq
    rw [himg] at hp hr
    rw [if_neg hc.name.word.ne_nil, if_neg hc.name.ne_dot, if_neg hc.name.ne_dotdot, if_neg hl,
      if_neg (by simp [hp]), hr]
  | @link c link hc hl hp hr hh =>
    obtain rfl := hname hc
    obtain ⟨hfits, hlink⟩ := h.host hc.name hl
    have himg := hfits.img_eq
    rw [himg] at hp hr
    obtain ⟨hlen, htail⟩ := hlink link hr hh
    rw [if_neg hc.name.word.ne_nil, if_neg hc.name.ne_dot, if_neg hc.name.ne_dotdot, if_neg hl,
      if_neg (by simp [hp]), hr, follow_of_fits hlen htail]
    exact if_pos hh

/-- And so does the one that leaves. -/
theorem FitsAt.halt (h : FitsAt E pt) (hh : Halt E pt why pt') : wholeStep E pt = .inr pt' := by
  have hcomp := nextComp_of_fits h.comp
  have hname : ∀ {c}, pt.Enters c → wholeComp pt.text = c := fun hc => hcomp.symm.trans hc.comp
  unfold wholeStep
  dsimp only
  cases hh with
  | done h0 => rw [← hcomp, h0, if_pos rfl]
  | @tooLong c hc hn hlen =>
    obtain rfl : wholeComp pt.text = c := hcomp.symm.trans hc
    exact absurd hlen (Nat.not_le_of_gt (h.cur hn))
  | @last c hc hl hf =>
    obtain rfl := hname hc
    rw [if_neg hc.name.word.ne_nil, if_neg hc.name.ne_dot, if_neg hc.name.ne_dotdot, if_pos ⟨hl, hf⟩]
  | @proc c hc hl hp =>
    obtain rfl := hname hc
    rw [(h.host hc.name hl).1.img_eq] at hp
    rw [if_neg hc.name.word.ne_nil, if_neg hc.name.ne_dot, if_neg hc.name.ne_dotdot, if_neg hl,
      if_pos hp]
  | @hops c link hc hl hp hr hh =>
    obtain rfl := hname hc
    rw [(h.host hc.name hl).1.img_eq] at hp hr
    rw [if_neg hc.name.word.ne_nil, if_neg hc.name.ne_dot, if_neg hc.name.ne_dotdot, if_neg hl,
      if_neg (by simp [hp]), hr]
    exact if_neg (Nat.not_lt_of_ge hh)

theorem length_wholeJoined_le (E : WalkEnv) (pt : Point) :
    (wholeJoined E pt).length ≤ (wholeOut E pt).length := by
  unfold wholeOut
  dsimp only
  split
  · rw [List.length_append]
    exact Nat.le_add_right ..
  · exact Nat.le_refl _

/-- Where the walk stops, it writes the whole path. -/
theorem unwalked_whole (h : HostFits E pt.cs) (hlen : (wholeOut E pt).length < pathLen) :
    unwalked E pt.walk = wholeOut E pt := by
  have hshort := Nat.lt_of_le_of_lt (length_wholeJoined_le E pt) hlen
  have hjoined : pt.joined E = wholeJoined E pt := by
    rw [Point.joined, h.img_eq]
    unfold wholeJoined at hshort ⊢
    dsimp only at hshort ⊢
    by_cases h0 : pt.text = []
    · rw [if_pos h0, if_pos h0]
    · rw [if_neg h0, List.length_append] at hshort
      rw [if_neg h0, if_neg h0, snprintf_of_lt (by omega)]
  rw [unwalked_eq, hjoined]
  unfold wholeOut at hlen ⊢
  dsimp only at hlen ⊢
  cases hslash : pt.trailing && !endsWithSlash (wholeJoined E pt) with
  | false => simp
  | true =>
    rw [hslash, if_pos rfl, List.length_append, List.length_singleton] at hlen
    rw [Bool.true_and, if_pos (decide_eq_true hlen), if_pos rfl]

/-! ## Whole walks -/

/-- The walk leads to one place at most. -/
theorem WholePath.unique {p q : CStr} (hp : WholePath E guest p) (hq : WholePath E guest q) : p = q := by
  cases hp with
  | untranslated h =>
    cases hq with
    | untranslated => rfl
    | walked hn => exact absurd h hn
  | walked hn hs =>
    cases hq with
    | untranslated h => exact absurd h hn
    | walked _ ht => rw [hs.unique ht]

/-- Wherever the walk with buffers is, the other has been. -/
theorem whole_reached (hlen : guest.length < 2 * pathLen)
    (hfits : ∀ pt, Steps.Reaches (wholeStep E) (wholeStart guest) pt → FitsAt E pt)
    (hp : ReflTransGen (Turn E) (.start guest) pt) :
    Steps.Reaches (wholeStep E) (wholeStart guest) pt := by
  induction hp with
  | refl =>
    have hstart : Point.start guest = wholeStart guest := by
      rw [Point.start, snprintf_of_lt hlen]
      rfl
    rw [hstart]
    exact .refl
  | tail _ ht ih => exact .tail ih ((hfits _ ih).turn ht)

/-- **Where nothing is cut the whole path is returned.** -/
theorem translate_whole {E : WalkEnv} {guest : CStr} (h : NothingCut E guest) : NamesWhole E guest := by
  unfold NothingCut at h
  by_cases hu : Untranslated E guest
  · rw [if_pos hu] at h
    refine ⟨guest, fun p => ⟨fun hp => hp.unique (.untranslated hu), ?_⟩, fun n => .inl ?_⟩
    · rintro rfl
      exact .untranslated hu
    · exact (congrArg Translated.out (if_pos hu)).trans (snprintf_of_lt h)
  · rw [if_neg hu] at h
    obtain ⟨hlen, hfits⟩ := h
    obtain ⟨why, pt, hs⟩ := stopsAt_exists E guest
    obtain ⟨p, hp, hh⟩ := id hs
    have hreach := whole_reached hlen hfits hp
    have hstop := (hfits p hreach).halt hh
    obtain ⟨hhost, hout⟩ := (hfits p hreach).stop pt (by rw [hstop]; rfl)
    have hwhole : WholePath E guest (wholeOut E pt) := .walked hu ⟨p, hreach, hstop⟩
    refine ⟨wholeOut E pt, fun q => ⟨fun hq => hq.unique hwhole, ?_⟩, fun n => .inl ?_⟩
    · rintro rfl
      exact hwhole
    · rw [Untranslated, not_or, not_not, Bool.not_eq_true] at hu
      rw [(translate_stopsAt hs hu.1 hu.2 n).1, unwalked_whole hhost hout]

/-! ## Cut names -/

/-- Below a root, on a host without symlinks, with a last symlink left alone. -/
def bareEnv (root : CStr) : WalkEnv := ⟨{ Ctx.create with root := root }, root, fun _ => none, false⟩

/-- The whole path, found by running. -/
theorem wholePath_of_lead {n : Nat} {whole : CStr} (hu : ¬Untranslated E guest)
    (h : (Steps.lead (wholeStep E) n (wholeStart guest)).map (wholeOut E) = some whole) :
    WholePath E guest whole := by
  obtain ⟨pt, hpt, rfl⟩ := Option.map_eq_some_iff.1 h
  exact .walked hu (Steps.ends_of_lead hpt)

/-- Where the path written is another one that is not refused. -/
theorem not_namesWhole {whole : CStr} (hw : WholePath E guest whole)
    (hne : (translatePathEx E guest pathLen 0).out ≠ whole)
    (hr : ¬Refused (translatePathEx E guest pathLen 0).out) : ¬NamesWhole E guest := by
  rintro ⟨q, hq, hout⟩
  obtain rfl := (hq whole).1 hw
  exact (hout 0).elim hne hr

instance (path : CStr) : Decidable (Refused path) := inferInstanceAs (Decidable (_ ∨ _ ∨ _))

/-- A path of one component, with `n` bytes. -/
def onePath (n : Nat) : CStr := slash :: List.replicate n 97

/-- A component of 256 bytes is looked up as the name of its first 255. -/
theorem component_cut :
    (translatePathEx (bareEnv (cstr "/r")) (onePath 256) pathLen 0).out = cstr "/r" ++ onePath 255 ∧
    WholePath (bareEnv (cstr "/r")) (onePath 256) (cstr "/r" ++ onePath 256) ∧
    ¬NamesWhole (bareEnv (cstr "/r")) (onePath 256) := by
  have hwhole : WholePath (bareEnv (cstr "/r")) (onePath 256) (cstr "/r" ++ onePath 256) :=
    wholePath_of_lead (n := 1) (by decide) (by decide +kernel)
  exact ⟨by decide +kernel, hwhole, not_namesWhole hwhole (by decide +kernel) (by decide +kernel)⟩

/-- A component that is cut, and taken back, leaves no trace. -/
theorem cut_taken_back :
    ¬NothingCut (bareEnv (cstr "/r")) (onePath 256 ++ cstr "/../x") ∧
    NamesWhole (bareEnv (cstr "/r")) (onePath 256 ++ cstr "/../x") := by
  have hu : ¬Untranslated (bareEnv (cstr "/r")) (onePath 256 ++ cstr "/../x") := by decide
  have hwhole : WholePath (bareEnv (cstr "/r")) (onePath 256 ++ cstr "/../x") (cstr "/r/x") :=
    wholePath_of_lead (n := 3) hu (by decide +kernel)
  refine ⟨fun h => ?_, cstr "/r/x", fun p => ⟨fun hp => hp.unique hwhole, fun hp => hp ▸ hwhole⟩,
    fun n => .inl ?_⟩
  · rw [NothingCut, if_neg hu] at h
    exact absurd (h.2 _ .refl).comp (by decide +kernel)
  · have hout : (translatePathEx (bareEnv (cstr "/r")) (onePath 256 ++ cstr "/../x") pathLen 0).out =
        cstr "/r/x" := by decide +kernel
    exact hout

/-- A path through a link is whole. -/
theorem translate_whole_link :
    let E : WalkEnv := ⟨{ Ctx.create with root := cstr "/r" }, cstr "/r",
      fun p => if p = cstr "/r/lib" then some (cstr "usr/lib/") else none, false⟩
    (translatePathEx E (cstr "/lib/x") pathLen 0).out = cstr "/r/usr/lib/x" ∧
      NamesWhole E (cstr "/lib/x") := by
  intro E
  have hu : ¬Untranslated E (cstr "/lib/x") := by decide
  refine ⟨by decide +kernel, translate_whole ?_⟩
  rw [NothingCut, if_neg hu]
  exact ⟨by decide, fun pt hp => of_decide_eq_true
    (Steps.of_always (n := 10) (p := fun pt => decide (FitsAt E pt)) (by decide +kernel) hp)⟩

end Emuroot
