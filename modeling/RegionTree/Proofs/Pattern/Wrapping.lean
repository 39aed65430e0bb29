import RegionTree.Proofs.Pattern.Steps
set_option autoImplicit false

/-!
# Patterns in parentheses

A pattern that is put between `(?:` and `)$` is read as it is read alone, in one more group, with
three exceptions (`read_wrapped`).  It may close a group that it has not opened (`Strays`), which is
the one around it then; a comment at its end may take in the parenthesis (`OpenComment`); and the
group and the test for the end take it two levels deeper and one step further (`AtLimit`).
-/

namespace RegionTree.Pattern

variable {cs ds rest : List Char} {p q : Progress} {around : OpenGroup}

/-! ## Reading to the end -/

/-- Reads a pattern to its end, with as much fuel as that takes. -/
def readAll (p : Progress) (cs : List Char) : Option Progress := readFrom (cs.length + 1) p cs

/-- More fuel than characters changes nothing. -/
theorem readFrom_eq_readAll {fuel : Nat} (hfuel : cs.length < fuel) (p : Progress) :
    readFrom fuel p cs = readAll p cs := by
  have hsame : ∀ {n m : Nat} {p : Progress} {cs : List Char}, cs.length < n → cs.length < m →
      readFrom n p cs = readFrom m p cs := by
    intro n
    induction n with
    | zero => exact fun h => absurd h (Nat.not_lt_zero _)
    | succ n ih =>
      intro m p cs hn hm
      obtain ⟨m, rfl⟩ : ∃ k, m = k + 1 := ⟨m - 1, by omega⟩
      rw [readFrom, readFrom]
      have hskip := (skip_suffix p.flags.verbose cs).length_le
      cases hcs : skip p.flags.verbose cs with
      | nil => rfl
      | cons c ds =>
        dsimp only
        cases hstep : readStep p (c :: ds) with
        | none => rfl
        | some out =>
          have hrest := (readStep_suffix hstep).length_le
          rw [hcs, List.length_cons] at hskip
          exact ih (by omega) (by omega)
  exact hsame hfuel (Nat.lt_succ_self _)

theorem readAll_of_end (h : skip p.flags.verbose cs = []) : readAll p cs = some p := by
  rw [readAll, readFrom, h]

theorem readAll_of_step {c : Char} (h : skip p.flags.verbose cs = c :: ds) :
    readAll p cs = (readStep p (c :: ds)).bind fun out => readAll out.1 out.2 := by
  rw [readAll, readFrom, h]
  dsimp only
  cases hstep : readStep p (c :: ds) with
  | none => rfl
  | some out =>
    have hskip := (skip_suffix p.flags.verbose cs).length_le
    have hrest := (readStep_suffix hstep).length_le
    rw [h, List.length_cons] at hskip
    exact readFrom_eq_readAll (by omega) out.1

theorem readAll_nil (p : Progress) : readAll p [] = some p :=
  readAll_of_end (by cases h : p.flags.verbose <;> rfl)

theorem skip_cons {c : Char} (hspace : Unicode.isSpace c = false) (hc : c ≠ '#') (verbose : Bool)
    (cs : List Char) : skip verbose (c :: cs) = c :: cs := by
  cases verbose with
  | false => rfl
  | true => simp [skip, skipBlanks, hspace, hc]

/-! ## The anchor behind a group -/

/-- What stands behind a pattern in parentheses. -/
def anchor : List Char := [')', '$']

theorem dollars_singleton : Dollars ['$'] := by simp [Dollars]

theorem readAll_dollar (p : Progress) : readAll p ['$'] = some (p.pushLook p.flags.dollar) := by
  have hskip := skip_cons (isSpace_eq_false (c := '$') (by decide) (by decide)) (by decide)
    p.flags.verbose []
  rw [readAll_of_step hskip]
  exact readAll_nil _

/-- The anchor closes a group and adds a test to the one around it. -/
def Progress.closed (p : Progress) : Option Progress :=
  p.closeGroup.map fun q => q.pushLook q.flags.dollar

theorem readAll_anchor (h : skip p.flags.verbose cs = anchor) : readAll p cs = p.closed := by
  rw [readAll_of_step h, Progress.closed]
  change (p.closeGroup.map fun q => (q, ['$'])).bind _ = _
  cases p.closeGroup with
  | none => rfl
  | some q => exact readAll_dollar q

theorem outer_of_readAll_suffix (hsuffix : rest <:+ ['$']) (h : readAll p rest = some q) :
    q.outer = p.outer := by
  rcases List.suffix_cons_iff.mp hsuffix with rfl | hsuffix
  · rw [readAll_dollar] at h
    obtain rfl := Option.some.inj h
    rfl
  · obtain rfl := List.suffix_nil.mp hsuffix
    rw [readAll_nil] at h
    obtain rfl := Option.some.inj h
    rfl

/-! ## Alone and in one more group -/

/-- Steps of reading lead from some progress to another, with `rest` left. -/
inductive Reads : Progress → List Char → Progress → List Char → Prop
  | refl (p : Progress) (cs : List Char) : Reads p cs p cs
  | step {p q r : Progress} {cs rest rest' : List Char} :
      readStep p (skip p.flags.verbose cs) = some (q, rest) → Reads q rest r rest' →
      Reads p cs r rest'

/-- Reading comes to a closing parenthesis where no group is open. -/
def Strays (p : Progress) (cs : List Char) : Prop :=
  ∃ q rest more, Reads p cs q rest ∧ q.outer = [] ∧ skip q.flags.verbose rest = ')' :: more

theorem Strays.step (hstep : readStep p (skip p.flags.verbose cs) = some (q, rest))
    (h : Strays q rest) : Strays p cs := by
  obtain ⟨r, rest', more, hreads, hrest⟩ := h
  exact ⟨r, rest', more, .step hstep hreads, hrest⟩

/-- A pattern that strays is not read to its end. -/
theorem Strays.readAll_eq_none (h : Strays p cs) : readAll p cs = none := by
  obtain ⟨q, rest, more, hreads, houter, hskip⟩ := h
  induction hreads with
  | refl p cs =>
    rw [readAll_of_step hskip]
    simp [readStep, Progress.closeGroup, houter]
  | @step p q r cs rest rest' hstep _ ih =>
    cases hcs : skip p.flags.verbose cs with
    | nil =>
      rw [hcs] at hstep
      cases hstep
    | cons c ds =>
      rw [readAll_of_step hcs, ← hcs, hstep]
      exact ih houter hskip

/-- How the reading of a pattern alone and that in one more group, up to the anchor, end. -/
inductive Ends (around : OpenGroup) (p : Progress) (cs : List Char) :
    (alone wrapped : Option Progress) → Prop
  | strays {alone wrapped : Option Progress} : Strays p cs → Ends around p cs alone wrapped
  | anchored (q : Progress) : Ends around p cs (some q) (q.within around).closed
  | hidden (q : Progress) : OpenComment cs → Ends around p cs (some q) (some (q.within around))
  | fails {wrapped : Option Progress} : (∀ q, wrapped = some q → q.outer ≠ []) →
      Ends around p cs none wrapped

theorem Ends.both_fail : Ends around p cs none none := .fails fun _ h => nomatch h

theorem Ends.step {alone wrapped : Option Progress}
    (hstep : readStep p (skip p.flags.verbose cs) = some (q, rest)) (hsuffix : rest <:+ cs)
    (h : Ends around q rest alone wrapped) : Ends around p cs alone wrapped := by
  cases h with
  | strays h => exact .strays (h.step hstep)
  | anchored r => exact .anchored r
  | hidden r h => exact .hidden r (h.of_suffix hsuffix)
  | fails h => exact .fails h

/-- After a step that is taken alone, or that goes wrong alone. -/
theorem ends_of_carried {c : Char} (hcs : skip p.flags.verbose cs = c :: ds)
    (ih : ∀ q rest, rest.length < cs.length →
      Ends around q rest (readAll q rest) (readAll (q.within around) (rest ++ anchor)))
    {alone before : Option (Progress × List Char)} (halone : readStep p (c :: ds) = alone)
    (h : Carried ['$'] ['$'] ds alone before) :
    Ends around p cs (alone.bind fun out => readAll out.1 out.2)
      ((nest around before).bind fun out => readAll out.1 out.2) := by
  have hds : ds <:+ cs :=
    (List.suffix_cons c ds).trans (hcs ▸ skip_suffix p.flags.verbose cs)
  cases h with
  | kept q rest =>
    have hrest := readStep_suffix halone
    have hlength : ds.length < cs.length := by
      have := (skip_suffix p.flags.verbose cs).length_le
      rwa [hcs, List.length_cons] at this
    have hshort : rest.length < cs.length := hrest.length_le.trans_lt hlength
    have hstep : readStep p (skip p.flags.verbose cs) = some (q, rest) := by rw [hcs, halone]
    simp only [nest, Option.map_some, Option.bind_some]
    exact (ih q rest hshort).step hstep (hrest.trans hds)
  | hidden q hcomment =>
    simp only [nest, Option.map_some, Option.bind_some, readAll_nil]
    exact .hidden q (hcomment.of_suffix hds)
  | failed => exact .both_fail
  | overrun q rest hrest =>
    refine .fails fun r hr houter => ?_
    simp only [nest, Option.map_some, Option.bind_some] at hr
    have hsame := outer_of_readAll_suffix hrest hr
    rw [houter] at hsame
    exact List.append_ne_nil_of_right_ne_nil q.outer (List.cons_ne_nil around []) hsame.symm

/-- A brace after the test of `\b` that is not closed goes wrong in the next step. -/
theorem readAll_brace {more : List Char}
    (hcounts : readCounts p.flags.verbose more = none) : readAll p ('{' :: more) = none := by
  rw [readAll_of_step (skip_cons (isSpace_eq_false (by decide) (by decide)) (by decide) _ _)]
  change ((readCounts p.flags.verbose more).bind _).bind _ = none
  rw [hcounts]
  rfl

theorem readAll_ends (around : OpenGroup) (p : Progress) (cs : List Char) :
    Ends around p cs (readAll p cs) (readAll (p.within around) (cs ++ anchor)) := by
  induction hlength : cs.length using Nat.strong_induction_on generalizing p cs with
  | h n ih =>
    subst hlength
    have hskip : skip p.flags.verbose (cs ++ anchor) = skip p.flags.verbose cs ++ anchor ∨
        OpenComment cs ∧ skip p.flags.verbose cs = [] ∧ skip p.flags.verbose (cs ++ anchor) = [] :=
      skip_append dollars_singleton p.flags.verbose cs
    rcases hskip with hkept | ⟨hopen, halone, hbehind⟩
    · cases hcs : skip p.flags.verbose cs with
      | nil =>
        rw [hcs] at hkept
        rw [readAll_of_end hcs, readAll_anchor (p := p.within around) hkept]
        exact .anchored p
      | cons c ds =>
        by_cases hstray : c = ')' ∧ p.outer = []
        · exact .strays ⟨p, cs, ds, .refl p cs, hstray.2, hstray.1 ▸ hcs⟩
        · rw [hcs] at hkept
          have hhead : (c :: ds ++ anchor).head? = some ')' → p.outer ≠ [] :=
            fun hc houter => hstray ⟨Option.some.inj hc, houter⟩
          rw [readAll_of_step hcs, readAll_of_step (p := p.within around) hkept]
          change Ends around p cs _ ((readStep (p.within around) (c :: ds ++ anchor)).bind _)
          rw [readStep_within around hhead]
          rcases readStep_carried dollars_singleton p c ds with
            hcarried | ⟨hnone, q, more, hsome, hflags, hcounts⟩
          · exact ends_of_carried hcs (fun q rest h => ih _ h q rest rfl) rfl hcarried
          · change readStep p (c :: ds ++ anchor) = _ at hsome
            rw [← hflags] at hcounts
            have hbrace : readAll (q.within around) ('{' :: more) = none := readAll_brace hcounts
            simp only [hnone, hsome, nest, Option.map_some, Option.bind_some, Option.bind_none,
              hbrace]
            exact .both_fail
    · rw [readAll_of_end halone, readAll_of_end (p := p.within around) hbehind]
      exact .hidden p hopen

/-! ## Whole patterns -/

theorem Rooted.readAll {frame : Option Nat × Flags} (h : Rooted frame p)
    (hread : readAll p cs = some q) : Rooted frame q := by
  induction hlength : cs.length using Nat.strong_induction_on generalizing p cs with
  | h n ih =>
    subst hlength
    cases hcs : skip p.flags.verbose cs with
    | nil =>
      rw [readAll_of_end hcs] at hread
      exact Option.some.inj hread ▸ h
    | cons c ds =>
      rw [readAll_of_step hcs] at hread
      obtain ⟨⟨r, rest⟩, hstep, hread⟩ := Option.bind_eq_some_iff.mp hread
      have hlength := (skip_suffix p.flags.verbose cs).length_le
      have hrest := (readStep_suffix hstep).length_le
      rw [hcs, List.length_cons] at hlength
      exact ih rest.length (by omega) (h.step hstep) hread rfl

/-- What the whole of a pattern means when its characters are read, unless a group is open, or it is
too deep or too large. -/
def conclude (p : Progress) : Except Fault Regex :=
  let whole := p.current.choice
  if !p.outer.isEmpty || decide (depthLimit < whole.depth) then .error .malformed
  else if p.tooLarge || decide (sizeLimit < whole.regex.size) then .error .tooLarge
  else .ok whole.regex

theorem read_eq (flags : Flags) (cs : List Char) :
    read flags cs = match readAll (.start flags) cs with
      | none => .error .malformed
      | some p => conclude p := rfl

theorem conclude_eq_ok {regex : Regex} :
    conclude p = .ok regex ↔ p.outer = [] ∧ p.current.choice.depth ≤ depthLimit ∧
      p.tooLarge = false ∧ p.current.choice.regex.size ≤ sizeLimit ∧
      p.current.choice.regex = regex := by
  simp only [conclude, Bool.or_eq_true, Bool.not_eq_true', List.isEmpty_eq_false_iff,
    decide_eq_true_eq]
  grind

theorem read_eq_ok {flags : Flags} {regex : Regex} :
    read flags cs = .ok regex ↔
      ∃ p, readAll (.start flags) cs = some p ∧ conclude p = .ok regex := by
  rw [read_eq]
  cases readAll (.start flags) cs with
  | none => simp
  | some p => simp

/-- The outermost group, before anything is read. -/
def outermost (flags : Flags) : OpenGroup := ⟨none, flags, [], []⟩

/-- A pattern that has to match up to the end of a text. -/
def wrap (cs : List Char) : List Char := '(' :: '?' :: ':' :: (cs ++ anchor)

/-- The start of a group that is not recorded. -/
theorem readAll_open (hverbose : p.flags.verbose = false) (cs : List Char) :
    readAll p ('(' :: '?' :: ':' :: cs) = readAll (p.openGroup none p.flags) cs := by
  have hskip (rest : List Char) : skip p.flags.verbose rest = rest := by rw [hverbose]; rfl
  have hstep : readStep p ('(' :: '?' :: ':' :: cs) = some (p.openGroup none p.flags, cs) := by
    change readGroup p (skip p.flags.verbose ('?' :: ':' :: cs)) = _
    rw [hskip]
    change readFlags p (':' :: cs) = _
    rw [readFlags, span_cons_of_neg (by decide)]
    rfl
  rw [readAll_of_step (hskip _), hstep]
  rfl

theorem readAll_wrap {flags : Flags} (hflags : flags.verbose = false) (cs : List Char) :
    readAll (.start flags) (wrap cs) =
      readAll ((Progress.start flags).within (outermost flags)) (cs ++ anchor) :=
  readAll_open (p := .start flags) hflags (cs ++ anchor)

/-- The progress after the innermost group is closed and the test for the end is added to the one
around it. -/
def Progress.afterAnchor (p : Progress) (around : OpenGroup) (outer : List OpenGroup) : Progress :=
  { p with
    flags := p.current.outerFlags
    current := (around.push p.current.close).push ⟨.look p.current.outerFlags.dollar, 0, true⟩
    outer := outer }

theorem closed_of_outer {outer : List OpenGroup} (h : p.outer = around :: outer) :
    p.closed = some (p.afterAnchor around outer) := by
  rw [Progress.closed, Progress.closeGroup, h]
  rfl

/-- The group around a pattern is one part of the whole, and the test for the end is another. -/
theorem choice_afterAnchor {flags : Flags} (hframe : q.current.frame = (none, flags))
    (outer : List OpenGroup) :
    (q.afterAnchor (outermost flags) outer).current.choice =
      ⟨.seq q.current.choice.regex (.look flags.dollar), q.current.choice.depth + 2, true⟩ := by
  obtain ⟨hindex, hflags⟩ := Prod.mk.inj hframe
  have hclose : q.current.close = ⟨q.current.choice.regex, q.current.choice.depth + 1, true⟩ := by
    rw [OpenGroup.close, hindex]
  rw [Progress.afterAnchor, hflags, hclose]
  simp [outermost, OpenGroup.push, OpenGroup.choice, OpenGroup.branch, OpenGroup.combine,
    Regex.seqAll]

/-- A pattern in parentheses takes one level or one step more than there may be. -/
def AtLimit (flags : Flags) (cs : List Char) : Prop :=
  ∃ q, readAll (.start flags) cs = some q ∧
    (depthLimit < q.current.choice.depth + 2 ∨ sizeLimit < q.current.choice.regex.size + 1)

/-- With the anchor behind it a pattern is read if it is read alone and there is room for the group
and the test. -/
theorem conclude_closed {flags : Flags} (hrooted : Rooted (none, flags) q) {regex : Regex} :
    (∃ w, (q.within (outermost flags)).closed = some w ∧ conclude w = .ok regex) ↔
      ∃ r, conclude q = .ok r ∧ q.current.choice.depth + 2 ≤ depthLimit ∧ r.size + 1 ≤ sizeLimit ∧
        regex = .seq r (.look flags.dollar) := by
  cases houter : q.outer with
  | nil =>
    have hframe := hrooted q.current (by simp [houter])
    have hclosed : (q.within (outermost flags)).closed =
        some ((q.within (outermost flags)).afterAnchor (outermost flags) []) :=
      closed_of_outer (by simp [Progress.within, houter])
    have hchoice := choice_afterAnchor (q := q.within (outermost flags)) hframe []
    have hsame : (q.within (outermost flags)).current = q.current := rfl
    rw [hsame] at hchoice
    simp only [hclosed, Option.some.injEq, exists_eq_left', conclude_eq_ok, hchoice, houter]
    have hsize : (Regex.seq q.current.choice.regex (.look flags.dollar)).size =
        q.current.choice.regex.size + 1 := rfl
    constructor
    · rintro ⟨-, hdepth, hlarge, hroom, rfl⟩
      exact ⟨_, ⟨trivial, by omega, hlarge, by omega, rfl⟩, hdepth, by omega, rfl⟩
    · rintro ⟨r, ⟨-, -, hlarge, -, rfl⟩, hdepth, hroom, rfl⟩
      exact ⟨rfl, hdepth, hlarge, by omega, rfl⟩
  | cons first outer =>
    have hclosed : (q.within (outermost flags)).closed =
        some ((q.within (outermost flags)).afterAnchor first (outer ++ [outermost flags])) :=
      closed_of_outer (by simp [Progress.within, houter])
    simp only [hclosed, Option.some.injEq, exists_eq_left', conclude_eq_ok, houter]
    simp [Progress.afterAnchor]

theorem rooted_start (flags : Flags) : Rooted (none, flags) (.start flags) := by
  intro g hg
  obtain rfl := Option.some.inj hg
  rfl

/-- A pattern that is read in front of the anchor means what it means alone, up to the end of the
text, unless it closes the parenthesis around it. -/
theorem read_of_wrap {flags : Flags} (hflags : flags.verbose = false) {regex : Regex}
    (h : read flags (wrap cs) = .ok regex) :
    (∃ r, read flags cs = .ok r ∧ regex = .seq r (.look flags.dollar)) ∨
      Strays (.start flags) cs := by
  obtain ⟨w, hread, hconclude⟩ := read_eq_ok.mp h
  rw [readAll_wrap hflags] at hread
  have hends := readAll_ends (outermost flags) (.start flags) cs
  rw [hread] at hends
  have houter := (conclude_eq_ok.mp hconclude).1
  generalize halone : readAll (.start flags) cs = alone,
    hwrapped : some w = wrapped at hends
  cases hends with
  | strays hstrays => exact .inr hstrays
  | anchored q =>
    have hrooted := (rooted_start flags).readAll halone
    obtain ⟨r, hr, -, -, rfl⟩ := (conclude_closed hrooted).mp ⟨w, hwrapped.symm, hconclude⟩
    exact .inl ⟨r, read_eq_ok.mpr ⟨q, halone, hr⟩, rfl⟩
  | hidden q =>
    obtain rfl := Option.some.inj hwrapped
    exact absurd houter (List.append_ne_nil_of_right_ne_nil _ (List.cons_ne_nil _ _))
  | fails hfails => exact absurd houter (hfails w hwrapped.symm)

/-- A pattern that is read alone is read in front of the anchor as well, up to the end of the text,
unless a comment takes in the anchor or there is no room for the group and the test. -/
theorem read_wrap {flags : Flags} (hflags : flags.verbose = false) {r : Regex}
    (h : read flags cs = .ok r) :
    read flags (wrap cs) = .ok (.seq r (.look flags.dollar)) ∨ OpenComment cs ∨
      AtLimit flags cs := by
  obtain ⟨q, hread, hconclude⟩ := read_eq_ok.mp h
  have hends := readAll_ends (outermost flags) (.start flags) cs
  rw [hread, ← readAll_wrap hflags] at hends
  generalize halone : some q = alone, hwrapped : readAll (.start flags) (wrap cs) = wrapped at hends
  cases hends with
  | strays hstrays => rw [hstrays.readAll_eq_none] at hread; cases hread
  | anchored q' =>
    obtain rfl := Option.some.inj halone
    have hrooted := (rooted_start flags).readAll hread
    obtain ⟨-, -, -, -, rfl⟩ := conclude_eq_ok.mp hconclude
    by_cases hroom : q.current.choice.depth + 2 ≤ depthLimit ∧
        q.current.choice.regex.size + 1 ≤ sizeLimit
    · obtain ⟨w, hw, hok⟩ :=
        (conclude_closed hrooted).mpr ⟨_, hconclude, hroom.1, hroom.2, rfl⟩
      exact .inl (read_eq_ok.mpr ⟨w, hwrapped.trans hw, hok⟩)
    · exact .inr (.inr ⟨q, hread, by omega⟩)
  | hidden q' hcomment => exact .inr (.inl hcomment)
  | fails => cases halone

end RegionTree.Pattern
