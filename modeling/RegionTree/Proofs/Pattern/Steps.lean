import RegionTree.Proofs.Pattern.Classes
set_option autoImplicit false

/-!
# Steps of reading in front of a closing parenthesis

What one step of reading a pattern does to the groups that are open (`StepCases`), that it does the
same with one more group around all of them (`readStep_within`), and that it is steady but for the
test of `\b` (`readStep_carried`).
-/

namespace RegionTree.Pattern

variable {t u cs rest : List Char} {p q : Progress}

/-! ## Steady steps -/

theorem steady_repetition (p : Progress) (least : Nat) (most : Option Nat) :
    Steady t u (readRepetition p least most) := by
  refine .branch (x := '?') (by decide) (.given (p.repeatLast least most false))
    (.given (p.repeatLast least most true)) fun cs hcs => ?_
  rw [readRepetition]
  rintro rest rfl
  exact hcs rfl

theorem steady_named (ht : Dollars t) (p : Progress) : Steady t u (readNamed p) := by
  have hopen (name : List Char) : Steady t u fun cs =>
      (p.openNamed name).bind fun p => some (p, cs) := .choose _ fun p => .pure p
  exact (steady_groupName ht).bind hopen

theorem steady_flagsEnd (htu : t <:+ u) (p : Progress) (letters : List Char) :
    Steady t u (readFlagsEnd p letters) := by
  have hgroup : Steady t u fun cs =>
      (p.flags.change? letters).map fun flags => (p.openGroup none flags, cs) := .given_map ..
  have hflags : Steady t u fun cs =>
      if letters.isEmpty then none
      else (p.flags.change? letters).map fun flags =>
        ({ p.push ⟨.empty, 0, false⟩ with flags := flags }, cs) := .ite .fail (.given_map ..)
  refine .cons htu (fun c => .ite (p := c = ':') hgroup (.ite (p := c = ')') hflags .fail)) rfl
    fun c rest => ?_
  by_cases hcolon : c = ':'
  · rw [if_pos hcolon, hcolon]
    rfl
  · by_cases hparenthesis : c = ')'
    · rw [if_neg hcolon, if_pos hparenthesis, hparenthesis]
      rfl
    · rw [if_neg hcolon, if_neg hparenthesis]
      unfold readFlagsEnd
      split
      · next heq => cases hcolon (List.cons.inj heq).1
      · next heq => cases hparenthesis (List.cons.inj heq).1
      · rfl

theorem steady_flags (ht : Dollars t) (htu : t <:+ u) (p : Progress) :
    Steady t u (readFlags p) :=
  (steady_span ht false (p := fun c => c != ':' && c != ')') (by decide)).comp
    (steady_flagsEnd htu p)

theorem steady_angled (ht : Dollars t) (p : Progress) : Steady t u (readAngled p) := by
  refine .branches ['=', '!'] (by decide) (fun c hc => ?_) (steady_named ht p) fun cs hcs => ?_
  · rcases List.mem_pair.mp hc with rfl | rfl <;> exact .fail
  · unfold readAngled
    split
    · exact absurd rfl (hcs '=' (by simp))
    · exact absurd rfl (hcs '!' (by simp))
    · rfl

theorem steady_specialGroup (ht : Dollars t) (htu : t <:+ u) (p : Progress) :
    Steady t u (readSpecialGroup p) := by
  refine .branches ['=', '!', '<', 'P'] (by decide) (fun c hc => ?_) (steady_flags ht htu p)
    fun cs hcs => ?_
  · simp only [List.mem_cons, List.not_mem_nil, or_false] at hc
    rcases hc with rfl | rfl | rfl | rfl
    · exact .fail
    · exact .fail
    · exact steady_angled ht p
    · exact steady_expect htu '<' (steady_named ht p)
  · unfold readSpecialGroup
    split
    · exact absurd rfl (hcs '=' (by simp))
    · exact absurd rfl (hcs '!' (by simp))
    · exact absurd rfl (hcs '<' (by simp))
    · exact absurd rfl (hcs 'P' (by simp))
    · rfl

theorem steady_group (ht : Dollars t) (htu : t <:+ u) (p : Progress) :
    Steady t u (readGroup p) := by
  refine .branch (x := '?') (by decide) (steady_specialGroup ht htu p) (.pure p.openRecorded)
    fun cs hcs => ?_
  rw [readGroup]
  rintro rest rfl
  exact hcs rfl

theorem steady_braces (ht : Dollars t) (htu : t <:+ u) (p : Progress) :
    Steady t u (readBraces p) :=
  (steady_counts ht htu p.flags.verbose).bind fun counts =>
    (steady_repetition p counts.1 counts.2).skip ht p.flags.verbose

/-- The characters with a meaning of their own, apart from the backslash. -/
def signs : List Char := ['(', ')', '|', '[', '?', '*', '+', '{', '.', '^', '$']

theorem readStep_of_not_sign {c : Char} (hc : c ∉ signs) (cs : List Char) :
    readStep p (c :: cs) = readSingle p (c :: cs) := by
  unfold readStep
  split
  · next heq => cases heq
  all_goals first
    | rfl
    | next heq =>
      obtain ⟨rfl, -⟩ := List.cons.inj heq
      exact absurd hc (by decide)

theorem steady_sign (ht : Dollars t) (htu : t <:+ u) (p : Progress) {c : Char} (hc : c ∈ signs) :
    Steady t u fun cs => readStep p (c :: cs) := by
  simp only [signs, List.mem_cons, List.not_mem_nil, or_false] at hc
  rcases hc with rfl | rfl | rfl | rfl | rfl | rfl | rfl | rfl | rfl | rfl | rfl
  · exact (steady_group ht htu p).skip ht p.flags.verbose
  · exact .given p.closeGroup
  · exact .pure _
  · exact (steady_class p.flags ht).map fun set => p.push ⟨.chars set.set, set.depth, true⟩
  · exact steady_repetition p 0 (some 1)
  · exact steady_repetition p 0 none
  · exact steady_repetition p 1 none
  · exact steady_braces ht htu p
  · exact .given_map p.flags.dot? fun set => p.push ⟨.chars set, 0, true⟩
  · exact .pure _
  · exact .pure _

theorem readStep_suffix {c : Char} (h : readStep p (c :: cs) = some (q, rest)) : rest <:+ cs := by
  by_cases hc : c ∈ signs
  · exact (steady_sign (t := []) nofun List.suffix_rfl p hc).suffix h
  · rw [readStep_of_not_sign hc] at h
    obtain ⟨⟨atom, more⟩, hatom, h⟩ := Option.bind_eq_some_iff.mp h
    obtain ⟨regex, -, h⟩ := Option.bind_eq_some_iff.mp h
    obtain ⟨-, rfl⟩ := Prod.mk.inj (Option.some.inj h)
    exact readAtom_suffix hatom

/-- A step is steady, except that the test of `\b` leaves a brace that is not closed to a step that
cannot be taken. -/
theorem readStep_carried (ht : Dollars t) (p : Progress) (c : Char) (cs : List Char) :
    Carried t t cs (readStep p (c :: cs)) (readStep p (c :: cs ++ ')' :: t)) ∨
      readStep p (c :: cs) = none ∧ ∃ q more,
        readStep p (c :: cs ++ ')' :: t) = some (q, '{' :: more) ∧ q.flags = p.flags ∧
          readCounts p.flags.verbose more = none := by
  by_cases hc : c ∈ signs
  · exact .inl ((steady_sign ht List.suffix_rfl p hc).carried cs)
  · rw [List.cons_append, readStep_of_not_sign hc, readStep_of_not_sign hc]
    have hregex (atom : Atom) : Steady t t fun cs => (atom.regex? p.flags).bind fun regex =>
        some (p.push ⟨regex, 0, true⟩, cs) := .choose _ fun regex => .pure _
    rcases atomCarried p.flags ht c cs with hcarried | ⟨halone, test, more, hbefore, hcounts⟩
    · exact .inl (hcarried.bind (fun _ _ h => readAtom_suffix h) hregex)
    · refine .inr ⟨?_, p.push ⟨.look test, 0, true⟩, more, ?_, rfl, hcounts⟩
      · rw [readSingle, halone]
        rfl
      · rw [List.cons_append] at hbefore
        rw [readSingle, hbefore]
        rfl

/-! ## Open groups -/

namespace Progress

/-- The progress with one more group around all others. -/
def within (p : Progress) (around : OpenGroup) : Progress :=
  { p with outer := p.outer ++ [around] }

theorem repeatLast_within (p : Progress) (around : OpenGroup) (least : Nat) (most : Option Nat)
    (greedy : Bool) :
    (p.within around).repeatLast least most greedy =
      (p.repeatLast least most greedy).map fun q => q.within around := by
  unfold repeatLast within
  dsimp only
  cases p.current.parts with
  | nil => rfl
  | cons part parts =>
    dsimp only
    split <;> rfl

theorem openNamed_within (p : Progress) (around : OpenGroup) (name : List Char) :
    (p.within around).openNamed name = (p.openNamed name).map fun q => q.within around := by
  change (if p.names.contains name then none else some _) =
    Option.map _ (if p.names.contains name then none else some _)
  cases p.names.contains name <;> rfl

theorem closeGroup_within (h : p.outer ≠ []) (around : OpenGroup) :
    (p.within around).closeGroup = p.closeGroup.map fun q => q.within around := by
  cases houter : p.outer with
  | nil => exact absurd houter h
  | cons first outer => simp [closeGroup, within, houter]

end Progress

/-- What a step of reading leaves, with one more group around all others. -/
def nest (around : OpenGroup) (out : Option (Progress × List Char)) :
    Option (Progress × List Char) :=
  out.map fun out => (out.1.within around, out.2)

variable {around : OpenGroup}

theorem readRepetition_within (p : Progress) (around : OpenGroup) (least : Nat)
    (most : Option Nat) (cs : List Char) :
    readRepetition (p.within around) least most cs =
      nest around (readRepetition p least most cs) := by
  unfold readRepetition
  split
  · rw [p.repeatLast_within, nest, Option.map_map, Option.map_map]
    rfl
  · rw [p.repeatLast_within, nest, Option.map_map, Option.map_map]
    rfl

theorem readNamed_within (p : Progress) (around : OpenGroup) (cs : List Char) :
    readNamed (p.within around) cs = nest around (readNamed p cs) := by
  rw [readNamed, readNamed]
  cases readGroupName cs with
  | none => rfl
  | some out =>
    simp only [Option.bind_eq_bind, Option.bind_some, p.openNamed_within]
    cases p.openNamed out.1 <;> rfl

theorem readFlags_within (p : Progress) (around : OpenGroup) (cs : List Char) :
    readFlags (p.within around) cs = nest around (readFlags p cs) := by
  have hend : ∀ letters cs, readFlagsEnd (p.within around) letters cs =
      nest around (readFlagsEnd p letters cs) := by
    intro letters cs
    unfold readFlagsEnd
    split
    · change Option.map _ (p.flags.change? letters) = _
      cases p.flags.change? letters <;> rfl
    · split
      · rfl
      · change Option.map _ (p.flags.change? letters) = _
        cases p.flags.change? letters <;> rfl
    · rfl
  exact hend _ _

theorem readSpecialGroup_within (p : Progress) (around : OpenGroup) (cs : List Char) :
    readSpecialGroup (p.within around) cs = nest around (readSpecialGroup p cs) := by
  have hangled : ∀ cs, readAngled (p.within around) cs = nest around (readAngled p cs) := by
    intro cs
    unfold readAngled
    split
    · rfl
    · rfl
    · exact readNamed_within p around _
  unfold readSpecialGroup
  split
  · rfl
  · rfl
  · exact hangled _
  · next rest =>
    cases expect '<' rest with
    | none => rfl
    | some more => exact readNamed_within p around more
  · exact readFlags_within p around _

theorem readGroup_within (p : Progress) (around : OpenGroup) (cs : List Char) :
    readGroup (p.within around) cs = nest around (readGroup p cs) := by
  unfold readGroup
  split
  · exact readSpecialGroup_within p around _
  · rfl

theorem readSingle_within (p : Progress) (around : OpenGroup) (cs : List Char) :
    readSingle (p.within around) cs = nest around (readSingle p cs) := by
  change (readAtom p.flags cs).bind _ = nest around ((readAtom p.flags cs).bind _)
  cases readAtom p.flags cs with
  | none => rfl
  | some out =>
    change (out.1.regex? p.flags).bind _ = nest around ((out.1.regex? p.flags).bind _)
    cases out.1.regex? p.flags <;> rfl

/-- A step does the same with one more group around all others, unless it closes the outermost
one. -/
theorem readStep_within (around : OpenGroup) (h : cs.head? = some ')' → p.outer ≠ []) :
    readStep (p.within around) cs = nest around (readStep p cs) := by
  cases cs with
  | nil => rfl
  | cons c cs =>
    by_cases hc : c ∈ signs
    · simp only [signs, List.mem_cons, List.not_mem_nil, or_false] at hc
      rcases hc with rfl | rfl | rfl | rfl | rfl | rfl | rfl | rfl | rfl | rfl | rfl
      · exact readGroup_within p around _
      · change ((p.within around).closeGroup).map _ = nest around (p.closeGroup.map _)
        rw [Progress.closeGroup_within (h rfl), nest, Option.map_map, Option.map_map]
        rfl
      · rfl
      · change (readClass p.flags cs).map _ = nest around ((readClass p.flags cs).map _)
        rw [nest, Option.map_map]
        rfl
      · exact readRepetition_within p around 0 (some 1) cs
      · exact readRepetition_within p around 0 none cs
      · exact readRepetition_within p around 1 none cs
      · change (readCounts p.flags.verbose cs).bind _ =
          nest around ((readCounts p.flags.verbose cs).bind _)
        cases readCounts p.flags.verbose cs with
        | none => rfl
        | some out => exact readRepetition_within p around _ _ _
      · change p.flags.dot?.map _ = nest around (p.flags.dot?.map _)
        rw [nest, Option.map_map]
        rfl
      · rfl
      · rfl
    · rw [readStep_of_not_sign hc, readStep_of_not_sign hc]
      exact readSingle_within p around _

/-- What a group is when it is opened: its index and the flags around it. -/
def OpenGroup.frame (g : OpenGroup) : Option Nat × Flags := (g.index, g.outerFlags)

/-- What a step does to the open groups: it stays in the innermost, opens another, or closes it. -/
inductive StepCases (p q : Progress) : Prop
  | inside : q.outer = p.outer → q.current.frame = p.current.frame → StepCases p q
  | opened : q.outer = p.current :: p.outer → StepCases p q
  | closed (around : OpenGroup) : p.outer = around :: q.outer → q.current.frame = around.frame →
      StepCases p q

theorem Progress.repeatLast_cases {least : Nat} {most : Option Nat} {greedy : Bool}
    (h : p.repeatLast least most greedy = some q) : StepCases p q := by
  unfold Progress.repeatLast at h
  split at h
  · cases h
  · split at h
    · obtain rfl := Option.some.inj h
      exact .inside rfl rfl
    · cases h

theorem readRepetition_cases {least : Nat} {most : Option Nat}
    (h : readRepetition p least most cs = some (q, rest)) : StepCases p q := by
  unfold readRepetition at h
  split at h
  · obtain ⟨_, hq, hout⟩ := Option.map_eq_some_iff.mp h
    obtain ⟨rfl, -⟩ := Prod.mk.inj hout
    exact Progress.repeatLast_cases hq
  · obtain ⟨_, hq, hout⟩ := Option.map_eq_some_iff.mp h
    obtain ⟨rfl, -⟩ := Prod.mk.inj hout
    exact Progress.repeatLast_cases hq

theorem readNamed_cases (h : readNamed p cs = some (q, rest)) : StepCases p q := by
  obtain ⟨out, -, h⟩ := Option.bind_eq_some_iff.mp h
  obtain ⟨q', hq, h⟩ := Option.bind_eq_some_iff.mp h
  obtain ⟨rfl, -⟩ := Prod.mk.inj (Option.some.inj h)
  unfold Progress.openNamed at hq
  split at hq
  · cases hq
  · obtain rfl := Option.some.inj hq
    exact .opened rfl

theorem readFlags_cases (h : readFlags p cs = some (q, rest)) : StepCases p q := by
  have hend : ∀ {letters cs}, readFlagsEnd p letters cs = some (q, rest) → StepCases p q := by
    intro letters cs h
    unfold readFlagsEnd at h
    split at h
    · obtain ⟨_, -, hout⟩ := Option.map_eq_some_iff.mp h
      obtain ⟨rfl, -⟩ := Prod.mk.inj hout
      exact .opened rfl
    · split at h
      · cases h
      · obtain ⟨_, -, hout⟩ := Option.map_eq_some_iff.mp h
        obtain ⟨rfl, -⟩ := Prod.mk.inj hout
        exact .inside rfl rfl
    · cases h
  exact hend h

theorem readGroup_cases (h : readGroup p cs = some (q, rest)) : StepCases p q := by
  have hangled : ∀ {cs}, readAngled p cs = some (q, rest) → StepCases p q := by
    intro cs h
    unfold readAngled at h
    split at h
    · cases h
    · cases h
    · exact readNamed_cases h
  have hspecial : ∀ {cs}, readSpecialGroup p cs = some (q, rest) → StepCases p q := by
    intro cs h
    unfold readSpecialGroup at h
    split at h
    · cases h
    · cases h
    · exact hangled h
    · obtain ⟨_, -, h⟩ := Option.bind_eq_some_iff.mp h
      exact readNamed_cases h
    · exact readFlags_cases h
  unfold readGroup at h
  split at h
  · exact hspecial h
  · obtain ⟨rfl, -⟩ := Prod.mk.inj (Option.some.inj h)
    exact .opened rfl

theorem readStep_cases (h : readStep p cs = some (q, rest)) : StepCases p q := by
  have hinside : ∀ {α : Type} {o : Option α} {k : α → Progress × List Char},
      (∀ a, StepCases p (k a).1) → o.map k = some (q, rest) → StepCases p q := by
    intro α o k hk h
    obtain ⟨a, -, hout⟩ := Option.map_eq_some_iff.mp h
    have hq : (k a).1 = q := congrArg Prod.fst hout
    rw [← hq]
    exact hk a
  unfold readStep at h
  split at h
  · cases h
  · exact readGroup_cases h
  · obtain ⟨q', hq, hout⟩ := Option.map_eq_some_iff.mp h
    obtain ⟨rfl, -⟩ := Prod.mk.inj hout
    unfold Progress.closeGroup at hq
    split at hq
    · cases hq
    · next around outer houter =>
      obtain rfl := Option.some.inj hq
      exact .closed around houter rfl
  · obtain ⟨rfl, -⟩ := Prod.mk.inj (Option.some.inj h)
    exact .inside rfl rfl
  · exact hinside (fun _ => .inside rfl rfl) h
  · exact readRepetition_cases h
  · exact readRepetition_cases h
  · exact readRepetition_cases h
  · obtain ⟨_, -, h⟩ := Option.bind_eq_some_iff.mp h
    exact readRepetition_cases h
  · exact hinside (fun _ => .inside rfl rfl) h
  · obtain ⟨rfl, -⟩ := Prod.mk.inj (Option.some.inj h)
    exact .inside rfl rfl
  · obtain ⟨rfl, -⟩ := Prod.mk.inj (Option.some.inj h)
    exact .inside rfl rfl
  · obtain ⟨_, -, h⟩ := Option.bind_eq_some_iff.mp h
    obtain ⟨_, -, h⟩ := Option.bind_eq_some_iff.mp h
    obtain ⟨rfl, -⟩ := Prod.mk.inj (Option.some.inj h)
    exact .inside rfl rfl

/-- The group around all others was opened with a certain frame. -/
def Rooted (frame : Option Nat × Flags) (p : Progress) : Prop :=
  ∀ g, (p.current :: p.outer).getLast? = some g → g.frame = frame

theorem Rooted.step {frame : Option Nat × Flags} (h : Rooted frame p)
    (hstep : readStep p cs = some (q, rest)) : Rooted frame q := by
  intro g hg
  cases readStep_cases hstep with
  | inside houter hframe =>
    rw [houter] at hg
    cases hrest : p.outer with
    | nil =>
      rw [hrest] at hg
      obtain rfl : q.current = g := by simpa using hg
      rw [hframe]
      exact h p.current (by simp [hrest])
    | cons first outer =>
      rw [hrest, List.getLast?_cons_cons] at hg
      exact h g (by rw [hrest, List.getLast?_cons_cons, hg])
  | opened houter =>
    rw [houter, List.getLast?_cons_cons] at hg
    exact h g hg
  | closed around houter hframe =>
    cases hrest : q.outer with
    | nil =>
      rw [hrest] at hg
      obtain rfl : q.current = g := by simpa using hg
      rw [hframe]
      exact h around (by simp [houter, hrest])
    | cons first outer =>
      rw [hrest, List.getLast?_cons_cons] at hg
      exact h g (by rw [houter, hrest, List.getLast?_cons_cons, List.getLast?_cons_cons, hg])

end RegionTree.Pattern
