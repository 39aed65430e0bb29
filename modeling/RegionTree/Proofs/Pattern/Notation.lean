import RegionTree.Proofs.Pattern.Reading
set_option autoImplicit false

/-!
# Numbers, names and atoms in front of a closing parenthesis

The readers of numbers, names and escapes are steady.  `AtomCarried` says what the reader of an atom
does, where the test of `\b` is not: it does not take braces in which no name begins.
-/

namespace RegionTree.Pattern

variable {α : Type} {t u cs : List Char}

/-! ## Numbers and names -/

theorem steady_expect (htu : t <:+ u) (c : Char) {g : List Char → Option (α × List Char)}
    (hg : Steady t u g) : Steady t u fun cs => (expect c cs).bind g := by
  refine .cons htu (fun d => .ite (p := (c == d) = true) hg .fail) rfl fun d rest => ?_
  rw [expect]
  split <;> rfl

theorem steady_decimal (ht : Dollars t) (verbose : Bool) : Steady t u (readDecimal verbose) := by
  have hdigit : Char.isDigit ')' = false := by decide
  have hvalue (digits : List Char) : Steady t u fun cs : List Char =>
      if digits.isEmpty || decide (countBound ≤ decimalValue digits) then none
      else some (decimalValue digits, cs) := .ite .fail (.pure _)
  have hblanks (digits : List Char) := (steady_span ht verbose isSpace_parenthesis).comp
    fun _ => hvalue digits
  exact ((steady_span ht verbose hdigit).dropWhile isSpace_parenthesis).comp hblanks

theorem steady_most (ht : Dollars t) (htu : t <:+ u) (verbose : Bool) (least : Nat) :
    Steady t u (readMost verbose least) := by
  have hmost (most : Nat) : Steady t u fun cs => (expect '}' cs).bind fun rest =>
      if least ≤ most then some ((least, some most), rest) else none :=
    steady_expect htu '}' (.ite (.pure _) .fail)
  refine .branch (x := '}') (by decide) (.pure (least, none))
    ((steady_decimal ht verbose).bind hmost) fun cs hcs => ?_
  rw [readMost]
  · rfl
  · rintro rest rfl
    exact hcs rfl

theorem steady_countsFrom (ht : Dollars t) (htu : t <:+ u) (verbose : Bool) (least : Nat) :
    Steady t u (readCountsFrom verbose least) := by
  refine .branch (x := ',') (by decide) ((steady_most ht htu verbose least).skip ht verbose)
    (steady_expect htu '}' (.pure (least, some least))) fun cs hcs => ?_
  rw [readCountsFrom]
  · rfl
  · rintro rest rfl
    exact hcs rfl

theorem steady_counts (ht : Dollars t) (htu : t <:+ u) (verbose : Bool) :
    Steady t u (readCounts verbose) :=
  ((steady_decimal ht verbose).skip ht verbose).bind (steady_countsFrom ht htu verbose)

theorem steady_fixedHex (ht : Dollars t) (htu : t <:+ u) (verbose : Bool) (count value : Nat) :
    Steady t u (readFixedHex verbose count value) := by
  induction count generalizing value with
  | zero => exact .given (charOfCode? value)
  | succ count ih =>
    refine .cons htu (fun c => .choose (hexDigit? c) fun d => (ih (16 * value + d)).skip ht verbose)
      rfl fun c rest => ?_
    rw [readFixedHex]
    cases hexDigit? c <;> rfl

theorem steady_bracedHex (ht : Dollars t) (htu : t <:+ u) (verbose : Bool) :
    Steady t u (readBracedHex verbose) := by
  have hdigit : (hexDigit? ')').isSome = false := by decide
  have hvalue (digits : List Char) : Steady t u fun cs => (expect '}' cs).bind fun rest =>
      if digits.isEmpty then none
      else (charOfCode? (digits.foldl (fun n d => 16 * n + (hexDigit? d).getD 0) 0)).bind fun c =>
        some (c, skip verbose rest) :=
    steady_expect htu '}' (.ite .fail (.choose _ fun c => (Steady.pure c).skip ht verbose))
  exact ((steady_span ht verbose hdigit).skip ht verbose).comp hvalue

theorem steady_hex (ht : Dollars t) (htu : t <:+ u) (verbose : Bool) (count : Nat) :
    Steady t u (readHex verbose (count + 1)) := by
  have hbraced := (steady_bracedHex ht htu verbose).map fun c => (c, false)
  have hfixed := (steady_fixedHex ht htu verbose (count + 1) 0).map fun c => (c, true)
  refine .branch (x := '{') (by decide) hbraced hfixed fun cs hcs => ?_
  cases cs with
  | nil => rfl
  | cons c rest =>
    rw [readHex]
    · rintro ⟨⟩
    · rintro rest' heq
      exact hcs (congrArg List.head? heq)

theorem expect_eq_some {d : Char} {cs rest : List Char} :
    expect d cs = some rest ↔ cs = d :: rest := by
  cases cs with
  | nil => simp [expect]
  | cons c cs =>
    rw [expect]
    by_cases hc : d = c
    · simp [hc]
    · simp [hc, Ne.symm hc]

theorem readUntil_cons_self (verbose : Bool) (d : Char) (rest : List Char) :
    readUntil verbose d (d :: rest) = some ([], rest) := by
  rw [readUntil, span_cons_of_neg (by simp)]
  simp [expect]

theorem readUntil_cons_of_ne {verbose : Bool} {d c : Char} (hc : c ≠ d) (rest : List Char) :
    readUntil verbose d (c :: rest) =
      (readUntil verbose d (skip verbose rest)).map fun out => (c :: out.1, out.2) := by
  rw [readUntil, span_cons_of_pos (by simpa using hc), readUntil, Option.map_map]
  rfl

theorem readUntil_suffix {verbose : Bool} {d : Char} {cs taken rest : List Char}
    (h : readUntil verbose d cs = some (taken, rest)) : d :: rest <:+ cs := by
  obtain ⟨rest', hrest, hout⟩ := Option.map_eq_some_iff.mp h
  obtain ⟨-, rfl⟩ := Prod.mk.inj hout
  rw [← expect_eq_some.mp hrest]
  exact span_suffix verbose _ cs

theorem readUntil_eq_none {verbose : Bool} {d : Char} {cs : List Char} (h : d ∉ cs) :
    readUntil verbose d cs = none := by
  cases hread : readUntil verbose d cs with
  | none => rfl
  | some out => exact absurd ((readUntil_suffix hread).subset List.mem_cons_self) h

/-- A reader up to a character that has to come reads the same whatever stands behind that. -/
theorem exact_until (ht : Dollars t) (verbose : Bool) {d : Char} (hd : d ≠ '$') (hd' : d ≠ ')') :
    Exact t (readUntil verbose d) := by
  intro cs
  induction cs using span_induction verbose (· != d) with
  | nil =>
    rw [List.nil_append, readUntil_eq_none (ht.not_mem_cons hd hd')]
    rfl
  | stop c rest hc =>
    obtain rfl : c = d := by simpa using hc
    rw [List.cons_append, readUntil_cons_self, readUntil_cons_self]
    rfl
  | take c rest hc ih =>
    have hne : c ≠ d := by simpa using hc
    rw [List.cons_append, readUntil_cons_of_ne hne, readUntil_cons_of_ne hne]
    rcases skip_append ht verbose rest with hkept | ⟨-, halone, hbefore⟩
    · rw [hkept, ih, Option.map_map, Option.map_map]
      rfl
    · rw [halone, hbefore]
      rfl

theorem steady_until (ht : Dollars t) (verbose : Bool) {d : Char} (hd : d ≠ '$')
    (hd' : d ≠ ')') : Steady t u (readUntil verbose d) :=
  .of_exact (exact_until ht verbose hd hd') fun h =>
    (List.suffix_cons d _).trans (readUntil_suffix h)

theorem steady_groupName (ht : Dollars t) : Steady t u readGroupName := by
  have hread : readGroupName = fun cs => (readUntil false '>' cs).bind fun out =>
      if out.1.head?.any (isNameChar true) && out.1.tail.all (isNameChar false) then
        some (out.1, out.2)
      else none := by
    funext cs
    unfold readGroupName
    cases readUntil false '>' cs with
    | none => rfl
    | some out =>
      obtain ⟨name, rest⟩ := out
      cases name <;> rfl
  have hname (name : List Char) : Steady t u fun cs =>
      if name.head?.any (isNameChar true) && name.tail.all (isNameChar false) then some (name, cs)
      else none := .ite (.pure name) .fail
  rw [hread]
  exact (steady_until (d := '>') ht false (by decide) (by decide)).bind hname

theorem steady_className (ht : Dollars t) (htu : t <:+ u) (verbose : Bool) :
    Steady t u (readClassName verbose) := by
  have hname : Steady t u (readUntil verbose '}') := steady_until ht verbose (by decide) (by decide)
  have hbraced := (hname.skip ht verbose).map ClassName.ofChars
  have hletter (c : Char) : Steady t u fun cs =>
      if c == '\\' then none else some (ClassName.named [c], skip verbose cs) :=
    .ite .fail ((Steady.pure _).skip ht verbose)
  refine .cons htu (fun c => .ite (p := c = '{') hbraced (hletter c)) rfl fun c rest => ?_
  by_cases hc : c = '{'
  · rw [if_pos hc, hc]
    rfl
  · rw [if_neg hc, readClassName]
    exact hc

/-! ## Atoms -/

/-- What the reader of an atom makes of characters: it is steady, except that the test of `\b`
leaves braces that are not closed to a repetition, which cannot be read. -/
def AtomCarried (t cs : List Char) (verbose : Bool) (alone before : Option (Atom × List Char)) :
    Prop :=
  Carried t t cs alone before ∨ alone = none ∧ ∃ test more,
    before = some (.look test, '{' :: more) ∧ readCounts verbose more = none

theorem readDecimal_parenthesis (verbose : Bool) (t : List Char) :
    readDecimal verbose (')' :: t) = none := by
  have hdigit : Char.isDigit ')' = false := by decide
  rw [readDecimal, List.dropWhile_cons_of_neg (by simp [isSpace_parenthesis]),
    span_cons_of_neg hdigit]
  rfl

variable {flags : Flags}

theorem steady_edgeName (flags : Flags) (ht : Dollars t) (htu : t <:+ u) :
    Steady t u (readEdgeName flags) := by
  have hname : isEdgeNameChar ')' = false := by decide
  have htest (name : List Char) : Steady t u fun cs => (expect '}' cs).bind fun rest =>
      (edgeTest? (!flags.unicode) name).bind fun test => some (Atom.look test, rest) :=
    steady_expect htu '}' (.choose _ fun test => .pure (Atom.look test))
  exact (steady_span ht flags.verbose hname).comp htest

theorem readEdge_brace (rest : List Char) :
    readEdge flags ('{' :: rest) = match skip flags.verbose rest with
      | [] => none
      | c :: more =>
        if isEdgeNameChar c then readEdgeName flags (c :: more)
        else some (.look (.wordEdge (!flags.unicode)), '{' :: rest) := rfl

theorem readEdge_of_ne (h : cs.head? ≠ some '{') :
    readEdge flags cs = some (.look (.wordEdge (!flags.unicode)), cs) := by
  rw [readEdge]
  rintro rest rfl
  exact h rfl

theorem readEdge_suffix {a : Atom} {rest : List Char} (h : readEdge flags cs = some (a, rest)) :
    rest <:+ cs := by
  unfold readEdge at h
  split at h
  · next more =>
    split at h
    · cases h
    · next c inner hinner =>
      split at h
      · refine (((steady_edgeName flags (t := []) nofun List.suffix_rfl).suffix h).trans
          ?_).trans (List.suffix_cons '{' more)
        rw [← hinner]
        exact skip_suffix flags.verbose more
      · obtain ⟨-, rfl⟩ := Prod.mk.inj (Option.some.inj h)
        exact List.suffix_rfl
  · obtain ⟨-, rfl⟩ := Prod.mk.inj (Option.some.inj h)
    exact List.suffix_rfl

theorem atomCarried_edge (ht : Dollars t) (cs : List Char) :
    AtomCarried t cs flags.verbose (readEdge flags cs) (readEdge flags (cs ++ ')' :: t)) := by
  by_cases hcs : cs.head? = some '{'
  · obtain ⟨rest, rfl⟩ := List.head?_eq_some_iff.mp hcs
    have hsuffix : skip flags.verbose rest <:+ '{' :: rest :=
      (skip_suffix flags.verbose rest).trans (List.suffix_cons '{' rest)
    have hname : isEdgeNameChar ')' = false := by decide
    rw [List.cons_append, readEdge_brace, readEdge_brace]
    rcases skip_append ht flags.verbose rest with hkept | ⟨-, halone, hbefore⟩
    · rw [hkept]
      cases hskip : skip flags.verbose rest with
      | nil =>
        -- the brace is left to a repetition, which needs a number
        refine .inr ⟨rfl, .wordEdge (!flags.unicode), rest ++ ')' :: t, by simp [hname], ?_⟩
        rw [readCounts, hkept, hskip, List.nil_append, readDecimal_parenthesis]
        rfl
      | cons c more =>
        left
        rw [List.cons_append]
        dsimp only
        split
        · rw [hskip] at hsuffix
          exact ((steady_edgeName flags ht List.suffix_rfl).carried (c :: more)).of_suffix hsuffix
        · exact .kept _ ('{' :: rest)
    · rw [halone, hbefore]
      exact .inl .failed
  · left
    have hbefore : (cs ++ ')' :: t).head? ≠ some '{' := by
      cases cs with
      | nil => simp
      | cons c rest => simpa using hcs
    rw [readEdge_of_ne hcs, readEdge_of_ne hbefore]
    exact .kept _ cs

theorem steady_codePoint (ht : Dollars t) (htu : t <:+ u) (count : Nat) :
    Steady t u (readCodePoint flags (count + 1)) :=
  ((steady_hex ht htu flags.verbose count).skip ht flags.verbose).map fun out =>
    Atom.literal out.1 (out.2 && count + 1 == 2)

theorem steady_property (ht : Dollars t) (htu : t <:+ u) (negated : Bool) :
    Steady t u (readProperty flags negated) := by
  have hset (name : ClassName) : Steady t u fun cs =>
      (flags.property? negated name).bind fun set => some (Atom.set set, cs) :=
    .choose _ fun set => .pure (Atom.set set)
  exact ((steady_className ht htu flags.verbose).skip ht flags.verbose).bind hset

theorem steady_escape_of_ne (ht : Dollars t) (htu : t <:+ u) {c : Char} (hc : c ≠ 'b') :
    Steady t u fun cs => readEscape flags (c :: cs) := by
  simp only [readEscape, beq_iff_eq, if_neg hc]
  exact .ite (steady_codePoint ht htu 1) <| .ite (steady_codePoint ht htu 3) <|
    .ite (steady_codePoint ht htu 7) <| .ite (steady_property ht htu _) <| .given _

theorem readAtom_of_ne {c : Char} (hc : c ≠ '\\') (rest : List Char) :
    readAtom flags (c :: rest) = some (.literal c false, rest) := by
  rw [readAtom]
  exact hc

theorem readAtom_suffix {c : Char} {rest rest' : List Char} {a : Atom}
    (h : readAtom flags (c :: rest) = some (a, rest')) : rest' <:+ rest := by
  by_cases hc : c = '\\'
  · subst hc
    rw [readAtom] at h
    cases rest with
    | nil => cases h
    | cons letter more =>
      refine List.IsSuffix.trans ?_ (List.suffix_cons letter more)
      by_cases hletter : letter = 'b'
      · subst hletter
        exact readEdge_suffix h
      · exact (steady_escape_of_ne (t := []) nofun List.suffix_rfl hletter).suffix h
  · rw [readAtom_of_ne hc] at h
    obtain ⟨-, rfl⟩ := Prod.mk.inj (Option.some.inj h)
    exact List.suffix_rfl

theorem AtomCarried.of_suffix {verbose : Bool} {rest : List Char}
    {alone before : Option (Atom × List Char)} (h : AtomCarried t rest verbose alone before)
    (hsuffix : rest <:+ cs) : AtomCarried t cs verbose alone before :=
  h.imp_left fun h => h.of_suffix hsuffix

theorem atomCarried (flags : Flags) (ht : Dollars t) (c : Char) (rest : List Char) :
    AtomCarried t rest flags.verbose (readAtom flags (c :: rest))
      (readAtom flags (c :: rest ++ ')' :: t)) := by
  rw [List.cons_append]
  by_cases hc : c = '\\'
  · subst hc
    rw [readAtom, readAtom]
    cases rest with
    | nil =>
      left
      refine .of_none fun a rest h => ?_
      exact (steady_escape_of_ne ht List.suffix_rfl (by decide)).suffix h
    | cons letter more =>
      rw [List.cons_append]
      by_cases hletter : letter = 'b'
      · subst hletter
        exact (atomCarried_edge ht more).of_suffix (List.suffix_cons 'b' more)
      · left
        exact ((steady_escape_of_ne ht List.suffix_rfl hletter).carried more).of_suffix
          (List.suffix_cons letter more)
  · rw [readAtom_of_ne hc, readAtom_of_ne hc]
    exact .inl (.kept _ rest)

/-- An atom, and what comes after it, where this cannot follow a test. -/
theorem steady_atom_bind (ht : Dollars t) (htu : t <:+ u)
    {g : Atom → List Char → Option (α × List Char)} (hg : ∀ a, Steady t u (g a))
    (hlook : ∀ test cs, g (.look test) cs = none) :
    Steady t u fun cs => (readAtom flags cs).bind fun out => g out.1 out.2 where
  suffix {cs a rest} h := by
    obtain ⟨out, hout, hrest⟩ := Option.bind_eq_some_iff.mp h
    cases cs with
    | nil => cases hout
    | cons c cs =>
      exact ((hg out.1).suffix hrest).trans ((readAtom_suffix hout).trans (List.suffix_cons c cs))
  carried cs := by
    cases cs with
    | nil =>
      refine .of_none fun a rest h => ?_
      rw [List.nil_append, readAtom_of_ne (by decide), Option.bind_some] at h
      exact ((hg _).suffix h).trans htu
    | cons c cs =>
      rcases atomCarried flags ht c cs with hcarried | ⟨halone, test, more, hbefore, -⟩
      · exact ((hcarried.mono htu).bind (fun _ _ h => readAtom_suffix h) hg).of_suffix
          (List.suffix_cons c cs)
      · rw [halone, hbefore, Option.bind_some, hlook]
        exact .failed

end RegionTree.Pattern
