import RegionTree.Proofs.Pattern.Notation
set_option autoImplicit false

/-!
# Classes in brackets in front of a closing parenthesis

A class in brackets reads the same whatever stands behind it (`steady_class`), because only its
bracket closes it: what stands behind the pattern holds none.
-/

namespace RegionTree.Pattern

variable {α : Type} {t u cs : List Char} {flags : Flags}

theorem pastSign_of_ne {c : Char} (hc : c ≠ '#') (rest : List Char) :
    pastSign (c :: rest) = c :: rest := by
  rw [pastSign]
  exact fun rest' heq => hc (List.cons.inj heq).1

theorem afterHyphen_append (verbose : Bool) (cs t : List Char) {c : Char}
    (hc : c = ']' ∨ c = '-') :
    afterHyphen verbose (cs ++ ')' :: t) = some c ↔ afterHyphen verbose cs = some c := by
  have hspace : Unicode.isSpace c = false := by
    rcases hc with rfl | rfl <;> exact isSpace_eq_false (by decide) (by decide)
  have hparenthesis : ')' ≠ c := by rcases hc with rfl | rfl <;> decide
  have hhash : '#' ≠ c := by rcases hc with rfl | rfl <;> decide
  cases verbose with
  | false => cases cs <;> simp [afterHyphen, hparenthesis]
  | true =>
    have hfirst : cs.head? = some c → (cs.dropWhile Unicode.isSpace).head? = some c := by
      intro hcs
      obtain ⟨rest, rfl⟩ := List.head?_eq_some_iff.mp hcs
      rw [List.dropWhile_cons_of_neg (by simp [hspace])]
      rfl
    simp only [afterHyphen, if_true, dropWhile_append_parenthesis isSpace_parenthesis]
    cases hrest : cs.dropWhile Unicode.isSpace with
    | nil =>
      have hcs : cs.head? ≠ some c := by simpa [hrest] using hfirst
      rw [List.nil_append, pastSign_of_ne (by decide)]
      simp [pastSign, hparenthesis, hcs]
    | cons d more =>
      rw [List.cons_append]
      by_cases hd : d = '#'
      · subst hd
        have hcs : cs.head? ≠ some c := by simpa [hrest, hhash] using hfirst
        rw [pastSign, pastSign, dropWhile_append_parenthesis isSpace_parenthesis]
        cases more.dropWhile Unicode.isSpace <;> simp [hparenthesis, hcs]
      · rw [pastSign_of_ne hd, pastSign_of_ne hd]
        simp

/-- What decides whether a hyphen makes an interval does not stand behind. -/
theorem standsAlone_append (verbose : Bool) (cs t : List Char) :
    standsAlone verbose (cs ++ ')' :: t) = standsAlone verbose cs := by
  rw [standsAlone, standsAlone, Bool.eq_iff_iff]
  simp only [Bool.or_eq_true, beq_iff_eq, afterHyphen_append _ _ _ (.inl rfl),
    afterHyphen_append _ _ _ (.inr rfl)]

theorem steady_interval (flags : Flags) (ht : Dollars t) (htu : t <:+ u) (first : Atom) :
    Steady t u (readInterval flags first) := by
  have hlast (last : Atom) : Steady t u fun cs => (classChar? flags first).bind fun low =>
      (classChar? flags last).bind fun high =>
        if low ≤ high then some (NestedSet.mk ⟨[charInterval low high]⟩ 0, cs) else none :=
    .choose _ fun low => .choose _ fun high => .ite (.pure _) .fail
  refine steady_atom_bind ht htu hlast fun test cs => ?_
  cases classChar? flags first <;> rfl

theorem readItemFrom_of_ne {c : Char} (hc : c ≠ '-') (first : Atom) (rest : List Char) :
    readItemFrom flags first (c :: rest) =
      (classItem? flags first).map fun item => (item, c :: rest) := by
  rw [readItemFrom]
  · rintro ⟨⟩
  · rintro rest' heq
    exact hc (List.cons.inj heq).1

theorem steady_itemFrom (flags : Flags) (ht : Dollars t) (first : Atom) :
    Steady t (')' :: t) (readItemFrom flags first) := by
  have hend : t <:+ ')' :: t := List.suffix_cons ')' t
  have hplain : Steady t (')' :: t) fun cs => (classItem? flags first).map fun item => (item, cs) :=
    .given _
  have hinterval := (steady_interval flags ht hend first).skip ht flags.verbose
  have hsuffix : ∀ {cs : List Char} {a : NestedSet} {rest : List Char},
      readItemFrom flags first cs = some (a, rest) → rest <:+ cs := by
    intro cs a rest h
    cases cs with
    | nil => cases h
    | cons c cs =>
      by_cases hc : c = '-'
      · subst hc
        rw [readItemFrom] at h
        split at h
        · exact hplain.suffix h
        · exact (hinterval.suffix h).trans (List.suffix_cons '-' cs)
      · rw [readItemFrom_of_ne hc] at h
        exact hplain.suffix h
  refine ⟨hsuffix, fun cs => ?_⟩
  cases cs with
  | nil => exact .of_none fun a rest h => hsuffix h
  | cons c cs =>
    rw [List.cons_append]
    by_cases hc : c = '-'
    · subst hc
      rw [readItemFrom, readItemFrom, standsAlone_append]
      split
      · exact hplain.carried ('-' :: cs)
      · exact (hinterval.carried cs).of_suffix (List.suffix_cons '-' cs)
    · rw [readItemFrom_of_ne hc, readItemFrom_of_ne hc]
      exact hplain.carried (c :: cs)

theorem readItemFrom_look (test : Look) (cs : List Char) :
    readItemFrom flags (.look test) cs = none := by
  unfold readItemFrom
  split
  · rfl
  · split
    · rfl
    · rw [readInterval]
      cases readAtom flags _ <;> rfl
  · rfl

theorem steady_item (flags : Flags) (ht : Dollars t) : Steady t (')' :: t) (readItem flags) := by
  have hfrom (first : Atom) := (steady_itemFrom flags ht first).skip ht flags.verbose
  exact steady_atom_bind ht (List.suffix_cons ')' t) hfrom fun test cs => readItemFrom_look test _

theorem steady_firstBracket (ht : Dollars t) (verbose : Bool) (level : OpenClass) :
    Steady t u fun cs => some (readFirstBracket verbose level cs) := by
  cases hitems : level.items.isEmpty with
  | false =>
    have hsame : readFirstBracket verbose level = fun cs => (level, cs) := by
      funext cs
      unfold readFirstBracket
      split
      · simp [hitems]
      · rfl
    rw [hsame]
    exact .pure level
  | true =>
    have hpush : Steady t u fun cs => some (readFirstBracket verbose level (']' :: cs)) := by
      simp only [readFirstBracket, if_pos hitems]
      exact (Steady.pure (level.push (.char ']'))).skip ht verbose
    refine .branch (x := ']') (by decide) hpush (.pure level) fun cs hcs => ?_
    rw [readFirstBracket]
    rintro rest rfl
    exact hcs rfl

theorem steady_caret (ht : Dollars t) (verbose : Bool) :
    Steady t u fun cs => some (readCaret verbose cs) := by
  refine .branch (x := '^') (by decide) ((Steady.pure true).skip ht verbose) (.pure false)
    fun cs hcs => ?_
  rw [readCaret]
  rintro rest rfl
  exact hcs rfl

theorem steady_openClass (ht : Dollars t) (verbose : Bool) :
    Steady t u fun cs => some (openClass verbose cs) := by
  have hhyphen : (')' == '-') = false := by decide
  have hhyphens (negated : Bool) :=
    (steady_span (u := u) ht verbose (p := (· == '-')) hhyphen).comp fun hyphens =>
      steady_firstBracket ht verbose ⟨negated, none, hyphens.map .char⟩
  exact ((steady_caret ht verbose).skip ht verbose).comp hhyphens

theorem expect_append {d : Char} (hd : d ≠ ')') (cs t : List Char) :
    expect d (cs ++ ')' :: t) = (expect d cs).map fun rest => rest ++ ')' :: t := by
  cases cs with
  | nil => simp [expect, hd]
  | cons c rest =>
    rw [List.cons_append, expect, expect]
    split <;> rfl

theorem exact_asciiName (flags : Flags) (ht : Dollars t) (negated : Bool) :
    Exact t (readAsciiName flags negated) := by
  intro cs
  rw [readAsciiName, readAsciiName, exact_until ht false (by decide) (by decide)]
  cases readUntil false ':' cs with
  | none => rfl
  | some out =>
    simp only [Option.map_some, Option.bind_eq_bind, Option.bind_some,
      expect_append (d := ']') (by decide)]
    cases expect ']' out.2 with
    | none => rfl
    | some rest => cases asciiClass? out.1 <;> rfl

theorem asciiName_suffix {flags : Flags} {negated : Bool} {item : Option NestedSet}
    {rest : List Char} (h : readAsciiName flags negated cs = some (item, rest)) : rest <:+ cs := by
  rw [readAsciiName, Option.bind_eq_bind, Option.bind_eq_some_iff] at h
  obtain ⟨⟨name, more⟩, hname, h⟩ := h
  rw [Option.bind_eq_bind, Option.bind_eq_some_iff] at h
  obtain ⟨rest', hrest, h⟩ := h
  rw [Option.bind_eq_bind, Option.bind_eq_some_iff] at h
  obtain ⟨set, -, h⟩ := h
  obtain ⟨-, rfl⟩ := Prod.mk.inj (Option.some.inj h)
  have hmore : ']' :: rest' <:+ cs := by
    rw [← expect_eq_some.mp hrest]
    exact (List.suffix_cons ':' more).trans (readUntil_suffix hname)
  exact (List.suffix_cons ']' rest').trans hmore

theorem exact_asciiClass (flags : Flags) (ht : Dollars t) : Exact t (readAsciiClass flags) := by
  have hother : ∀ {cs : List Char}, cs.head? ≠ some ':' → readAsciiClass flags cs = none := by
    intro cs hcs
    unfold readAsciiClass
    split
    · cases hcs rfl
    · cases hcs rfl
    · rfl
  have hplain : ∀ {rest : List Char}, rest.head? ≠ some '^' →
      readAsciiClass flags (':' :: rest) = readAsciiName flags false rest := by
    intro rest hrest
    rw [readAsciiClass]
    rintro more rfl
    exact hrest rfl
  intro cs
  cases cs with
  | nil =>
    rw [hother (by simp), hother (by simp)]
    rfl
  | cons c rest =>
    by_cases hc : c = ':'
    · subst hc
      cases rest with
      | nil =>
        rw [List.cons_append, hplain (by simp), hplain (by simp)]
        exact exact_asciiName flags ht false []
      | cons d rest =>
        by_cases hd : d = '^'
        · subst hd
          exact exact_asciiName flags ht true rest
        · rw [List.cons_append, hplain (by simpa using hd), hplain (by simpa using hd)]
          exact exact_asciiName flags ht false (d :: rest)
    · rw [hother (by simpa using hc), hother (by simpa using hc)]
      rfl

theorem asciiClass_suffix {flags : Flags} {item : Option NestedSet} {rest : List Char}
    (h : readAsciiClass flags cs = some (item, rest)) : rest <:+ cs := by
  unfold readAsciiClass at h
  split at h
  · next more =>
    exact (asciiName_suffix h).trans ((List.suffix_cons '^' more).trans (List.suffix_cons ':' _))
  · next more _ => exact (asciiName_suffix h).trans (List.suffix_cons ':' more)
  · cases h

theorem readOperation_suffix_tail {op : SetOp} {c : Char} {rest : List Char}
    (h : readOperation (c :: cs) = some (op, rest)) : rest <:+ cs := by
  cases cs with
  | nil => cases h
  | cons d more =>
    rw [readOperation] at h
    split at h
    · obtain ⟨_, -, hout⟩ := Option.map_eq_some_iff.mp h
      obtain ⟨-, rfl⟩ := Prod.mk.inj hout
      exact List.suffix_cons d more
    · cases h

theorem readOperation_suffix {op : SetOp} {rest : List Char}
    (h : readOperation cs = some (op, rest)) : rest <:+ cs := by
  cases cs with
  | nil => cases h
  | cons c more => exact (readOperation_suffix_tail h).trans (List.suffix_cons c more)

theorem exact_operation (t : List Char) : Exact t readOperation := by
  have hparenthesis : operation? ')' = none := rfl
  intro cs
  match cs with
  | [] =>
    cases t with
    | nil => rfl
    | cons d rest =>
      rw [List.nil_append, readOperation, hparenthesis]
      simp [readOperation]
  | [c] =>
    rw [List.cons_append, List.nil_append, readOperation]
    by_cases hc : c = ')'
    · simp [hc, hparenthesis, readOperation]
    · simp [hc, readOperation]
  | c :: d :: rest =>
    rw [List.cons_append, List.cons_append, readOperation, readOperation]
    split
    · rw [Option.map_map]
      rfl
    · rfl

theorem steady_innerClass (flags : Flags) (ht : Dollars t) (level : OpenClass)
    (outer : List OpenClass) : Steady t u (readInnerClass flags level outer) := by
  have hitem (item : Option NestedSet) : Steady t u fun cs =>
      item.map fun item => (ClassProgress.within (level.push item) outer, cs) := by
    cases item with
    | none => exact .fail
    | some item => exact .pure _
  have hopen : Steady t u fun cs => some (ClassProgress.within (openClass flags.verbose cs).1
      (level :: outer), (openClass flags.verbose cs).2) :=
    (steady_openClass ht flags.verbose).map fun inner => ClassProgress.within inner (level :: outer)
  refine (Steady.orElse (exact_asciiClass flags ht) asciiClass_suffix hitem hopen).congr
    fun cs => ?_
  rw [readInnerClass]
  cases readAsciiClass flags cs <;> rfl

theorem steady_operand (flags : Flags) (ht : Dollars t) (level : OpenClass)
    (outer : List OpenClass) : Steady t (')' :: t) (readOperand flags level outer) := by
  have hoperation (op : SetOp) : Steady t (')' :: t) fun cs =>
      some (ClassProgress.within (level.operate flags op) outer, cs) := .pure _
  have hitem := (steady_item flags ht).map fun item => ClassProgress.within (level.push item) outer
  refine (Steady.orElse (exact_operation t) readOperation_suffix hoperation hitem).congr
    fun cs => ?_
  rw [readOperand]
  cases readOperation cs <;> rfl

theorem steady_classStep (flags : Flags) (ht : Dollars t) (level : OpenClass)
    (outer : List OpenClass) : Steady t (')' :: t) (readClassStep flags level outer) := by
  have hclose : Steady t (')' :: t) fun cs =>
      (closeClass flags level outer).map fun progress => (progress, cs) := .given _
  refine .branches ['[', ']'] (by decide) (fun c hc => ?_) (steady_operand flags ht level outer)
    fun cs hcs => ?_
  · rcases List.mem_pair.mp hc with rfl | rfl
    · exact steady_innerClass flags ht level outer
    · exact hclose
  · unfold readClassStep
    split
    · exact absurd rfl (hcs '[' (by simp))
    · exact absurd rfl (hcs ']' (by simp))
    · rfl

section Steps

variable {flags : Flags} {level : OpenClass} {outer : List OpenClass} {c : Char}
  {rest : List Char} {progress : ClassProgress} {set : NestedSet}

theorem readItem_suffix {item : NestedSet} (h : readItem flags (c :: cs) = some (item, rest)) :
    rest <:+ cs := by
  obtain ⟨⟨first, more⟩, hfirst, h⟩ := Option.bind_eq_some_iff.mp h
  have hfrom := (steady_itemFrom flags (t := []) nofun first).suffix h
  exact (hfrom.trans (skip_suffix flags.verbose more)).trans (readAtom_suffix hfirst)

theorem readOperand_suffix
    (h : readOperand flags level outer (c :: cs) = some (progress, rest)) : rest <:+ cs := by
  rw [readOperand] at h
  cases hoperation : readOperation (c :: cs) with
  | some out =>
    rw [hoperation] at h
    obtain ⟨-, rfl⟩ := Prod.mk.inj (Option.some.inj h)
    exact readOperation_suffix_tail hoperation
  | none =>
    rw [hoperation] at h
    obtain ⟨out, hitem, hout⟩ := Option.map_eq_some_iff.mp h
    obtain ⟨-, rfl⟩ := Prod.mk.inj hout
    exact readItem_suffix hitem

theorem classStep_suffix
    (h : readClassStep flags level outer (c :: cs) = some (progress, rest)) : rest <:+ cs := by
  unfold readClassStep at h
  split at h
  · next heq =>
    obtain ⟨-, rfl⟩ := List.cons.inj heq
    exact (steady_innerClass flags (t := []) (u := []) nofun level outer).suffix h
  · next heq =>
    obtain ⟨-, rfl⟩ := List.cons.inj heq
    obtain ⟨_, -, hout⟩ := Option.map_eq_some_iff.mp h
    obtain ⟨-, rfl⟩ := Prod.mk.inj hout
    exact List.suffix_rfl
  · exact readOperand_suffix h

theorem readOperand_ne_closed (h : readOperand flags level outer cs = some (progress, rest)) :
    progress ≠ .closed set := by
  rw [readOperand] at h
  split at h
  · obtain ⟨rfl, -⟩ := Prod.mk.inj (Option.some.inj h)
    nofun
  · obtain ⟨out, -, hout⟩ := Option.map_eq_some_iff.mp h
    obtain ⟨rfl, -⟩ := Prod.mk.inj hout
    nofun

/-- Only a closing bracket closes a class. -/
theorem head?_of_closed
    (h : readClassStep flags level outer cs = some (.closed set, rest)) : cs.head? = some ']' := by
  unfold readClassStep at h
  split at h
  · rw [readInnerClass] at h
    split at h
    · obtain ⟨_, -, hout⟩ := Option.map_eq_some_iff.mp h
      cases (Prod.mk.inj hout).1
    · cases (Prod.mk.inj (Option.some.inj h)).1
  · rfl
  · exact absurd rfl (readOperand_ne_closed h)

theorem readClassFrom_eq_none {fuel : Nat} (h : ']' ∉ cs) :
    readClassFrom flags fuel level outer cs = none := by
  induction fuel generalizing level outer cs with
  | zero => rfl
  | succ fuel ih =>
    have hskip : ']' ∉ skip flags.verbose cs := fun hmem => h ((skip_suffix _ cs).subset hmem)
    rw [readClassFrom]
    split
    · rfl
    · next set rest hstep =>
      obtain ⟨rest', hrest⟩ := List.head?_eq_some_iff.mp (head?_of_closed hstep)
      rw [hrest] at hskip
      exact absurd List.mem_cons_self hskip
    · next hstep =>
      refine ih fun hmem => hskip ?_
      exact ((steady_classStep flags (t := []) nofun level outer).suffix hstep).subset hmem

/-- What is read of a class after a step of it. -/
def readOn (flags : Flags) (fuel : Nat) :
    Option (ClassProgress × List Char) → Option (NestedSet × List Char)
  | none => none
  | some (.closed set, rest) => some (set, rest)
  | some (.within level outer, rest) => readClassFrom flags fuel level outer rest

theorem readClassFrom_succ (fuel : Nat) (level : OpenClass) (outer : List OpenClass)
    (cs : List Char) : readClassFrom flags (fuel + 1) level outer cs =
      readOn flags fuel (readClassStep flags level outer (skip flags.verbose cs)) := by
  rw [readClassFrom]
  rfl

/-- A step that closes a class reads its bracket alone. -/
theorem readOn_closing {n m : Nat} (hn : ∀ level outer,
      readClassFrom flags m level outer (cs ++ ')' :: t) =
        (readClassFrom flags n level outer cs).map fun out => (out.1, out.2 ++ ')' :: t)) :
    readOn flags m (readClassStep flags level outer (']' :: (cs ++ ')' :: t))) =
      (readOn flags n (readClassStep flags level outer (']' :: cs))).map
        fun out => (out.1, out.2 ++ ')' :: t) := by
  have hstep : ∀ l, readClassStep flags level outer (']' :: l) =
      (closeClass flags level outer).map fun progress => (progress, l) := fun _ => rfl
  rw [hstep, hstep]
  cases closeClass flags level outer with
  | none => rfl
  | some progress =>
    cases progress with
    | closed set => rfl
    | within level outer => exact hn level outer

/-- Any other step leaves the class open, and reads on in less. -/
theorem readOn_open (ht : Dollars t) {n m : Nat} (hopen : cs.head? ≠ some ']')
    (hn : ∀ level outer rest, rest.length < cs.length →
      readClassFrom flags m level outer (rest ++ ')' :: t) =
        (readClassFrom flags n level outer rest).map fun out => (out.1, out.2 ++ ')' :: t)) :
    readOn flags m (readClassStep flags level outer (cs ++ ')' :: t)) =
      (readOn flags n (readClassStep flags level outer cs)).map
        fun out => (out.1, out.2 ++ ')' :: t) := by
  have hbefore : (cs ++ ')' :: t).head? ≠ some ']' := by
    cases cs with
    | nil => simp
    | cons c rest => simpa using hopen
  have halone_step : ∀ set rest, readClassStep flags level outer cs ≠ some (.closed set, rest) :=
    fun set rest h => hopen (head?_of_closed h)
  have hbefore_step : ∀ set rest,
      readClassStep flags level outer (cs ++ ')' :: t) ≠ some (.closed set, rest) :=
    fun set rest h => hbefore (head?_of_closed h)
  have hshort : ∀ progress rest,
      readClassStep flags level outer cs = some (progress, rest) → rest.length < cs.length := by
    intro progress rest h
    cases cs with
    | nil => cases h
    | cons c cs => exact Nat.lt_succ_of_le (classStep_suffix h).length_le
  have hcarried := (steady_classStep flags ht level outer).carried cs
  generalize readClassStep flags level outer cs = alone,
    readClassStep flags level outer (cs ++ ')' :: t) = before at *
  cases hcarried with
  | kept progress rest =>
    cases progress with
    | closed set => exact absurd rfl (halone_step set rest)
    | within level outer => exact hn level outer rest (hshort _ rest rfl)
  | hidden progress _ =>
    cases progress with
    | closed set => exact absurd rfl (halone_step set [])
    | within level outer =>
      rw [readOn, readOn, readClassFrom_eq_none List.not_mem_nil,
        readClassFrom_eq_none List.not_mem_nil]
      rfl
  | failed => rfl
  | overrun progress rest hrest =>
    cases progress with
    | closed set => exact absurd rfl (hbefore_step set rest)
    | within level outer =>
      exact readClassFrom_eq_none fun hmem =>
        ht.not_mem_cons (by decide) (by decide) (hrest.subset hmem)

/-- A class reads the same whatever stands behind it, given fuel enough. -/
theorem readClassFrom_append (ht : Dollars t) {n m : Nat} (hn : cs.length < n)
    (hm : (cs ++ ')' :: t).length < m) :
    readClassFrom flags m level outer (cs ++ ')' :: t) =
      (readClassFrom flags n level outer cs).map fun out => (out.1, out.2 ++ ')' :: t) := by
  induction n generalizing m level outer cs with
  | zero => omega
  | succ n ih =>
    obtain ⟨m, rfl⟩ : ∃ k, m = k + 1 := ⟨m - 1, by omega⟩
    rw [readClassFrom_succ, readClassFrom_succ]
    rcases skip_append ht flags.verbose cs with hkept | ⟨-, halone, hbefore⟩
    · have hlength := (skip_suffix flags.verbose cs).length_le
      rw [hkept]
      generalize skip flags.verbose cs = ds at hlength
      rw [List.length_append] at hm
      have hread : ∀ (level : OpenClass) (outer : List OpenClass) (rest : List Char),
          rest.length < ds.length → readClassFrom flags m level outer (rest ++ ')' :: t) =
            (readClassFrom flags n level outer rest).map
              fun out => (out.1, out.2 ++ ')' :: t) := fun level outer rest hrest =>
        ih (by omega) (by rw [List.length_append]; omega)
      by_cases hclosing : ds.head? = some ']'
      · obtain ⟨rest, rfl⟩ := List.head?_eq_some_iff.mp hclosing
        exact readOn_closing fun level outer => hread level outer rest (Nat.lt_succ_self _)
      · exact readOn_open ht hclosing hread
    · rw [halone, hbefore]
      rfl

theorem readClassFrom_suffix {fuel : Nat}
    (h : readClassFrom flags fuel level outer cs = some (set, rest)) : rest <:+ cs := by
  induction fuel generalizing level outer cs with
  | zero => cases h
  | succ fuel ih =>
    have hstep : ∀ {progress : ClassProgress} {rest : List Char},
        readClassStep flags level outer (skip flags.verbose cs) = some (progress, rest) →
        rest <:+ cs := fun h =>
      ((steady_classStep flags (t := []) nofun level outer).suffix h).trans (skip_suffix _ cs)
    rw [readClassFrom] at h
    split at h
    · cases h
    · next hclosed =>
      obtain ⟨-, rfl⟩ := Prod.mk.inj (Option.some.inj h)
      exact hstep hclosed
    · next hwithin => exact (ih h).trans (hstep hwithin)

end Steps

theorem steady_class (flags : Flags) (ht : Dollars t) : Steady t u (readClass flags) := by
  have hrest (level : OpenClass) : Steady t u fun cs =>
      readClassFrom flags (cs.length + 1) level [] cs :=
    .of_exact (fun cs => readClassFrom_append ht (Nat.lt_succ_self _) (Nat.lt_succ_self _))
      readClassFrom_suffix
  exact (steady_openClass ht flags.verbose).comp hrest

end RegionTree.Pattern
