import RegionTree.Pattern.Reader
import Mathlib.Data.List.Infix
set_option autoImplicit false

/-!
# Readers in front of a closing parenthesis

What the readers of a pattern make of characters when a closing parenthesis and some further
characters `t` stand behind them (`Carried`).  As a rule they read the same and leave what stands
behind (`Carried.kept`).  A comment that is open at the end hides it (`Carried.hidden`), and a
reader that comes to the end too early and gives up may go on into it (`Carried.overrun`).

`Steady` readers do one of these and leave an end of what they are given.  Readers made of steady
ones are steady; all readers of the notation are, but for the one of `\b`, which looks at what comes
after a brace (`EdgeCarried`).
-/

namespace RegionTree.Pattern

/-- A comment sign stands on the last line. -/
def OpenComment (cs : List Char) : Prop := ∃ front more, cs = front ++ '#' :: more ∧ '\n' ∉ more

theorem OpenComment.of_suffix {rest cs : List Char} (h : OpenComment rest) (hsuffix : rest <:+ cs) :
    OpenComment cs := by
  obtain ⟨front, more, rfl, hmore⟩ := h
  obtain ⟨before, rfl⟩ := hsuffix
  exact ⟨before ++ front, more, (List.append_assoc ..).symm, hmore⟩

/-- Characters that only test for the end of a text. -/
def Dollars (t : List Char) : Prop := ∀ c ∈ t, c = '$'

theorem Dollars.not_mem {t : List Char} (ht : Dollars t) {c : Char} (hc : c ≠ '$') : c ∉ t :=
  fun hmem => hc (ht c hmem)

theorem Dollars.not_mem_cons {t : List Char} (ht : Dollars t) {c : Char} (hc : c ≠ '$')
    (hc' : c ≠ ')') : c ∉ ')' :: t :=
  List.not_mem_cons_of_ne_of_not_mem hc' (ht.not_mem hc)

variable {α β : Type} {t u cs : List Char}

/-- What a reader makes of `cs`, and of `cs` with a closing parenthesis and `t` behind it; a reader
that gives up on `cs` alone may go on to an end of `u`. -/
inductive Carried (t u cs : List Char) :
    (alone before : Option (α × List Char)) → Prop
  | kept (a : α) (rest : List Char) : Carried t u cs (some (a, rest)) (some (a, rest ++ ')' :: t))
  | hidden (a : α) : OpenComment cs → Carried t u cs (some (a, [])) (some (a, []))
  | failed : Carried t u cs none none
  | overrun (a : α) (rest : List Char) : rest <:+ u → Carried t u cs none (some (a, rest))

namespace Carried

theorem of_suffix {alone before : Option (α × List Char)} {rest : List Char}
    (h : Carried t u rest alone before) (hsuffix : rest <:+ cs) : Carried t u cs alone before := by
  cases h with
  | kept a rest => exact .kept a rest
  | hidden a hcomment => exact .hidden a (hcomment.of_suffix hsuffix)
  | failed => exact .failed
  | overrun a rest hrest => exact .overrun a rest hrest

theorem mono {u' : List Char} {alone before : Option (α × List Char)}
    (h : Carried t u cs alone before) (hu : u <:+ u') : Carried t u' cs alone before := by
  cases h with
  | kept a rest => exact .kept a rest
  | hidden a hcomment => exact .hidden a hcomment
  | failed => exact .failed
  | overrun a rest hrest => exact .overrun a rest (hrest.trans hu)

/-- A reader that is no better off with less gives up or overruns. -/
theorem of_none {before : Option (α × List Char)}
    (h : ∀ a rest, before = some (a, rest) → rest <:+ u) : Carried t u cs none before := by
  cases before with
  | none => exact .failed
  | some out => exact .overrun out.1 out.2 (h out.1 out.2 rfl)

end Carried

/-- A reader leaves an end of what it is given, and does the same in front of a closing parenthesis
as far as `Carried` says. -/
structure Steady (t u : List Char) (f : List Char → Option (α × List Char)) : Prop where
  suffix : ∀ {cs a rest}, f cs = some (a, rest) → rest <:+ cs
  carried : ∀ cs, Carried t u cs (f cs) (f (cs ++ ')' :: t))

/-- A reader that does not see what stands behind. -/
def Exact (t : List Char) (f : List Char → Option (α × List Char)) : Prop :=
  ∀ cs, f (cs ++ ')' :: t) = (f cs).map fun out => (out.1, out.2 ++ ')' :: t)

/-- What comes after a reader, when this is followed by a steady one. -/
theorem Carried.bind {alone before : Option (α × List Char)}
    {g : α → List Char → Option (β × List Char)} (h : Carried t u cs alone before)
    (halone : ∀ a rest, alone = some (a, rest) → rest <:+ cs) (hg : ∀ a, Steady t u (g a)) :
    Carried t u cs (alone.bind fun out => g out.1 out.2)
      (before.bind fun out => g out.1 out.2) := by
  cases h with
  | kept a rest => exact ((hg a).carried rest).of_suffix (halone a rest rfl)
  | hidden a hcomment =>
    dsimp only [Option.bind_some]
    cases hout : g a [] with
    | none => exact .failed
    | some out =>
      obtain ⟨b, rest⟩ := out
      obtain rfl := List.suffix_nil.mp ((hg a).suffix hout)
      exact .hidden b hcomment
  | failed => exact .failed
  | overrun a rest hrest => exact .of_none fun b rest' h => ((hg a).suffix h).trans hrest

namespace Steady

variable {f : List Char → Option (α × List Char)}

theorem of_exact (hf : Exact t f)
    (hsuffix : ∀ {cs a rest}, f cs = some (a, rest) → rest <:+ cs) : Steady t u f where
  suffix := hsuffix
  carried cs := by
    rw [hf cs]
    cases f cs with
    | none => exact .failed
    | some out => exact .kept out.1 out.2

theorem congr {f' : List Char → Option (α × List Char)} (hf : Steady t u f)
    (h : ∀ cs, f' cs = f cs) : Steady t u f' := by
  rwa [funext h]

theorem pure (a : α) : Steady t u fun cs => some (a, cs) where
  suffix h := by
    obtain ⟨-, rfl⟩ := Prod.mk.inj (Option.some.inj h)
    exact List.suffix_rfl
  carried cs := .kept a cs

theorem fail : Steady t u fun _ => (none : Option (α × List Char)) :=
  ⟨nofun, fun _ => .failed⟩

/-- One reader after another. -/
theorem bind {g : α → List Char → Option (β × List Char)} (hf : Steady t u f)
    (hg : ∀ a, Steady t u (g a)) :
    Steady t u fun cs => (f cs).bind fun out => g out.1 out.2 where
  suffix h := by
    obtain ⟨out, hout, h⟩ := Option.bind_eq_some_iff.mp h
    exact ((hg out.1).suffix h).trans (hf.suffix hout)
  carried cs := (hf.carried cs).bind (fun _ _ h => hf.suffix h) hg

/-- A reader that always reads something, and another after it. -/
theorem comp {h : List Char → α × List Char} {g : α → List Char → Option (β × List Char)}
    (hh : Steady t u fun cs => some (h cs)) (hg : ∀ a, Steady t u (g a)) :
    Steady t u fun cs => g (h cs).1 (h cs).2 :=
  hh.bind hg

theorem map (hf : Steady t u f) (k : α → β) :
    Steady t u fun cs => (f cs).map fun out => (k out.1, out.2) := by
  simpa only [Option.map_eq_bind, Function.comp_def] using hf.bind fun a => pure (k a)

/-- A value that there may not be. -/
theorem given (o : Option α) : Steady t u fun cs => o.map fun a => (a, cs) := by
  cases o with
  | none => exact fail
  | some a => exact pure a

theorem given_map (o : Option β) (k : β → α) : Steady t u fun cs => o.map fun b => (k b, cs) := by
  cases o with
  | none => exact fail
  | some b => exact pure (k b)

/-- A reader that depends on a value that there may not be. -/
theorem choose (o : Option β) {g : β → List Char → Option (α × List Char)}
    (hg : ∀ b, Steady t u (g b)) : Steady t u fun cs => o.bind fun b => g b cs := by
  cases o with
  | none => exact fail
  | some b => exact hg b

/-- A reader of a first character. -/
theorem cons {g : Char → List Char → Option (α × List Char)} (ht : t <:+ u)
    (hg : ∀ c, Steady t u (g c)) (hnil : f [] = none) (hcons : ∀ c rest, f (c :: rest) = g c rest) :
    Steady t u f where
  suffix {cs a rest} h := by
    cases cs with
    | nil =>
      rw [hnil] at h
      cases h
    | cons c cs =>
      rw [hcons] at h
      exact ((hg c).suffix h).trans (List.suffix_cons c cs)
  carried cs := by
    cases cs with
    | nil =>
      rw [hnil]
      refine .of_none fun a rest h => ?_
      rw [List.nil_append, hcons] at h
      exact ((hg _).suffix h).trans ht
    | cons c cs =>
      rw [List.cons_append, hcons, hcons]
      exact ((hg c).carried cs).of_suffix (List.suffix_cons c cs)

/-- A reader that goes by a first character that is one of some, and does another thing at any
other. -/
theorem branches (special : List Char) {k : List Char → Option (α × List Char)}
    (hspecial : ')' ∉ special) (hg : ∀ c ∈ special, Steady t u fun rest => f (c :: rest))
    (hk : Steady t u k) (hother : ∀ cs, (∀ c ∈ special, cs.head? ≠ some c) → f cs = k cs) :
    Steady t u f where
  suffix {cs a rest} h := by
    by_cases hcs : ∃ c ∈ special, cs.head? = some c
    · obtain ⟨c, hc, hcs⟩ := hcs
      obtain ⟨cs, rfl⟩ := List.head?_eq_some_iff.mp hcs
      exact ((hg c hc).suffix h).trans (List.suffix_cons c cs)
    · rw [hother cs fun c hc heq => hcs ⟨c, hc, heq⟩] at h
      exact hk.suffix h
  carried cs := by
    cases cs with
    | nil =>
      rw [hother [] (by simp), hother _ fun c hc heq => ?_]
      · exact hk.carried []
      · obtain rfl : ')' = c := Option.some.inj heq
        exact hspecial hc
    | cons d cs =>
      by_cases hd : d ∈ special
      · exact ((hg d hd).carried cs).of_suffix (List.suffix_cons d cs)
      · have hne : ∀ c ∈ special, some d ≠ some c := fun c hc heq => hd (Option.some.inj heq ▸ hc)
        rw [hother (d :: cs) hne, hother (d :: cs ++ ')' :: t) hne]
        exact hk.carried (d :: cs)

/-- A reader that does one thing after a certain character and another at any other. -/
theorem branch {x : Char} {k : List Char → Option (α × List Char)} (hx : x ≠ ')')
    (hg : Steady t u fun rest => f (x :: rest)) (hk : Steady t u k)
    (hother : ∀ cs, cs.head? ≠ some x → f cs = k cs) : Steady t u f :=
  branches [x] (by simpa using hx.symm) (by simpa using hg) hk fun cs hcs =>
    hother cs (hcs x (List.mem_singleton_self x))

/-- A reader that does not see what stands behind, or another where it reads nothing. -/
theorem orElse {f : List Char → Option (β × List Char)} {k : List Char → Option (α × List Char)}
    {g : β → List Char → Option (α × List Char)} (hf : Exact t f)
    (hsuffix : ∀ {cs b rest}, f cs = some (b, rest) → rest <:+ cs) (hg : ∀ b, Steady t u (g b))
    (hk : Steady t u k) :
    Steady t u fun cs => match f cs with
      | some out => g out.1 out.2
      | none => k cs where
  suffix {cs a rest} h := by
    split at h
    · next out hout => exact ((hg out.1).suffix h).trans (hsuffix hout)
    · exact hk.suffix h
  carried cs := by
    rw [hf cs]
    cases hout : f cs with
    | none => exact hk.carried cs
    | some out => exact ((hg out.1).carried out.2).of_suffix (hsuffix hout)

theorem ite {p : Prop} [Decidable p] {g : List Char → Option (α × List Char)} (hf : Steady t u f)
    (hg : Steady t u g) : Steady t u fun cs => if p then f cs else g cs := by
  by_cases hp : p
  · simpa only [if_pos hp] using hf
  · simpa only [if_neg hp] using hg

end Steady

/-! ## Blanks and spans -/

theorem isSpace_eq_false {c : Char} (hlow : '!' ≤ c) (hhigh : c ≤ '~') :
    Unicode.isSpace c = false := by
  have htable : Unicode.Property.table.find? (fun entry => entry.1.contains "whitespace") =
      some (["whitespace", "wspace", "space"],
        "9-D 20 85 A0 1680 2000-200A 2028-2029 202F 205F 3000") := by decide +kernel
  have hentries : ∀ i ∈ Unicode.entries "9-D 20 85 A0 1680 2000-200A 2028-2029 202F 205F 3000",
      i.stop ≤ '!'.toNat ∨ '~'.toNat < i.start := by decide +kernel
  rw [← Bool.not_eq_true]
  intro hspace
  rw [Unicode.isSpace, Unicode.space, Unicode.Property.listed, htable] at hspace
  obtain ⟨i, hi, hcontains⟩ := IntervalSet.exists_of_contains_ofList hspace
  obtain ⟨hstart, hstop⟩ := (i.contains_iff _).mp hcontains
  have hlow' : '!'.toNat ≤ c.toNat := hlow
  have hhigh' : c.toNat ≤ '~'.toNat := hhigh
  rcases hentries i hi with h | h <;> omega

theorem isSpace_parenthesis : Unicode.isSpace ')' = false :=
  isSpace_eq_false (by decide) (by decide)

theorem skipBlanks_suffix (inComment : Bool) (cs : List Char) :
    skipBlanks inComment cs <:+ cs := by
  induction cs generalizing inComment with
  | nil => exact List.suffix_rfl
  | cons c rest ih =>
    rw [skipBlanks]
    split
    · exact (ih _).trans (List.suffix_cons c rest)
    · split
      · exact (ih _).trans (List.suffix_cons c rest)
      · split
        · exact (ih _).trans (List.suffix_cons c rest)
        · exact List.suffix_rfl

theorem skip_suffix (verbose : Bool) (cs : List Char) : skip verbose cs <:+ cs := by
  rw [skip]
  split
  · exact skipBlanks_suffix false cs
  · exact List.suffix_rfl

theorem skipBlanks_true_of_not_mem {t : List Char} (ht : '\n' ∉ t) : skipBlanks true t = [] := by
  induction t with
  | nil => rfl
  | cons c rest ih =>
    obtain ⟨hc, hrest⟩ := not_or.mp (List.mem_cons.not.mp ht)
    have hbne : (c != '\n') = true := bne_iff_ne.mpr (Ne.symm hc)
    rw [skipBlanks, if_pos rfl, hbne]
    exact ih hrest

theorem skipBlanks_append (ht : Dollars t) (inComment : Bool) (cs : List Char) :
    skipBlanks inComment (cs ++ ')' :: t) = skipBlanks inComment cs ++ ')' :: t ∨
      (OpenComment cs ∨ inComment = true ∧ '\n' ∉ cs) ∧ skipBlanks inComment cs = [] ∧
        skipBlanks inComment (cs ++ ')' :: t) = [] := by
  induction cs generalizing inComment with
  | nil =>
    cases inComment with
    | true =>
      have hmem : '\n' ∉ ')' :: t := ht.not_mem_cons (by decide) (by decide)
      exact .inr ⟨.inr ⟨rfl, List.not_mem_nil⟩, rfl, skipBlanks_true_of_not_mem hmem⟩
    | false =>
      left
      simp only [List.nil_append, skipBlanks, isSpace_parenthesis]
      rfl
  | cons c rest ih =>
    have hcons : ∀ {cs : List Char}, OpenComment cs → OpenComment (c :: cs) :=
      fun h => h.of_suffix (List.suffix_cons _ _)
    rw [List.cons_append, skipBlanks, skipBlanks]
    split
    · next hin =>
      refine (ih (c != '\n')).imp_right fun ⟨hopen, hboth⟩ => ⟨?_, hboth⟩
      rcases hopen with hopen | ⟨hc, hrest⟩
      · exact .inl (hcons hopen)
      · have hne : '\n' ≠ c := (bne_iff_ne.mp hc).symm
        exact .inr ⟨hin, List.not_mem_cons_of_ne_of_not_mem hne hrest⟩
    · next hin =>
      split
      · refine (ih false).imp_right fun ⟨hopen, hboth⟩ => ⟨?_, hboth⟩
        exact .inl (hcons (hopen.resolve_right (by simp)))
      · split
        · next hc =>
          refine (ih true).imp_right fun ⟨hopen, hboth⟩ => ⟨.inl ?_, hboth⟩
          rcases hopen with hopen | ⟨-, hrest⟩
          · exact hcons hopen
          · obtain rfl := beq_iff_eq.mp hc
            exact ⟨[], rest, rfl, hrest⟩
        · exact .inl rfl

theorem skip_append (ht : Dollars t) (verbose : Bool) (cs : List Char) :
    skip verbose (cs ++ ')' :: t) = skip verbose cs ++ ')' :: t ∨
      OpenComment cs ∧ skip verbose cs = [] ∧ skip verbose (cs ++ ')' :: t) = [] := by
  cases verbose with
  | false => exact .inl rfl
  | true =>
    refine (skipBlanks_append ht false cs).imp_right fun ⟨hopen, hboth⟩ => ⟨?_, hboth⟩
    exact hopen.resolve_right (by simp)

namespace Steady

variable {f : List Char → Option (α × List Char)}

theorem skip (ht : Dollars t) (verbose : Bool) (hf : Steady t u f) :
    Steady t u fun cs => f (skip verbose cs) where
  suffix h := (hf.suffix h).trans (skip_suffix verbose _)
  carried cs := by
    rcases skip_append ht verbose cs with hkept | ⟨hcomment, halone, hbefore⟩
    · rw [hkept]
      exact (hf.carried _).of_suffix (skip_suffix verbose cs)
    · rw [halone, hbefore]
      cases hout : f [] with
      | none => exact .failed
      | some out =>
        obtain ⟨a, rest⟩ := out
        obtain rfl := List.suffix_nil.mp (hf.suffix hout)
        exact .hidden a hcomment

end Steady

theorem dropWhile_append_parenthesis {p : Char → Bool} (hp : p ')' = false) (t cs : List Char) :
    (cs ++ ')' :: t).dropWhile p = cs.dropWhile p ++ ')' :: t := by
  induction cs with
  | nil => simp [List.dropWhile, hp]
  | cons c rest ih =>
    rw [List.cons_append, List.dropWhile_cons, List.dropWhile_cons]
    split
    · exact ih
    · rfl

theorem Steady.dropWhile {p : Char → Bool} (hp : p ')' = false)
    {f : List Char → Option (α × List Char)} (hf : Steady t u f) :
    Steady t u fun cs => f (cs.dropWhile p) where
  suffix h := (hf.suffix h).trans (List.dropWhile_suffix p)
  carried cs := by
    rw [dropWhile_append_parenthesis hp]
    exact (hf.carried _).of_suffix (List.dropWhile_suffix p)

/-- More fuel than characters changes nothing. -/
theorem spanWith_eq_span {verbose : Bool} {p : Char → Bool} {fuel : Nat} {cs : List Char}
    (hfuel : cs.length ≤ fuel) : spanWith verbose p fuel cs = span verbose p cs := by
  have hsame : ∀ {n m : Nat} {cs : List Char}, cs.length ≤ n → cs.length ≤ m →
      spanWith verbose p n cs = spanWith verbose p m cs := by
    intro n
    induction n with
    | zero =>
      intro m cs hn _
      obtain rfl := List.length_eq_zero_iff.mp (Nat.le_zero.mp hn)
      cases m <;> rfl
    | succ n ih =>
      intro m cs hn hm
      cases cs with
      | nil => cases m <;> rfl
      | cons c rest =>
        cases m with
        | zero => cases hm
        | succ m =>
          have hlength := (skip_suffix verbose rest).length_le
          rw [List.length_cons] at hn hm
          rw [spanWith, spanWith, ih (m := m) (by omega) (by omega)]
  exact hsame hfuel le_rfl

theorem span_cons_of_neg {verbose : Bool} {p : Char → Bool} {c : Char} (hc : p c = false)
    (rest : List Char) : span verbose p (c :: rest) = ([], c :: rest) := by
  rw [span, List.length_cons, spanWith, hc]
  rfl

theorem span_cons_of_pos {verbose : Bool} {p : Char → Bool} {c : Char} (hc : p c = true)
    (rest : List Char) :
    span verbose p (c :: rest) =
      (c :: (span verbose p (skip verbose rest)).1, (span verbose p (skip verbose rest)).2) := by
  rw [span, List.length_cons, spanWith, if_pos hc,
    spanWith_eq_span (skip_suffix verbose rest).length_le]

/-- Characters after a first one that has been read, the blanks between them left out. -/
theorem span_induction (verbose : Bool) (p : Char → Bool) {motive : List Char → Prop}
    (nil : motive []) (stop : ∀ c rest, p c = false → motive (c :: rest))
    (take : ∀ c rest, p c = true → motive (skip verbose rest) → motive (c :: rest))
    (cs : List Char) : motive cs := by
  induction hlength : cs.length using Nat.strong_induction_on generalizing cs with
  | h n ih =>
    cases cs with
    | nil => exact nil
    | cons c rest =>
      cases hc : p c with
      | false => exact stop c rest hc
      | true =>
        have hshort := (skip_suffix verbose rest).length_le
        rw [List.length_cons] at hlength
        exact take c rest hc (ih _ (by omega) _ rfl)

theorem span_suffix (verbose : Bool) (p : Char → Bool) (cs : List Char) :
    (span verbose p cs).2 <:+ cs := by
  induction cs using span_induction verbose p with
  | nil => exact List.suffix_rfl
  | stop c rest hc => rw [span_cons_of_neg hc]
  | take c rest hc ih =>
    rw [span_cons_of_pos hc]
    exact ih.trans ((skip_suffix verbose rest).trans (List.suffix_cons c rest))

/-- The characters up to one that fails a test, which a closing parenthesis fails. -/
theorem steady_span (ht : Dollars t) (verbose : Bool) {p : Char → Bool} (hp : p ')' = false) :
    Steady t u fun cs => some (span verbose p cs) where
  suffix {cs a rest} h := by
    obtain rfl : (span verbose p cs).2 = rest := congrArg Prod.snd (Option.some.inj h)
    exact span_suffix verbose p cs
  carried cs := by
    induction cs using span_induction verbose p with
    | nil =>
      rw [List.nil_append, span_cons_of_neg hp]
      exact .kept [] []
    | stop c rest hc =>
      rw [List.cons_append, span_cons_of_neg hc, span_cons_of_neg hc]
      exact .kept [] (c :: rest)
    | take c rest hc ih =>
      rw [List.cons_append, span_cons_of_pos hc, span_cons_of_pos hc]
      have hsuffix : rest <:+ c :: rest := List.suffix_cons c rest
      rcases skip_append ht verbose rest with hkept | ⟨hcomment, halone, hbefore⟩
      · rw [hkept]
        generalize span verbose p (Pattern.skip verbose rest) = alone,
          span verbose p (Pattern.skip verbose rest ++ ')' :: t) = before at ih
        cases ih with
        | kept a rest' => exact .kept (c :: a) rest'
        | hidden a hcomment =>
          exact .hidden (c :: a) (hcomment.of_suffix ((skip_suffix verbose rest).trans hsuffix))
      · rw [halone, hbefore]
        exact .hidden [c] (hcomment.of_suffix hsuffix)

end RegionTree.Pattern
