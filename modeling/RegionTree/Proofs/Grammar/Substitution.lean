import Mathlib.Data.List.TakeWhile
import RegionTree.Grammar.Template
set_option autoImplicit false

/-!
# What templates stand for

`Template.Reads` says what the characters of a template are read as, from left to right: a character
that stands for itself, a group, or a reference by the longest name that stands behind a dollar sign.
Every template is read in one way.  It is refused if one of its references does not resolve, with the
first of them, and stands for what its elements do otherwise; a text with its dollar signs doubled
stands for itself in front of any template (`Template.parse_substitutes`).
-/

namespace RegionTree.Template

/-- A part of a template as it is written. -/
inductive Element where
  /-- A character that stands for itself. -/
  | char (c : Char)
  /-- A group of the match. -/
  | group (index : Nat)
  /-- A variable. -/
  | reference (name : String)
  deriving DecidableEq, Repr

/-- What the characters of a template are read as. -/
inductive Reads : List Char → List Element → Prop where
  | nil : Reads [] []
  | char {c : Char} {rest : List Char} {elements : List Element} :
      c ≠ '$' → Reads rest elements → Reads (c :: rest) (.char c :: elements)
  | dollar {rest : List Char} {elements : List Element} :
      Reads rest elements → Reads ('$' :: '$' :: rest) (.char '$' :: elements)
  | group {digit : Char} {rest : List Char} {elements : List Element} :
      digit.isDigit = true → Reads rest elements →
      Reads ('$' :: digit :: rest) (.group (digit.toNat - '0'.toNat) :: elements)
  | reference {first : Char} {more rest : List Char} {elements : List Element} :
      isNameStart first = true → (∀ c ∈ more, isNameChar c = true) →
      (∀ c ∈ rest.head?, isNameChar c = false) → Reads rest elements →
      Reads ('$' :: first :: (more ++ rest))
        (.reference (String.ofList (first :: more)) :: elements)
  | lone {rest : List Char} {elements : List Element} :
      (∀ c ∈ rest.head?, c ≠ '$' ∧ c.isDigit = false ∧ isNameStart c = false) →
      Reads rest elements → Reads ('$' :: rest) (.char '$' :: elements)

/-! ## One way to read -/

theorem isNameStart_of_isDigit {c : Char} (h : c.isDigit = true) : isNameStart c = false := by
  by_cases hc : c = '_'
  · rw [hc] at h
    exact absurd h (by decide)
  · delta Char.isDigit at h
    delta isNameStart Char.isAlpha Char.isUpper Char.isLower
    grind

theorem isNameChar_of_isNameStart {c : Char} (h : isNameStart c = true) : isNameChar c = true := by
  rw [isNameStart, Bool.or_eq_true] at h
  rw [isNameChar, Bool.or_eq_true]
  exact h.imp_right fun halpha => Bool.or_eq_true_iff.mpr (.inl halpha)

/-- A name goes on as long as it can. -/
theorem takeWhile_name {more rest : List Char} (hmore : ∀ c ∈ more, isNameChar c = true)
    (hrest : ∀ c ∈ rest.head?, isNameChar c = false) :
    (more ++ rest).takeWhile isNameChar = more ∧ (more ++ rest).dropWhile isNameChar = rest := by
  rw [List.takeWhile_append_of_pos hmore, List.dropWhile_append_of_pos hmore]
  cases rest with
  | nil => simp
  | cons c rest =>
    have hc := hrest c rfl
    simp [hc]

theorem isNameChar_takeWhile (cs : List Char) : ∀ c ∈ cs.takeWhile isNameChar, isNameChar c = true :=
  fun _ hc => List.mem_takeWhile_imp hc

/-- Behind the longest name stands no character of a name. -/
theorem isNameChar_head?_dropWhile (cs : List Char) :
    ∀ c ∈ (cs.dropWhile isNameChar).head?, isNameChar c = false := by
  intro c hc
  have := List.head?_dropWhile_not isNameChar cs
  rw [Option.mem_def.mp hc] at this
  simpa using this

/-- A template is read in one way: the character behind a dollar sign tells which. -/
theorem Reads.unique {cs : List Char} {elements other : List Element} (h : Reads cs elements)
    (h' : Reads cs other) : elements = other := by
  induction h generalizing other with
  | nil =>
    cases h'
    rfl
  | char hc _ ih =>
    cases h' with
    | char _ h' => rw [ih h']
    | dollar => exact absurd rfl hc
    | group => exact absurd rfl hc
    | reference => exact absurd rfl hc
    | lone => exact absurd rfl hc
  | dollar _ ih =>
    cases h' with
    | char hc => exact absurd rfl hc
    | dollar h' => rw [ih h']
    | group hdigit => exact absurd hdigit (by decide)
    | reference hfirst => exact absurd hfirst (by decide)
    | lone hlone => exact absurd rfl (hlone '$' rfl).1
  | @group digit _ _ hdigit _ ih =>
    cases h' with
    | char hc => exact absurd rfl hc
    | dollar => exact absurd hdigit (by decide)
    | group _ h' => rw [ih h']
    | reference hfirst => simp [isNameStart_of_isDigit hdigit] at hfirst
    | lone hlone => simp [hdigit] at hlone
  | @reference first more rest _ hfirst hmore hrest _ ih =>
    generalize hcs : more ++ rest = cs at h'
    cases h' with
    | char hc => exact absurd rfl hc
    | dollar => exact absurd hfirst (by decide)
    | group hdigit => simp [isNameStart_of_isDigit hdigit] at hfirst
    | reference _ hmore' hrest' h' =>
      obtain ⟨htake, hdrop⟩ := takeWhile_name hmore hrest
      obtain ⟨htake', hdrop'⟩ := takeWhile_name hmore' hrest'
      rw [hcs] at htake hdrop
      obtain rfl := htake.symm.trans htake'
      obtain rfl := hdrop.symm.trans hdrop'
      rw [ih h']
    | lone hlone => simp [hfirst] at hlone
  | lone hlone _ ih =>
    cases h' with
    | char hc => exact absurd rfl hc
    | dollar => exact absurd rfl (hlone '$' rfl).1
    | group hdigit => simp [hdigit] at hlone
    | reference hfirst => simp [hfirst] at hlone
    | lone _ h' => rw [ih h']

/-- Every template is read.  The recursion is on its length, because a name is read as a whole. -/
theorem exists_reads (cs : List Char) : ∃ elements, Reads cs elements := by
  match cs with
  | [] => exact ⟨[], .nil⟩
  | c :: rest =>
    by_cases hc : c = '$'
    · subst hc
      match rest with
      | [] => exact ⟨_, .lone (by simp) .nil⟩
      | first :: more =>
        by_cases hdollar : first = '$'
        · subst hdollar
          obtain ⟨elements, h⟩ := exists_reads more
          exact ⟨_, .dollar h⟩
        by_cases hdigit : first.isDigit = true
        · obtain ⟨elements, h⟩ := exists_reads more
          exact ⟨_, .group hdigit h⟩
        by_cases hfirst : isNameStart first = true
        · have hshort := (List.dropWhile_suffix (l := more) isNameChar).length_le
          obtain ⟨elements, h⟩ := exists_reads (more.dropWhile isNameChar)
          have hreads := Reads.reference hfirst (isNameChar_takeWhile more)
            (isNameChar_head?_dropWhile more) h
          rw [List.takeWhile_append_dropWhile] at hreads
          exact ⟨_, hreads⟩
        · obtain ⟨elements, h⟩ := exists_reads (first :: more)
          exact ⟨_, .lone (by simpa using ⟨hdollar, by simpa using hdigit, by simpa using hfirst⟩) h⟩
    · obtain ⟨elements, h⟩ := exists_reads rest
      exact ⟨_, .char hc h⟩
termination_by cs.length
decreasing_by all_goals simp_all <;> omega

/-! ## Templates by their elements -/

/-- The segments that elements make up; the first name that does not resolve is the error. -/
def segmentsOf (resolve : String → Option Symbol) : List Element → Except String (List Segment)
  | [] => .ok []
  | .char c :: rest => (segmentsOf resolve rest).map (prepend c)
  | .group index :: rest => (segmentsOf resolve rest).map (.group index :: ·)
  | .reference name :: rest =>
    match resolve name with
    | none => .error name
    | some symbol => (segmentsOf resolve rest).map (.variable symbol :: ·)

variable {resolve : String → Option Symbol}

theorem parseFrom_char {c : Char} (hc : c ≠ '$') (fuel : Nat) (rest : List Char) :
    parseFrom resolve (fuel + 1) (c :: rest) = (parseFrom resolve fuel rest).map (prepend c) := by
  rw [parseFrom]
  exact hc

theorem parseFrom_dollar (fuel : Nat) (rest : List Char) :
    parseFrom resolve (fuel + 1) ('$' :: '$' :: rest) =
      (parseFrom resolve fuel rest).map (prepend '$') := by
  rewrite [parseFrom]
  rfl

theorem parseFrom_group {digit : Char} (hdigit : digit.isDigit = true) (fuel : Nat)
    (rest : List Char) :
    parseFrom resolve (fuel + 1) ('$' :: digit :: rest) =
      (parseFrom resolve fuel rest).map (.group (digit.toNat - '0'.toNat) :: ·) := by
  have hdollar : ¬ (digit == '$') = true := by
    rintro h
    rw [eq_of_beq h] at hdigit
    exact absurd hdigit (by decide)
  rw [parseFrom, if_neg hdollar, if_pos hdigit]

theorem parseFrom_name {first : Char} {more rest : List Char} (hfirst : isNameStart first = true)
    (hmore : ∀ c ∈ more, isNameChar c = true) (hrest : ∀ c ∈ rest.head?, isNameChar c = false)
    (fuel : Nat) :
    parseFrom resolve (fuel + 1) ('$' :: first :: (more ++ rest)) =
      match resolve (String.ofList (first :: more)) with
      | none => .error (String.ofList (first :: more))
      | some symbol => (parseFrom resolve fuel rest).map (.variable symbol :: ·) := by
  have hdollar : ¬ (first == '$') = true := by
    rintro h
    rw [eq_of_beq h] at hfirst
    exact absurd hfirst (by decide)
  have hdigit : ¬ first.isDigit = true := fun h => by
    simp [isNameStart_of_isDigit h] at hfirst
  have hname : ∀ c ∈ first :: more, isNameChar c = true :=
    List.forall_mem_cons.mpr ⟨isNameChar_of_isNameStart hfirst, hmore⟩
  obtain ⟨htake, hdrop⟩ := takeWhile_name hname hrest
  rw [List.cons_append] at htake hdrop
  rewrite [parseFrom, if_neg hdollar, if_neg hdigit, if_pos hfirst, htake, hdrop]
  rfl

theorem parseFrom_lone {rest : List Char}
    (h : ∀ c ∈ rest.head?, c ≠ '$' ∧ c.isDigit = false ∧ isNameStart c = false) (fuel : Nat) :
    parseFrom resolve (fuel + 1) ('$' :: rest) =
      (parseFrom resolve fuel rest).map (prepend '$') := by
  cases rest with
  | nil => cases fuel <;> rfl
  | cons c rest =>
    obtain ⟨hdollar, hdigit, hfirst⟩ := h c rfl
    have hdollar' : ¬ (c == '$') = true := by simpa using hdollar
    rw [parseFrom, if_neg hdollar', if_neg (by simp [hdigit]), if_neg (by simp [hfirst])]

/-- A template is the one of its elements. -/
theorem Reads.parseFrom {cs : List Char} {elements : List Element} (h : Reads cs elements)
    {fuel : Nat} (hfuel : cs.length ≤ fuel) :
    parseFrom resolve fuel cs = segmentsOf resolve elements := by
  induction h generalizing fuel with
  | nil => cases fuel <;> rfl
  | char hc _ ih =>
    obtain ⟨fuel, rfl⟩ := Nat.exists_eq_add_one_of_ne_zero (Nat.ne_zero_of_lt hfuel)
    rw [parseFrom_char hc, ih (Nat.le_of_succ_le_succ hfuel), segmentsOf]
  | dollar _ ih =>
    obtain ⟨fuel, rfl⟩ := Nat.exists_eq_add_one_of_ne_zero (Nat.ne_zero_of_lt hfuel)
    rw [parseFrom_dollar, ih (Nat.le_of_succ_le (Nat.le_of_succ_le_succ hfuel)), segmentsOf]
  | group hdigit _ ih =>
    obtain ⟨fuel, rfl⟩ := Nat.exists_eq_add_one_of_ne_zero (Nat.ne_zero_of_lt hfuel)
    rw [parseFrom_group hdigit, ih (Nat.le_of_succ_le (Nat.le_of_succ_le_succ hfuel)), segmentsOf]
  | @reference first more rest _ hfirst hmore hrest _ ih =>
    obtain ⟨fuel, rfl⟩ := Nat.exists_eq_add_one_of_ne_zero (Nat.ne_zero_of_lt hfuel)
    have hshort : rest.length ≤ fuel := by
      rw [List.length_cons, List.length_cons, List.length_append] at hfuel
      omega
    rw [parseFrom_name hfirst hmore hrest, ih hshort, segmentsOf]
  | lone hlone _ ih =>
    obtain ⟨fuel, rfl⟩ := Nat.exists_eq_add_one_of_ne_zero (Nat.ne_zero_of_lt hfuel)
    rw [parseFrom_lone hlone, ih (Nat.le_of_succ_le_succ hfuel), segmentsOf]

theorem Reads.parse {source : String} {elements : List Element}
    (h : Reads source.toList elements) :
    parse resolve source = (segmentsOf resolve elements).map Template.mk := by
  rw [Template.parse, h.parseFrom (Nat.le_of_eq String.length_toList)]

/-! ## What elements stand for -/

/-- The names that elements refer to, in order. -/
def references (elements : List Element) : List String :=
  elements.filterMap fun
    | .reference name => some name
    | _ => none

/-- The text that an element stands for; what is missing stands for nothing. -/
def Element.expand (resolve : String → Option Symbol) (state : State) (groups : Groups) :
    Element → List Char
  | .char c => [c]
  | .group index => ((groups[index]?).join).getD []
  | .reference name => (((resolve name).bind state.lookup).getD "").toList

theorem map_eq_error {α β : Type} {f : α → β} {x : Except String α} {name : String} :
    x.map f = .error name ↔ x = .error name := by
  cases x <;> simp [Except.map]

/-- Elements are refused with the first name that does not resolve. -/
theorem segmentsOf_eq_error {elements : List Element} {name : String} :
    segmentsOf resolve elements = .error name ↔
      (references elements).find? (fun name => (resolve name).isNone) = some name := by
  induction elements with
  | nil => simp [segmentsOf, references]
  | cons element rest ih =>
    cases element with
    | char c =>
      rw [segmentsOf, map_eq_error, ih]
      rfl
    | group index =>
      rw [segmentsOf, map_eq_error, ih]
      rfl
    | reference other =>
      have hreferences : references (.reference other :: rest) = other :: references rest := rfl
      rw [segmentsOf, hreferences, List.find?_cons]
      cases hresolve : resolve other with
      | none => simp
      | some symbol => simpa [map_eq_error] using ih

theorem flatMap_prepend (state : State) (groups : Groups) (c : Char) (segments : List Segment) :
    (prepend c segments).flatMap (expandSegment state groups) =
      c :: segments.flatMap (expandSegment state groups) := by
  unfold prepend
  split <;> simp [expandSegment]

theorem map_eq_ok {α β : Type} {f : α → β} {x : Except String α} {b : β} :
    x.map f = .ok b ↔ ∃ a, x = .ok a ∧ f a = b := by
  cases x <;> simp [Except.map]

/-- Segments stand for what the elements stand for of which they are made. -/
theorem flatMap_segmentsOf {elements : List Element} {segments : List Segment}
    (h : segmentsOf resolve elements = .ok segments) (state : State) (groups : Groups) :
    segments.flatMap (expandSegment state groups) =
      elements.flatMap (Element.expand resolve state groups) := by
  induction elements generalizing segments with
  | nil =>
    obtain rfl := Except.ok.inj h
    rfl
  | cons element rest ih =>
    rw [List.flatMap_cons]
    cases element with
    | char c =>
      obtain ⟨later, hlater, rfl⟩ := map_eq_ok.mp h
      rw [flatMap_prepend, ih hlater]
      rfl
    | group index =>
      obtain ⟨later, hlater, rfl⟩ := map_eq_ok.mp h
      rw [List.flatMap_cons, ih hlater]
      rfl
    | reference name =>
      rw [segmentsOf] at h
      cases hresolve : resolve name with
      | none =>
        rw [hresolve] at h
        cases h
      | some symbol =>
        rw [hresolve] at h
        obtain ⟨later, hlater, rfl⟩ := map_eq_ok.mp h
        rw [List.flatMap_cons, ih hlater, Element.expand, hresolve]
        rfl

/-! ## Texts that stand for themselves -/

/-- A text with its dollar signs doubled. -/
def escape (a : String) : String :=
  String.ofList (a.toList.flatMap fun c => if c = '$' then ['$', '$'] else [c])

/-- An escaped text is read character by character, whatever follows. -/
theorem Reads.escape {b : String} {elements : List Element} (h : Reads b.toList elements)
    (a : String) : Reads (escape a ++ b).toList (a.toList.map .char ++ elements) := by
  rw [Template.escape, String.toList_append, String.toList_ofList]
  induction a.toList with
  | nil => exact h
  | cons c rest ih =>
    rw [List.flatMap_cons, List.append_assoc]
    split
    · rename_i hc
      rw [hc]
      exact .dollar ih
    · rename_i hc
      exact .char hc ih

theorem references_map_char (cs : List Char) (elements : List Element) :
    references (cs.map .char ++ elements) = references elements := by
  rw [references, List.filterMap_append]
  simp [references]

theorem flatMap_map_char (state : State) (groups : Groups) (cs : List Char)
    (elements : List Element) :
    (cs.map Element.char ++ elements).flatMap (Element.expand resolve state groups) =
      cs ++ elements.flatMap (Element.expand resolve state groups) := by
  rw [List.flatMap_append, List.flatMap_map]
  exact congrArg (· ++ _) (List.flatMap_singleton' cs)

/-! ## Templates -/

/-- A template is refused with the first of its references that does not resolve. -/
theorem Reads.parse_eq_error {source : String} {elements : List Element}
    (h : Reads source.toList elements) {name : String} :
    Template.parse resolve source = .error name ↔
      (references elements).find? (fun name => (resolve name).isNone) = some name := by
  rw [h.parse, map_eq_error, segmentsOf_eq_error]

/-- A template stands for what its elements stand for. -/
theorem Reads.expand {source : String} {elements : List Element}
    (h : Reads source.toList elements) {t : Template}
    (ht : Template.parse resolve source = .ok t) (state : State) (groups : Groups) :
    t.expand state groups = elements.flatMap (Element.expand resolve state groups) := by
  rw [h.parse] at ht
  obtain ⟨segments, hsegments, rfl⟩ := map_eq_ok.mp ht
  exact flatMap_segmentsOf hsegments state groups

/-- An escaped text in front of a template changes neither whether it is refused nor with which name,
and stands for itself in front of what the template stands for.  Every template is read in one way, is
refused with the first of its references that does not resolve, and stands for what its elements do
if all of them resolve. -/
theorem parse_substitutes (resolve : String → Option Symbol) :
    (∀ a b name, parse resolve (escape a ++ b) = .error name ↔ parse resolve b = .error name) ∧
      (∀ a b t, parse resolve b = .ok t → ∃ t', parse resolve (escape a ++ b) = .ok t' ∧
        ∀ state groups, t'.expand state groups = a.toList ++ t.expand state groups) ∧
      ∀ source : String, ∃ elements, (∀ other, Reads source.toList other ↔ other = elements) ∧
        (∀ name, parse resolve source = .error name ↔
          (references elements).find? (fun name => (resolve name).isNone) = some name) ∧
        ∀ t, parse resolve source = .ok t → ∀ state groups, t.expand state groups =
          elements.flatMap (Element.expand resolve state groups) := by
  have hsame : ∀ a b name,
      parse resolve (escape a ++ b) = .error name ↔ parse resolve b = .error name := by
    intro a b name
    obtain ⟨elements, hb⟩ := exists_reads b.toList
    rw [(hb.escape a).parse_eq_error, hb.parse_eq_error, references_map_char]
  refine ⟨hsame, fun a b t ht => ?_, fun source => ?_⟩
  · obtain ⟨elements, hb⟩ := exists_reads b.toList
    cases hescaped : parse resolve (escape a ++ b) with
    | error name =>
      rw [(hsame a b name).mp hescaped] at ht
      cases ht
    | ok t' =>
      refine ⟨t', rfl, fun state groups => ?_⟩
      rw [(hb.escape a).expand hescaped, hb.expand ht, flatMap_map_char]
  · obtain ⟨elements, h⟩ := exists_reads source.toList
    refine ⟨elements, fun other => ⟨fun h' => h'.unique h, ?_⟩, fun name => h.parse_eq_error,
      fun t ht state groups => h.expand ht state groups⟩
    rintro rfl
    exact h

/-- One variable. -/
def delimiterOnly (name : String) : Option Symbol := if name = "delimiter" then some 0 else none

theorem parse_substitutes_delimiter :
    parse delimiterOnly "<$delimiter>$$$1" =
        .ok ⟨[.text ['<'], .variable 0, .text ['>', '$'], .group 1]⟩ ∧
      ∃ t, parse delimiterOnly (escape "$é$" ++ "<$delimiter>$$$1") = .ok t ∧
        ∀ state groups, t.expand state groups = "$é$".toList ++
          expand ⟨[.text ['<'], .variable 0, .text ['>', '$'], .group 1]⟩ state groups := by
  have hparse : parse delimiterOnly "<$delimiter>$$$1" =
      .ok ⟨[.text ['<'], .variable 0, .text ['>', '$'], .group 1]⟩ := rfl
  exact ⟨hparse, (parse_substitutes delimiterOnly).2.1 "$é$" _ _ hparse⟩

end RegionTree.Template
