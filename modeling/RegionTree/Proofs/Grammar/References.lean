import Mathlib.Data.List.Chain
import RegionTree.Proofs.Grammar.Expansion
import RegionTree.Proofs.Grammar.Substitution
set_option autoImplicit false

/-!
# References in patterns

`Names.Reads` says what the characters of a pattern are read as, from left to right: a character
that stands for itself, or a reference, which is the mark and the longest name behind it.  A
pattern is refused with the first reference to neither a context variable nor a constant.
Otherwise its pieces are in normal form, and written out again they are the pattern with the values
of constants put in (`Names.interpolate_normal`); the values are not read again.

So a pattern is put together as a single text, or none, just if it refers to no context variable,
and this decides what kind of matcher it makes.
-/

namespace RegionTree

/-! ## Symbols of names -/

namespace SymbolTable

variable {t : SymbolTable} {name : String}

theorem get?_eq_none : t.get? name = none ↔ name ∉ t.names := by
  rw [get?, List.findIdx?_eq_none_iff]
  constructor
  · exact fun h hmem => by simpa using h name hmem
  · rintro h other hmem
    refine beq_eq_false_iff_ne.mpr ?_
    rintro rfl
    exact h hmem

/-- A symbol tells the name. -/
theorem name?_of_get? {symbol : Symbol} (h : t.get? name = some symbol) :
    t.name? symbol = some name := by
  obtain ⟨hlt, hname, -⟩ := List.findIdx?_eq_some_iff_getElem.mp h
  rw [name?, List.getElem?_eq_getElem hlt, eq_of_beq hname]

theorem mem_intern (t : SymbolTable) (name : String) :
    name ∈ (t.intern name).2.names ∧ ∀ other ∈ t.names, other ∈ (t.intern name).2.names := by
  unfold intern
  cases h : t.get? name with
  | none => exact ⟨by simp, fun other hother => by simp [hother]⟩
  | some symbol =>
    refine ⟨?_, fun other hother => hother⟩
    by_contra hmem
    rw [get?_eq_none.mpr hmem] at h
    cases h

/-- Names that are added one by one are in the table, as are those from before. -/
theorem mem_foldl_intern (l : List (String × String)) (t : SymbolTable) {name : String}
    (h : name ∈ t.names ∨ name ∈ l.map Prod.fst) :
    name ∈ (l.foldl (fun t entry => (t.intern entry.1).2) t).names := by
  induction l generalizing t with
  | nil => exact h.resolve_right List.not_mem_nil
  | cons entry rest ih =>
    refine ih _ ?_
    rw [List.map_cons, List.mem_cons] at h
    rcases h with h | rfl | h
    · exact .inl ((mem_intern t entry.1).2 name h)
    · exact .inl (mem_intern t entry.1).1
    · exact .inr h

end SymbolTable

/-- Whether a definition has a context variable of a name. -/
def Definition.hasVariable (d : Definition) (name : String) : Bool :=
  (d.context.map Prod.fst).contains name

/-- Whether a definition has a constant of a name. -/
def Definition.hasConstant (d : Definition) (name : String) : Bool :=
  (d.constants.map Prod.fst).contains name

namespace Names

theorem mem_symbols_of_hasVariable {d : Definition} {name : String}
    (h : d.hasVariable name = true) : name ∈ (ofDefinition d).symbols.names :=
  SymbolTable.mem_foldl_intern d.context _ (.inr (List.contains_iff_mem.mp h))

/-- The context variables are those of the definition, each with the symbol of its name. -/
theorem contextSymbol?_ofDefinition (d : Definition) (name : String) :
    (ofDefinition d).contextSymbol? name =
      if d.hasVariable name then (ofDefinition d).symbols.get? name else none := by
  unfold contextSymbol?
  cases hget : (ofDefinition d).symbols.get? name with
  | none => simp
  | some symbol =>
    have hmem : symbol ∈ (ofDefinition d).context ↔ d.hasVariable name = true := by
      rw [Definition.hasVariable, List.contains_iff_mem, List.mem_map]
      constructor
      · intro h
        obtain ⟨entry, hentry, hsymbol⟩ := List.mem_filterMap.mp h
        have hname := SymbolTable.name?_of_get? hsymbol
        exact ⟨entry, hentry, Option.some.inj (hname.symm.trans (SymbolTable.name?_of_get? hget))⟩
      · rintro ⟨entry, hentry, rfl⟩
        exact List.mem_filterMap.mpr ⟨entry, hentry, hget⟩
    rw [Option.filter_some, List.contains_eq_mem]
    simp only [hmem, Bool.decide_eq_true]

theorem contextSymbol?_eq_none {d : Definition} {name : String} :
    (ofDefinition d).contextSymbol? name = none ↔ d.hasVariable name = false := by
  rw [contextSymbol?_ofDefinition]
  cases h : d.hasVariable name with
  | false => simp
  | true => simp [SymbolTable.get?_eq_none, mem_symbols_of_hasVariable h]

theorem hasVariable_of_contextSymbol? {d : Definition} {name : String} {symbol : Symbol}
    (h : (ofDefinition d).contextSymbol? name = some symbol) : d.hasVariable name = true := by
  rw [← Bool.not_eq_false, ← contextSymbol?_eq_none, h]
  exact Option.some_ne_none symbol

theorem lookup_constants_eq_none {d : Definition} {name : String} :
    (ofDefinition d).constants.lookup name = none ↔ d.hasConstant name = false := by
  change d.constants.lookup name = none ↔ _
  rw [List.lookup_eq_none_iff, Definition.hasConstant, List.contains_eq_mem,
    decide_eq_false_iff_not, List.mem_map]
  constructor
  · rintro h ⟨entry, hentry, rfl⟩
    simpa using h entry hentry
  · intro h entry hentry
    simpa using fun heq : name = entry.1 => h ⟨entry, hentry, heq.symm⟩

/-! ## How patterns are read -/

/-- A part of a pattern as it is written. -/
inductive Part where
  /-- A character that stands for itself. -/
  | char (c : Char)
  /-- A variable. -/
  | reference (name : String)
  deriving DecidableEq, Repr

/-- What the characters of a pattern are read as. -/
inductive Reads : List Char → List Part → Prop where
  | nil : Reads [] []
  | char {c : Char} {rest : List Char} {parts : List Part} :
      ¬ referenceMark <+: c :: rest → Reads rest parts → Reads (c :: rest) (.char c :: parts)
  | reference {name rest : List Char} {parts : List Part} :
      (∀ c ∈ name, Template.isNameChar c = true) →
      (∀ c ∈ rest.head?, Template.isNameChar c = false) → Reads rest parts →
      Reads (referenceMark ++ (name ++ rest)) (.reference (String.ofList name) :: parts)

/-- A pattern is read in one way: either a mark stands at a place or not. -/
theorem Reads.unique {cs : List Char} {parts other : List Part} (h : Reads cs parts)
    (h' : Reads cs other) : parts = other := by
  induction h generalizing other with
  | nil =>
    generalize hcs : ([] : List Char) = cs at h'
    cases h' with
    | nil => rfl
    | char => cases hcs
    | reference => cases hcs
  | @char c rest parts hmark _ ih =>
    generalize hcs : c :: rest = cs at h'
    cases h' with
    | nil => cases hcs
    | char _ h' =>
      obtain ⟨rfl, rfl⟩ := List.cons.inj hcs
      rw [ih h']
    | reference => exact absurd (hcs ▸ List.prefix_append _ _) hmark
  | @reference name rest parts hname hrest _ ih =>
    generalize hcs : referenceMark ++ (name ++ rest) = cs at h'
    cases h' with
    | nil => cases hcs
    | char hmark => exact absurd (hcs ▸ List.prefix_append _ _) hmark
    | reference hname' hrest' h' =>
      obtain ⟨htake, hdrop⟩ := Template.takeWhile_name hname hrest
      obtain ⟨htake', hdrop'⟩ := Template.takeWhile_name hname' hrest'
      rw [List.append_cancel_left hcs] at htake hdrop
      obtain rfl := htake.symm.trans htake'
      obtain rfl := hdrop.symm.trans hdrop'
      rw [ih h']

/-- Every pattern is read.  The recursion is on its length, because a reference is read as a whole.
-/
theorem exists_reads (cs : List Char) : ∃ parts, Reads cs parts := by
  by_cases hmark : referenceMark <+: cs
  · obtain ⟨after, hcs⟩ := hmark
    have hshort := length_dropWhile_lt after
    rw [hcs] at hshort
    obtain ⟨parts, h⟩ := exists_reads (after.dropWhile Template.isNameChar)
    have hreads := Reads.reference (Template.isNameChar_takeWhile after)
      (Template.isNameChar_head?_dropWhile after) h
    rw [List.takeWhile_append_dropWhile, hcs] at hreads
    exact ⟨_, hreads⟩
  · match cs with
    | [] => exact ⟨[], .nil⟩
    | c :: rest =>
      obtain ⟨parts, h⟩ := exists_reads rest
      exact ⟨_, .char hmark h⟩
termination_by cs.length

/-! ## Pieces of parts -/

/-- The pieces that parts make up; the first name that refers to nothing is the error. -/
def piecesOf (n : Names) : List Part → Except String (List Piece)
  | [] => .ok []
  | .char c :: rest => (n.piecesOf rest).map (prependText [c])
  | .reference name :: rest =>
    match n.contextSymbol? name with
    | some symbol => (n.piecesOf rest).map (.context symbol name :: ·)
    | none =>
      match n.constants.lookup name with
      | some value => (n.piecesOf rest).map (prependText value.toList)
      | none => .error name

/-- The pieces of a pattern are those of its parts. -/
theorem Reads.interpolateFrom {n : Names} {cs : List Char} {parts : List Part} (h : Reads cs parts)
    {fuel : Nat} (hfuel : cs.length < fuel) : n.interpolateFrom fuel cs = n.piecesOf parts := by
  induction h generalizing fuel with
  | nil => cases fuel <;> rfl
  | char hmark _ ih =>
    obtain ⟨fuel, rfl⟩ := Nat.exists_eq_add_one_of_ne_zero (Nat.ne_zero_of_lt hfuel)
    rw [interpolateFrom_char hmark, ih (Nat.lt_of_succ_lt_succ hfuel), piecesOf]
  | @reference name rest parts hname hrest _ ih =>
    obtain ⟨fuel, rfl⟩ := Nat.exists_eq_add_one_of_ne_zero (Nat.ne_zero_of_lt hfuel)
    obtain ⟨htake, hdrop⟩ := Template.takeWhile_name hname hrest
    have hshort := length_dropWhile_lt (name ++ rest)
    rw [hdrop] at hshort
    rw [interpolateFrom_mark, htake, hdrop]
    dsimp only
    rewrite [ih (by omega), piecesOf]
    rfl

theorem Reads.interpolate {n : Names} {source : String} {parts : List Part}
    (h : Reads source.toList parts) (path : String) :
    n.interpolate path source =
      match n.piecesOf parts with
      | .ok pieces => .ok pieces
      | .error name => .error (.unknownVariable path ("$var:" ++ name)) := by
  have hfuel : source.toList.length < source.length + 1 := by
    rw [String.length_toList]
    exact Nat.lt_succ_self _
  rewrite [Names.interpolate, h.interpolateFrom hfuel]
  rfl

/-! ## Parts with constants put in -/

/-- The names that parts refer to, in order. -/
def references (parts : List Part) : List String :=
  parts.filterMap fun
    | .char _ => none
    | .reference name => some name

/-- The characters that parts are written with. -/
def written (parts : List Part) : List Char :=
  parts.flatMap fun
    | .char c => [c]
    | .reference name => referenceMark ++ name.toList

/-- A reference to a constant is replaced by the characters of its value, which stand for
themselves. A context variable hides a constant. -/
def Part.putIn (d : Definition) : Part → List Part
  | .char c => [.char c]
  | .reference name =>
    if d.hasVariable name then [.reference name]
    else ((d.constants.lookup name).getD "").toList.map .char

/-- Parts with the values of constants put in. -/
def putIn (d : Definition) (parts : List Part) : List Part :=
  parts.flatMap (Part.putIn d)

@[simp] theorem references_append (parts later : List Part) :
    references (parts ++ later) = references parts ++ references later :=
  List.filterMap_append

@[simp] theorem references_map_char (cs : List Char) : references (cs.map .char) = [] := by
  simp [references]

@[simp] theorem references_reference_cons (name : String) (rest : List Part) :
    references (.reference name :: rest) = name :: references rest := rfl

@[simp] theorem written_append (parts later : List Part) :
    written (parts ++ later) = written parts ++ written later :=
  List.flatMap_append

@[simp] theorem written_map_char (cs : List Char) : written (cs.map .char) = cs := by
  rw [written, List.flatMap_map]
  exact List.flatMap_singleton' cs

/-- A pattern is what its parts are written with. -/
theorem Reads.written {cs : List Char} {parts : List Part} (h : Reads cs parts) :
    written parts = cs := by
  induction h with
  | nil => rfl
  | @char c rest parts _ _ ih => exact congrArg (c :: ·) ih
  | @reference name rest parts _ _ _ ih =>
    change (referenceMark ++ (String.ofList name).toList) ++ Names.written parts = _
    rw [ih, String.toList_ofList, List.append_assoc]

/-- The references that stay are those to context variables. -/
theorem references_putIn (d : Definition) (parts : List Part) :
    references (putIn d parts) = (references parts).filter d.hasVariable := by
  induction parts with
  | nil => rfl
  | cons part rest ih =>
    have hcons : putIn d (part :: rest) = part.putIn d ++ putIn d rest := List.flatMap_cons
    rw [hcons, references_append, ih]
    cases part with
    | char c => rfl
    | reference name =>
      rw [Part.putIn, references_reference_cons, List.filter_cons]
      split
      · rfl
      · rw [references_map_char, List.nil_append]

/-- Parts are refused with the first name that refers to nothing. -/
theorem piecesOf_eq_error {d : Definition} {parts : List Part} {name : String} :
    (ofDefinition d).piecesOf parts = .error name ↔
      (references parts).find? (fun name => !(d.hasVariable name || d.hasConstant name)) =
        some name := by
  induction parts with
  | nil => simp [piecesOf, references]
  | cons part rest ih =>
    cases part with
    | char c =>
      rw [piecesOf, Template.map_eq_error, ih]
      rfl
    | reference other =>
      rw [piecesOf, references_reference_cons, List.find?_cons]
      cases hsymbol : (ofDefinition d).contextSymbol? other with
      | some symbol =>
        simpa [hasVariable_of_contextSymbol? hsymbol, Template.map_eq_error] using ih
      | none =>
        have hvariable : d.hasVariable other = false := contextSymbol?_eq_none.mp hsymbol
        cases hvalue : (ofDefinition d).constants.lookup other with
        | none => simp [hvariable, lookup_constants_eq_none.mp hvalue]
        | some value =>
          have hconstant : d.hasConstant other = true := by
            rw [← Bool.not_eq_false, ← lookup_constants_eq_none, hvalue]
            exact Option.some_ne_none value
          simpa [hvariable, hconstant, Template.map_eq_error] using ih

end Names

/-! ## Normal form -/

namespace Piece

/-- Whether a piece is text. -/
def isText : Piece → Bool
  | .text _ => true
  | .context _ _ => false

/-- The parts of a piece. -/
def parts : Piece → List Names.Part
  | .text cs => cs.map .char
  | .context _ name => [.reference name]

theorem written_parts (pieces : List Piece) :
    Names.written (pieces.flatMap parts) = pieces.flatMap source := by
  induction pieces with
  | nil => rfl
  | cons piece rest ih =>
    rw [List.flatMap_cons, List.flatMap_cons, Names.written_append, ih]
    cases piece with
    | text cs => rw [parts, Names.written_map_char, source]
    | context symbol name => simp [parts, Names.written, Names.referenceMark, source]

/-- Pieces without a context variable are those without a reference among their parts. -/
theorem references_parts_eq_nil {pieces : List Piece} :
    Names.references (pieces.flatMap parts) = [] ↔ ∀ piece ∈ pieces, piece.isText = true := by
  induction pieces with
  | nil => simp [Names.references]
  | cons piece rest ih =>
    rw [List.flatMap_cons, Names.references_append, List.append_eq_nil_iff, ih,
      List.forall_mem_cons]
    cases piece with
    | text cs => simp [parts, isText]
    | context symbol name => simp [parts, isText, Names.references]

end Piece

namespace Names

/-- Pieces in normal form: no text is empty, and no two texts stand next to each other. -/
structure Normal (pieces : List Piece) : Prop where
  nonempty : ∀ cs, .text cs ∈ pieces → cs ≠ []
  apart : pieces.IsChain fun piece next => piece.isText = false ∨ next.isText = false

/-- A text is left out if it is empty, and put together with one behind it. -/
theorem prependText_cases (cs : List Char) (pieces : List Piece) :
    cs = [] ∧ prependText cs pieces = pieces ∨
      cs ≠ [] ∧ (∃ rest later, pieces = .text rest :: later ∧
        prependText cs pieces = .text (cs ++ rest) :: later) ∨
      cs ≠ [] ∧ (∀ piece ∈ pieces.head?, piece.isText = false) ∧
        prependText cs pieces = .text cs :: pieces := by
  cases cs with
  | nil => exact .inl ⟨rfl, by cases pieces with
      | nil => rfl
      | cons piece later => cases piece <;> rfl⟩
  | cons c cs =>
    cases pieces with
    | nil => exact .inr (.inr ⟨List.cons_ne_nil c cs, by simp, rfl⟩)
    | cons piece later =>
      cases piece with
      | text rest => exact .inr (.inl ⟨List.cons_ne_nil c cs, rest, later, rfl, rfl⟩)
      | context symbol name =>
        exact .inr (.inr ⟨List.cons_ne_nil c cs, by simp [Piece.isText], rfl⟩)

theorem normal_nil : Normal [] :=
  ⟨fun _ h => absurd h List.not_mem_nil, .nil⟩

theorem Normal.prependText {pieces : List Piece} (h : Normal pieces) (cs : List Char) :
    Normal (prependText cs pieces) := by
  rcases prependText_cases cs pieces with ⟨-, heq⟩ | ⟨hcs, rest, later, rfl, heq⟩ |
    ⟨hcs, hhead, heq⟩
  · rwa [heq]
  · rw [heq]
    refine ⟨fun text hmem => ?_, ?_⟩
    · rcases List.mem_cons.mp hmem with hfirst | hmem
      · rw [Piece.text.inj hfirst]
        exact List.append_ne_nil_of_left_ne_nil hcs rest
      · exact h.nonempty text (List.mem_cons_of_mem _ hmem)
    · exact List.isChain_cons.mpr (List.isChain_cons.mp h.apart)
  · rw [heq]
    refine ⟨fun text hmem => ?_, List.isChain_cons.mpr ⟨fun next hnext => ?_, h.apart⟩⟩
    · rcases List.mem_cons.mp hmem with hfirst | hmem
      · rwa [Piece.text.inj hfirst]
      · exact h.nonempty text hmem
    · exact .inr (hhead next hnext)

theorem Normal.context {pieces : List Piece} (h : Normal pieces) (symbol : Symbol) (name : String) :
    Normal (.context symbol name :: pieces) := by
  refine ⟨fun cs hmem => ?_, List.isChain_cons.mpr ⟨fun _ _ => .inl rfl, h.apart⟩⟩
  rcases List.mem_cons.mp hmem with hfirst | hmem
  · cases hfirst
  · exact h.nonempty cs hmem

theorem flatMap_parts_prependText (cs : List Char) (pieces : List Piece) :
    (prependText cs pieces).flatMap Piece.parts = cs.map .char ++ pieces.flatMap Piece.parts := by
  rcases prependText_cases cs pieces with ⟨rfl, heq⟩ | ⟨-, rest, later, rfl, heq⟩ | ⟨-, -, heq⟩
  · rw [heq]
    rfl
  · rw [heq, List.flatMap_cons, List.flatMap_cons, Piece.parts, Piece.parts, List.map_append,
      List.append_assoc]
  · rw [heq, List.flatMap_cons, Piece.parts]

/-- Without context variables, pieces in normal form are a single text, or none. -/
theorem Normal.forall_isText {pieces : List Piece} (h : Normal pieces) :
    (∀ piece ∈ pieces, piece.isText = true) ↔
      pieces = [] ∨ ∃ cs, cs ≠ [] ∧ pieces = [.text cs] := by
  constructor
  · intro htext
    match pieces with
    | [] => exact .inl rfl
    | [.text cs] => exact .inr ⟨cs, h.nonempty cs List.mem_cons_self, rfl⟩
    | [.context symbol name] => cases htext _ List.mem_cons_self
    | piece :: next :: rest =>
      have hfirst := htext piece List.mem_cons_self
      have hsecond := htext next (List.mem_cons_of_mem _ List.mem_cons_self)
      simpa [hfirst, hsecond] using h.apart.rel
  · rintro (rfl | ⟨cs, -, rfl⟩)
    · exact fun _ hmem => absurd hmem List.not_mem_nil
    · exact fun piece hmem => by rw [List.mem_singleton.mp hmem]; rfl

/-- Pieces in normal form that stand for the parts of a pattern, with the values of constants put in
and the symbols of context variables. -/
structure Composes (d : Definition) (parts : List Part) (pieces : List Piece) : Prop where
  normal : Normal pieces
  parts_eq : pieces.flatMap Piece.parts = putIn d parts
  symbol_eq : ∀ symbol name, .context symbol name ∈ pieces →
    (ofDefinition d).contextSymbol? name = some symbol

variable {d : Definition} {parts : List Part} {pieces : List Piece}

theorem Composes.text (h : Composes d parts pieces) {part : Part} {cs : List Char}
    (hpart : part.putIn d = cs.map .char) : Composes d (part :: parts) (prependText cs pieces) where
  normal := h.normal.prependText cs
  parts_eq := by
    rw [flatMap_parts_prependText, h.parts_eq, putIn, putIn, List.flatMap_cons, hpart]
  symbol_eq symbol name hmem := h.symbol_eq symbol name (context_mem_prependText.mp hmem)

theorem Composes.context (h : Composes d parts pieces) {symbol : Symbol} {name : String}
    (hsymbol : (ofDefinition d).contextSymbol? name = some symbol) :
    Composes d (.reference name :: parts) (.context symbol name :: pieces) where
  normal := h.normal.context symbol name
  parts_eq := by
    rw [List.flatMap_cons, h.parts_eq, putIn, putIn, List.flatMap_cons, Part.putIn,
      if_pos (hasVariable_of_contextSymbol? hsymbol), Piece.parts]
  symbol_eq other otherName hmem := by
    rcases List.mem_cons.mp hmem with hfirst | hmem
    · obtain ⟨rfl, rfl⟩ := Piece.context.inj hfirst
      exact hsymbol
    · exact h.symbol_eq other otherName hmem

/-- The induction is on the parts; each goes in front of the pieces of those behind it. -/
theorem composes_of_piecesOf (h : (ofDefinition d).piecesOf parts = .ok pieces) :
    Composes d parts pieces := by
  induction parts generalizing pieces with
  | nil =>
    obtain rfl := Except.ok.inj h
    exact ⟨normal_nil, rfl, fun _ _ hmem => absurd hmem List.not_mem_nil⟩
  | cons part rest ih =>
    cases part with
    | char c =>
      obtain ⟨later, hlater, rfl⟩ := Template.map_eq_ok.mp h
      exact (ih hlater).text rfl
    | reference name =>
      rw [piecesOf] at h
      cases hsymbol : (ofDefinition d).contextSymbol? name with
      | some symbol =>
        rw [hsymbol] at h
        obtain ⟨later, hlater, rfl⟩ := Template.map_eq_ok.mp h
        exact (ih hlater).context hsymbol
      | none =>
        cases hvalue : (ofDefinition d).constants.lookup name with
        | none =>
          rw [hsymbol, hvalue] at h
          cases h
        | some value =>
          rw [hsymbol, hvalue] at h
          obtain ⟨later, hlater, rfl⟩ := Template.map_eq_ok.mp h
          refine (ih hlater).text ?_
          have hlookup : d.constants.lookup name = some value := hvalue
          simp [Part.putIn, contextSymbol?_eq_none.mp hsymbol, hlookup]

/-- The pieces are those of a pattern as it is put together. -/
theorem Composes.source_eq (h : Composes d parts pieces) :
    pieces.flatMap Piece.source = written (putIn d parts) := by
  rw [← Piece.written_parts, h.parts_eq]

theorem Composes.forall_isText (h : Composes d parts pieces) :
    (∀ piece ∈ pieces, piece.isText = true) ↔
      ∀ name ∈ references parts, d.hasVariable name = false := by
  rw [← Piece.references_parts_eq_nil, h.parts_eq, references_putIn, List.filter_eq_nil_iff]
  simp only [Bool.not_eq_true]

/-- A pattern is put together as a single text, or none, just if it refers to no context variable.
-/
theorem Composes.shape (h : Composes d parts pieces) :
    (pieces = [] ∨ ∃ cs, cs ≠ [] ∧ pieces = [.text cs]) ↔
      ∀ name ∈ references parts, d.hasVariable name = false :=
  h.normal.forall_isText.symm.trans h.forall_isText

/-! ## Matchers of patterns -/

/-- The matcher of a text, which must not be empty. -/
def staticMatcher (path : String) (ignoreCase : Bool) (cs : List Char) :
    Except BuildError Matcher :=
  if cs = [] then .error (.pattern path .empty)
  else (compile path ignoreCase (String.ofList cs)).map (.regex (String.ofList cs))

/-- The matcher of a text in which every character stands for itself.  It is compared with the text
if case counts. -/
def literalMatcher (path : String) (ignoreCase : Bool) (cs : List Char) :
    Except BuildError Matcher :=
  if ignoreCase = true ∨ cs = [] then staticMatcher path ignoreCase (Pattern.escapeChars cs)
  else .ok (.literal (String.ofList cs))

/-- The matcher of pieces for which values are put in when it is used. -/
def dynamicMatcher (path : String) (ignoreCase : Bool) (pieces : List Piece) :
    Except BuildError Matcher :=
  match DynamicPattern.make pieces ignoreCase with
  | .ok pattern => .ok (.dynamic pattern)
  | .error fault => .error (.pattern path (.fault fault))

theorem patternMatcher_static (path : String) (ignoreCase : Bool) {pieces : List Piece}
    (h : pieces = [] ∨ ∃ cs, cs ≠ [] ∧ pieces = [.text cs]) :
    patternMatcher path ignoreCase pieces =
      staticMatcher path ignoreCase (pieces.flatMap Piece.source) := by
  rcases h with rfl | ⟨cs, hcs, rfl⟩
  · rfl
  · rw [List.flatMap_singleton, Piece.source, staticMatcher, if_neg hcs]
    rfl

theorem patternMatcher_dynamic (path : String) (ignoreCase : Bool) {pieces : List Piece}
    (h : ¬ ∀ piece ∈ pieces, piece.isText = true) :
    patternMatcher path ignoreCase pieces = dynamicMatcher path ignoreCase pieces := by
  unfold patternMatcher
  split
  · exact absurd (fun _ hmem => absurd hmem List.not_mem_nil) h
  · exact absurd (fun piece hmem => by rw [List.mem_singleton.mp hmem]; rfl) h
  · rfl

theorem escapeChars_ne_nil {cs : List Char} (h : cs ≠ []) : Pattern.escapeChars cs ≠ [] := by
  rw [Pattern.escapeChars, Ne, List.flatMap_eq_nil_iff]
  intro hall
  obtain ⟨c, hc⟩ := List.exists_mem_of_ne_nil cs h
  have hescape := hall c hc
  split at hescape <;> cases hescape

theorem isText_escapePiece (piece : Piece) : (escapePiece piece).isText = piece.isText := by
  cases piece <;> rfl

theorem matcher_literal_static {n : Names} {path source : String} {pieces : List Piece}
    (hok : n.interpolate path source = .ok pieces)
    (h : pieces = [] ∨ ∃ cs, cs ≠ [] ∧ pieces = [.text cs]) (ignoreCase : Bool) :
    n.matcher ignoreCase path (.literal source) =
      literalMatcher path ignoreCase (pieces.flatMap Piece.source) := by
  rw [matcher, hok]
  rcases h with rfl | ⟨cs, hcs, rfl⟩
  · cases ignoreCase <;> rfl
  · rw [List.flatMap_singleton, Piece.source, literalMatcher]
    cases ignoreCase with
    | false =>
      rw [if_neg (by simpa using hcs)]
      rfl
    | true =>
      rw [if_pos (.inl rfl), staticMatcher, if_neg (escapeChars_ne_nil hcs)]
      rfl

theorem matcher_literal_dynamic {n : Names} {path source : String} {pieces : List Piece}
    (hok : n.interpolate path source = .ok pieces) (h : ¬ ∀ piece ∈ pieces, piece.isText = true)
    (ignoreCase : Bool) :
    n.matcher ignoreCase path (.literal source) =
      dynamicMatcher path ignoreCase (pieces.map escapePiece) := by
  have hescaped : ¬ ∀ piece ∈ pieces.map escapePiece, piece.isText = true := by
    rw [List.forall_mem_map]
    simpa only [isText_escapePiece] using h
  rw [matcher, hok, ← patternMatcher_dynamic path ignoreCase hescaped]
  dsimp only [Bind.bind, Except.bind]
  split
  · exact absurd (fun piece hmem => by rw [List.mem_singleton.mp hmem]; rfl) h
  · rfl

variable {path source : String}

/-- A pattern makes a dynamic matcher if it refers to a context variable, and that of a text if
not. -/
theorem Composes.matcher_regex (h : Composes d parts pieces)
    (hok : (ofDefinition d).interpolate path source = .ok pieces) (ignoreCase : Bool) :
    (ofDefinition d).matcher ignoreCase path (.regex source) =
      if ∀ name ∈ references parts, d.hasVariable name = false then
        staticMatcher path ignoreCase (written (putIn d parts))
      else dynamicMatcher path ignoreCase pieces := by
  have hmatcher : (ofDefinition d).matcher ignoreCase path (.regex source) =
      patternMatcher path ignoreCase pieces := by
    rw [matcher, hok]
    rfl
  rw [hmatcher]
  split
  · next hnone => rw [patternMatcher_static path ignoreCase (h.shape.mpr hnone), h.source_eq]
  · next hsome => exact patternMatcher_dynamic path ignoreCase (mt h.forall_isText.mp hsome)

/-- The same holds of a text to look for, but that its characters stand for themselves. -/
theorem Composes.matcher_literal (h : Composes d parts pieces)
    (hok : (ofDefinition d).interpolate path source = .ok pieces) (ignoreCase : Bool) :
    (ofDefinition d).matcher ignoreCase path (.literal source) =
      if ∀ name ∈ references parts, d.hasVariable name = false then
        literalMatcher path ignoreCase (written (putIn d parts))
      else dynamicMatcher path ignoreCase (pieces.map escapePiece) := by
  split
  · next hnone => rw [matcher_literal_static hok (h.shape.mpr hnone), h.source_eq]
  · next hsome => exact matcher_literal_dynamic hok (mt h.forall_isText.mp hsome) ignoreCase

/-! ## Patterns -/

/-- Every pattern is read in one way.  It is refused with the first of its references that names
neither a context variable nor a constant.  Otherwise its pieces are in normal form and stand for
its parts with the values of constants put in, which are not read again, and they are a single
text, or none, just if it refers to no context variable.  This decides what kind of matcher it
makes. -/
theorem interpolate_normal (d : Definition) (path source : String) :
    ∃ parts, (∀ other, Reads source.toList other ↔ other = parts) ∧
      written parts = source.toList ∧
      (∀ e, (ofDefinition d).interpolate path source = .error e ↔
        ∃ name, (references parts).find? (fun name => !(d.hasVariable name || d.hasConstant name)) =
            some name ∧
          e = .unknownVariable path ("$var:" ++ name)) ∧
      ∀ pieces, (ofDefinition d).interpolate path source = .ok pieces →
        Composes d parts pieces ∧
        pieces.flatMap Piece.source = written (putIn d parts) ∧
        ((pieces = [] ∨ ∃ cs, cs ≠ [] ∧ pieces = [.text cs]) ↔
          ∀ name ∈ references parts, d.hasVariable name = false) ∧
        ∀ ignoreCase,
          (ofDefinition d).matcher ignoreCase path (.regex source) =
            (if ∀ name ∈ references parts, d.hasVariable name = false then
              staticMatcher path ignoreCase (written (putIn d parts))
            else dynamicMatcher path ignoreCase pieces) ∧
          (ofDefinition d).matcher ignoreCase path (.literal source) =
            if ∀ name ∈ references parts, d.hasVariable name = false then
              literalMatcher path ignoreCase (written (putIn d parts))
            else dynamicMatcher path ignoreCase (pieces.map escapePiece) := by
  obtain ⟨parts, hreads⟩ := exists_reads source.toList
  refine ⟨parts, fun other => ⟨fun h => h.unique hreads, ?_⟩, hreads.written, fun e => ?_,
    fun pieces hok => ?_⟩
  · rintro rfl
    exact hreads
  · rw [hreads.interpolate path]
    simp only [← piecesOf_eq_error]
    cases (ofDefinition d).piecesOf parts with
    | error name => simp [eq_comm]
    | ok pieces => simp
  · have hpieces := hok
    rw [hreads.interpolate path] at hpieces
    split at hpieces
    · next hpiecesOf =>
      obtain rfl := Except.ok.inj hpieces
      have h := composes_of_piecesOf hpiecesOf
      exact ⟨h, h.source_eq, h.shape, fun ignoreCase =>
        ⟨h.matcher_regex hok ignoreCase, h.matcher_literal hok ignoreCase⟩⟩
    · cases hpieces

/-- A context variable hides a constant; the value of another looks like a reference to it, and
that of a third is empty. -/
def shadowing : Definition :=
  { (default : Definition) with
    constants := [("a", "hidden"), ("b", "$var:a"), ("c", "")]
    context := [("a", "")] }

theorem interpolate_normal_shadowing :
    (ofDefinition shadowing).interpolate "root[0]" "$var:a$var:b.$var:c" =
        .ok [.context 0 "a", .text ['$', 'v', 'a', 'r', ':', 'a', '.']] ∧
      ∃ parts, Reads "$var:a$var:b.$var:c".toList parts ∧
        written (putIn shadowing parts) = "$var:a$var:a.".toList ∧
        ¬ ∀ name ∈ references parts, shadowing.hasVariable name = false := by
  have hok : (ofDefinition shadowing).interpolate "root[0]" "$var:a$var:b.$var:c" =
      .ok [.context 0 "a", .text ['$', 'v', 'a', 'r', ':', 'a', '.']] := by decide
  obtain ⟨parts, hreads, -, -, hpieces⟩ :=
    interpolate_normal shadowing "root[0]" "$var:a$var:b.$var:c"
  obtain ⟨-, hsource, hshape, -⟩ := hpieces _ hok
  exact ⟨hok, parts, (hreads parts).mpr rfl, hsource.symm, mt hshape.mpr (by simp)⟩

end Names

end RegionTree
