import RegionTree.Proofs.Grammar.Expansion
import RegionTree.Proofs.Grammar.Variants
import RegionTree.Proofs.Pattern.Wrapping
set_option autoImplicit false

/-!
# Guards behind and ahead

A guard that looks behind is put in parentheses, as a text, before its pattern is read; one that
looks ahead is read as it is.  `Grammar.guard_behind_ahead` compares a definition with a rule that
has a guard behind and the same definition with this guard ahead: the one builds if the other does,
but for patterns that close the parenthesis they are put in, that hide its end in a comment, or that
use up the room there is for a pattern.  `Grammar.not_guard_behind_ahead` has one of the first kind.
-/

namespace RegionTree

/-! ## Patterns without references -/

namespace Names

theorem interpolateFrom_text (n : Names) {fuel : Nat} {cs : List Char} (hfuel : cs.length < fuel)
    (hmark : ¬ referenceMark <:+: cs) : n.interpolateFrom fuel cs = .ok (prependText cs []) :=
  (expands_self hmark).interpolateFrom hfuel

theorem patternMatcher_text (path : String) (ignoreCase : Bool) (cs : List Char) :
    patternMatcher path ignoreCase [.text cs] =
      match Pattern.read { ignoreCase } cs with
      | .error fault => .error (.pattern path (.fault fault))
      | .ok regex => .ok (.regex (String.ofList cs) (.ofRegex regex)) := by
  rw [patternMatcher, compile, Pattern.compile, String.toList_ofList]
  cases Pattern.read { ignoreCase } cs <;> rfl

end Names

/-- A pattern that is there and refers to no variable. -/
def GuardSource.Plain (g : GuardSource) : Prop :=
  g.pattern ≠ "" ∧ ¬ Names.referenceMark <:+: g.pattern.toList

instance (g : GuardSource) : Decidable g.Plain := inferInstanceAs (Decidable (_ ∧ ¬ _))

namespace GuardSource.Plain

variable {g : GuardSource}

theorem ne_nil (h : g.Plain) : g.pattern.toList ≠ [] :=
  fun hnil => h.1 (String.toList_eq_nil_iff.mp hnil)

theorem interpolate (h : g.Plain) (n : Names) (path : String) :
    n.interpolate path g.pattern = .ok [.text g.pattern.toList] := by
  have hlength : g.pattern.toList.length < g.pattern.length + 1 := by
    rw [String.length_toList]
    exact Nat.lt_succ_self _
  rw [Names.interpolate, n.interpolateFrom_text hlength h.2]
  cases hcs : g.pattern.toList with
  | nil => exact absurd hcs h.ne_nil
  | cons c rest => rfl

end GuardSource.Plain

namespace Sources

/-- The flags under which patterns are read. -/
def flags (s : Sources) : Pattern.Flags := { ignoreCase := s.definition.ignoreCase }

/-- The characters that are read for a guard. -/
def guardText (behind : Bool) (g : GuardSource) : List Char :=
  if behind then Pattern.wrap g.pattern.toList else g.pattern.toList

variable {s : Sources} {g : GuardSource} {behind : Bool} {path : String}

theorem guard_eq (hg : g.Plain) (s : Sources) (path : String) (behind : Bool) :
    s.guard path behind g =
      match Pattern.read s.flags (guardText behind g) with
      | .error fault => .error (.pattern path (.fault fault))
      | .ok regex =>
        .ok ⟨.regex (String.ofList (guardText behind g)) (.ofRegex regex), g.negate⟩ := by
  have hpieces : (if behind then Names.anchorAtEnd [.text g.pattern.toList]
      else [.text g.pattern.toList]) = [Piece.text (guardText behind g)] := by
    cases behind <;> rfl
  rw [guard, hg.interpolate]
  change Names.patternMatcher path s.definition.ignoreCase (if behind then _ else _) >>= _ = _
  rw [hpieces, Names.patternMatcher_text]
  change (match Pattern.read s.flags _ with
    | .error _ => _
    | .ok _ => _) >>= _ = _
  cases Pattern.read s.flags (guardText behind g) <;> rfl

theorem guard_ok_iff (hg : g.Plain) :
    (∃ guard, s.guard path behind g = .ok guard) ↔
      ∃ regex, Pattern.read s.flags (guardText behind g) = .ok regex := by
  rw [guard_eq hg]
  cases Pattern.read s.flags (guardText behind g) <;> simp

/-- A guard that does not compile is reported as a fault of its pattern. -/
theorem guard_error (hg : g.Plain) {e : BuildError} (h : s.guard path behind g = .error e) :
    ∃ fault, e = .pattern path (.fault fault) := by
  rw [guard_eq hg] at h
  split at h
  · next fault _ => exact ⟨fault, (Except.error.inj h).symm⟩
  · cases h

end Sources

/-! ## Rules in a definition -/

mutual

/-- An item with a hole for a rule. -/
inductive ItemHole where
  | here
  | opening (node : Option String) (hole : ItemHole) (closings body : List Item)
      (embedded : Option String)
  | closings (node : Option String) (opening : Item) (hole : ItemsHole) (body : List Item)
      (embedded : Option String)
  | body (node : Option String) (opening : Item) (closings : List Item) (hole : ItemsHole)
      (embedded : Option String)

/-- A list of items with a hole for a rule in one of them. -/
inductive ItemsHole where
  | head (hole : ItemHole) (rest : List Item)
  | tail (first : Item) (rest : ItemsHole)

end

/-- An entry with a hole for a rule. -/
inductive EntryHole where
  | item (hole : ItemHole)
  | list (hole : ItemsHole)

/-- A definition with a hole for a rule.  Of `rest` all counts but the list that the hole is in. -/
inductive DefinitionHole where
  | root (rest : Definition) (hole : ItemsHole)
  | global (rest : Definition) (hole : ItemsHole)
  | entry (rest : Definition) (before : List (String × Entry)) (name : String) (hole : EntryHole)
      (after : List (String × Entry))

mutual

/-- The item with a rule in its hole. -/
def ItemHole.fill (r : RuleSource) : ItemHole → Item
  | .here => .rule r
  | .opening node hole closings body embedded =>
    .region node (hole.fill r) closings body embedded
  | .closings node opening hole body embedded =>
    .region node opening (hole.fill r) body embedded
  | .body node opening closings hole embedded =>
    .region node opening closings (hole.fill r) embedded

/-- The list of items with a rule in its hole. -/
def ItemsHole.fill (r : RuleSource) : ItemsHole → List Item
  | .head hole rest => hole.fill r :: rest
  | .tail first rest => first :: rest.fill r

end

/-- The entry with a rule in its hole. -/
def EntryHole.fill (r : RuleSource) : EntryHole → Entry
  | .item hole => .item (hole.fill r)
  | .list hole => .list (hole.fill r)

namespace DefinitionHole

/-- The definition with a rule in its hole. -/
def fill (r : RuleSource) : DefinitionHole → Definition
  | .root rest hole => { rest with root := hole.fill r }
  | .global rest hole => { rest with global := hole.fill r }
  | .entry rest before name hole after =>
    { rest with repository := before ++ (name, hole.fill r) :: after }

/-- The flags under which patterns of the definition are read. -/
def flags : DefinitionHole → Pattern.Flags
  | .root rest _ => { ignoreCase := rest.ignoreCase }
  | .global rest _ => { ignoreCase := rest.ignoreCase }
  | .entry rest .. => { ignoreCase := rest.ignoreCase }

end DefinitionHole

section

variable {R : RuleSource → RuleSource → Prop} {a b : RuleSource}

mutual

theorem ItemHole.fill_variant (hR : ∀ r, R r r) (hab : R a b) :
    (hole : ItemHole) → (hole.fill a).Variant R (hole.fill b)
  | .here => by
    rw [ItemHole.fill, ItemHole.fill]
    exact .rule hab
  | .opening node hole closings body embedded => by
    rw [ItemHole.fill, ItemHole.fill]
    exact .region node embedded (hole.fill_variant hR hab) (.refl hR closings) (.refl hR body)
  | .closings node opening hole body embedded => by
    rw [ItemHole.fill, ItemHole.fill]
    exact .region node embedded (.refl hR opening) (hole.fill_variant hR hab) (.refl hR body)
  | .body node opening closings hole embedded => by
    rw [ItemHole.fill, ItemHole.fill]
    exact .region node embedded (.refl hR opening) (.refl hR closings) (hole.fill_variant hR hab)

theorem ItemsHole.fill_variant (hR : ∀ r, R r r) (hab : R a b) :
    (hole : ItemsHole) → ItemsVariant R (hole.fill a) (hole.fill b)
  | .head hole rest => by
    rw [ItemsHole.fill, ItemsHole.fill]
    exact .cons (hole.fill_variant hR hab) (.refl hR rest)
  | .tail first rest => by
    rw [ItemsHole.fill, ItemsHole.fill]
    exact .cons (.refl hR first) (rest.fill_variant hR hab)

end

theorem EntryHole.fill_variant (hR : ∀ r, R r r) (hab : R a b) (hole : EntryHole) :
    (hole.fill a).Variant R (hole.fill b) := by
  cases hole with
  | item hole => exact .item (hole.fill_variant hR hab)
  | list hole => exact .list (hole.fill_variant hR hab)

theorem DefinitionHole.fill_variant (hR : ∀ r, R r r) (hab : R a b) (hole : DefinitionHole) :
    (hole.fill a).Variant R (hole.fill b) := by
  have hsame (entries : List (String × Entry)) : List.Forall₂ (EntryPair R) entries entries :=
    List.forall₂_same.mpr fun _ _ => ⟨rfl, .refl hR _⟩
  cases hole with
  | root rest hole =>
    exact { Definition.Variant.refl hR rest with root := hole.fill_variant hR hab }
  | global rest hole =>
    exact { Definition.Variant.refl hR rest with global := hole.fill_variant hR hab }
  | entry rest before name hole after =>
    exact { Definition.Variant.refl hR rest with
      repository := List.rel_append (hsame before)
        (.cons ⟨rfl, hole.fill_variant hR hab⟩ (hsame after)) }

end

/-! ## A guard behind and ahead -/

namespace RuleSource

/-- The rule with no guards. -/
def unguarded (r : RuleSource) : RuleSource := { r with lookbehind := none, lookahead := none }

/-- The rule with a guard behind and none ahead. -/
def behind (r : RuleSource) (g : GuardSource) : RuleSource :=
  { r with lookbehind := some g, lookahead := none }

/-- The rule with a guard ahead and none behind. -/
def ahead (r : RuleSource) (g : GuardSource) : RuleSource :=
  { r with lookbehind := none, lookahead := some g }

end RuleSource

/-- A definition makes a grammar. -/
def Definition.Builds (d : Definition) (host : Host) : Prop := ∃ g, Grammar.build d host = .ok g

theorem Definition.builds_iff {d : Definition} {host : Host} :
    d.Builds host ↔ (Grammar.build d host).toOption.isSome = true := by
  rw [Builds]
  cases Grammar.build d host <;> simp [Except.toOption]

instance (d : Definition) (host : Host) : Decidable (d.Builds host) :=
  decidable_of_iff' _ Definition.builds_iff

/-- Giving a rule of a definition that builds other guards leaves it one that builds, or one that
fails with an error of a certain kind, if the guards do. -/
theorem DefinitionHole.builds_with_guards {E : BuildError → Prop} {hole : DefinitionHole}
    {a b : RuleSource} {host : Host}
    (hsame : { a with lookbehind := b.lookbehind, lookahead := b.lookahead } = b)
    (hguards : (host.sources (hole.fill a)).GuardsPass E a b)
    (hbuilds : (hole.fill a).Builds host) :
    Passes E (Grammar.build (hole.fill b) host) := by
  have hvariant : (hole.fill a).Variant (fun x y => x = y ∨ x = a ∧ y = b) (hole.fill b) :=
    hole.fill_variant (fun _ => .inl rfl) (.inr ⟨rfl, rfl⟩)
  have hsources := hvariant.sources host
  obtain ⟨g, hbuild⟩ := hbuilds
  refine hvariant.build (fun {x y} hxy resolving path => ?_) hbuild
  rcases hxy with rfl | ⟨rfl, rfl⟩
  · exact Sources.rule_transfers hsources rfl (.refl x) path
  · exact Sources.rule_transfers hsources hsame hguards path

/-- A fault of the pattern of a guard behind. -/
def LookbehindFault (e : BuildError) : Prop :=
  ∃ path fault, e = .pattern (path ++ ".lookbehind") (.fault fault)

/-- A fault of the pattern of a guard ahead. -/
def LookaheadFault (e : BuildError) : Prop :=
  ∃ path fault, e = .pattern (path ++ ".lookahead") (.fault fault)

section

variable {E : BuildError → Prop} {s : Sources} {g : GuardSource} {path : String} {behind : Bool}

theorem Sources.passes_no_guard : Passes E (s.guard? path behind none) := .inl ⟨none, rfl⟩

theorem Sources.guard?_some :
    (∃ guard, s.guard? path behind (some g) = .ok guard) ↔
      ∃ guard, s.guard path behind g = .ok guard := by
  rw [guard?]
  cases s.guard path behind g <;> simp [Except.map]

/-- A guard compiles or is at fault. -/
theorem Sources.passes_guard (hg : g.Plain) (hE : ∀ fault, E (.pattern path (.fault fault))) :
    Passes E (s.guard? path behind (some g)) := by
  rw [guard?]
  cases hguard : s.guard path behind g with
  | ok guard => exact .inl ⟨some guard, rfl⟩
  | error e =>
    obtain ⟨fault, rfl⟩ := guard_error hg hguard
    exact .inr ⟨_, rfl, hE fault⟩

theorem Passes.of_false {α : Type} {x : Except BuildError α} (h : Passes (fun _ => False) x) :
    ∃ a, x = .ok a :=
  h.resolve_right fun ⟨_, _, hfalse⟩ => hfalse

end

/-- What is accepted as a guard behind and what is a valid pattern by itself. -/
theorem Sources.guard_behind_accepted {s : Sources} {g : GuardSource} (hg : g.Plain)
    (path : String) :
    ((∃ guard, s.guard path true g = .ok guard) →
      (∃ regex, Pattern.read s.flags g.pattern.toList = .ok regex) ∨
        Pattern.Strays (.start s.flags) g.pattern.toList) ∧
    ((∃ regex, Pattern.read s.flags g.pattern.toList = .ok regex) →
      (∃ guard, s.guard path true g = .ok guard) ∨ Pattern.OpenComment g.pattern.toList ∨
        Pattern.AtLimit s.flags g.pattern.toList) := by
  rw [guard_ok_iff hg]
  constructor
  · rintro ⟨regex, hread⟩
    exact (Pattern.read_of_wrap rfl hread).imp_left fun ⟨alone, halone, _⟩ => ⟨alone, halone⟩
  · rintro ⟨regex, hread⟩
    exact (Pattern.read_wrap rfl hread).imp_left fun hwrapped => ⟨_, hwrapped⟩

/-- A guard behind and the same guard ahead, compared for a rule at any place of any definition, and
what is accepted as a guard behind. -/
theorem Grammar.guard_behind_ahead {g : GuardSource} (hg : g.Plain) (hole : DefinitionHole)
    (r : RuleSource) (host : Host) :
    ((hole.fill (r.behind g)).Builds host →
      (hole.fill (r.ahead g)).Builds host ∨
        Pattern.Strays (.start hole.flags) g.pattern.toList) ∧
    ((hole.fill (r.ahead g)).Builds host →
      (hole.fill (r.behind g)).Builds host ∨ Pattern.OpenComment g.pattern.toList ∨
        Pattern.AtLimit hole.flags g.pattern.toList) ∧
    (∀ path,
      ((∃ guard, (host.sources (hole.fill r)).guard path true g = .ok guard) →
        (∃ regex, Pattern.read hole.flags g.pattern.toList = .ok regex) ∨
          Pattern.Strays (.start hole.flags) g.pattern.toList) ∧
      ((∃ regex, Pattern.read hole.flags g.pattern.toList = .ok regex) →
        (∃ guard, (host.sources (hole.fill r)).guard path true g = .ok guard) ∨
          Pattern.OpenComment g.pattern.toList ∨ Pattern.AtLimit hole.flags g.pattern.toList)) ∧
    ((hole.fill r.unguarded).Builds host →
      Passes LookbehindFault (Grammar.build (hole.fill (r.behind g)) host) ∧
        Passes LookaheadFault (Grammar.build (hole.fill (r.ahead g)) host)) := by
  have hflags (r : RuleSource) : (host.sources (hole.fill r)).flags = hole.flags := by
    cases hole <;> rfl
  refine ⟨fun hbuilds => ?_, fun hbuilds => ?_, fun path => ?_, fun hbuilds => ⟨?_, ?_⟩⟩
  · rw [or_iff_not_imp_right]
    intro hstrays
    rw [← hflags (r.behind g)] at hstrays
    refine (DefinitionHole.builds_with_guards rfl (fun path hbehind _ => ?_) hbuilds).of_false
    have hguard := Sources.guard?_some.mp hbehind
    have hvalid := ((Sources.guard_behind_accepted hg _).1 hguard).resolve_right hstrays
    refine ⟨Sources.passes_no_guard, .inl (Sources.guard?_some.mpr ?_)⟩
    exact (Sources.guard_ok_iff hg).mpr hvalid
  · rw [or_iff_not_imp_right]
    intro hroom
    rw [← hflags (r.ahead g)] at hroom
    refine (DefinitionHole.builds_with_guards rfl (fun path _ hahead => ?_) hbuilds).of_false
    have hvalid := (Sources.guard_ok_iff hg).mp (Sources.guard?_some.mp hahead)
    have hguard :=
      ((Sources.guard_behind_accepted hg (path ++ ".lookbehind")).2 hvalid).resolve_right hroom
    exact ⟨.inl (Sources.guard?_some.mpr hguard), Sources.passes_no_guard⟩
  · rw [← hflags r]
    exact Sources.guard_behind_accepted hg path
  · exact DefinitionHole.builds_with_guards (a := r.unguarded) rfl (fun path _ _ =>
      ⟨Sources.passes_guard hg fun fault => ⟨path, fault, rfl⟩, Sources.passes_no_guard⟩) hbuilds
  · exact DefinitionHole.builds_with_guards (a := r.unguarded) rfl (fun path _ _ =>
      ⟨Sources.passes_no_guard, Sources.passes_guard hg fun fault => ⟨path, fault, rfl⟩⟩) hbuilds

/-- A definition whose root is one rule. -/
def DefinitionHole.single : DefinitionHole :=
  .root ⟨"single", false, [], [], none, [], [], [], []⟩ (.head .here [])

/-- A rule for a letter. -/
def RuleSource.letter : RuleSource := ⟨none, .regex "x", [], none, none, [], false⟩

theorem Grammar.guard_behind_ahead_letters :
    (DefinitionHole.single.fill (RuleSource.letter.behind (.ofString "a|(?i)b+"))).Builds {} := by
  have hahead : (DefinitionHole.single.fill
      (RuleSource.letter.ahead (.ofString "a|(?i)b+"))).Builds {} := by decide +kernel
  have hcomment : ¬ Pattern.OpenComment "a|(?i)b+".toList := by
    rintro ⟨front, more, heq, -⟩
    have hmem : '#' ∈ "a|(?i)b+".toList := heq ▸ List.mem_append_right _ (List.mem_cons_self ..)
    exact absurd hmem (by decide)
  have hroom : ¬ Pattern.AtLimit DefinitionHole.single.flags "a|(?i)b+".toList := by
    rintro ⟨q, hq, hlimit⟩
    have hfits : (Pattern.readAll (.start DefinitionHole.single.flags) "a|(?i)b+".toList).all
        (fun q => decide (q.current.choice.depth + 2 ≤ Pattern.depthLimit ∧
          q.current.choice.regex.size + 1 ≤ Pattern.sizeLimit)) = true := by decide +kernel
    rw [hq, Option.all_some, decide_eq_true_eq] at hfits
    omega
  exact ((guard_behind_ahead (by decide) .single .letter {}).2.1 hahead).resolve_right
    (not_or.mpr ⟨hcomment, hroom⟩)

/-- The guards are not the same: a pattern may close the parenthesis that it is put in and open
another one. -/
theorem Grammar.not_guard_behind_ahead :
    ¬ ∀ (g : GuardSource) (hole : DefinitionHole) (r : RuleSource) (host : Host), g.Plain →
      ((hole.fill (r.behind g)).Builds host ↔ (hole.fill (r.ahead g)).Builds host) := by
  intro hsame
  have hbehind : (DefinitionHole.single.fill
      (RuleSource.letter.behind (.ofString "a)(?:b"))).Builds {} := by decide +kernel
  have hahead : ¬ (DefinitionHole.single.fill
      (RuleSource.letter.ahead (.ofString "a)(?:b"))).Builds {} := by decide +kernel
  exact hahead ((hsame (.ofString "a)(?:b") .single .letter {} (by decide)).mp hbehind)

end RegionTree
