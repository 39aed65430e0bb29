import RegionTree.Proofs.Grammar.Expansion
import RegionTree.Proofs.Grammar.Flattening
import RegionTree.Proofs.Pattern.Choices
import RegionTree.Proofs.Pattern.Escaping
import RegionTree.Proofs.Text.Cut
set_option autoImplicit false

/-!
# Word lists

A rule with a list of words tries them by decreasing length, so it matches the longest one that stands
at a place, in whatever order the list has them (`Matcher.PicksLongest`).  The words are those that the
list expands to, without the empty ones.

Main statement: `Grammar.lookup_longest`, for the rules of a grammar that regards case.
-/

namespace RegionTree

open Text (byteLength)

/-! ## Letter by letter -/

namespace Pattern

variable {flags : Flags}

/-- A character that stands for itself is the only one that it matches. -/
theorem contains_literal (hcase : flags.ignoreCase = false) (c d : Char) :
    (flags.literal c).contains d.toNat = true ↔ d = c := by
  have hset : flags.literal c = ⟨[.single c.toNat]⟩ := by rw [Flags.literal, hcase]; rfl
  rw [hset, ← Char.toNat_inj]
  simp only [IntervalSet.contains, IntervalSet.containsIn, Interval.single]
  grind

theorem leading_seqAll_cons (r : Regex) (rest : List Regex) (next : List Char → Option Nat) :
    (Regex.seqAll (r :: rest)).leading next = r.leading ((Regex.seqAll rest).leading next) := by
  cases rest <;> rfl

theorem leading_altAll (rs : List Regex) (next : List Char → Option Nat) (text : List Char) :
    (Regex.altAll rs).leading next text = rs.findSome? fun r => r.leading next text := by
  induction rs with
  | nil => cases text <;> rfl
  | cons r rest ih =>
    rw [List.findSome?_cons]
    cases rest with
    | nil =>
      change r.leading next text = _
      cases r.leading next text <;> rfl
    | cons r' rest =>
      change (r.leading next text).or ((Regex.altAll (r' :: rest)).leading next text) = _
      rw [ih]
      cases r.leading next text <;> rfl

theorem plain_literalRegex (flags : Flags) (cs : List Char) : (literalRegex flags cs).Plain := by
  induction cs with
  | nil => trivial
  | cons c rest ih =>
    cases rest with
    | nil => trivial
    | cons d rest => exact ⟨trivial, ih⟩

theorem plain_altAll {rs : List Regex} (h : ∀ r ∈ rs, r.Plain) : (Regex.altAll rs).Plain := by
  induction rs with
  | nil => trivial
  | cons r rest ih =>
    cases rest with
    | nil => exact h r List.mem_cons_self
    | cons r' rest =>
      exact ⟨h r List.mem_cons_self, ih fun r hr => h r (List.mem_cons_of_mem _ hr)⟩

/-- A text, letter by letter, matches where it stands. -/
theorem leading_literalRegex (hcase : flags.ignoreCase = false) (cs text : List Char) :
    (literalRegex flags cs).leading (fun _ => some 0) text =
      if cs.isPrefixOf text then some (byteLength cs) else none := by
  induction cs generalizing text with
  | nil => rfl
  | cons c cs ih =>
    rw [literalRegex, List.map_cons, leading_seqAll_cons]
    cases text with
    | nil => rfl
    | cons d text =>
      have hrest := ih text
      rw [literalRegex] at hrest
      rw [Regex.leading, afterChar, hrest, List.isPrefixOf_cons_cons]
      by_cases hc : d = c
      · subst hc
        rw [if_pos ((contains_literal hcase d d).mpr rfl), beq_self_eq_true, Bool.true_and]
        split <;> rfl
      · have hne : ¬ (flags.literal c).contains d.toNat = true := fun h =>
          hc ((contains_literal hcase c d).mp h)
        rw [if_neg hne, beq_false_of_ne (Ne.symm hc), Bool.false_and]
        rfl

/-- The match of a choice among texts stops behind the first of them that stands there. -/
theorem matchFrom_choice (hcase : flags.ignoreCase = false) (words : List (List Char))
    (before : Option Char) (text : List Char) :
    ((Program.ofRegex (.altAll (words.map (literalRegex flags)))).matchFrom before 0 text).map
        Found.stop =
      (words.find? fun cs => cs.isPrefixOf text).map byteLength := by
  have hplain : (Regex.altAll (words.map (literalRegex flags))).Plain := by
    refine plain_altAll fun r hr => ?_
    obtain ⟨cs, -, rfl⟩ := List.mem_map.mp hr
    exact plain_literalRegex flags cs
  rw [Regex.matchFrom_stop hplain, leading_altAll, List.findSome?_map]
  clear hplain
  induction words with
  | nil => rfl
  | cons cs rest ih =>
    rw [List.findSome?_cons, List.find?_cons, ih, Function.comp_apply,
      leading_literalRegex hcase]
    cases cs.isPrefixOf text <;> rfl

end Pattern

/-! ## The longest word -/

/-- A matcher that matches at a place if one of some texts stands there, and then the longest of those
that do. -/
structure Matcher.PicksLongest (m : Matcher) (texts : List (List Char)) : Prop where
  succeeds : ∀ place context, (∃ found, m.exec place context = some found) ↔
    ∃ text ∈ texts, text <+: place.after
  longest : ∀ place context found, m.exec place context = some found →
    found.chars ∈ texts ∧ found.chars <+: place.after ∧
      ∀ text ∈ texts, text <+: place.after → text.length ≤ found.chars.length

/-- Of two texts that stand at one place, the one with fewer bytes begins the other. -/
theorem Text.prefix_of_byteLength_le {a b text : List Char} (ha : a <+: text) (hb : b <+: text)
    (h : byteLength a ≤ byteLength b) : a <+: b := by
  rcases List.prefix_or_prefix_of_prefix ha hb with hprefix | ⟨more, rfl⟩
  · exact hprefix
  · rw [byteLength_append] at h
    obtain rfl : more = [] := byteLength_eq_zero (by omega)
    rw [List.append_nil]

theorem Text.takeBytes_of_prefix {cs text : List Char} (h : cs <+: text) :
    takeBytes (byteLength cs) text = cs := by
  obtain ⟨rest, rfl⟩ := h
  rw [takeBytes_append_of_le le_rfl, Nat.sub_self]
  cases rest with
  | nil => simp
  | cons c rest =>
    have hpos := c.utf8Size_pos
    rw [takeBytes, if_neg (by omega), List.append_nil]

theorem Text.utf8ByteSize_ofList (cs : List Char) :
    (String.ofList cs).utf8ByteSize = byteLength cs := by
  induction cs with
  | nil => rfl
  | cons c rest ih =>
    rw [← List.singleton_append, String.ofList_append, String.utf8ByteSize_append, ih,
      byteLength_append]
    simp [byteLength]

namespace Names

/-- Words by decreasing length; those of one length stay in order. -/
def byLength (words : List String) : List String :=
  words.mergeSort fun a b => decide (b.utf8ByteSize ≤ a.utf8ByteSize)

theorem pairwise_byLength (words : List String) :
    (byLength words).Pairwise fun a b => byteLength b.toList ≤ byteLength a.toList := by
  have hsize (w : String) : w.utf8ByteSize = byteLength w.toList := by
    rw [← Text.utf8ByteSize_ofList, String.ofList_toList]
  refine (List.pairwise_mergeSort ?_ ?_ words).imp fun h => ?_
  · simpa using fun a b c hab hbc => Nat.le_trans hbc hab
  · simpa using fun a b : String => Nat.le_total b.utf8ByteSize a.utf8ByteSize
  · rw [← hsize, ← hsize]
    exact of_decide_eq_true h

theorem wordProgram_eq (ignoreCase : Bool) (words : List String) :
    wordProgram ignoreCase words = .ofRegex (.altAll (((byLength words).map String.toList).map
      (Pattern.literalRegex { ignoreCase }))) := by
  rw [List.map_map]
  rfl

/-- The program of a list is that of the choice among its words, written by decreasing length and with
every character standing for itself. -/
theorem compile_words (ignoreCase : Bool) {words : List String} (hwords : words ≠ []) :
    Pattern.compile ignoreCase
        (String.ofList (Pattern.choiceNotation ((byLength words).map String.toList))) =
      .ok (wordProgram ignoreCase words) ∨
    Pattern.compile ignoreCase
        (String.ofList (Pattern.choiceNotation ((byLength words).map String.toList))) =
      .error .tooLarge := by
  have hne : (byLength words).map String.toList ≠ [] := by
    intro hnil
    have hperm := List.mergeSort_perm words fun a b => decide (b.utf8ByteSize ≤ a.utf8ByteSize)
    exact hwords (List.nil_perm.mp (List.map_eq_nil_iff.mp hnil ▸ hperm))
  rw [Pattern.compile, String.toList_ofList, Pattern.read_choiceNotation rfl hne, wordProgram_eq]
  split
  · exact .inr rfl
  · exact .inl rfl

theorem prefix_of_find? {words : List String} {text : List Char} {word : String}
    (h : (words.find? fun word => word.toList.isPrefixOf text) = some word) :
    word.toList <+: text := by
  have hfound := List.find?_some h
  exact List.isPrefixOf_iff_prefix.mp hfound

/-- A list of words matches the first of them by decreasing length that stands at a place. -/
theorem exec_lookup (given words : List String) (place : Text.Place) (context : Bindings) :
    (Matcher.lookup given (wordProgram false words)).exec place context =
      ((byLength words).find? fun word => word.toList.isPrefixOf place.after).map fun word =>
        ⟨word.toList, none⟩ := by
  have hcase : ({ ignoreCase := false } : Pattern.Flags).ignoreCase = false := rfl
  have hstop := Pattern.matchFrom_choice hcase ((byLength words).map String.toList)
    place.before.head? place.after
  rw [List.find?_map, ← wordProgram_eq, Option.map_map] at hstop
  have hexec : (Matcher.lookup given (wordProgram false words)).exec place context =
      (((wordProgram false words).matchFrom place.before.head? 0 place.after).map
        Pattern.Found.stop).map fun stop => ⟨Text.takeBytes stop place.after, none⟩ := by
    rw [Option.map_map]
    rfl
  rw [hexec, hstop, Option.map_map]
  refine Option.map_congr fun word hword => ?_
  simp only [Function.comp_apply, Text.takeBytes_of_prefix (prefix_of_find? hword)]

/-- A list of words picks the longest of them, whatever their order. -/
theorem picksLongest_lookup (given words : List String) :
    (Matcher.lookup given (wordProgram false words)).PicksLongest (words.map String.toList) := by
  have hmem (word : String) : word ∈ byLength words ↔ word ∈ words := List.mem_mergeSort
  constructor
  · intro place context
    rw [exec_lookup]
    constructor
    · rintro ⟨found, hfound⟩
      obtain ⟨word, hword, -⟩ := Option.map_eq_some_iff.mp hfound
      exact ⟨word.toList, List.mem_map_of_mem ((hmem word).mp (List.mem_of_find?_eq_some hword)),
        prefix_of_find? hword⟩
    · rintro ⟨_, htext, hprefix⟩
      obtain ⟨word, hword, rfl⟩ := List.mem_map.mp htext
      have hfind : ((byLength words).find? fun word =>
          word.toList.isPrefixOf place.after).isSome := by
        rw [List.find?_isSome]
        exact ⟨word, (hmem word).mpr hword, List.isPrefixOf_iff_prefix.mpr hprefix⟩
      obtain ⟨longest, hlongest⟩ := Option.isSome_iff_exists.mp hfind
      exact ⟨_, by rw [hlongest]; rfl⟩
  · intro place context found hfound
    rw [exec_lookup] at hfound
    obtain ⟨word, hword, rfl⟩ := Option.map_eq_some_iff.mp hfound
    have hprefix := prefix_of_find? hword
    refine ⟨List.mem_map_of_mem ((hmem word).mp (List.mem_of_find?_eq_some hword)), hprefix, ?_⟩
    intro text htext hother
    obtain ⟨other, hotherMem, rfl⟩ := List.mem_map.mp htext
    -- words in front of the one that is found do not stand there, those behind it are no longer
    obtain ⟨-, front, back, hsplit, hfront⟩ := List.find?_eq_some_iff_append.mp hword
    have hsorted := pairwise_byLength words
    rw [hsplit] at hsorted
    have hplace := (hmem other).mpr hotherMem
    rw [hsplit] at hplace
    rcases List.mem_append.mp hplace with hin | hin
    · have hnot := hfront other hin
      rw [List.isPrefixOf_iff_prefix.mpr hother] at hnot
      cases hnot
    · rcases List.mem_cons.mp hin with rfl | hin
      · exact le_rfl
      · have hle := List.rel_of_pairwise_cons (List.pairwise_append.mp hsorted).2.1 hin
        exact (Text.prefix_of_byteLength_le hother hprefix hle).length_le

/-- What the matcher of a list of words does: the words expand, those of which nothing is left do not
count, and it picks the longest of the others; and its program is the one of their notation, if that
is not too large. -/
def LooksUp (n : Names) (list : List String) (m : Matcher) : Prop :=
  ∃ texts, List.Forall₂ (fun word text => n.Expands word.toList text) list texts ∧
    m.PicksLongest (texts.filter fun text => !text.isEmpty) ∧
    ∃ words program, m = .lookup words program ∧
      (Pattern.compile false
          (String.ofList (Pattern.choiceNotation ((byLength words).map String.toList))) =
        .ok program ∨
      Pattern.compile false
          (String.ofList (Pattern.choiceNotation ((byLength words).map String.toList))) =
        .error .tooLarge)

theorem looksUp_of_matcher {n : Names} {path : String} {list : List String} {m : Matcher}
    (h : n.matcher false path (.lookup list) = .ok m) : n.LooksUp list m := by
  cases hwords : n.words path list with
  | error e =>
    rw [matcher, hwords] at h
    cases h
  | ok words =>
    rw [matcher, hwords] at h
    change (if words.isEmpty then _ else _) = _ at h
    split at h
    · cases h
    · next hne =>
      obtain rfl := Except.ok.inj h
      obtain ⟨texts, hall, rfl⟩ := words_eq_ok.mp hwords
      have htexts : (keptWords texts).map String.toList =
          texts.filter fun text => !text.isEmpty := by
        simp [keptWords, Function.comp_def]
      have hpicks := picksLongest_lookup (keptWords texts) (keptWords texts)
      rw [htexts] at hpicks
      exact ⟨texts, hall, hpicks, _, _, rfl, compile_words false (by simpa using hne)⟩

end Names

/-! ## Grammars -/

theorem exists_of_mem_forall₂ {α β : Type} {R : α → β → Prop} {as : List α} {bs : List β}
    (h : List.Forall₂ R as bs) : (∀ a ∈ as, ∃ b ∈ bs, R a b) ∧ ∀ b ∈ bs, ∃ a ∈ as, R a b := by
  induction h with
  | nil => simp
  | cons hab _ ih =>
    simp only [List.mem_cons, forall_eq_or_imp, exists_eq_or_imp]
    exact ⟨⟨.inl hab, fun a ha => .inr (ih.1 a ha)⟩, ⟨.inl hab, fun b hb => .inr (ih.2 b hb)⟩⟩

/-- In a grammar that regards case, every rule with a list of words that is met in building looks them
up, and every rule of the grammar comes from one that is met. -/
theorem Grammar.lookup_longest {d : Definition} {h : Host} {g : Grammar}
    (hbuild : Grammar.build d h = .ok g) (hcase : d.ignoreCase = false) :
    (∀ path source list, d.Meets ⟨path, .rule source⟩ → source.pattern = .lookup list →
      ∃ rule ∈ g.rules.toList, rule.path = path ∧
        (Names.ofDefinition d).LooksUp list rule.matcher) ∧
    ∀ rule ∈ g.rules.toList, ∃ source, d.Meets ⟨rule.path, .rule source⟩ ∧
      ∀ list, source.pattern = .lookup list →
        (Names.ofDefinition d).LooksUp list rule.matcher := by
  obtain ⟨sites, hsites, hrules⟩ := Grammar.build_compiles hbuild
  have hlooks : ∀ {path : String} {source : RuleSource} {rule : Rule},
      (h.sources d).Compiles path source rule → ∀ list, source.pattern = .lookup list →
        (Names.ofDefinition d).LooksUp list rule.matcher := by
    intro path source rule hcompiles list hpattern
    have hmatcher := hcompiles.matcher
    rw [hpattern] at hmatcher
    change (Names.ofDefinition d).matcher d.ignoreCase path _ = _ at hmatcher
    rw [hcase] at hmatcher
    exact Names.looksUp_of_matcher hmatcher
  obtain ⟨hleft, hright⟩ := exists_of_mem_forall₂ hrules
  constructor
  · intro path source list hmeets hpattern
    have hsite : (path, source) ∈ sites.filterMap Placed.rule? :=
      List.mem_filterMap.mpr ⟨_, (hsites _).mpr hmeets, rfl⟩
    obtain ⟨rule, hrule, hcompiles⟩ := hleft _ hsite
    exact ⟨rule, hrule, hcompiles.place, hlooks hcompiles list hpattern⟩
  · intro rule hrule
    obtain ⟨⟨path, source⟩, hsite, hcompiles⟩ := hright rule hrule
    obtain ⟨site, hmem, hsome⟩ := List.mem_filterMap.mp hsite
    have hplaced : site = ⟨path, .rule source⟩ := by
      obtain ⟨path', item⟩ := site
      cases item <;> simp_all [Placed.rule?]
    obtain rfl := hcompiles.place
    exact ⟨source, (hsites _).mp (hplaced ▸ hmem), hlooks hcompiles⟩

/-- Operators that begin one another, one of them written as nothing. -/
def RuleSource.operators : RuleSource :=
  { RuleSource.ofText "" with pattern := .lookup ["i", "$var:in", "$var:none", "$var:in+"] }

/-- A definition whose one rule has a list of words. -/
def Definition.operators : Definition where
  name := "operators"
  ignoreCase := false
  constants := [("in", "in"), ("none", "")]
  context := []
  fallback := none
  root := [.rule .operators]
  global := []
  repository := []
  nodes := []

theorem Grammar.lookup_longest_operators :
    ∃ g, Grammar.build .operators {} = .ok g ∧ ∃ rule ∈ g.rules.toList, rule.path = "root[0]" ∧
      (Names.ofDefinition .operators).LooksUp ["i", "$var:in", "$var:none", "$var:in+"]
        rule.matcher := by
  have hok : (Grammar.build .operators {}).toOption.isSome = true := by decide +kernel
  cases hbuild : Grammar.build .operators {} with
  | error e =>
    rw [hbuild] at hok
    cases hok
  | ok g =>
    have hmeets : Definition.operators.Meets ⟨"root[0]", .rule .operators⟩ :=
      .inl (by decide +kernel)
    exact ⟨g, rfl, (lookup_longest hbuild rfl).1 _ _ _ hmeets rfl⟩

end RegionTree
