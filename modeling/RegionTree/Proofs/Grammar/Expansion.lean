import Mathlib.Data.List.Forall2
import RegionTree.Grammar.Interpolation
set_option autoImplicit false

/-!
# Words with references

`Names.Expands` says what becomes of a word in which every reference is to a constant.  The words of a
list are accepted if and only if each of them expands, and those that expand to nothing are left out
(`Names.words_eq_ok`).
-/

namespace RegionTree.Names

/-- A text with its references replaced: each is to a constant, by the longest name that stands behind
its mark. -/
inductive Expands (n : Names) : List Char → List Char → Prop where
  | nil : Expands n [] []
  | char {c : Char} {rest text : List Char} :
      ¬ referenceMark <+: c :: rest → Expands n rest text → Expands n (c :: rest) (c :: text)
  | constant {after text : List Char} {value : String} :
      n.contextSymbol? (String.ofList (after.takeWhile Template.isNameChar)) = none →
      n.constants.lookup (String.ofList (after.takeWhile Template.isNameChar)) = some value →
      Expands n (after.dropWhile Template.isNameChar) text →
      Expands n (referenceMark ++ after) (value.toList ++ text)

variable {n : Names}

theorem prependText_append (a b : List Char) :
    prependText a (prependText b []) = prependText (a ++ b) [] := by
  cases a <;> cases b <;> simp [prependText]

theorem prependText_nil_inj {a b : List Char} (h : prependText a [] = prependText b []) : a = b := by
  cases a <;> cases b <;> simp_all [prependText]

theorem context_mem_prependText {symbol : Symbol} {name : String} {cs : List Char}
    {pieces : List Piece} :
    .context symbol name ∈ prependText cs pieces ↔ .context symbol name ∈ pieces := by
  unfold prependText
  split
  · split <;> simp_all
  · split <;> simp_all

theorem afterMark?_eq_none {cs : List Char} : afterMark? cs = none ↔ ¬ referenceMark <+: cs := by
  rw [afterMark?, ← List.isPrefixOf_iff_prefix]
  split <;> simp_all

theorem afterMark?_eq_some {cs after : List Char} :
    afterMark? cs = some after ↔ cs = referenceMark ++ after := by
  rw [afterMark?]
  constructor
  · intro h
    split at h
    · next hprefix =>
      obtain ⟨rest, rfl⟩ := List.isPrefixOf_iff_prefix.mp hprefix
      simpa using h
    · cases h
  · rintro rfl
    simp [List.isPrefixOf_iff_prefix]

theorem interpolateFrom_char {c : Char} {rest : List Char} (hmark : ¬ referenceMark <+: c :: rest)
    (fuel : Nat) :
    n.interpolateFrom (fuel + 1) (c :: rest) =
      (n.interpolateFrom fuel rest).map (prependText [c]) := by
  rw [interpolateFrom, afterMark?_eq_none.mpr hmark]

theorem interpolateFrom_mark (after : List Char) (fuel : Nat) :
    n.interpolateFrom (fuel + 1) (referenceMark ++ after) =
      let name := String.ofList (after.takeWhile Template.isNameChar)
      let rest := n.interpolateFrom fuel (after.dropWhile Template.isNameChar)
      match n.contextSymbol? name with
      | some symbol => rest.map (.context symbol name :: ·)
      | none =>
        match n.constants.lookup name with
        | some value => rest.map (prependText value.toList)
        | none => .error name := by
  have hafter : afterMark? ('$' :: (['v', 'a', 'r', ':'] ++ after)) = some after :=
    afterMark?_eq_some.mpr rfl
  change n.interpolateFrom (fuel + 1) ('$' :: (['v', 'a', 'r', ':'] ++ after)) = _
  rewrite [interpolateFrom, hafter]
  rfl

/-- What stands behind a reference is shorter than the text that begins with it. -/
theorem length_dropWhile_lt (after : List Char) :
    (after.dropWhile Template.isNameChar).length < (referenceMark ++ after).length := by
  have hlength := (List.dropWhile_suffix (l := after) Template.isNameChar).length_le
  have hmark : 0 < referenceMark.length := by decide
  rw [List.length_append]
  omega

/-- What expands is put together as one piece of text, or none if nothing is left. -/
theorem Expands.interpolateFrom {cs text : List Char} (h : n.Expands cs text) {fuel : Nat}
    (hfuel : cs.length < fuel) : n.interpolateFrom fuel cs = .ok (prependText text []) := by
  induction h generalizing fuel with
  | nil => cases fuel <;> rfl
  | @char c rest text hmark _ ih =>
    obtain ⟨fuel, rfl⟩ : ∃ k, fuel = k + 1 := ⟨fuel - 1, by omega⟩
    rw [List.length_cons] at hfuel
    rw [interpolateFrom_char hmark, ih (by omega)]
    exact congrArg Except.ok (prependText_append [c] text)
  | @constant after text value hcontext hconstant _ ih =>
    obtain ⟨fuel, rfl⟩ : ∃ k, fuel = k + 1 := ⟨fuel - 1, by omega⟩
    have hshort := length_dropWhile_lt after
    rw [interpolateFrom_mark]
    dsimp only
    rw [hcontext, hconstant, ih (by omega)]
    exact congrArg Except.ok (prependText_append value.toList text)

/-- A text without references stands for itself. -/
theorem expands_self {cs : List Char} (hmark : ¬ referenceMark <:+: cs) : n.Expands cs cs := by
  induction cs with
  | nil => exact .nil
  | cons c rest ih =>
    refine .char (fun h => hmark h.isInfix) (ih fun h => hmark ?_)
    exact h.trans (List.suffix_cons c rest).isInfix

/-- A word expands in one way. -/
theorem Expands.unique {cs a b : List Char} (ha : n.Expands cs a) (hb : n.Expands cs b) : a = b :=
  prependText_nil_inj (Except.ok.inj
    ((ha.interpolateFrom (Nat.lt_succ_self _)).symm.trans (hb.interpolateFrom (Nat.lt_succ_self _))))

/-- A word expands, refers to nothing that there is, or refers to a context variable. -/
theorem interpolateFrom_cases {cs : List Char} {fuel : Nat} (hfuel : cs.length < fuel) :
    (∃ text, n.Expands cs text) ∨ (∃ name, n.interpolateFrom fuel cs = .error name) ∨
      ∃ pieces symbol name, n.interpolateFrom fuel cs = .ok pieces ∧
        .context symbol name ∈ pieces := by
  induction fuel generalizing cs with
  | zero => exact absurd hfuel (Nat.not_lt_zero _)
  | succ fuel ih =>
    by_cases hmark : referenceMark <+: cs
    · obtain ⟨after, rfl⟩ := hmark
      have hshort := length_dropWhile_lt after
      have hless : (after.dropWhile Template.isNameChar).length < fuel := by omega
      have hrest := ih hless
      rw [interpolateFrom_mark]
      dsimp only
      split
      · cases n.interpolateFrom fuel (after.dropWhile Template.isNameChar) with
        | error name => exact .inr (.inl ⟨name, rfl⟩)
        | ok pieces => exact .inr (.inr ⟨_, _, _, rfl, List.mem_cons_self⟩)
      · next hcontext =>
        split
        · next value hconstant =>
          rcases hrest with ⟨text, htext⟩ | ⟨name, herror⟩ | ⟨pieces, symbol, name, hok, hmem⟩
          · exact .inl ⟨_, .constant hcontext hconstant htext⟩
          · exact .inr (.inl ⟨name, by rw [herror]; rfl⟩)
          · exact .inr (.inr ⟨_, symbol, name, by rw [hok]; rfl,
              context_mem_prependText.mpr hmem⟩)
        · exact .inr (.inl ⟨_, rfl⟩)
    · cases cs with
      | nil => exact .inl ⟨[], .nil⟩
      | cons c rest =>
        rw [List.length_cons] at hfuel
        rw [interpolateFrom_char hmark]
        rcases ih (Nat.lt_of_succ_lt_succ hfuel) with ⟨text, htext⟩ | ⟨name, herror⟩ |
          ⟨pieces, symbol, name, hok, hmem⟩
        · exact .inl ⟨_, .char hmark htext⟩
        · exact .inr (.inl ⟨name, by rw [herror]; rfl⟩)
        · exact .inr (.inr ⟨_, symbol, name, by rw [hok]; rfl, context_mem_prependText.mpr hmem⟩)

/-! ## Lists of words -/

/-- The words that are kept of the texts that a list expands to. -/
def keptWords (texts : List (List Char)) : List String :=
  (texts.filter fun text => !text.isEmpty).map String.ofList

theorem words_cons_of_expands {path word : String} {text : List Char}
    (h : n.Expands word.toList text) (rest : List String) :
    n.words path (word :: rest) = (n.words path rest).map (keptWords [text] ++ ·) := by
  have hinterpolate : n.interpolate path word = .ok (prependText text []) := by
    rw [interpolate, h.interpolateFrom (by rw [String.length_toList]; exact Nat.lt_succ_self _)]
  rw [words, hinterpolate]
  cases text with
  | nil =>
    change n.words path rest = _
    cases n.words path rest <;> rfl
  | cons c text =>
    change (n.words path rest).bind _ = _
    cases n.words path rest <;> rfl

/-- A list with a word that does not expand is refused. -/
theorem words_cons_ne_ok {path word : String} (h : ∀ text, ¬ n.Expands word.toList text)
    (rest ws : List String) : n.words path (word :: rest) ≠ .ok ws := by
  have hfuel : word.toList.length < word.length + 1 := by
    rw [String.length_toList]
    exact Nat.lt_succ_self _
  intro hok
  rw [words, interpolate] at hok
  rcases n.interpolateFrom_cases hfuel with ⟨text, htext⟩ | ⟨name, herror⟩ |
    ⟨pieces, symbol, name, hpieces, hmem⟩
  · exact h text htext
  · rw [herror] at hok
    cases hok
  · rw [hpieces] at hok
    -- a context variable is among the pieces, so they are neither none nor one text
    match pieces with
    | [] => cases hmem
    | [.text cs] => simp at hmem
    | [.context _ _] => cases hok
    | .text _ :: _ :: _ => cases hok
    | .context _ _ :: _ :: _ => cases hok

/-- The words of a list are accepted if and only if all of them expand; those of which nothing is left
are dropped. -/
theorem words_eq_ok {path : String} {list ws : List String} :
    n.words path list = .ok ws ↔
      ∃ texts, List.Forall₂ (fun word text => n.Expands word.toList text) list texts ∧
        ws = keptWords texts := by
  induction list generalizing ws with
  | nil =>
    rw [words]
    simp [keptWords, eq_comm]
  | cons word rest ih =>
    by_cases hexpands : ∃ text, n.Expands word.toList text
    · obtain ⟨text, htext⟩ := hexpands
      have hkept (texts : List (List Char)) :
          keptWords (text :: texts) = keptWords [text] ++ keptWords texts := by
        rw [keptWords, keptWords, keptWords, ← List.map_append, ← List.filter_append,
          List.singleton_append]
      rw [words_cons_of_expands htext]
      constructor
      · intro h
        cases hrest : n.words path rest with
        | error e =>
          rw [hrest] at h
          cases h
        | ok others =>
          rw [hrest] at h
          obtain rfl := Except.ok.inj h
          obtain ⟨texts, hall, rfl⟩ := ih.mp hrest
          exact ⟨text :: texts, .cons htext hall, (hkept texts).symm⟩
      · rintro ⟨_, hall, rfl⟩
        cases hall with
        | cons hword hall =>
          rw [ih.mpr ⟨_, hall, rfl⟩, hword.unique htext]
          exact congrArg Except.ok (hkept _).symm
    · have hnone (text : List Char) : ¬ n.Expands word.toList text := fun h => hexpands ⟨text, h⟩
      constructor
      · exact fun h => absurd h (words_cons_ne_ok hnone rest ws)
      · rintro ⟨_, hall, -⟩
        cases hall with
        | cons hword _ => exact absurd hword (hnone _)

end RegionTree.Names
