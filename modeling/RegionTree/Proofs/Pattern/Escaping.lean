import Mathlib.Tactic.FinCases
import RegionTree.Proofs.Pattern.Wrapping
set_option autoImplicit false

/-!
# Texts that stand for themselves

An escaped text is read character by character, each as itself (`readAll_escape`).  So some escaped
texts with bars between them, in a group that is not recorded, are read as the ordered choice among
the texts, letter by letter (`read_choiceNotation`).
-/

namespace RegionTree.Pattern

variable {p : Progress} {rest : List Char}

/-! ## Escaped characters -/

/-- A character that stands for itself, as a part of a branch. -/
def literalPart (flags : Flags) (c : Char) : Part := ⟨.chars (flags.literal c), 0, true⟩

/-- A text, letter by letter. -/
def literalRegex (flags : Flags) (cs : List Char) : Regex :=
  .seqAll (cs.map fun c => .chars (flags.literal c))

/-- Characters that stand for themselves are added to the current branch. -/
def Progress.spell (p : Progress) (cs : List Char) : Progress :=
  { p with current := { p.current with
      parts := (cs.map (literalPart p.flags)).reverse ++ p.current.parts } }

theorem readEscape_meta {flags : Flags} {c : Char} (hc : isMeta c = true) :
    readEscape flags (c :: rest) = some (.literal c false, rest) := by
  have hmem := List.contains_iff_mem.mp hc
  fin_cases hmem <;> rfl

theorem readStep_escaped {c : Char} (hc : isMeta c = true) :
    readStep p ('\\' :: c :: rest) = some (p.push (literalPart p.flags c), rest) := by
  change readSingle p ('\\' :: c :: rest) = _
  rw [readSingle, readAtom, readEscape_meta hc]
  simp [Atom.regex?, literalPart]

theorem readStep_literal {c : Char} (hc : isMeta c = false) :
    readStep p (c :: rest) = some (p.push (literalPart p.flags c), rest) := by
  have hsigns : ∀ d ∈ '\\' :: signs, isMeta d = true := by simp [signs, isMeta]
  have hne : ∀ d ∈ '\\' :: signs, c ≠ d := by
    rintro d hd rfl
    rw [hsigns c hd] at hc
    cases hc
  have hsign : c ∉ signs := fun h => hne c (List.mem_cons_of_mem _ h) rfl
  rw [readStep_of_not_sign hsign, readSingle, readAtom_of_ne (hne _ List.mem_cons_self)]
  simp [Atom.regex?, literalPart]

theorem Progress.spell_cons (p : Progress) (c : Char) (cs : List Char) :
    p.spell (c :: cs) = (p.push (literalPart p.flags c)).spell cs := by
  simp [spell, push, OpenGroup.push]

/-- An escaped text is read as itself, whatever stands behind. -/
theorem readAll_escape (hverbose : p.flags.verbose = false) (cs rest : List Char) :
    readAll p (escapeChars cs ++ rest) = readAll (p.spell cs) rest := by
  induction cs generalizing p with
  | nil => rfl
  | cons c cs ih =>
    have hskip (ds : List Char) : skip p.flags.verbose ds = ds := by rw [hverbose]; rfl
    have hescape : escapeChars (c :: cs) =
        (if isMeta c then ['\\', c] else [c]) ++ escapeChars cs := List.flatMap_cons
    rw [hescape, List.append_assoc, Progress.spell_cons]
    cases hc : isMeta c with
    | true =>
      simp only [if_true, List.cons_append, List.nil_append]
      rw [readAll_of_step (hskip _), readStep_escaped hc]
      exact ih (p := p.push (literalPart p.flags c)) hverbose
    | false =>
      simp only [Bool.false_eq_true, if_false, List.cons_append, List.nil_append]
      rw [readAll_of_step (hskip _), readStep_literal hc]
      exact ih (p := p.push (literalPart p.flags c)) hverbose

/-! ## Choices -/

/-- The notation of an ordered choice among texts. -/
def choiceNotation (words : List (List Char)) : List Char :=
  ['(', '?', ':'] ++ List.intercalate ['|'] (words.map escapeChars) ++ [')']

/-- Texts are added as branches of the innermost group; the last stays the current one. -/
def Progress.offer (p : Progress) : List (List Char) → Progress
  | [] => p
  | [cs] => p.spell cs
  | cs :: rest => { p.spell cs with current := (p.spell cs).current.nextBranch }.offer rest

theorem readAll_offer (hverbose : p.flags.verbose = false) {words : List (List Char)}
    (hwords : words ≠ []) (rest : List Char) :
    readAll p (List.intercalate ['|'] (words.map escapeChars) ++ rest) =
      readAll (p.offer words) rest := by
  induction words generalizing p with
  | nil => exact absurd rfl hwords
  | cons cs more ih =>
    cases more with
    | nil =>
      rw [List.map_singleton, List.intercalate_singleton]
      exact readAll_escape hverbose cs rest
    | cons cs' more =>
      have hbar (p : Progress) (ds : List Char) (hverbose : p.flags.verbose = false) :
          readAll p ('|' :: ds) = readAll { p with current := p.current.nextBranch } ds := by
        have hskip : skip p.flags.verbose ('|' :: ds) = '|' :: ds := by rw [hverbose]; rfl
        rw [readAll_of_step hskip]
        rfl
      have hsplit : List.intercalate ['|'] ((cs :: cs' :: more).map escapeChars) ++ rest =
          escapeChars cs ++
            ('|' :: (List.intercalate ['|'] ((cs' :: more).map escapeChars) ++ rest)) := by
        simp [List.intercalate]
      rw [hsplit, readAll_escape hverbose, hbar (p.spell cs) _ hverbose]
      exact ih (p := { p.spell cs with current := (p.spell cs).current.nextBranch }) hverbose
        (List.cons_ne_nil _ _)

/-- A text as a finished branch. -/
def branchPart (flags : Flags) (cs : List Char) : Part :=
  OpenGroup.combine Regex.seqAll (cs.map (literalPart flags)).reverse

/-- What texts add to a group whose current branch is empty. -/
theorem offer_eq (hparts : p.current.parts = []) {words : List (List Char)} (hwords : words ≠ []) :
    ∃ branches parts,
      p.offer words = { p with current := { p.current with branches, parts } } ∧
        OpenGroup.combine Regex.seqAll parts :: branches =
          (words.map (branchPart p.flags)).reverse ++ p.current.branches := by
  induction words generalizing p with
  | nil => exact absurd rfl hwords
  | cons cs more ih =>
    have hspell : p.spell cs = { p with current := { p.current with
        parts := (cs.map (literalPart p.flags)).reverse } } := by
      rw [Progress.spell, hparts, List.append_nil]
    cases more with
    | nil => exact ⟨p.current.branches, _, hspell, rfl⟩
    | cons cs' more =>
      obtain ⟨branches, parts, hoffer, hbranches⟩ :=
        ih (p := { p.spell cs with current := (p.spell cs).current.nextBranch }) rfl
          (List.cons_ne_nil _ _)
      refine ⟨branches, parts, hoffer, hbranches.trans ?_⟩
      rw [hspell]
      simp [OpenGroup.nextBranch, OpenGroup.branch, branchPart]

theorem combine_regex {make : List Regex → Regex} (hone : ∀ r, make [r] = r) {reversed : List Part}
    (hnil : reversed = [] → make [] = .empty) :
    (OpenGroup.combine make reversed).regex = make (reversed.reverse.map Part.regex) := by
  match reversed with
  | [] => exact (hnil rfl).symm
  | [part] => exact (hone part.regex).symm
  | _ :: _ :: _ => rfl

theorem combine_depth_le {make : List Regex → Regex} {reversed : List Part} {n : Nat}
    (h : ∀ part ∈ reversed, part.depth ≤ n) :
    (OpenGroup.combine make reversed).depth ≤ n + 1 := by
  have hfold : ∀ (parts : List Part) (d : Nat), d ≤ n → (∀ part ∈ parts, part.depth ≤ n) →
      parts.foldl (fun d part => max d part.depth) d ≤ n := by
    intro parts
    induction parts with
    | nil => exact fun d hd _ => hd
    | cons part parts ih =>
      intro d hd h
      have hpart := h part List.mem_cons_self
      exact ih (max d part.depth) (max_le hd hpart) fun q hq => h q (List.mem_cons_of_mem _ hq)
  match reversed with
  | [] => exact Nat.zero_le _
  | [part] => exact (h part List.mem_cons_self).trans (Nat.le_succ n)
  | a :: b :: more => exact Nat.succ_le_succ (hfold (a :: b :: more) 0 (Nat.zero_le n) h)

theorem branchPart_regex (flags : Flags) (cs : List Char) :
    (branchPart flags cs).regex = literalRegex flags cs := by
  rw [branchPart, combine_regex (fun _ => rfl) fun _ => rfl, List.reverse_reverse, List.map_map]
  rfl

theorem branchPart_depth_le (flags : Flags) (cs : List Char) : (branchPart flags cs).depth ≤ 1 := by
  apply combine_depth_le
  intro part hpart
  obtain ⟨c, -, rfl⟩ := List.mem_map.mp (List.mem_reverse.mp hpart)
  exact le_rfl

/-- The group of a choice, closed: it means the choice, and is nested three levels deep at most. -/
theorem close_of_branches {g : OpenGroup} {flags : Flags} {words : List (List Char)}
    (hindex : g.index = none) (hwords : words ≠ [])
    (hbranches : g.branch :: g.branches = (words.map (branchPart flags)).reverse) :
    g.close.regex = .altAll (words.map (literalRegex flags)) ∧ g.close.depth ≤ 3 := by
  have hclose : g.close = ⟨g.choice.regex, g.choice.depth + 1, true⟩ := by
    rw [OpenGroup.close, hindex]
  rw [hclose, OpenGroup.choice, hbranches]
  constructor
  · dsimp only
    rw [combine_regex (fun _ => rfl), List.reverse_reverse, List.map_map]
    · exact congrArg Regex.altAll (List.map_congr_left fun cs _ => branchPart_regex flags cs)
    · intro hnil
      exact absurd (List.map_eq_nil_iff.mp (List.reverse_eq_nil_iff.mp hnil)) hwords
  · refine Nat.succ_le_succ (combine_depth_le fun part hpart => ?_)
    obtain ⟨cs, -, rfl⟩ := List.mem_map.mp (List.mem_reverse.mp hpart)
    exact branchPart_depth_le flags cs

/-- The notation of a choice among texts is read as this choice, if there is room for it. -/
theorem read_choiceNotation {flags : Flags} (hverbose : flags.verbose = false)
    {words : List (List Char)} (hwords : words ≠ []) :
    read flags (choiceNotation words) =
      if sizeLimit < (Regex.altAll (words.map (literalRegex flags))).size then .error .tooLarge
      else .ok (.altAll (words.map (literalRegex flags))) := by
  obtain ⟨branches, parts, hoffer, hbranches⟩ :=
    offer_eq (p := (Progress.start flags).openGroup none flags) rfl hwords
  let g : OpenGroup := ⟨none, flags, branches, parts⟩
  have hread : readAll (.start flags) (choiceNotation words) =
      some { Progress.start flags with current := (outermost flags).push g.close } := by
    rw [choiceNotation, List.append_assoc]
    refine (readAll_open (p := .start flags) hverbose _).trans ?_
    refine (readAll_offer (p := (Progress.start flags).openGroup none flags) hverbose hwords
      [')']).trans ?_
    have hskip : skip flags.verbose [')'] = [')'] := by rw [hverbose]; rfl
    rw [hoffer, readAll_of_step hskip]
    exact readAll_nil _
  have hchoice : ((outermost flags).push g.close).choice = { g.close with repeatable := true } := rfl
  have hbranches : g.branch :: g.branches = (words.map (branchPart flags)).reverse :=
    hbranches.trans (List.append_nil _)
  obtain ⟨hregex, hdepth⟩ := close_of_branches rfl hwords hbranches
  have hshallow : ¬ depthLimit < g.close.depth := by
    have : (3 : Nat) ≤ depthLimit := by decide
    omega
  rw [read_eq, hread]
  simp only [conclude, hchoice, hregex, hshallow, Progress.start, List.isEmpty_nil, Bool.not_true,
    Bool.false_or, decide_false, decide_eq_true_eq, Bool.false_eq_true, if_false]

end RegionTree.Pattern
