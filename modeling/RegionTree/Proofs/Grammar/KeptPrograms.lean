import RegionTree.Grammar.Matcher
set_option autoImplicit false

/-!
# Programs that are kept

A dynamic pattern keeps the programs compiled last.  What is kept is `Sound`: one program for a
notation, the one that it means, and not more than there is room for.  Resolving a context keeps this,
so whatever was resolved before, the program is the one that would be compiled afresh
(`DynamicPattern.resolveAll_eq`), and a match does not show what is kept.
-/

namespace RegionTree.DynamicPattern

variable {d : DynamicPattern}

/-- The program compiled for the values in a context, none if they make the pattern malformed. -/
def compileFor (d : DynamicPattern) (context : Bindings) : Option Pattern.Program :=
  (Pattern.compile d.ignoreCase (d.spelling context)).toOption

/-- What may be kept. -/
structure Sound (d : DynamicPattern) : Prop where
  length_le : d.compiled.length ≤ capacity
  nodup : (d.compiled.map Prod.fst).Nodup
  programs : ∀ entry ∈ d.compiled, Pattern.compile d.ignoreCase entry.1 = .ok entry.2

theorem sound_of_nil (h : d.compiled = []) : d.Sound := by
  refine ⟨?_, ?_, ?_⟩ <;> simp [h]

theorem Sound.of_sublist (h : d.Sound) {compiled : List (String × Pattern.Program)}
    (hsub : compiled.Sublist d.compiled) : Sound { d with compiled } where
  length_le := Nat.le_trans hsub.length_le h.length_le
  nodup := (hsub.map Prod.fst).nodup h.nodup
  programs entry hentry := h.programs entry (hsub.subset hentry)

theorem Sound.add (h : d.Sound) {source : String} {program : Pattern.Program}
    (hroom : d.compiled.length < capacity) (hnew : source ∉ d.compiled.map Prod.fst)
    (hprogram : Pattern.compile d.ignoreCase source = .ok program) :
    Sound { d with compiled := d.compiled ++ [(source, program)] } where
  length_le := by
    rw [List.length_append]
    exact hroom
  nodup := by
    rw [List.map_append, List.nodup_append]
    refine ⟨h.nodup, by simp, fun kept hkept name hname => ?_⟩
    obtain rfl := List.mem_singleton.mp hname
    exact ne_of_mem_of_not_mem hkept hnew
  programs entry hentry := by
    rcases List.mem_append.mp hentry with hentry | hentry
    · exact h.programs entry hentry
    · obtain rfl := List.mem_singleton.mp hentry
      exact hprogram

/-- A new program takes the place of the oldest if there is no room left. -/
theorem Sound.keep (h : d.Sound) {source : String} {program : Pattern.Program}
    (hnew : source ∉ d.compiled.map Prod.fst)
    (hprogram : Pattern.compile d.ignoreCase source = .ok program) :
    (d.keep source program).Sound := by
  have hlength := h.length_le
  unfold DynamicPattern.keep
  dsimp only
  split
  · rename_i hfull
    have htail := List.tail_sublist d.compiled
    refine (h.of_sublist htail).add ?_ (fun hmem => hnew ((htail.map _).subset hmem)) hprogram
    rw [List.length_tail, hfull]
    decide
  · exact h.add (by omega) hnew hprogram

/-! ## One context -/

/-- What resolving a context can do. -/
inductive Resolved (d : DynamicPattern) (context : Bindings) :
    Option Pattern.Program × DynamicPattern → Prop where
  /-- A program is kept for its notation. -/
  | found {program : Pattern.Program} :
      (d.spelling context, program) ∈ d.compiled → Resolved d context (some program, d)
  /-- One is compiled and kept. -/
  | made {program : Pattern.Program} :
      d.spelling context ∉ d.compiled.map Prod.fst →
      Pattern.compile d.ignoreCase (d.spelling context) = .ok program →
      Resolved d context (some program, d.keep (d.spelling context) program)
  /-- The notation is malformed. -/
  | refused {fault : Pattern.Fault} :
      Pattern.compile d.ignoreCase (d.spelling context) = .error fault →
      Resolved d context (none, d)

theorem resolved (d : DynamicPattern) (context : Bindings) :
    d.Resolved context (d.resolve context) := by
  unfold resolve
  cases hlookup : d.compiled.lookup (d.spelling context) with
  | some program =>
    obtain ⟨before, after, hcompiled, -⟩ := List.lookup_eq_some_iff.mp hlookup
    refine .found ?_
    rw [hcompiled]
    exact List.mem_append_right _ List.mem_cons_self
  | none =>
    have hnew : d.spelling context ∉ d.compiled.map Prod.fst := by
      intro hmem
      obtain ⟨entry, hentry, hsource⟩ := List.mem_map.mp hmem
      have := List.lookup_eq_none_iff.mp hlookup entry hentry
      simp [hsource] at this
    cases hcompile : Pattern.compile d.ignoreCase (d.spelling context) with
    | ok program => exact .made hnew hcompile
    | error fault => exact .refused hcompile

namespace Resolved

variable {context : Bindings} {result : Option Pattern.Program × DynamicPattern}

/-- Only what is kept changes. -/
theorem snd_eq (hr : d.Resolved context result) :
    ∃ compiled, result.2 = { d with compiled } := by
  cases hr with
  | found => exact ⟨_, rfl⟩
  | made => exact ⟨_, rfl⟩
  | refused => exact ⟨_, rfl⟩

theorem fst_eq (hr : d.Resolved context result) (h : d.Sound) :
    result.1 = d.compileFor context := by
  unfold compileFor
  cases hr with
  | found hmem =>
    rw [h.programs _ hmem]
    rfl
  | made _ hcompile =>
    rw [hcompile]
    rfl
  | refused hcompile =>
    rw [hcompile]
    rfl

theorem sound (hr : d.Resolved context result) (h : d.Sound) : result.2.Sound := by
  cases hr with
  | found => exact h
  | made hnew hcompile => exact h.keep hnew hcompile
  | refused => exact h

/-- The program that is given is kept. -/
theorem mem_compiled (hr : d.Resolved context result) {program : Pattern.Program}
    (hgiven : result.1 = some program) : (d.spelling context, program) ∈ result.2.compiled := by
  cases hr with
  | found hmem =>
    obtain rfl := Option.some.inj hgiven
    exact hmem
  | made =>
    obtain rfl := Option.some.inj hgiven
    exact List.mem_append_right _ List.mem_cons_self
  | refused => cases hgiven

end Resolved

/-- A match does not show what is kept. -/
theorem Sound.exec (h : d.Sound) (place : Text.Place) (context : Bindings) :
    (Matcher.dynamic d).exec place context =
      (d.compileFor context).bind fun program => Matcher.runProgram program true place := by
  rw [Matcher.exec, (d.resolved context).fst_eq h]

theorem Sound.find (h : d.Sound) (text : List Char) (context : Bindings) :
    (Matcher.dynamic d).find text context =
      (d.compileFor context).any fun program => program.occursIn text := by
  rw [Matcher.find, (d.resolved context).fst_eq h]

/-! ## One context after the other -/

/-- The programs for some contexts in order, and the pattern with what is kept in the end. -/
def resolveAll (d : DynamicPattern) : List Bindings → List (Option Pattern.Program) × DynamicPattern
  | [] => ([], d)
  | context :: rest =>
    let later := (d.resolve context).2.resolveAll rest
    ((d.resolve context).1 :: later.1, later.2)

theorem Sound.resolveAll (h : d.Sound) (contexts : List Bindings) :
    (d.resolveAll contexts).1 = contexts.map d.compileFor ∧
      (d.resolveAll contexts).2.Sound ∧
      ∃ compiled, (d.resolveAll contexts).2 = { d with compiled } := by
  induction contexts generalizing d with
  | nil => exact ⟨rfl, h, _, rfl⟩
  | cons context rest ih =>
    obtain ⟨hprograms, hsound, compiled, hlast⟩ := ih ((d.resolved context).sound h)
    obtain ⟨_, hnext⟩ := (d.resolved context).snd_eq
    unfold DynamicPattern.resolveAll
    dsimp only
    refine ⟨?_, hsound, compiled, ?_⟩
    · rw [List.map_cons, (d.resolved context).fst_eq h, hprograms, hnext]
      rfl
    · rw [hlast, hnext]

/-- Of a pattern that starts with nothing kept, each context gets the program that is compiled afresh
for it.  What is kept stays sound, with the program given last among it, and a matcher with it matches
what one without it does. -/
theorem resolveAll_eq (d : DynamicPattern) (h : d.compiled = []) (contexts : List Bindings) :
    (d.resolveAll contexts).1 = contexts.map d.compileFor ∧
      (d.resolveAll contexts).2.Sound ∧
      (∀ context program, ((d.resolveAll contexts).2.resolve context).1 = some program →
        (d.spelling context, program) ∈ ((d.resolveAll contexts).2.resolve context).2.compiled) ∧
      (∀ place context, (Matcher.dynamic (d.resolveAll contexts).2).exec place context =
        (Matcher.dynamic d).exec place context) ∧
      ∀ text context, (Matcher.dynamic (d.resolveAll contexts).2).find text context =
        (Matcher.dynamic d).find text context := by
  have hempty := sound_of_nil h
  obtain ⟨hprograms, hsound, compiled, hlast⟩ := hempty.resolveAll contexts
  have hfresh : (d.resolveAll contexts).2.compileFor = d.compileFor := by
    rw [hlast]
    rfl
  have hspelling : (d.resolveAll contexts).2.spelling = d.spelling := by
    rw [hlast]
    rfl
  refine ⟨hprograms, hsound, fun context program hgiven => ?_, fun place context => ?_,
    fun text context => ?_⟩
  · rw [← hspelling]
    exact (resolved _ context).mem_compiled hgiven
  · rw [hsound.exec, hempty.exec, hfresh]
  · rw [hsound.find, hempty.find, hfresh]

/-- An `x`, repeated up to as many times as a variable says. -/
def repeated : DynamicPattern :=
  ⟨[.text ['x', '{', '1', ','], .context 0 "most", .text ['}']], false, 1, []⟩

/-- More bounds than there is room for.  The fifth makes the pattern malformed, the third is asked for
again while its program is kept, and the first when it is no longer. -/
def bounds : List Bindings :=
  ["1", "2", "3", "4", "0", "5", "6", "7", "8", "3", "9", "1"].map fun value => ⟨[(0, value)]⟩

theorem resolveAll_repeated :
    repeated.compiled = [] ∧ (repeated.resolveAll bounds).1 = bounds.map repeated.compileFor ∧
      (repeated.resolveAll bounds).2.Sound := by
  obtain ⟨hprograms, hsound, -⟩ := resolveAll_eq repeated rfl bounds
  exact ⟨rfl, hprograms, hsound⟩

end RegionTree.DynamicPattern
