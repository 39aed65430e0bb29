import RegionTree.Grammar.Matcher
import RegionTree.Proofs.Text.Cut
set_option autoImplicit false

/-!
# Where matches and their groups lie

A match of a program stops at a boundary of the text that it ran over, and every position recorded
in it lies before that.  So what a matcher matches stands at the front of the text, and the spans of
its groups lie inside it (`Matcher.exec_fits`).
-/

namespace RegionTree

namespace Pattern

open Text (Boundary byteLength)

/-- Records of positions up to `pos`. -/
def Marks.UpTo (marks : Marks) (pos : Nat) : Prop := ∀ m ∈ marks, m.2 ≤ pos

/-- A frontier all of whose records lie before a position. -/
structure Frontier.UpTo (f : Frontier) (pos : Nat) : Prop where
  waiting : ∀ t ∈ f.waiting, Marks.UpTo t.marks pos
  accepted : ∀ marks, f.accepted = some marks → Marks.UpTo marks pos

/-- Following steps records no position but the current one: the induction is on the fuel, with one
case for each kind of step. -/
theorem explore_upTo (steps : Array Step) (place : Surroundings) (pos : Nat) {fuel entered : Nat}
    {waiting : List Thread} {arrivals : List Arrival}
    (hwaiting : ∀ t ∈ waiting, Marks.UpTo t.marks pos)
    (harrivals : ∀ a ∈ arrivals, Marks.UpTo a.marks pos) :
    (explore steps place pos fuel entered waiting arrivals).UpTo pos := by
  induction fuel generalizing entered waiting arrivals with
  | zero =>
    unfold explore
    exact ⟨by simpa using hwaiting, by simp⟩
  | succ fuel ih =>
    cases arrivals with
    | nil =>
      rw [explore]
      · exact ⟨by simpa using hwaiting, by simp⟩
      · simp
    | cons arrival rest =>
      have hfirst := harrivals arrival (by simp)
      have hrest : ∀ a ∈ rest, Marks.UpTo a.marks pos := fun a ha => harrivals a (by simp [ha])
      unfold explore
      split
      · exact ih hwaiting hrest
      dsimp only
      split
      · exact ih hwaiting hrest
      · refine ih (fun t ht => ?_) hrest
        rcases List.mem_cons.mp ht with rfl | ht
        · exact hfirst
        · exact hwaiting t ht
      · split
        · apply ih hwaiting
          intro a ha
          rcases List.mem_cons.mp ha with rfl | ha
          · exact hfirst
          · exact hrest a ha
        · exact ih hwaiting hrest
      · apply ih hwaiting
        intro a ha
        rcases List.mem_cons.mp ha with rfl | ha
        · intro m hm
          rcases List.mem_cons.mp hm with rfl | hm
          · exact Nat.le_refl _
          · exact hfirst m hm
        · exact hrest a ha
      · apply ih hwaiting
        intro a ha
        rcases List.mem_cons.mp ha with rfl | ha
        · exact hfirst
        · rcases List.mem_cons.mp ha with rfl | ha
          · exact hfirst
          · exact hrest a ha
      · refine ⟨by simpa using hwaiting, ?_⟩
        intro marks hmarks
        obtain rfl := Option.some.inj hmarks
        exact hfirst

theorem frontier_upTo (p : Program) (place : Surroundings) {pos : Nat} {arrivals : List Arrival}
    (h : ∀ a ∈ arrivals, Marks.UpTo a.marks pos) : (frontier p place pos arrivals).UpTo pos :=
  explore_upTo p.steps place pos (by simp) h

theorem advance_upTo (c : Char) {waiting : List Thread} {pos : Nat}
    (h : ∀ t ∈ waiting, Marks.UpTo t.marks pos) :
    ∀ a ∈ advance c waiting, Marks.UpTo a.marks pos := by
  intro a ha
  obtain ⟨t, ht, hta⟩ := List.mem_filterMap.mp ha
  split at hta
  · obtain rfl := Option.some.inj hta
    exact h t ht
  · cases hta

/-- A match that stops at a boundary of a text and records nothing behind that. -/
structure Found.Fits (found : Found) (cs : List Char) : Prop where
  stop : Boundary cs found.stop
  marks : Marks.UpTo found.marks found.stop

/-- What a run does with a character: it keeps the best match so far or takes one that stops here,
and either gives it or goes on. -/
theorem run_cons (p : Program) (prior : Option Char) (pos : Nat) (arrivals : List Arrival)
    (best : Option Found) (c : Char) (rest : List Char) :
    ∃ better : Option Found,
      (better = best ∨ ∃ marks, (frontier p ⟨prior, some c⟩ pos arrivals).accepted = some marks ∧
        better = some ⟨pos, marks⟩) ∧
      (run p prior pos arrivals best (c :: rest) = better ∨
        run p prior pos arrivals best (c :: rest) =
          run p (some c) (pos + c.utf8Size)
            (advance c (frontier p ⟨prior, some c⟩ pos arrivals).waiting) better rest) := by
  rw [run]
  cases haccepted : (frontier p ⟨prior, some c⟩ pos arrivals).accepted with
  | none =>
    refine ⟨best, .inl rfl, ?_⟩
    cases advance c (frontier p ⟨prior, some c⟩ pos arrivals).waiting with
    | nil => exact .inl rfl
    | cons a more => exact .inr rfl
  | some marks =>
    refine ⟨some ⟨pos, marks⟩, .inr ⟨marks, rfl, rfl⟩, ?_⟩
    cases advance c (frontier p ⟨prior, some c⟩ pos arrivals).waiting with
    | nil => exact .inl rfl
    | cons a more => exact .inr rfl

/-- A run over the rest of a text finds what fits into the text: the induction is on the
characters that are left. -/
theorem run_fits (p : Program) {cs before rest : List Char} (prior : Option Char)
    {arrivals : List Arrival} {best : Option Found} (hcs : cs = before ++ rest)
    (harrivals : ∀ a ∈ arrivals, Marks.UpTo a.marks (byteLength before))
    (hbest : ∀ found, best = some found → found.Fits cs) {found : Found}
    (h : run p prior (byteLength before) arrivals best rest = some found) : found.Fits cs := by
  have hstop : Boundary cs (byteLength before) := ⟨before, rest, hcs, rfl⟩
  induction rest generalizing before prior arrivals best with
  | nil =>
    have hfrontier := frontier_upTo p ⟨prior, none⟩ harrivals
    unfold run at h
    split at h
    · rename_i marks hmarks
      obtain rfl := Option.some.inj h
      exact ⟨hstop, hfrontier.accepted marks hmarks⟩
    · exact hbest found h
  | cons c rest ih =>
    have hfrontier := frontier_upTo p ⟨prior, some c⟩ harrivals
    obtain ⟨better, hkept, hrun⟩ := run_cons p prior (byteLength before) arrivals best c rest
    have hbetter : ∀ found, better = some found → found.Fits cs := by
      intro found hfound
      rcases hkept with rfl | ⟨marks, hmarks, rfl⟩
      · exact hbest found hfound
      · obtain rfl := Option.some.inj hfound
        exact ⟨hstop, hfrontier.accepted marks hmarks⟩
    rcases hrun with hgiven | hmore
    · exact hbetter found (hgiven.symm.trans h)
    · have hlength : byteLength before + c.utf8Size = byteLength (before ++ [c]) := by
        simp [Text.byteLength_append]
      rw [hmore, hlength] at h
      have hsplit : cs = (before ++ [c]) ++ rest := by simp [hcs]
      refine ih (some c) hsplit ?_ hbetter h ⟨before ++ [c], rest, hsplit, rfl⟩
      intro a ha m hm
      have := advance_upTo c hfrontier.waiting a ha m hm
      omega

theorem Program.matchFrom_fits {p : Program} {prior : Option Char} {after : List Char}
    {found : Found} (h : p.matchFrom prior 0 after = some found) : found.Fits after := by
  have hsplit : after = [] ++ after := rfl
  exact run_fits p prior hsplit (by simp [Marks.UpTo]) (by simp) h

/-- The span of a group does not go past the end of its match. -/
theorem Found.stop_group?_le {found : Found} {cs : List Char} (h : found.Fits cs)
    {start index : Nat} {span : Span} (hspan : found.group? start index = some span) :
    span.stop ≤ found.stop := by
  have hof : ∀ {a b : Nat}, span? a b = some span → span.stop = b := by
    intro a b hab
    unfold span? at hab
    split at hab
    · obtain rfl := Option.some.inj hab
      rfl
    · cases hab
  cases index with
  | zero => exact Nat.le_of_eq (hof hspan)
  | succ index =>
    rw [group?] at hspan
    · split at hspan
      · rename_i a b _ hb
        rw [hof hspan]
        obtain ⟨l₁, l₂, hmarks, -⟩ := List.lookup_eq_some_iff.mp hb
        exact h.marks (2 * (index + 1) + 1, b) (by rw [hmarks]; simp)
      · cases hspan
    · simp

end Pattern

open Text (byteLength)

/-- A match of the text after a place: its characters stand there, and its spans lie inside it. -/
structure Match.Fits (m : Match) (after : List Char) : Prop where
  chars : ∃ rest, after = m.chars ++ rest
  spans : ∀ spans, m.spans = some spans → ∀ span, some span ∈ spans → span.stop ≤ m.length

theorem Matcher.runProgram_fits {p : Pattern.Program} {withGroups : Bool} {place : Text.Place}
    {m : Match} (h : runProgram p withGroups place = some m) : m.Fits place.after := by
  unfold runProgram at h
  obtain ⟨found, hfound, rfl⟩ := Option.map_eq_some_iff.mp h
  have hfits := Pattern.Program.matchFrom_fits hfound
  refine ⟨⟨_, (Text.takeBytes_append_dropBytes _ _).symm⟩, ?_⟩
  intro spans hspans span hmem
  dsimp only at hspans
  split at hspans
  · obtain rfl := Option.some.inj hspans
    obtain ⟨index, -, hindex⟩ := List.mem_map.mp hmem
    rw [Match.length, hfits.stop.byteLength_takeBytes]
    exact Pattern.Found.stop_group?_le hfits hindex
  · cases hspans

/-- What a matcher matches stands after the place, with the spans of the groups inside. -/
theorem Matcher.exec_fits {matcher : Matcher} {place : Text.Place} {context : Bindings} {m : Match}
    (h : matcher.exec place context = some m) : m.Fits place.after := by
  cases matcher with
  | literal text =>
    rw [exec] at h
    split at h
    · rename_i hprefix
      obtain rfl := Option.some.inj h
      obtain ⟨rest, hrest⟩ := List.isPrefixOf_iff_prefix.mp hprefix
      exact ⟨⟨rest, hrest.symm⟩, by simp⟩
    · cases h
  | lookup words program => exact runProgram_fits h
  | regex source program => exact runProgram_fits h
  | dynamic pattern =>
    obtain ⟨program, -, hprogram⟩ := Option.bind_eq_some_iff.mp h
    exact runProgram_fits hprogram

end RegionTree
