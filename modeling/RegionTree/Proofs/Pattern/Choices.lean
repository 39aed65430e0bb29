import Mathlib.Data.Finset.Card
import Mathlib.Order.Interval.Finset.Nat
import RegionTree.Pattern.Search
set_option autoImplicit false

/-!
# Programs that only read and choose

A program runs all its threads side by side and enters no step twice at one position.  What it finds
is nevertheless what trying the branches one after the other would find, as long as no step tests the
place or leads back to itself: then a step has an outcome of its own at every text, and `Settles` says
how the outcomes hang together.  A step that is met again has either failed already, or a thread
waits that is preferred and has the same future (`Covered`).

Main statement: `Regex.matchFrom_stop`.  The match of a plain expression stops where the first of its
branches that matches stops.
-/

namespace RegionTree.Pattern

/-! ## Outcomes of expressions -/

/-- Where a match stops that begins with a character of a set and goes on as `next` says. -/
def afterChar (set : IntervalSet) (next : List Char → Option Nat) : List Char → Option Nat
  | [] => none
  | c :: rest => if set.contains c.toNat then (next rest).map (c.utf8Size + ·) else none

namespace Regex

/-- An expression without tests, repetitions and groups. -/
def Plain : Regex → Prop
  | .empty => True
  | .chars _ => True
  | .seq a b => a.Plain ∧ b.Plain
  | .alt a b => a.Plain ∧ b.Plain
  | _ => False

/-- Where the preferred match of a plain expression stops if it goes on as `next` says: of two
branches the second is tried if no match comes of the first. -/
def leading : Regex → (List Char → Option Nat) → List Char → Option Nat
  | .empty, next => next
  | .chars set, next => afterChar set next
  | .seq a b, next => a.leading (b.leading next)
  | .alt a b, next => fun text => (a.leading next text).or (b.leading next text)
  | _, _ => fun _ => none

end Regex

/-! ## Outcomes of steps -/

/-- The outcome of a step follows from those of the steps it leads to, which have smaller numbers. -/
inductive Step.Gives (outcome : Nat → List Char → Option Nat) (i : Nat) : Step → Prop where
  | chars (set : IntervalSet) (next : Nat) :
      next < i → outcome i = afterChar set (outcome next) → Gives outcome i (.chars set next)
  | branch (first second : Nat) :
      first < i → second < i →
      outcome i = (fun text => (outcome first text).or (outcome second text)) →
      Gives outcome i (.branch first second)
  | accept : outcome i = (fun _ => some 0) → Gives outcome i .accept

/-- The outcomes of all steps. -/
structure Settles (steps : Array Step) (outcome : Nat → List Char → Option Nat) : Prop where
  gives : ∀ (i : Nat) (step : Step), steps[i]? = some step → step.Gives outcome i
  outside : ∀ i : Nat, steps[i]? = none → outcome i = fun _ => none

theorem Step.Gives.congr {outcome outcome' : Nat → List Char → Option Nat} {i : Nat} {step : Step}
    (h : step.Gives outcome i) (hsame : ∀ j, j ≤ i → outcome' j = outcome j) :
    step.Gives outcome' i := by
  cases h with
  | chars set next hnext hi =>
    exact .chars set next hnext (by rw [hsame i le_rfl, hsame next hnext.le, hi])
  | branch first second hfirst hsecond hi =>
    refine .branch first second hfirst hsecond ?_
    rw [hsame i le_rfl, hsame first hfirst.le, hsame second hsecond.le, hi]
  | accept hi => exact .accept (by rw [hsame i le_rfl, hi])

/-! ## Exploring -/

section Explore

variable {steps : Array Step} {outcome : Nat → List Char → Option Nat} {text : List Char}

/-- The outcome of arrivals: that of the first that has one. -/
def ofArrivals (outcome : Nat → List Char → Option Nat) (text : List Char)
    (arrivals : List Arrival) : Option Nat :=
  arrivals.findSome? fun a => outcome a.step text

/-- The outcome of threads: that of the first that has one. -/
def ofThreads (outcome : Nat → List Char → Option Nat) (text : List Char)
    (threads : List Thread) : Option Nat :=
  threads.findSome? fun t => afterChar t.set (outcome t.next) text

/-- The outcome of a frontier: those that wait are preferred to the one that accepted. -/
def ofFrontier (outcome : Nat → List Char → Option Nat) (text : List Char) (f : Frontier) :
    Option Nat :=
  (ofThreads outcome text f.waiting).or (f.accepted.map fun _ => 0)

/-- Among the arrivals up to the first that does not come before step `i`, one has an outcome. -/
def Ahead (outcome : Nat → List Char → Option Nat) (text : List Char) (i : Nat) :
    List Arrival → Prop
  | [] => False
  | a :: rest => a.step < i ∧ (outcome a.step text ≠ none ∨ Ahead outcome text i rest)

/-- An entered step that has an outcome is covered: a thread with an outcome waits, or one is still to
come of the steps that it leads to. -/
def Covered (outcome : Nat → List Char → Option Nat) (text : List Char) (entered : Nat)
    (waiting : List Thread) (arrivals : List Arrival) : Prop :=
  ∀ i, entered.testBit i = true → outcome i text ≠ none →
    ofThreads outcome text waiting.reverse ≠ none ∨ Ahead outcome text i arrivals

/-- The number of steps that have not been entered. -/
def unentered (steps : Array Step) (entered : Nat) : Nat :=
  ((Finset.range steps.size).filter fun i => entered.testBit i = false).card

theorem testBit_enter (entered i k : Nat) :
    (entered ||| 1 <<< i).testBit k = true ↔ k = i ∨ entered.testBit k = true := by
  rw [Nat.testBit_or, Nat.one_shiftLeft, Nat.testBit_two_pow, Bool.or_eq_true, decide_eq_true_eq,
    or_comm, eq_comm]

theorem unentered_enter_le (steps : Array Step) (entered i : Nat) :
    unentered steps (entered ||| 1 <<< i) ≤ unentered steps entered := by
  refine Finset.card_le_card fun k hk => ?_
  simp only [Finset.mem_filter, ← Bool.not_eq_true, testBit_enter] at hk ⊢
  exact ⟨hk.1, fun h => hk.2 (.inr h)⟩

/-- Entering a step for the first time leaves one less. -/
theorem unentered_enter_lt {entered i : Nat} (hi : i < steps.size)
    (hnew : ¬ entered.testBit i = true) :
    unentered steps (entered ||| 1 <<< i) < unentered steps entered := by
  refine Finset.card_lt_card ((Finset.ssubset_iff_of_subset fun k hk => ?_).mpr ⟨i, ?_, ?_⟩)
  · simp only [Finset.mem_filter, ← Bool.not_eq_true, testBit_enter] at hk ⊢
    exact ⟨hk.1, fun h => hk.2 (.inr h)⟩
  · simpa [← Bool.not_eq_true] using ⟨hi, hnew⟩
  · simp

theorem ofThreads_reverse_cons (t : Thread) (waiting : List Thread) :
    ofThreads outcome text (t :: waiting).reverse =
      (ofThreads outcome text waiting.reverse).or (afterChar t.set (outcome t.next) text) := by
  rw [ofThreads, List.reverse_cons, List.findSome?_append]
  simp [ofThreads]

theorem ofArrivals_cons (a : Arrival) (rest : List Arrival) :
    ofArrivals outcome text (a :: rest) =
      (outcome a.step text).or (ofArrivals outcome text rest) := by
  rw [ofArrivals, List.findSome?_cons]
  cases outcome a.step text <;> rfl

variable {entered : Nat} {waiting : List Thread} {a : Arrival} {rest : List Arrival}

namespace Covered

/-- An arrival without an outcome is not needed. -/
theorem drop (h : Covered outcome text entered waiting (a :: rest))
    (hnone : outcome a.step text = none) : Covered outcome text entered waiting rest := by
  intro i hi houtcome
  refine (h i hi houtcome).imp_right fun ⟨_, hahead⟩ => ?_
  exact hahead.resolve_left fun h => h hnone

/-- An arrival at a step that has been entered is not needed. -/
theorem again (h : Covered outcome text entered waiting (a :: rest))
    (hentered : entered.testBit a.step = true) :
    Covered outcome text entered waiting rest ∧
      (ofThreads outcome text waiting.reverse).or (ofArrivals outcome text (a :: rest)) =
        (ofThreads outcome text waiting.reverse).or (ofArrivals outcome text rest) := by
  by_cases hnone : outcome a.step text = none
  · exact ⟨h.drop hnone, by rw [ofArrivals_cons, hnone, Option.none_or]⟩
  · -- what the step leads to has been explored, so a thread with its outcome waits
    have hthreads : ofThreads outcome text waiting.reverse ≠ none :=
      (h a.step hentered hnone).resolve_right fun h => Nat.lt_irrefl _ h.1
    refine ⟨fun _ _ _ => .inl hthreads, ?_⟩
    obtain ⟨n, hn⟩ := Option.ne_none_iff_exists'.mp hthreads
    rw [hn, Option.some_or, Option.some_or]

/-- Entering a step: what it leads to takes its place. -/
theorem enter (h : Covered outcome text entered waiting (a :: rest)) {waiting' : List Thread}
    {arrivals : List Arrival}
    (hthreads : ofThreads outcome text waiting.reverse ≠ none →
      ofThreads outcome text waiting'.reverse ≠ none)
    (hstep : ∀ i, a.step ≤ i → outcome a.step text ≠ none →
      ofThreads outcome text waiting'.reverse ≠ none ∨ Ahead outcome text i arrivals)
    (hrest : ∀ i, a.step < i → Ahead outcome text i rest → Ahead outcome text i arrivals) :
    Covered outcome text (entered ||| 1 <<< a.step) waiting' arrivals := by
  intro i hi houtcome
  rcases (testBit_enter entered a.step i).mp hi with rfl | hi
  · exact hstep a.step le_rfl houtcome
  · rcases h i hi houtcome with hwaits | ⟨hlt, hlive | hahead⟩
    · exact .inl (hthreads hwaits)
    · exact hstep i hlt.le hlive
    · exact .inr (hrest i hlt hahead)

end Covered

/-- Exploring keeps the outcome: the induction is on the fuel, with one case for each kind of
step. -/
theorem explore_outcome (h : Settles steps outcome) (place : Surroundings) (pos : Nat) {fuel : Nat}
    {arrivals : List Arrival} (hfuel : arrivals.length + 2 * unentered steps entered < fuel)
    (hcovered : Covered outcome text entered waiting arrivals) :
    ofFrontier outcome text (explore steps place pos fuel entered waiting arrivals) =
      (ofThreads outcome text waiting.reverse).or (ofArrivals outcome text arrivals) := by
  induction fuel generalizing entered waiting arrivals with
  | zero => exact absurd hfuel (Nat.not_lt_zero _)
  | succ fuel ih =>
    cases arrivals with
    | nil =>
      rw [explore]
      · rfl
      · simp
    | cons a rest =>
      rw [List.length_cons] at hfuel
      rw [explore]
      split
      · next hentered =>
        obtain ⟨hcovered, hsame⟩ := hcovered.again hentered
        rw [ih (by omega) hcovered, hsame]
      next hnew =>
      have hfewer := unentered_enter_le steps entered a.step
      cases hstep : steps[a.step]? with
      | none =>
        have hnone : outcome a.step text = none := congrFun (h.outside _ hstep) text
        dsimp only
        rw [ih (by omega), ofArrivals_cons, hnone, Option.none_or]
        exact hcovered.enter id (fun _ _ hlive => absurd hnone hlive) fun _ _ h => h
      | some step =>
        dsimp only
        cases h.gives _ _ hstep with
        | chars set next hnext hout =>
          have houtcome : outcome a.step text = afterChar set (outcome next) text :=
            congrFun hout text
          dsimp only
          rw [ih (by omega), ofThreads_reverse_cons, ofArrivals_cons, houtcome, Option.or_assoc]
          refine hcovered.enter (fun hwaits => ?_) (fun _ _ hlive => .inl ?_) fun _ _ h => h
          · rw [ofThreads_reverse_cons]
            simp [hwaits]
          · rw [ofThreads_reverse_cons, ← houtcome]
            simp [hlive]
        | branch first second hfirst hsecond hout =>
          have houtcome : outcome a.step text =
              (outcome first text).or (outcome second text) := congrFun hout text
          have hlt := unentered_enter_lt (Array.getElem?_eq_some_iff.mp hstep).1 hnew
          dsimp only
          rw [ih (by simp only [List.length_cons]; omega), ofArrivals_cons, ofArrivals_cons,
            ofArrivals_cons, houtcome, Option.or_assoc]
          refine hcovered.enter id (fun i hi hlive => .inr ?_) fun i hi h => ?_
          · refine ⟨by dsimp only; omega, ?_⟩
            rw [houtcome] at hlive
            by_cases hnone : outcome first text = none
            · rw [hnone, Option.none_or] at hlive
              exact .inr ⟨by dsimp only; omega, .inl hlive⟩
            · exact .inl hnone
          · exact ⟨by dsimp only; omega, .inr ⟨by dsimp only; omega, .inr h⟩⟩
        | accept hout =>
          have houtcome : outcome a.step text = some 0 := congrFun hout text
          rw [ofArrivals_cons, houtcome, Option.some_or]
          rfl

end Explore

/-! ## Running -/

section Run

variable {p : Program} {outcome : Nat → List Char → Option Nat}

theorem frontier_outcome (h : Settles p.steps outcome) (place : Surroundings) (pos : Nat)
    (arrivals : List Arrival) (text : List Char) :
    ofFrontier outcome text (frontier p place pos arrivals) =
      ofArrivals outcome text arrivals := by
  have hcard : unentered p.steps 0 ≤ p.steps.size :=
    (Finset.card_filter_le ..).trans_eq (Finset.card_range _)
  rw [frontier, explore_outcome h place pos (by omega)]
  · rfl
  · intro i hi
    simp at hi

theorem advance_cons (c : Char) (t : Thread) (threads : List Thread) :
    advance c (t :: threads) =
      if t.set.contains c.toNat then ⟨t.next, t.marks⟩ :: advance c threads
      else advance c threads := by
  rw [advance, List.filterMap_cons]
  split <;> simp_all [advance]

/-- Threads go on with the outcome that they had in front of a character. -/
theorem ofThreads_cons (c : Char) (rest : List Char) (threads : List Thread) :
    ofThreads outcome (c :: rest) threads =
      (ofArrivals outcome rest (advance c threads)).map (c.utf8Size + ·) := by
  induction threads with
  | nil => rfl
  | cons t threads ih =>
    rw [ofThreads] at ih
    rw [ofThreads, List.findSome?_cons, ih, advance_cons, afterChar]
    by_cases hc : t.set.contains c.toNat = true
    · rw [if_pos hc, if_pos hc, ofArrivals_cons]
      cases outcome t.next rest <;> rfl
    · rw [if_neg hc, if_neg hc]

theorem ofThreads_nil (threads : List Thread) : ofThreads outcome [] threads = none := by
  simp [ofThreads, afterChar]

/-- A run finds the outcome of its arrivals, or else the best match so far: the induction is on the
characters that are left. -/
theorem run_stop (h : Settles p.steps outcome) (before : Option Char) (pos : Nat)
    (arrivals : List Arrival) (best : Option Found) (text : List Char) :
    (run p before pos arrivals best text).map Found.stop =
      ((ofArrivals outcome text arrivals).map (pos + ·)).or (best.map Found.stop) := by
  induction text generalizing before pos arrivals best with
  | nil =>
    have hfrontier := frontier_outcome h ⟨before, none⟩ pos arrivals []
    rw [ofFrontier, ofThreads_nil, Option.none_or] at hfrontier
    rw [run, ← hfrontier]
    cases (frontier p ⟨before, none⟩ pos arrivals).accepted <;> rfl
  | cons c rest ih =>
    have hfrontier := frontier_outcome h ⟨before, some c⟩ pos arrivals (c :: rest)
    rw [ofFrontier, ofThreads_cons] at hfrontier
    rw [run, ← hfrontier]
    generalize frontier p ⟨before, some c⟩ pos arrivals = f
    cases hadvance : advance c f.waiting with
    | nil => cases f.accepted <;> rfl
    | cons a more =>
      rw [ih]
      cases ofArrivals outcome rest (a :: more) with
      | none => cases f.accepted <;> rfl
      | some n => simp [Nat.add_assoc]

theorem matchFrom_stop (h : Settles p.steps outcome) (before : Option Char) (text : List Char) :
    (p.matchFrom before 0 text).map Found.stop = outcome p.start text := by
  rw [Program.matchFrom, run_stop h, ofArrivals_cons]
  simp [ofArrivals]

end Run

/-! ## Laying out -/

/-- A layout that adds steps in front of another one, with their outcomes. -/
structure Layout.Extends (l : Layout) (outcome : Nat → List Char → Option Nat) (l' : Layout)
    (outcome' : Nat → List Char → Option Nat) : Prop where
  settles : Settles l'.steps outcome'
  start_lt : l'.start < l'.steps.size
  size_le : l.steps.size ≤ l'.steps.size
  same : ∀ i, i < l.steps.size → outcome' i = outcome i

/-- Adding a step settles its outcome, given those of the steps that it leads to. -/
theorem Settles.add {l : Layout} {outcome : Nat → List Char → Option Nat}
    (h : Settles l.steps outcome) {step : Step} (new : List Char → Option Nat)
    (hstep : step.Gives (Function.update outcome l.steps.size new) l.steps.size) :
    l.Extends outcome (l.add step) (Function.update outcome l.steps.size new) := by
  have hsame : ∀ i, i < l.steps.size →
      Function.update outcome l.steps.size new i = outcome i := fun i hi =>
    Function.update_of_ne (Nat.ne_of_lt hi) _ _
  refine ⟨⟨fun i step' hi => ?_, fun i hi => ?_⟩, ?_, ?_, hsame⟩
  · rw [Layout.add, Array.getElem?_push] at hi
    split at hi
    · next heq =>
      obtain rfl := Option.some.inj hi
      rwa [heq]
    · have hlt := (Array.getElem?_eq_some_iff.mp hi).1
      exact (h.gives i step' hi).congr fun j hj => hsame j (by omega)
  · rw [Layout.add, Array.getElem?_push] at hi
    split at hi
    · cases hi
    · next hne => rw [Function.update_of_ne hne, h.outside i hi]
  · simp [Layout.add]
  · simp [Layout.add]

/-- Laying out a plain expression settles where its preferred match stops: the induction is on the
expression. -/
theorem Regex.lay_extends {r : Regex} (hr : r.Plain) {l : Layout}
    {outcome : Nat → List Char → Option Nat} (h : Settles l.steps outcome)
    (hstart : l.start < l.steps.size) :
    ∃ outcome', l.Extends outcome (r.lay l) outcome' ∧
      outcome' (r.lay l).start = r.leading (outcome l.start) := by
  induction r generalizing l outcome with
  | empty => exact ⟨outcome, ⟨h, hstart, le_rfl, fun _ _ => rfl⟩, rfl⟩
  | chars set =>
    have hsame := Function.update_of_ne (Nat.ne_of_lt hstart)
      (afterChar set (outcome l.start)) outcome
    refine ⟨_, h.add (afterChar set (outcome l.start)) (.chars set l.start hstart ?_), ?_⟩
    · rw [Function.update_self, hsame]
    · exact Function.update_self ..
  | seq a b iha ihb =>
    obtain ⟨outcome₁, hb, hvalue₁⟩ := ihb hr.2 h hstart
    obtain ⟨outcome₂, ha, hvalue₂⟩ := iha hr.1 hb.settles hb.start_lt
    refine ⟨outcome₂, ⟨ha.settles, ha.start_lt, hb.size_le.trans ha.size_le, fun i hi => ?_⟩, ?_⟩
    · rw [ha.same i (hi.trans_le hb.size_le), hb.same i hi]
    · rw [lay, hvalue₂, hvalue₁, leading]
  | alt a b iha ihb =>
    obtain ⟨outcome₁, hb, hvalue₁⟩ := ihb hr.2 h hstart
    -- the first branch goes on where the second does, behind its steps
    obtain ⟨outcome₂, ha, hvalue₂⟩ := iha hr.1 (l := ⟨(b.lay l).steps, l.start⟩) hb.settles
      (hstart.trans_le hb.size_le)
    have hsecond : (b.lay l).start < (a.lay ⟨(b.lay l).steps, l.start⟩).steps.size :=
      hb.start_lt.trans_le ha.size_le
    have hadd := ha.settles.add ((Regex.alt a b).leading (outcome l.start))
      (.branch _ _ ha.start_lt hsecond ?_)
    · refine ⟨_, ⟨hadd.settles, hadd.start_lt, ?_, fun i hi => ?_⟩, Function.update_self ..⟩
      · exact (hb.size_le.trans ha.size_le).trans hadd.size_le
      · rw [hadd.same i (hi.trans_le (hb.size_le.trans ha.size_le)),
          ha.same i (hi.trans_le hb.size_le), hb.same i hi]
    · rw [Function.update_self, Function.update_of_ne (Nat.ne_of_lt ha.start_lt),
        Function.update_of_ne (Nat.ne_of_lt hsecond), hvalue₂, ha.same _ hb.start_lt, hvalue₁,
        hb.same _ hstart, leading]
  | _ => exact hr.elim

/-- The match of a plain expression stops where its preferred branch stops. -/
theorem Regex.matchFrom_stop {r : Regex} (hr : r.Plain) (before : Option Char) (text : List Char) :
    ((Program.ofRegex r).matchFrom before 0 text).map Found.stop =
      r.leading (fun _ => some 0) text := by
  have haccept : Settles Layout.accept.steps fun i => if i = 0 then fun _ => some 0 else fun _ => none := by
    refine ⟨fun i step hi => ?_, fun i hi => ?_⟩
    · obtain ⟨hlt, rfl⟩ := Array.getElem?_eq_some_iff.mp hi
      obtain rfl : i = 0 := Nat.lt_one_iff.mp hlt
      exact .accept rfl
    · rw [if_neg]
      rintro rfl
      cases hi
  obtain ⟨outcome, h, hvalue⟩ := lay_extends hr haccept (Nat.zero_lt_one)
  have hstop := Pattern.matchFrom_stop (p := Program.ofRegex r) h.settles before text
  rw [hstop]
  exact congrFun hvalue text

end RegionTree.Pattern
