import Mathlib.Data.Nat.Dist
import Mathlib.Order.Bounds.Basic
import RegionTree.Proofs.Chunk.Layout
set_option autoImplicit false

/-!
# Searching chunks by their starts

When the chunks of a sequence stand in the order of their starts, those that start at or before a
position come first.  The binary search of `ChunkSequence.countUpTo` finds how many they are
(`lt_countUpTo_iff`), and everything that `ChunkSequence.search` answers is next to the place where
they end: the last chunk that starts at the position, the last before it, the first after it, or the
nearer one of these two (`search_spec`).
-/

namespace RegionTree.ChunkSequence

/-- No chunk starts before another that stands in front of it. -/
def Sorted (b : ChunkSequence) : Prop := b.chunks.toList.Pairwise fun c d => c.start ≤ d.start

variable {b : ChunkSequence} {pos : Nat}

theorem Sorted.startOf_le (h : b.Sorted) {i j : Nat} (hij : i ≤ j) (hj : j < b.size) :
    b.startOf i ≤ b.startOf j := by
  rcases Nat.eq_or_lt_of_le hij with rfl | hlt
  · exact Nat.le_refl _
  · have hi : i < b.size := Nat.lt_trans hlt hj
    rw [startOf_eq (List.getElem?_eq_getElem hi), startOf_eq (List.getElem?_eq_getElem hj)]
    exact List.pairwise_iff_getElem.mp h i j hi hj hlt

/-! ## Halving -/

/-- Asking the chunk in the middle is asking where it starts. -/
theorem any_start_le {i : Nat} (h : i < b.size) :
    (b.chunks[i]?).any (fun c => decide (c.start ≤ pos)) = decide (b.startOf i ≤ pos) := by
  rw [startOf, Array.getElem?_eq_getElem h]
  rfl

/-- The stretch that is still searched: some chunks from `base` on, such that every chunk behind it
starts after the position, and `base` does not, unless it is still the first. -/
structure Bracket (b : ChunkSequence) (pos base size : Nat) : Prop where
  inside : base + size ≤ b.size
  first : base = 0 ∨ b.startOf base ≤ pos
  behind : ∀ i, base + size ≤ i → i < b.size → pos < b.startOf i

/-- Halving a bracket gives a bracket, whichever half is kept. -/
theorem Bracket.half (h : b.Sorted) {base size : Nat} (hb : b.Bracket pos base size)
    (hsize : 1 < size) :
    b.Bracket pos (if (b.chunks[base + size / 2]?).any (fun c => decide (c.start ≤ pos))
      then base + size / 2 else base) (size - size / 2) := by
  have hinside := hb.inside
  have hmid : base + size / 2 < b.size := by omega
  rw [any_start_le hmid]
  split
  · rename_i hle
    exact ⟨by omega, .inr (of_decide_eq_true hle), fun i hi => hb.behind i (by omega)⟩
  · rename_i hlt
    refine ⟨by omega, hb.first, fun i hi hsize => ?_⟩
    have hstart := h.startOf_le (i := base + size / 2) (j := i) (by omega) hsize
    have : ¬ b.startOf (base + size / 2) ≤ pos := fun hle => hlt (decide_eq_true hle)
    omega

/-- Halving ends with a single chunk; the induction is on the fuel. -/
theorem Bracket.halve (h : b.Sorted) {fuel base size : Nat} (hb : b.Bracket pos base size)
    (hpos : 0 < size) (hfuel : size ≤ fuel) : b.Bracket pos (b.halve pos fuel base size) 1 := by
  induction fuel generalizing base size with
  | zero => omega
  | succ fuel ih =>
    unfold ChunkSequence.halve
    split
    · rename_i hone
      obtain rfl : size = 1 := by omega
      exact hb
    · exact ih (hb.half h (by omega)) (by omega) (by omega)

theorem countUpTo_le (b : ChunkSequence) (h : b.Sorted) (pos : Nat) : b.countUpTo pos ≤ b.size := by
  unfold countUpTo
  split
  · exact Nat.zero_le _
  · rename_i hsize
    have hb : b.Bracket pos 0 b.size := ⟨by omega, .inl rfl, fun i hi hlt => by omega⟩
    have hinside := (hb.halve h (by omega) (Nat.le_refl _)).inside
    dsimp only
    split <;> omega

/-- The chunks that start at or before a position are those in front of the place found. -/
theorem lt_countUpTo_iff (h : b.Sorted) {i : Nat} (hi : i < b.size) :
    i < b.countUpTo pos ↔ b.startOf i ≤ pos := by
  have hb : b.Bracket pos 0 b.size := ⟨by omega, .inl rfl, fun i hi hlt => by omega⟩
  obtain ⟨hinside, hfirst, hbehind⟩ := hb.halve h (by omega) (Nat.le_refl _)
  unfold countUpTo
  rw [if_neg (by omega)]
  generalize b.halve pos b.size 0 b.size = base at hinside hfirst hbehind
  dsimp only
  rw [any_start_le (by omega)]
  split
  · rename_i hle
    have hle := of_decide_eq_true hle
    constructor
    · intro hlt
      exact Nat.le_trans (h.startOf_le (by omega) (by omega)) hle
    · intro hstart
      by_contra hge
      have := hbehind i (by omega) hi
      omega
  · rename_i hlt
    -- the last chunk left starts after the position, so it is the first of all
    obtain rfl : base = 0 := hfirst.resolve_right fun hle => hlt (decide_eq_true hle)
    have hstart := h.startOf_le (Nat.zero_le i) hi
    have : ¬ b.startOf 0 ≤ pos := fun hle => hlt (decide_eq_true hle)
    constructor <;> intro <;> omega

/-! ## Neighbours -/

/-- The chunks, by index, that start at a position of a kind. -/
def startingWhere (b : ChunkSequence) (p : Nat → Prop) : Set Nat :=
  {i | i < b.size ∧ p (b.startOf i)}

/-- The last chunk that starts at or before a position. -/
theorem isGreatest_countUpTo (h : b.Sorted) (hpos : 0 < b.countUpTo pos) :
    IsGreatest (b.startingWhere (· ≤ pos)) (b.countUpTo pos - 1) := by
  have hle := countUpTo_le b h pos
  refine ⟨⟨by omega, (lt_countUpTo_iff h (by omega)).mp (by omega)⟩, ?_⟩
  rintro i ⟨hi, hstart⟩
  have := (lt_countUpTo_iff h hi).mpr hstart
  omega

/-- The first chunk that starts after a position. -/
theorem isLeast_countUpTo (h : b.Sorted) (hlt : b.countUpTo pos < b.size) :
    IsLeast (b.startingWhere (pos < ·)) (b.countUpTo pos) := by
  refine ⟨⟨hlt, ?_⟩, ?_⟩
  · exact Nat.not_le.mp fun hle => Nat.lt_irrefl _ ((lt_countUpTo_iff h hlt).mpr hle)
  · rintro i ⟨hi, hstart⟩
    by_contra hbefore
    have := (lt_countUpTo_iff h hi).mp (Nat.not_le.mp hbefore)
    omega

/-- No chunk before a position starts nearer to it than the last of them. -/
theorem startOf_le_of_isGreatest (h : b.Sorted) {i k : Nat}
    (hi : IsGreatest (b.startingWhere (· < pos)) i) (hk : k < b.size) (hlt : b.startOf k < pos) :
    b.startOf k ≤ b.startOf i :=
  h.startOf_le (hi.2 ⟨hk, hlt⟩) hi.1.1

/-- No chunk after a position starts nearer to it than the first of them. -/
theorem startOf_le_of_isLeast (h : b.Sorted) {j k : Nat}
    (hj : IsLeast (b.startingWhere (pos < ·)) j) (hk : k < b.size) (hlt : pos < b.startOf k) :
    b.startOf j ≤ b.startOf k :=
  h.startOf_le (hj.2 ⟨hk, hlt⟩) hk

/-! ## What a search answers -/

/-- The best of some chunks, by a test, or nothing if there are none of them. -/
inductive Answer (candidates : Set Nat) (best : Nat → Prop) : Option Nat → Prop where
  | none : candidates = ∅ → Answer candidates best none
  | some {i : Nat} : i ∈ candidates → best i → Answer candidates best (some i)

/-- A chunk with the start that is nearest to a position; of two starts at one distance it is the
earlier.  If several chunks have that start, it is the one next to the position. -/
structure IsNearest (b : ChunkSequence) (pos i : Nat) : Prop where
  least : ∀ k < b.size, Nat.dist (b.startOf i) pos ≤ Nat.dist (b.startOf k) pos
  earlier : ∀ k < b.size, Nat.dist (b.startOf k) pos = Nat.dist (b.startOf i) pos →
    b.startOf i ≤ b.startOf k
  adjacent : IsGreatest (b.startingWhere (· < pos)) i ∨ IsLeast (b.startingWhere (pos < ·)) i

section Miss

variable (hmiss : b.startingWhere (· = pos) = ∅)

include hmiss

theorem startOf_ne {i : Nat} (hi : i < b.size) : b.startOf i ≠ pos := fun heq =>
  Set.eq_empty_iff_forall_notMem.mp hmiss i ⟨hi, heq⟩

/-- A search for a position where no chunk starts looks at the chunks on both sides of it. -/
theorem search_miss (h : b.Sorted) (choice : Neighbour) (precise : Bool) :
    b.search pos choice precise =
      if precise then none
      else
        let before := if 0 < b.countUpTo pos then some (b.countUpTo pos - 1) else none
        let next := if b.countUpTo pos < b.size then some (b.countUpTo pos) else none
        match choice with
        | .before => before
        | .after => next
        | .nearest =>
          match before, next with
          | some i, some j => if pos - b.startOf i ≤ b.startOf j - pos then some i else some j
          | i, j => i.or j := by
  have hhit :
      ¬ (decide (0 < b.countUpTo pos) && b.startOf (b.countUpTo pos - 1) == pos) = true := by
    intro hhit
    simp only [Bool.and_eq_true, decide_eq_true_eq, beq_iff_eq] at hhit
    have hle := countUpTo_le b h pos
    exact startOf_ne hmiss (by omega) hhit.2
  unfold search
  dsimp only
  rewrite [if_neg hhit]
  rfl

theorem answer_before (h : b.Sorted) :
    Answer (b.startingWhere (· < pos)) (IsGreatest (b.startingWhere (· < pos)))
      (if 0 < b.countUpTo pos then some (b.countUpTo pos - 1) else none) := by
  have hsame : b.startingWhere (· ≤ pos) = b.startingWhere (· < pos) := by
    ext i
    exact and_congr_right fun hi => Nat.le_iff_lt_or_eq.trans (or_iff_left (startOf_ne hmiss hi))
  split
  · rename_i hpos
    have hgreatest := isGreatest_countUpTo h hpos
    rw [hsame] at hgreatest
    exact .some hgreatest.1 hgreatest
  · rename_i hzero
    refine .none (Set.eq_empty_of_forall_notMem fun i hi => ?_)
    have := (lt_countUpTo_iff h hi.1).mpr (Nat.le_of_lt hi.2)
    omega

omit hmiss in
theorem answer_after (h : b.Sorted) :
    Answer (b.startingWhere (pos < ·)) (IsLeast (b.startingWhere (pos < ·)))
      (if b.countUpTo pos < b.size then some (b.countUpTo pos) else none) := by
  split
  · rename_i hlt
    exact .some (isLeast_countUpTo h hlt).1 (isLeast_countUpTo h hlt)
  · rename_i hge
    refine .none (Set.eq_empty_of_forall_notMem fun i hi => ?_)
    obtain ⟨hsize, hstart⟩ : i < b.size ∧ pos < b.startOf i := hi
    have : b.startOf i ≤ pos := (lt_countUpTo_iff h hsize).mp (by omega)
    omega

/-- The last chunk before a position is nearest if none after it is nearer. -/
theorem isNearest_before (h : b.Sorted) {i : Nat} (hi : IsGreatest (b.startingWhere (· < pos)) i)
    (hafter : ∀ k < b.size, pos < b.startOf k → pos - b.startOf i ≤ b.startOf k - pos) :
    b.IsNearest pos i := by
  have hstart : b.startOf i < pos := hi.1.2
  refine ⟨fun k hk => ?_, fun k hk heq => ?_, .inl hi⟩ <;>
    rcases Nat.lt_or_gt_of_ne (startOf_ne hmiss hk) with hlt | hgt
  · have := startOf_le_of_isGreatest h hi hk hlt
    simp only [Nat.dist]
    omega
  · have := hafter k hk hgt
    simp only [Nat.dist]
    omega
  · simp only [Nat.dist] at heq
    omega
  · omega

/-- The first chunk after a position is nearest if every one before it is farther. -/
theorem isNearest_after (h : b.Sorted) {j : Nat} (hj : IsLeast (b.startingWhere (pos < ·)) j)
    (hbefore : ∀ k < b.size, b.startOf k < pos → b.startOf j - pos < pos - b.startOf k) :
    b.IsNearest pos j := by
  have hstart : pos < b.startOf j := hj.1.2
  refine ⟨fun k hk => ?_, fun k hk heq => ?_, .inr hj⟩ <;>
    rcases Nat.lt_or_gt_of_ne (startOf_ne hmiss hk) with hlt | hgt
  · have := hbefore k hk hlt
    simp only [Nat.dist]
    omega
  · have := startOf_le_of_isLeast h hj hk hgt
    simp only [Nat.dist]
    omega
  · have := hbefore k hk hlt
    simp only [Nat.dist] at heq
    omega
  · exact startOf_le_of_isLeast h hj hk hgt

/-- Of the chunks on both sides of a position the nearer is the nearest of all. -/
theorem answer_nearest (h : b.Sorted) {before next : Option Nat} :
    Answer (b.startingWhere (· < pos)) (IsGreatest (b.startingWhere (· < pos))) before →
    Answer (b.startingWhere (pos < ·)) (IsLeast (b.startingWhere (pos < ·))) next →
    Answer {i | i < b.size} (b.IsNearest pos)
      (match before, next with
        | some i, some j => if pos - b.startOf i ≤ b.startOf j - pos then some i else some j
        | i, j => i.or j) := by
  intro hbefore hnext
  cases hbefore with
  | none hempty =>
    have hno : ∀ k < b.size, ¬ b.startOf k < pos := fun k hk hlt =>
      Set.eq_empty_iff_forall_notMem.mp hempty k ⟨hk, hlt⟩
    cases hnext with
    | none hempty' =>
      refine .none (Set.eq_empty_of_forall_notMem fun k hk => ?_)
      rcases Nat.lt_or_gt_of_ne (startOf_ne hmiss hk) with hlt | hgt
      · exact hno k hk hlt
      · exact Set.eq_empty_iff_forall_notMem.mp hempty' k ⟨hk, hgt⟩
    | some hj hleast =>
      exact .some hj.1 (isNearest_after hmiss h hleast fun k hk hlt => absurd hlt (hno k hk))
  | @some i hi hgreatest =>
    cases hnext with
    | none hempty =>
      refine .some hi.1 (isNearest_before hmiss h hgreatest fun k hk hgt => ?_)
      exact absurd ⟨hk, hgt⟩ (Set.eq_empty_iff_forall_notMem.mp hempty k)
    | @some j hj hleast =>
      dsimp only
      split
      · rename_i hle
        refine .some hi.1 (isNearest_before hmiss h hgreatest fun k hk hgt => ?_)
        have := startOf_le_of_isLeast h hleast hk hgt
        omega
      · rename_i hfar
        refine .some hj.1 (isNearest_after hmiss h hleast fun k hk hlt => ?_)
        have := startOf_le_of_isGreatest h hgreatest hk hlt
        omega

end Miss

/-- A search among chunks in the order of their starts.  If one starts at the position, the last of
these is found, whichever neighbour is wanted.  If none does, a precise search finds nothing, and
any other the last chunk before the position, the first one after it, or the nearest of all, unless
there is none of the kind. -/
theorem search_spec (h : b.Sorted) (pos : Nat) :
    ((b.startingWhere (· = pos)).Nonempty → ∃ i, IsGreatest (b.startingWhere (· = pos)) i ∧
        ∀ choice precise, b.search pos choice precise = some i) ∧
      (b.startingWhere (· = pos) = ∅ →
        (∀ choice, b.search pos choice true = none) ∧
        Answer (b.startingWhere (· < pos)) (IsGreatest (b.startingWhere (· < pos)))
          (b.search pos .before false) ∧
        Answer (b.startingWhere (pos < ·)) (IsLeast (b.startingWhere (pos < ·)))
          (b.search pos .after false) ∧
        Answer {i | i < b.size} (b.IsNearest pos) (b.search pos .nearest false)) := by
  constructor
  · rintro ⟨j, hj, hstart⟩
    have hlt := (lt_countUpTo_iff h hj).mpr (Nat.le_of_eq hstart)
    obtain ⟨⟨hsize, hle⟩, hlast⟩ := isGreatest_countUpTo h (Nat.zero_lt_of_lt hlt)
    have hge := h.startOf_le (i := j) (j := b.countUpTo pos - 1) (by omega) hsize
    have hhit : b.startOf (b.countUpTo pos - 1) = pos := by omega
    refine ⟨_, ⟨⟨hsize, hhit⟩, fun i hi => hlast ⟨hi.1, Nat.le_of_eq hi.2⟩⟩,
      fun choice precise => ?_⟩
    unfold search
    dsimp only
    rw [if_pos (by simp [hhit]; omega)]
  · intro hmiss
    have hbefore := answer_before hmiss h
    refine ⟨fun choice => search_miss hmiss h choice true, ?_, ?_, ?_⟩
    · rw [search_miss hmiss h]
      exact hbefore
    · rw [search_miss hmiss h]
      exact answer_after h
    · rw [search_miss hmiss h]
      exact answer_nearest hmiss h hbefore (answer_after h)

/-- Two chunks that start at 3, and a position between 3 and 7 that is as far from one as from the
other. -/
theorem search_spec_tie :
    let b : ChunkSequence := ⟨#[.empty 0 none, .empty 3 none, .empty 3 none, .empty 7 none], 4⟩
    b.Sorted ∧ (b.startingWhere (· = 3)).Nonempty ∧ b.startingWhere (· = 5) = ∅ ∧
      (∀ choice precise, b.search 3 choice precise = some 2) ∧
      b.search 5 .nearest true = none ∧ b.search 5 .nearest false = some 2 ∧ b.IsNearest 5 2 := by
  intro b
  have hsorted : b.Sorted := by unfold Sorted; decide
  have hthree : (b.startingWhere (· = 3)).Nonempty := ⟨1, by decide, by decide⟩
  have hstarts : ∀ i < b.size, b.startOf i ≠ 5 := by decide
  have hfive : b.startingWhere (· = 5) = ∅ :=
    Set.eq_empty_of_forall_notMem fun i hi => hstarts i hi.1 hi.2
  obtain ⟨i, -, hfound⟩ := (search_spec hsorted 3).1 hthree
  obtain ⟨hprecise, -, -, hnearest⟩ := (search_spec hsorted 5).2 hfive
  have htwo : b.search 3 .before true = some 2 ∧ b.search 5 .nearest false = some 2 := by decide
  obtain rfl : i = 2 := Option.some.inj ((hfound .before true).symm.trans htwo.1)
  rw [htwo.2] at hnearest
  cases hnearest with
  | some _ hbest => exact ⟨hsorted, hthree, hfive, hfound, hprecise .nearest, htwo.2, hbest⟩

end RegionTree.ChunkSequence
