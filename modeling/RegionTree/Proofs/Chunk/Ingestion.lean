import RegionTree.Proofs.Chunk.Action
set_option autoImplicit false

/-!
# Adding tokens to chunks

A token goes into the last chunk or into a new one behind it; `Room` lists the ways this can be, and
`Adds` what becomes of the chunks.  Whichever it is, the chunk does what it did before and then what
the token does (`actions_absorb`), so a sequence does what all its tokens do, one after the other
(`Adds.actions_eq`).  How the tokens were cut into chunks cannot be told from that.
-/

namespace RegionTree

namespace Chunk

/-- A chunk that can take a token: nothing was closed in it yet, it does not stop behind the
start of the token, and nodes that open at the token open at the start of the chunk. -/
structure Receives (c : Chunk) (t : Token) : Prop where
  unclosed : c.closes = []
  opens : t.opens = [] ∨ c.start = t.start ∧ c.leaves = #[]
  stop_le : c.stop ≤ t.start

theorem start_le_stop (c : Chunk) : c.start ≤ c.stop := Nat.le_add_right _ _

theorem isBlank_iff (c : Chunk) :
    c.isBlank = true ↔ c.length = 0 ∧ c.leaves = #[] ∧ c.opens = [] ∧ c.closes = [] := by
  simp [isBlank, and_assoc]

@[simp] theorem isBlank_empty (start : Nat) (state : Option State) :
    (empty start state).isBlank = true := rfl

/-- A blank chunk does nothing. -/
theorem actions_of_isBlank {c : Chunk} (h : c.isBlank = true) : c.actions = [] := by
  obtain ⟨-, hleaves, hopens, hcloses⟩ := (isBlank_iff c).mp h
  simp [actions, hleaves, hopens, hcloses]

theorem foldl_withOpen (nodes : List NodeId) (c : Chunk) :
    nodes.foldl withOpen c =
      { c with
        opens := c.opens ++ nodes
        subtree := if nodes.isEmpty then c.subtree else none } := by
  induction nodes generalizing c with
  | nil => simp
  | cons node rest ih => simp [ih, withOpen]

theorem foldl_withClose (nodes : List NodeId) (c : Chunk) :
    nodes.foldl withClose c =
      { c with
        closes := c.closes ++ nodes
        subtree := if nodes.isEmpty then c.subtree else none } := by
  induction nodes generalizing c with
  | nil => simp
  | cons node rest ih => simp [ih, withClose]

end Chunk

namespace ChunkSequence

open Chunk (Receives)

/-! ## What a token adds to a chunk -/

/-- The leaf that a token makes in a chunk that starts at a position. -/
def leavesAt (start : Nat) (t : Token) : List Leaf :=
  t.node.toList.map fun node =>
    ⟨node, (t.start - start) % offsetBound, (t.stop - start) % offsetBound⟩

theorem absorb_eq (c : Chunk) (t : Token) :
    absorb c t =
      { c with
        length := max c.length (t.stop - c.start)
        leaves := c.leaves ++ leavesAt c.start t
        opens := c.opens ++ t.opens
        closes := c.closes ++ t.closes
        subtree := none } := by
  cases hnode : t.node with
  | none =>
    simp [absorb, hnode, Chunk.foldl_withOpen, Chunk.foldl_withClose, Chunk.stretchTo, leavesAt]
  | some node =>
    simp [absorb, hnode, Chunk.foldl_withOpen, Chunk.foldl_withClose, Chunk.stretchTo, Chunk.add,
      leavesAt]

@[simp] theorem start_absorb (c : Chunk) (t : Token) : (absorb c t).start = c.start := by
  rw [absorb_eq]

@[simp] theorem state_absorb (c : Chunk) (t : Token) : (absorb c t).state = c.state := by
  rw [absorb_eq]

@[simp] theorem closes_absorb (c : Chunk) (t : Token) :
    (absorb c t).closes = c.closes ++ t.closes := by
  rw [absorb_eq]

theorem keepsOwn_absorb (c : Chunk) (t : Token) : (absorb c t).KeepsOwn := by
  rw [absorb_eq]
  simp [Chunk.KeepsOwn]

/-- A chunk that takes a token stops where the token stops. -/
theorem stop_absorb {c : Chunk} {t : Token} (h : c.stop ≤ t.start) (ht : t.start ≤ t.stop) :
    (absorb c t).stop = t.stop := by
  have hstart := c.start_le_stop
  rw [absorb_eq]
  simp only [Chunk.stop] at h hstart ⊢
  omega

/-- A chunk looked as far as before, or reaches further. -/
theorem reach_le_absorb (c : Chunk) (t : Token) : c.reach ≤ (absorb c t).reach := by
  rw [absorb_eq]
  simp only [Chunk.reach, Chunk.stop]
  omega

theorem isBlank_absorb {c : Chunk} (h : c.isBlank = false) (t : Token) :
    (absorb c t).isBlank = false := by
  have hnot : ¬ c.isBlank = true := by simp [h]
  refine Bool.eq_false_iff.mpr fun hblank => hnot ?_
  rw [Chunk.isBlank_iff, absorb_eq] at hblank
  obtain ⟨hlength, hleaves, hopens, hcloses⟩ := hblank
  refine (Chunk.isBlank_iff c).mpr ⟨?_, ?_, ?_, ?_⟩
  · dsimp only at hlength
    omega
  · have hboth := congrArg Array.toList hleaves
    simp only [Array.toList_appendList, List.append_eq_nil_iff] at hboth
    exact Array.toList_eq_nil_iff.mp hboth.1
  · exact (List.append_eq_nil_iff.mp hopens).1
  · exact (List.append_eq_nil_iff.mp hcloses).1

theorem isBlank_of_absorb {c : Chunk} {t : Token} (h : (absorb c t).isBlank = true) :
    c.isBlank = true := by
  by_contra hheld
  rw [isBlank_absorb (Bool.eq_false_iff.mpr hheld) t] at h
  cases h

/-- A token with some length leaves no chunk blank. -/
theorem isBlank_absorb_of_lt {c : Chunk} {t : Token} (hc : c.start ≤ t.start)
    (ht : t.start < t.stop) : (absorb c t).isBlank = false := by
  apply Bool.eq_false_iff.mpr
  intro hblank
  rw [Chunk.isBlank_iff, absorb_eq] at hblank
  have hlength := hblank.1
  dsimp only at hlength
  omega

/-- A chunk that takes a token does what it did and then what the token does. -/
theorem actions_absorb {c : Chunk} {t : Token} (h : Receives c t) (ht : t.start ≤ t.stop)
    (hbound : t.stop < offsetBound) : (absorb c t).actions = c.actions ++ t.actions := by
  have hstart : c.start ≤ t.start := Nat.le_trans c.start_le_stop h.stop_le
  have hstop := stop_absorb h.stop_le ht
  have hleaves : (leavesAt c.start t).map
      (fun l => Action.leaf l.node (c.start + l.start) (c.start + l.stop)) =
        t.node.toList.map (.leaf · t.start t.stop) := by
    have hfrom : c.start + (t.start - c.start) % offsetBound = t.start := by
      rw [Nat.mod_eq_of_lt (by omega)]
      omega
    have hto : c.start + (t.stop - c.start) % offsetBound = t.stop := by
      rw [Nat.mod_eq_of_lt (by omega)]
      omega
    simp only [leavesAt, List.map_map, Function.comp_def, hfrom, hto]
  rw [Chunk.actions, hstop, absorb_eq]
  simp only [h.unclosed, Chunk.actions, Token.actions, List.map_append, List.nil_append,
    List.map_nil, List.append_nil]
  rw [← hleaves]
  rcases h.opens with hopens | ⟨hopen, hnone⟩
  · simp [hopens]
  · simp [hopen, hnone]

/-! ## Where a token goes -/

/-- Where a token goes in a list of chunks, with the given state before it: the chunks in front
and the chunk that takes it. -/
inductive Room (capacity : Nat) (state : Option State) (t : Token) :
    List Chunk → List Chunk → Chunk → Prop where
  /-- There is no chunk yet. -/
  | first : Room capacity state t [] [] (.empty t.start state)
  /-- A new chunk begins behind the last. -/
  | fresh {init : List Chunk} {last : Chunk} : last.isBlank = false →
      Room capacity state t (init ++ [last]) (init ++ [last]) (.empty t.start state)
  /-- The last chunk is still blank. -/
  | taken {init : List Chunk} {last : Chunk} : last.isBlank = true →
      Room capacity state t (init ++ [last]) init { last with start := t.start, state }
  /-- The last chunk goes on. -/
  | joined {init : List Chunk} {last : Chunk} : last.isBlank = false → t.opens = [] →
      (state = none ∨ last.leaves.size < capacity) →
      Room capacity state t (init ++ [last]) init last

/-- The chunk that begins behind a token that closes nodes. -/
def seam (t : Token) : List Chunk := if t.closes.isEmpty then [] else [.empty t.stop none]

theorem eq_of_mem_seam {t : Token} {e : Chunk} (he : e ∈ seam t) : e = .empty t.stop none := by
  unfold seam at he
  split at he
  · cases he
  · exact List.mem_singleton.mp he

/-- The last chunk is the one with the token, or the one that begins behind it. -/
theorem last_seam {init : List Chunk} {c e : Chunk} {t : Token}
    (he : (init ++ absorb c t :: seam t).getLast? = some e) :
    (e = absorb c t ∧ t.closes = []) ∨ e = .empty t.stop none := by
  unfold seam at he
  split at he
  · rename_i hcloses
    exact .inl ⟨by simpa using he.symm, List.isEmpty_iff.mp hcloses⟩
  · exact .inr (by simpa using he.symm)

/-- Adding a token changes one chunk and at most begins another. -/
def Adds (capacity : Nat) (state : Option State) (t : Token) (cs cs' : List Chunk) : Prop :=
  ∃ init c, Room capacity state t cs init c ∧ cs' = init ++ absorb c t :: seam t

/-- The chunks with another token at the end. -/
def grow (capacity : Nat) (state : Option State) (cs : List Chunk) (t : Token) : List Chunk :=
  match cs.getLast? with
  | none => absorb (.empty t.start state) t :: seam t
  | some last =>
    if last.isBlank then cs.dropLast ++ absorb { last with start := t.start, state } t :: seam t
    else if !t.opens.isEmpty || (state.isSome && decide (capacity ≤ last.leaves.size)) then
      cs ++ absorb (.empty t.start state) t :: seam t
    else cs.dropLast ++ absorb last t :: seam t

theorem toList_add (b : ChunkSequence) (state : Option State) (t : Token) :
    (b.add state t).1.chunks.toList = grow b.capacity state b.chunks.toList t := by
  have hmodify : ∀ (chunks : Array Chunk) (init : List Chunk) (c : Chunk),
      chunks.toList = init ++ [c] →
      (chunks.modify (chunks.size - 1) fun c => absorb c t).toList = init ++ [absorb c t] := by
    intro chunks init c h
    have hsize : chunks.size - 1 = init.length := by
      rw [← Array.length_toList, h]
      simp
    rw [Array.toList_modify, hsize, h, List.modify_eq_take_cons_drop (by simp)]
    simp
  have hadd : ∀ (init : List Chunk) (c : Chunk), (b.makeRoom state t).1.toList = init ++ [c] →
      (b.add state t).1.chunks.toList = init ++ absorb c t :: seam t := by
    intro init c h
    have hlast := hmodify _ _ _ h
    rw [add, seam]
    dsimp only
    cases t.closes.isEmpty with
    | true => simpa using hlast
    | false =>
      rw [if_neg (by simp), if_neg (by simp), Array.toList_push, hlast]
      simp
  rw [grow, Array.getLast?_toList]
  cases hback : b.chunks.back? with
  | none =>
    have hnil : b.chunks = #[] := Array.back?_eq_none_iff.mp hback
    exact hadd [] _ (by simp [makeRoom, hnil])
  | some last =>
    obtain ⟨front, hfront⟩ := Array.back?_eq_some_iff.mp hback
    have hlist : b.chunks.toList = front.toList ++ [last] := by simp [hfront]
    dsimp only
    rw [hlist, List.dropLast_concat]
    by_cases hblank : last.isBlank = true
    · rw [if_pos hblank]
      exact hadd _ _ (by simp [makeRoom, hblank, hfront])
    · rw [if_neg hblank]
      split
      · rename_i hnew
        exact hadd _ _ (by simp [makeRoom, hblank, hnew, hfront])
      · rename_i hold
        exact hadd _ _ (by simp [makeRoom, hback, hblank, hold, hlist])

theorem adds_grow (capacity : Nat) (state : Option State) (t : Token) (cs : List Chunk) :
    Adds capacity state t cs (grow capacity state cs t) := by
  rcases List.eq_nil_or_concat' cs with rfl | ⟨front, last, rfl⟩
  · exact ⟨[], _, .first, rfl⟩
  · rw [grow, List.getLast?_concat, List.dropLast_concat]
    dsimp only
    by_cases hblank : last.isBlank = true
    · rw [if_pos hblank]
      exact ⟨front, _, .taken hblank, rfl⟩
    · have hheld : last.isBlank = false := by simpa using hblank
      rw [if_neg hblank]
      split
      · exact ⟨_, _, .fresh hheld, rfl⟩
      · rename_i hold
        simp only [Bool.or_eq_true, Bool.not_eq_true', Bool.and_eq_true, decide_eq_true_eq, not_or,
          Bool.not_eq_false, List.isEmpty_iff, not_and, Nat.not_le] at hold
        refine ⟨front, last, .joined hheld hold.1 ?_, rfl⟩
        cases state with
        | none => exact Or.inl rfl
        | some _ => exact Or.inr (hold.2 rfl)

theorem adds_add (b : ChunkSequence) (state : Option State) (t : Token) :
    Adds b.capacity state t b.chunks.toList (b.add state t).1.chunks.toList := by
  rw [toList_add]
  exact adds_grow b.capacity state t b.chunks.toList

@[simp] theorem capacity_add (b : ChunkSequence) (state : Option State) (t : Token) :
    (b.add state t).1.capacity = b.capacity := by
  unfold add
  dsimp only
  split <;> rfl

namespace Room

variable {capacity : Nat} {state : Option State} {t : Token} {cs init : List Chunk} {c : Chunk}

/-- The chunks in front of a token were there before. -/
theorem mem_init (h : Room capacity state t cs init c) {e : Chunk} (he : e ∈ init) : e ∈ cs := by
  cases h with
  | first => exact he
  | fresh _ => exact he
  | taken _ => exact List.mem_append_left _ he
  | joined _ _ _ => exact List.mem_append_left _ he

/-- Making room for a token does nothing. -/
theorem actions_eq (h : Room capacity state t cs init c) :
    init.flatMap Chunk.actions ++ c.actions = cs.flatMap Chunk.actions := by
  cases h with
  | first => rfl
  | fresh _ => simp [Chunk.actions_of_isBlank (Chunk.isBlank_empty t.start state)]
  | @taken init last hblank =>
    have htaken : ({ last with start := t.start, state } : Chunk).isBlank = true := hblank
    simp [Chunk.actions_of_isBlank hblank, Chunk.actions_of_isBlank htaken]
  | joined _ _ _ => simp

end Room

/-- Nothing was closed in the last chunk. -/
def Unclosed (cs : List Chunk) : Prop := ∀ c, cs.getLast? = some c → c.closes = []

/-- Nothing was closed yet in the chunk that takes a token. -/
theorem Room.closes_eq {capacity : Nat} {state : Option State} {t : Token} {cs init : List Chunk}
    {c : Chunk} (h : Room capacity state t cs init c) (hlast : Unclosed cs) : c.closes = [] := by
  cases h with
  | first => rfl
  | fresh _ => rfl
  | @taken init last hblank => exact ((Chunk.isBlank_iff last).mp hblank).2.2.2
  | joined _ _ _ => exact hlast _ (by simp)

/-- Behind a token that closes nodes a chunk begins, so nothing is closed in the last one. -/
theorem Adds.unclosed {capacity : Nat} {state : Option State} {t : Token} {cs cs' : List Chunk}
    (h : Adds capacity state t cs cs') (hlast : Unclosed cs) : Unclosed cs' := by
  obtain ⟨init, c, hroom, rfl⟩ := h
  intro e he
  rcases last_seam he with ⟨rfl, hcloses⟩ | rfl
  · rw [closes_absorb, hroom.closes_eq hlast, hcloses, List.append_nil]
  · rfl

/-! ## Tidy sequences -/

/-- Chunks as tokens up to a position leave them: they stop by there, each has its own subtree if it
has one, and the last one is not closed yet. -/
structure Tidy (cs : List Chunk) (pos : Nat) : Prop where
  stop_le : ∀ c ∈ cs, c.stop ≤ pos
  keepsOwn : ∀ c ∈ cs, c.KeepsOwn
  unclosed : Unclosed cs

theorem Tidy.nil (pos : Nat) : Tidy [] pos := ⟨by simp, by simp, by simp [Unclosed]⟩

theorem Tidy.mono {cs : List Chunk} {pos pos' : Nat} (h : Tidy cs pos) (hle : pos ≤ pos') :
    Tidy cs pos' :=
  ⟨fun c hc => Nat.le_trans (h.stop_le c hc) hle, h.keepsOwn, h.unclosed⟩

theorem Tidy.start_le {cs : List Chunk} {pos : Nat} (h : Tidy cs pos) {c : Chunk} (hc : c ∈ cs) :
    c.start ≤ pos :=
  Nat.le_trans c.start_le_stop (h.stop_le c hc)

/-- In a tidy sequence the chunk with room for a token can take it. -/
theorem Room.receives {capacity : Nat} {state : Option State} {t : Token} {cs init : List Chunk}
    {c : Chunk} (h : Room capacity state t cs init c) (htidy : Tidy cs t.start) :
    Receives c t := by
  refine ⟨h.closes_eq htidy.unclosed, ?_, ?_⟩
  · cases h with
    | first => exact .inr ⟨rfl, rfl⟩
    | fresh _ => exact .inr ⟨rfl, rfl⟩
    | @taken init last hblank => exact .inr ⟨rfl, ((Chunk.isBlank_iff last).mp hblank).2.1⟩
    | joined _ hopens _ => exact .inl hopens
  · cases h with
    | first => exact Nat.le_refl _
    | fresh _ => exact Nat.le_refl _
    | @taken init last hblank => simp [Chunk.stop, ((Chunk.isBlank_iff last).mp hblank).1]
    | joined _ _ _ => exact htidy.stop_le _ (by simp)

/-- Chunks keep their own subtrees with another token. -/
theorem Adds.keepsOwn {capacity : Nat} {state : Option State} {t : Token} {cs cs' : List Chunk}
    (h : Adds capacity state t cs cs') (hkept : ∀ c ∈ cs, c.KeepsOwn) : ∀ c ∈ cs', c.KeepsOwn := by
  obtain ⟨init, c, hroom, rfl⟩ := h
  intro e he
  rcases List.mem_append.mp he with hinit | hrest
  · exact hkept e (hroom.mem_init hinit)
  · rcases List.mem_cons.mp hrest with rfl | hseam
    · exact keepsOwn_absorb c t
    · rw [eq_of_mem_seam hseam]
      simp [Chunk.KeepsOwn, Chunk.empty]

/-- A tidy sequence stays tidy with another token. -/
theorem Adds.tidy {capacity : Nat} {state : Option State} {t : Token} {cs cs' : List Chunk}
    (h : Adds capacity state t cs cs') (htidy : Tidy cs t.start) (ht : t.start ≤ t.stop) :
    Tidy cs' t.stop := by
  refine ⟨?_, h.keepsOwn htidy.keepsOwn, h.unclosed htidy.unclosed⟩
  obtain ⟨init, c, hroom, rfl⟩ := h
  have hreceives := hroom.receives htidy
  intro e he
  rcases List.mem_append.mp he with hinit | hrest
  · exact Nat.le_trans (htidy.stop_le e (hroom.mem_init hinit)) ht
  · rcases List.mem_cons.mp hrest with rfl | hseam
    · exact Nat.le_of_eq (stop_absorb hreceives.stop_le ht)
    · rw [eq_of_mem_seam hseam]
      exact Nat.le_refl _

theorem actions_seam (t : Token) : (seam t).flatMap Chunk.actions = [] := by
  unfold seam
  split
  · rfl
  · simp [Chunk.actions_of_isBlank (Chunk.isBlank_empty t.stop none)]

/-- A tidy sequence with another token does what it did and then what the token does. -/
theorem Adds.actions_eq {capacity : Nat} {state : Option State} {t : Token} {cs cs' : List Chunk}
    (h : Adds capacity state t cs cs') (htidy : Tidy cs t.start) (ht : t.start ≤ t.stop)
    (hbound : t.stop < offsetBound) :
    cs'.flatMap Chunk.actions = cs.flatMap Chunk.actions ++ t.actions := by
  obtain ⟨init, c, hroom, rfl⟩ := h
  rw [List.flatMap_append, List.flatMap_cons, actions_seam, List.append_nil,
    actions_absorb (hroom.receives htidy) ht hbound, ← List.append_assoc, hroom.actions_eq]

end ChunkSequence

end RegionTree
