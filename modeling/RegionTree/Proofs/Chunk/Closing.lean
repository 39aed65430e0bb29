import RegionTree.Proofs.Chunk.Transparency
import RegionTree.Proofs.Grammar.RegionStack
set_option autoImplicit false

/-!
# Closing nodes

`Assembly.close` looks for an open node of a kind: it may have to forget others on the way, or find
none.  For the tokens of a grammar it never does.  Each close meets its node on top of the stack,
token by token (`walksCleanly`) as well as chunk by chunk (`assemblesCleanly`), because the open
nodes are those of the open regions of the state.
-/

namespace RegionTree

namespace Assembly

open Token (popAll)

/-- The nodes that are open, the innermost first. -/
def openNodes (a : Assembly) : List NodeId := a.stack.map OpenNode.node

@[simp] theorem openNodes_push (a : Assembly) (node : NodeId) (start : Nat) :
    (a.push node start).openNodes = node :: a.openNodes := rfl

@[simp] theorem openNodes_emit (a : Assembly) (r : Record) :
    (a.emit r).openNodes = a.openNodes := by
  simp [openNodes, emit, Function.comp_def]

theorem openNodes_pushAll (nodes : List NodeId) (start : Nat) (a : Assembly) :
    (nodes.foldl (fun a node => a.push node start) a).openNodes =
      nodes.reverse ++ a.openNodes := by
  induction nodes generalizing a with
  | nil => rfl
  | cons node rest ih => simp [ih]

theorem openNodes_emitAll {α : Type} (items : List α) (record : α → Record) (a : Assembly) :
    (items.foldl (fun a item => a.emit (record item)) a).openNodes = a.openNodes := by
  induction items generalizing a with
  | nil => rfl
  | cons item rest ih => rw [List.foldl_cons, ih, openNodes_emit]

/-- A node on top of the stack is closed without forgetting another. -/
theorem openNodes_close {a : Assembly} {node : NodeId} {rest : List NodeId} (stop : Nat)
    (h : a.openNodes = node :: rest) : (a.close node stop).1.openNodes = rest := by
  obtain ⟨stack, records⟩ := a
  cases stack with
  | nil => cases h
  | cons o stack =>
    rw [openNodes, List.map_cons, List.cons.injEq] at h
    obtain ⟨rfl, rfl⟩ := h
    simp only [close, bne_self_eq_false, Bool.false_eq_true, not_false_eq_true,
      List.dropWhile_cons_of_neg, openNodes_emit]
    rfl

/-- Closing nodes in order finds each of them on top of the stack. -/
def ClosesTop (stop : Nat) : Assembly → List NodeId → Prop
  | _, [] => True
  | a, node :: rest =>
    a.openNodes.head? = some node ∧ ClosesTop stop (a.close node stop).1 rest

/-- Nodes that can be popped one by one are closed one by one. -/
theorem closesTop_of_popAll {closes : List NodeId} {a : Assembly} {stack : List NodeId}
    (stop : Nat) (h : popAll closes a.openNodes = some stack) :
    ClosesTop stop a closes ∧
      (closes.foldl (fun a node => (a.close node stop).1) a).openNodes = stack := by
  induction closes generalizing a with
  | nil => exact ⟨trivial, Option.some.inj h⟩
  | cons node rest ih =>
    cases hopen : a.openNodes with
    | nil =>
      rw [hopen] at h
      cases h
    | cons top below =>
      rw [hopen, popAll] at h
      split at h
      · rename_i htop
        subst htop
        have hclose := openNodes_close stop hopen
        obtain ⟨hrest, hstack⟩ := ih (a := (a.close node stop).1) (by rw [hclose, h])
        exact ⟨⟨by rw [hopen, List.head?_cons], hrest⟩, hstack⟩
      · cases h

/-! ## Token by token -/

/-- Taking up tokens one by one, each close finds its node on top of the stack. -/
def WalksCleanly : Assembly → List Token → Prop
  | _, [] => True
  | a, t :: rest => ClosesTop t.stop (a.enterToken t) t.closes ∧ WalksCleanly (a.addToken t) rest

theorem openNodes_enterToken (a : Assembly) (t : Token) :
    (a.enterToken t).openNodes = t.opens.reverse ++ a.openNodes := by
  unfold enterToken
  cases t.node with
  | none => exact openNodes_pushAll ..
  | some node => simp [openNodes_pushAll]

theorem walksCleanly_of_playAll {tokens : List Token} {a : Assembly} {stack : List NodeId}
    (h : Token.playAll tokens a.openNodes = some stack) : WalksCleanly a tokens := by
  induction tokens generalizing a with
  | nil => trivial
  | cons t rest ih =>
    obtain ⟨next, hplay, hrest⟩ := Option.bind_eq_some_iff.mp h
    rw [Token.play, ← openNodes_enterToken] at hplay
    obtain ⟨hcloses, hstack⟩ := closesTop_of_popAll t.stop hplay
    refine ⟨hcloses, ih ?_⟩
    rw [addToken, hstack]
    exact hrest

/-! ## Chunk by chunk -/

/-- Makes the records of a chunk but for the nodes that close at its end. -/
def enterChunk (a : Assembly) (c : Chunk) (base : Nat) : Assembly :=
  let opened := c.opens.foldl (fun a node => a.push node base) a
  c.leaves.foldl (fun a t => a.emit (.leaf t.node (base + t.start) (base + t.stop))) opened

theorem addChunk_eq (a : Assembly) (c : Chunk) (base : Nat) :
    a.addChunk c base =
      c.closes.foldl (fun a node => (a.close node (base + c.length)).1) (a.enterChunk c base) :=
  rfl

theorem openNodes_enterChunk (a : Assembly) (c : Chunk) (base : Nat) :
    (a.enterChunk c base).openNodes = c.opens.reverse ++ a.openNodes := by
  rw [enterChunk, ← Array.foldl_toList, openNodes_emitAll, openNodes_pushAll]

end Assembly

namespace Chunk

/-- Plays a chunk on a stack of open nodes, the innermost first. -/
def play (c : Chunk) (stack : List NodeId) : Option (List NodeId) :=
  Token.popAll c.closes (c.opens.reverse ++ stack)

/-- Plays chunks in order. -/
def playAll : List Chunk → List NodeId → Option (List NodeId)
  | [], stack => some stack
  | c :: rest, stack => (c.play stack).bind (playAll rest)

theorem playAll_append (a b : List Chunk) (stack : List NodeId) :
    playAll (a ++ b) stack = (playAll a stack).bind (playAll b) := by
  induction a generalizing stack with
  | nil => rfl
  | cons c rest ih =>
    simp only [List.cons_append, playAll, Option.bind_assoc]
    cases c.play stack with
    | none => rfl
    | some stack => exact ih stack

theorem play_of_isBlank {c : Chunk} (h : c.isBlank = true) (stack : List NodeId) :
    c.play stack = some stack := by
  obtain ⟨-, -, hopens, hcloses⟩ := (isBlank_iff c).mp h
  rw [play, hopens, hcloses]
  rfl

/-- Nodes are popped in the reverse of the order in which they were pushed. -/
theorem popAll_self (nodes stack : List NodeId) :
    Token.popAll nodes (nodes ++ stack) = some stack := by
  induction nodes with
  | nil => rfl
  | cons node rest ih => simp [Token.popAll, ih]

theorem play_selfContained_eq {c : Chunk} (h : c.isSelfContained = true) (stack : List NodeId) :
    c.play stack = some stack := by
  simp only [isSelfContained, Bool.and_eq_true, beq_iff_eq] at h
  rw [play, h.2, List.reverse_reverse]
  exact popAll_self ..

end Chunk

namespace ChunkSequence

open Chunk (Revised)

theorem playAll_revised {cs cs' : List Chunk} (h : List.Forall₂ Revised cs cs')
    (stack : List NodeId) : Chunk.playAll cs' stack = Chunk.playAll cs stack := by
  induction h generalizing stack with
  | nil => rfl
  | cons hc _ ih =>
    simp only [Chunk.playAll, Chunk.play, hc.opens_eq, hc.closes_eq]
    congr 1
    exact funext ih

/-- A token that goes into a chunk is played after the chunk. -/
theorem Room.play_absorb {capacity : Nat} {state : Option State} {t : Token}
    {cs init : List Chunk} {c : Chunk} (h : Room capacity state t cs init c) (hlast : Unclosed cs)
    (stack : List NodeId) : (absorb c t).play stack = (c.play stack).bind t.play := by
  have hplay : (absorb c t).play stack =
      Token.popAll t.closes (t.opens.reverse ++ (c.opens.reverse ++ stack)) := by
    rw [Chunk.play, absorb_eq]
    simp [h.closes_eq hlast]
  rw [hplay, Chunk.play, h.closes_eq hlast]
  rfl

/-- Making room for a token plays nothing. -/
theorem Room.playAll_eq {capacity : Nat} {state : Option State} {t : Token}
    {cs init : List Chunk} {c : Chunk} (h : Room capacity state t cs init c) (stack : List NodeId) :
    Chunk.playAll cs stack = (Chunk.playAll init stack).bind c.play := by
  have hempty : (Chunk.empty t.start state).play = some :=
    funext (Chunk.play_of_isBlank (Chunk.isBlank_empty ..))
  have hsingle : ∀ c : Chunk, Chunk.playAll [c] = c.play :=
    fun c => funext fun stack => Option.bind_fun_some _
  cases h with
  | first => rfl
  | fresh _ => rw [hempty, Option.bind_fun_some]
  | taken hblank =>
    rw [Chunk.playAll_append, hsingle]
    rfl
  | joined _ _ _ => rw [Chunk.playAll_append, hsingle]

/-- Playing the chunks with another token is playing the chunks and then the token. -/
theorem Adds.playAll_eq {capacity : Nat} {state : Option State} {t : Token} {cs cs' : List Chunk}
    (h : Adds capacity state t cs cs') (hlast : Unclosed cs) (stack : List NodeId) :
    Chunk.playAll cs' stack = (Chunk.playAll cs stack).bind t.play := by
  obtain ⟨init, c, hroom, rfl⟩ := h
  have hseam : Chunk.playAll (seam t) = some := by
    funext stack
    unfold seam
    split
    · rfl
    · rw [Chunk.playAll, Chunk.play_of_isBlank (Chunk.isBlank_empty ..)]
      rfl
  rw [Chunk.playAll_append, hroom.playAll_eq, Option.bind_assoc]
  congr 1
  funext stack
  rw [Chunk.playAll, hroom.play_absorb hlast, hseam, Option.bind_fun_some]

/-- Chunks play what the tokens play that were added to them. -/
theorem playAll_changes (changes : List Change) {b : ChunkSequence}
    (h : Unclosed b.chunks.toList) (stack : List NodeId) :
    Chunk.playAll (changes.foldl change b).chunks.toList stack =
      (Chunk.playAll b.chunks.toList stack).bind (Token.playAll (tokensOf changes)) := by
  induction changes generalizing b with
  | nil => exact (Option.bind_fun_some _).symm
  | cons c rest ih =>
    cases c with
    | add state t =>
      have hadds := adds_add b state t
      rw [List.foldl_cons, change, ih (hadds.unclosed h), hadds.playAll_eq h, Option.bind_assoc]
      rfl
    | remember limit =>
      have hrev := revised_remember b limit
      rw [List.foldl_cons, change, ih (h.revised hrev), playAll_revised hrev, tokensOf]

/-- Adding chunks to an assembly one by one, each close finds its node on top of the stack, be it
the stack of the whole list or that of a subtree. -/
def AssemblesCleanly (stop : Nat) : Assembly × Array Subtree → List Chunk → Prop
  | _, [] => True
  | made, c :: rest =>
    (if isShared c stop then
        Assembly.ClosesTop (0 + c.length) (Assembly.empty.enterChunk c 0) c.closes
      else Assembly.ClosesTop (c.start + c.length) (made.1.enterChunk c c.start) c.closes) ∧
      AssemblesCleanly stop (assembleChunk stop made c) rest

theorem assemblesCleanly_of_playAll {stop : Nat} {cs : List Chunk}
    {made : Assembly × Array Subtree} {stack : List NodeId}
    (h : Chunk.playAll cs made.1.openNodes = some stack) : AssemblesCleanly stop made cs := by
  induction cs generalizing made with
  | nil => trivial
  | cons c rest ih =>
    obtain ⟨next, hplay, hrest⟩ := Option.bind_eq_some_iff.mp h
    unfold AssemblesCleanly
    by_cases hshared : isShared c stop = true
    · have hself : c.isSelfContained = true := by
        simp only [isShared, Bool.and_eq_true] at hshared
        exact hshared.1
      obtain rfl : made.1.openNodes = next := by
        rw [Chunk.play_selfContained_eq hself] at hplay
        exact Option.some.inj hplay
      have halone := Chunk.play_selfContained_eq hself Assembly.empty.openNodes
      rw [Chunk.play, ← Assembly.openNodes_enterChunk _ _ 0] at halone
      rw [if_pos hshared, assembleChunk, if_pos hshared]
      exact ⟨(Assembly.closesTop_of_popAll _ halone).1, ih (by rw [Assembly.openNodes_emit, hrest])⟩
    · rw [Chunk.play, ← Assembly.openNodes_enterChunk _ _ c.start] at hplay
      obtain ⟨hcloses, hstack⟩ := Assembly.closesTop_of_popAll (c.start + c.length) hplay
      rw [if_neg hshared, assembleChunk, if_neg hshared]
      refine ⟨hcloses, ih ?_⟩
      rw [Assembly.addChunk_eq, hstack, hrest]

end ChunkSequence

/-! ## Runs of a grammar -/

namespace Grammar

/-- The tokens of steps taken one after the other from the initial state, each at any place, and the
state after them. -/
inductive Run (g : Grammar) : List Token → State → Prop where
  | start : Run g [] g.initialState
  | step {tokens : List Token} {s : State} {place : Text.Place} {step : MatchStep} :
      Run g tokens s → g.stepAt s place = some step → Run g (tokens ++ step.tokens) step.state

/-- The tokens of a run leave just the nodes of the regions open after it. -/
theorem Run.playAll {g : Grammar} {tokens : List Token} {s : State} (h : g.Run tokens s) :
    Token.playAll tokens [] = some s.openNodes := by
  induction h with
  | start => rfl
  | step _ hstep ih =>
    rw [Token.playAll_append, ih]
    exact stepAt_mirrors hstep

/-- The nodes that a token opens and closes. -/
def nodesOf (t : Token) : List NodeId × List NodeId := (t.opens, t.closes)

theorem playAll_congr {a b : List Token} (h : a.map nodesOf = b.map nodesOf)
    (stack : List NodeId) : Token.playAll a stack = Token.playAll b stack := by
  induction a generalizing b stack with
  | nil =>
    obtain rfl := List.map_eq_nil_iff.mp h.symm
    rfl
  | cons t rest ih =>
    cases b with
    | nil => cases h
    | cons u more =>
      rw [List.map_cons, List.map_cons, List.cons.injEq, nodesOf, nodesOf, Prod.mk.injEq] at h
      obtain ⟨⟨hopens, hcloses⟩, hrest⟩ := h
      simp only [Token.playAll, Token.play, hopens, hcloses]
      congr 1
      exact funext fun stack => ih hrest stack

/-- The tokens of a run and the regions of its last state go in step. -/
structure Lockstep (g : Grammar) (tokens : List Token) (s : State) : Prop where
  /-- A step from here pops just the nodes it says, and leaves those of the regions after it. -/
  step : ∀ place step, g.stepAt s place = some step →
    Token.playAll step.tokens (s.frames.filterMap Frame.node).reverse =
      some (step.state.frames.filterMap Frame.node).reverse
  /-- Taking up the tokens one by one, each close finds its node on top of the stack. -/
  walk : Assembly.WalksCleanly .empty tokens
  /-- So it does in chunks made of the tokens, at whatever positions they stand and whichever
  records are kept. -/
  chunks : ∀ (capacity : Nat) (changes : List ChunkSequence.Change) (stop : Nat),
    (ChunkSequence.tokensOf changes).map nodesOf = tokens.map nodesOf →
    ChunkSequence.AssemblesCleanly stop (.empty, #[])
      ((changes.foldl ChunkSequence.change (.empty capacity)).upTo stop).toList

/-- In every state that a run comes to, its tokens and its regions are in step. -/
theorem Run.lockstep {g : Grammar} {tokens : List Token} {s : State} (h : g.Run tokens s) :
    g.Lockstep tokens s := by
  refine ⟨?_, Assembly.walksCleanly_of_playAll h.playAll, ?_⟩
  · intro place step hstep
    rw [State.filterMap_frames, State.filterMap_frames, List.reverse_reverse, List.reverse_reverse]
    exact stepAt_mirrors hstep
  · intro capacity changes stop hnodes
    have hplay := ChunkSequence.playAll_changes changes (b := .empty capacity)
      (by simp [ChunkSequence.Unclosed, ChunkSequence.empty]) []
    have hempty : Chunk.playAll (ChunkSequence.empty capacity).chunks.toList [] = some [] := rfl
    rw [hempty, Option.bind_some, playAll_congr hnodes, h.playAll] at hplay
    have htake := List.takeWhile_toArray (fun c : Chunk => decide (c.start ≤ stop))
      (changes.foldl ChunkSequence.change (.empty capacity)).chunks.toList
    rw [Array.toArray_toList] at htake
    rw [ChunkSequence.upTo, htake]
    rw [← List.takeWhile_append_dropWhile (p := fun c : Chunk => decide (c.start ≤ stop))
      (l := (changes.foldl ChunkSequence.change (.empty capacity)).chunks.toList),
      Chunk.playAll_append] at hplay
    obtain ⟨stack, hfront, -⟩ := Option.bind_eq_some_iff.mp hplay
    have hbegin : Assembly.empty.openNodes = [] := rfl
    rw [← hbegin] at hfront
    exact ChunkSequence.assemblesCleanly_of_playAll hfront

/-- A group is opened and closed. -/
theorem lockstep_groups :
    groups.Run [⟨none, 0, 1, [⟨3⟩], []⟩, ⟨none, 1, 2, [], [⟨3⟩]⟩] groups.initialState ∧
      groups.Lockstep [⟨none, 0, 1, [⟨3⟩], []⟩, ⟨none, 1, 2, [], [⟨3⟩]⟩] groups.initialState := by
  have hopen : groups.stepAt groups.initialState (.atByte ['(', ')'] 0) =
      some ⟨groups.initialState.push ⟨some ⟨3⟩, 1⟩, 1, [⟨none, 0, 1, [⟨3⟩], []⟩]⟩ := by
    decide +kernel
  have hclose : groups.stepAt (groups.initialState.push ⟨some ⟨3⟩, 1⟩) (.atByte ['(', ')'] 1) =
      some ⟨groups.initialState, 1, [⟨none, 1, 2, [], [⟨3⟩]⟩]⟩ := by decide +kernel
  have hrun := Run.step (Run.step .start hopen) hclose
  exact ⟨hrun, Run.lockstep hrun⟩

end Grammar

end RegionTree
