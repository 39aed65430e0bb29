import RegionTree.Proofs.Chunk.Restarts
set_option autoImplicit false

/-!
# The tokens of a chunk

Every token goes into one chunk, so the chunks of a sequence cut the list of the tokens that were
added into shares, one for each chunk.  `Chunk.Gathers` says what a chunk is, given its share.

Main statement: `chunks_ingest`.  Nothing is lost, doubled or put in another order when tokens are
cut into chunks; a chunk opens its nodes where the token starts that opens them, closes its nodes
where the token stops that closes them, starts at the token whose state it has, and takes no token
of a later step once it is full.
-/

namespace RegionTree

/-- A token with the state before it, if a step of matching starts there. -/
structure Incoming where
  state : Option State
  token : Token

/-- The leaf of a token, at its place in the document. -/
def Token.placed (t : Token) : List Leaf := t.node.toList.map fun node => ⟨node, t.start, t.stop⟩

namespace Chunk

/-- The leaves of a chunk, at their places in the document. -/
def placed (c : Chunk) : List Leaf :=
  c.leaves.toList.map fun l => ⟨l.node, c.start + l.start, c.start + l.stop⟩

/-- What a chunk is, given the tokens that went into it. -/
structure Gathers (capacity : Nat) (c : Chunk) (share : List Incoming) : Prop where
  /-- The leaves are those of the tokens. -/
  placed : c.placed = share.flatMap fun x => x.token.placed
  /-- So are the nodes that open. -/
  opens : c.opens = share.flatMap fun x => x.token.opens
  /-- So are the nodes that close. -/
  closes : c.closes = share.flatMap fun x => x.token.closes
  /-- One token opens all nodes, and the chunk starts where it starts. -/
  opens_at : ∀ x ∈ share, x.token.opens ≠ [] → c.opens = x.token.opens ∧ c.start = x.token.start
  /-- One token closes all nodes, and the chunk stops where it stops. -/
  closes_at : ∀ x ∈ share, x.token.closes ≠ [] → c.closes = x.token.closes ∧ c.stop = x.token.stop
  /-- The state of the chunk came with the first token that is not bare, or the last if all are. -/
  state : ∀ s, c.state = some s → ∃ bare t rest, share = bare ++ ⟨some s, t⟩ :: rest ∧
    c.start = t.start ∧ ∀ x ∈ bare, x.token.IsBare
  /-- No step starts at a token that comes when the chunk is full. -/
  full : ∀ front x rest, share = front ++ x :: rest →
    capacity ≤ (front.flatMap fun y => y.token.placed).length → x.state = none
  /-- A blank chunk has nothing but bare tokens. -/
  bare : c.isBlank = true → ∀ x ∈ share, x.token.IsBare

theorem gathers_empty (capacity pos : Nat) : Gathers capacity (.empty pos none) [] where
  placed := rfl
  opens := rfl
  closes := rfl
  opens_at := by simp
  closes_at := by simp
  state := by simp [empty]
  full := by simp
  bare := by simp

end Chunk

theorem Token.IsBare.placed {t : Token} (h : t.IsBare) : t.placed = [] := by
  rw [Token.placed, h.node]
  rfl

namespace ChunkSequence

open Chunk (Gathers)

variable {capacity : Nat} {state : Option State} {t : Token} {c : Chunk} {share : List Incoming}

/-! ## A token more -/

theorem placed_absorb (hstart : c.start ≤ t.start) (ht : t.start ≤ t.stop)
    (hbound : t.stop < offsetBound) : (absorb c t).placed = c.placed ++ t.placed := by
  cases hnode : t.node with
  | none => simp [absorb_eq, Chunk.placed, leavesAt, Token.placed, hnode]
  | some node =>
    have hfrom : c.start + (t.start - c.start) % offsetBound = t.start := by
      rw [Nat.mod_eq_of_lt (by omega), Nat.add_sub_cancel' hstart]
    have hto : c.start + (t.stop - c.start) % offsetBound = t.stop := by
      rw [Nat.mod_eq_of_lt (by omega), Nat.add_sub_cancel' (hstart.trans ht)]
    simp [absorb_eq, Chunk.placed, leavesAt, Token.placed, hnode, hfrom, hto]

/-- A blank chunk takes a token as its first. -/
theorem gathers_absorb_blank (hblank : c.isBlank = true) (hstart : c.start = t.start)
    (hbare : ∀ x ∈ share, x.token.IsBare) (ht : t.start ≤ t.stop) (hbound : t.stop < offsetBound)
    (hcapacity : 0 < capacity) :
    Gathers capacity (absorb c t) (share ++ [⟨c.state, t⟩]) := by
  obtain ⟨hlength, hleaves, hopens, hcloses⟩ := (Chunk.isBlank_iff c).mp hblank
  have hstop : (absorb c t).stop = t.stop :=
    stop_absorb (by rw [Chunk.stop, hlength, hstart]; exact Nat.le_refl _) ht
  have hplaced : ∀ front : List Incoming, (∀ x ∈ front, x.token.IsBare) →
      front.flatMap (fun x => x.token.placed) = [] :=
    fun front hfront => List.flatMap_eq_nil_iff.mpr fun x hx => (hfront x hx).placed
  have hopened : share.flatMap (fun x => x.token.opens) = [] :=
    List.flatMap_eq_nil_iff.mpr fun x hx => (hbare x hx).opens
  have hclosed : share.flatMap (fun x => x.token.closes) = [] :=
    List.flatMap_eq_nil_iff.mpr fun x hx => (hbare x hx).closes
  have hopens' : (absorb c t).opens = t.opens := by rw [absorb_eq, hopens, List.nil_append]
  have hcloses' : (absorb c t).closes = t.closes := by
    rw [closes_absorb, hcloses, List.nil_append]
  constructor
  case placed =>
    rw [placed_absorb (Nat.le_of_eq hstart) ht hbound, List.flatMap_append, hplaced share hbare]
    simp [Chunk.placed, hleaves]
  case opens => simp [hopens', hopened]
  case closes => rw [hcloses', List.flatMap_append, hclosed]; simp
  case opens_at =>
    refine List.forall_mem_append.mpr ⟨fun x hx hne => absurd (hbare x hx).opens hne, ?_⟩
    exact List.forall_mem_singleton.mpr fun _ => ⟨hopens', by rw [start_absorb, hstart]⟩
  case closes_at =>
    refine List.forall_mem_append.mpr ⟨fun x hx hne => absurd (hbare x hx).closes hne, ?_⟩
    exact List.forall_mem_singleton.mpr fun _ => ⟨hcloses', hstop⟩
  case state =>
    intro s hs
    rw [state_absorb] at hs
    exact ⟨share, t, [], by rw [hs], by rw [start_absorb, hstart], hbare⟩
  case full =>
    -- all in front of any token of the share is bare
    intro front x rest hshare hfull
    have hfront : ∀ y ∈ front, y ∈ share := by
      intro y hy
      have hlast := congrArg List.dropLast hshare
      rw [List.dropLast_concat, List.dropLast_append_of_ne_nil (by simp)] at hlast
      rw [hlast]
      exact List.mem_append_left _ hy
    rw [hplaced front fun y hy => hbare y (hfront y hy), List.length_nil] at hfull
    omega
  case bare =>
    intro hleft
    have htoken : t.IsBare := isBare_of_absorb hleft hstart
    exact List.forall_mem_append.mpr ⟨hbare, List.forall_mem_singleton.mpr htoken⟩

/-- A chunk that holds something takes another token. -/
theorem gathers_absorb_held (h : Gathers capacity c share) (hheld : c.isBlank = false)
    (hclosed : c.closes = []) (hstop : c.stop ≤ t.start) (hopens : t.opens = [])
    (hroom : state = none ∨ c.leaves.size < capacity) (ht : t.start ≤ t.stop)
    (hbound : t.stop < offsetBound) :
    Gathers capacity (absorb c t) (share ++ [⟨state, t⟩]) := by
  have hstart : c.start ≤ t.start := c.start_le_stop.trans hstop
  constructor
  case placed => simp [placed_absorb hstart ht hbound, h.placed]
  case opens => simp [absorb_eq, h.opens]
  case closes => simp [h.closes]
  case opens_at =>
    have hsame : (absorb c t).opens = c.opens := by rw [absorb_eq, hopens, List.append_nil]
    rw [hsame, start_absorb]
    exact List.forall_mem_append.mpr ⟨h.opens_at, List.forall_mem_singleton.mpr (absurd hopens)⟩
  case closes_at =>
    have hnone : ∀ x ∈ share, x.token.closes = [] := by
      rwa [h.closes, List.flatMap_eq_nil_iff] at hclosed
    refine List.forall_mem_append.mpr ⟨fun x hx hne => absurd (hnone x hx) hne, ?_⟩
    exact List.forall_mem_singleton.mpr fun _ =>
      ⟨by rw [closes_absorb, hclosed, List.nil_append], stop_absorb hstop ht⟩
  case state =>
    intro s hs
    rw [state_absorb] at hs
    obtain ⟨bare, u, rest, rfl, hu, hbare⟩ := h.state s hs
    exact ⟨bare, u, rest ++ [⟨state, t⟩], by simp, by rw [start_absorb, hu], hbare⟩
  case full =>
    intro front x rest hshare hfull
    rcases List.eq_nil_or_concat' rest with rfl | ⟨rest, last, rfl⟩
    · obtain ⟨rfl, hx⟩ := List.append_inj' hshare rfl
      obtain rfl := List.singleton_inj.mp hx
      rw [← h.placed, Chunk.placed, List.length_map, Array.length_toList] at hfull
      exact hroom.resolve_right (Nat.not_lt.mpr hfull)
    · rw [← List.cons_append, ← List.append_assoc] at hshare
      obtain ⟨rfl, -⟩ := List.append_inj' hshare rfl
      exact h.full front x rest rfl hfull
  case bare =>
    intro hblank
    rw [isBlank_absorb hheld t] at hblank
    cases hblank

/-! ## Shares of all chunks -/

/-- The tokens added, cut into shares of the chunks. -/
def Shared (capacity : Nat) (cs : List Chunk) (added : List Incoming) : Prop :=
  ∃ shares : List (List Incoming), shares.flatten = added ∧
    List.Forall₂ (Gathers capacity) cs shares

variable {cs cs' init : List Chunk} {added : List Incoming}

theorem Shared.concat (h : Shared capacity init added) (hc : Gathers capacity c share) :
    Shared capacity (init ++ [c]) (added ++ share) := by
  obtain ⟨shares, rfl, hshares⟩ := h
  exact ⟨shares ++ [share], by simp, List.rel_append hshares (.cons hc .nil)⟩

/-- The last chunk has the last share. -/
theorem Shared.exists_last (h : Shared capacity (init ++ [c]) added) :
    ∃ front share, added = front ++ share ∧ Shared capacity init front ∧
      Gathers capacity c share := by
  obtain ⟨shares, rfl, hshares⟩ := h
  have hreverse := List.forall₂_reverse_iff.mpr hshares
  rw [List.reverse_append, List.reverse_singleton, List.singleton_append] at hreverse
  obtain ⟨share, front, hc, hinit, heq⟩ := List.forall₂_cons_left_iff.mp hreverse
  obtain rfl : shares = front.reverse ++ [share] := by
    rw [← List.reverse_reverse shares, heq, List.reverse_cons]
  refine ⟨front.reverse.flatten, share, by simp, ⟨front.reverse, rfl, ?_⟩, hc⟩
  rw [← List.reverse_reverse init]
  exact List.forall₂_reverse_iff.mpr hinit

/-- The chunk with room for a token takes it into its share. -/
theorem Room.shared (h : Room capacity state t cs init c) (hcs : Shared capacity cs added)
    (htidy : Tidy cs t.start) (ht : t.start ≤ t.stop) (hbound : t.stop < offsetBound)
    (hcapacity : 0 < capacity) :
    Shared capacity (init ++ [absorb c t]) (added ++ [⟨state, t⟩]) := by
  have hreceives := h.receives htidy
  have hnone : ∀ x ∈ ([] : List Incoming), x.token.IsBare := fun _ hx => absurd hx List.not_mem_nil
  cases h with
  | first =>
    exact hcs.concat (gathers_absorb_blank rfl rfl hnone ht hbound hcapacity)
  | fresh _ =>
    exact hcs.concat (gathers_absorb_blank rfl rfl hnone ht hbound hcapacity)
  | @taken init last hblank =>
    obtain ⟨front, share, rfl, hinit, hlast⟩ := hcs.exists_last
    have htaken : ({ last with start := t.start, state } : Chunk).isBlank = true := hblank
    rw [List.append_assoc]
    exact hinit.concat
      (gathers_absorb_blank htaken rfl (hlast.bare hblank) ht hbound hcapacity)
  | joined hheld hopens hroom =>
    obtain ⟨front, share, rfl, hinit, hlast⟩ := hcs.exists_last
    rw [List.append_assoc]
    exact hinit.concat (gathers_absorb_held hlast hheld hreceives.unclosed hreceives.stop_le hopens
      hroom ht hbound)

theorem Adds.shared (h : Adds capacity state t cs cs') (hcs : Shared capacity cs added)
    (htidy : Tidy cs t.start) (ht : t.start ≤ t.stop) (hbound : t.stop < offsetBound)
    (hcapacity : 0 < capacity) : Shared capacity cs' (added ++ [⟨state, t⟩]) := by
  obtain ⟨init, c, hroom, rfl⟩ := h
  have hshared := hroom.shared hcs htidy ht hbound hcapacity
  rw [seam]
  split
  · exact hshared
  · have hseam := hshared.concat (Chunk.gathers_empty capacity t.stop)
    rwa [List.append_nil, List.append_assoc] at hseam

/-! ## The order of the chunks -/

/-- Every chunk stops before those behind it start. -/
def Apart (cs : List Chunk) : Prop := cs.Pairwise fun c d => c.stop ≤ d.start

theorem Room.apart (h : Room capacity state t cs init c) (hcs : Apart cs)
    (htidy : Tidy cs t.start) : Apart (init ++ [c]) := by
  have hnew : ∀ {init : List Chunk} {c : Chunk}, (∀ e ∈ init, e ∈ cs) → Apart init →
      c.start = t.start → Apart (init ++ [c]) := by
    intro init c hmem hinit hc
    refine List.pairwise_append.mpr ⟨hinit, List.pairwise_singleton .., fun e he d hd => ?_⟩
    obtain rfl := List.mem_singleton.mp hd
    rw [hc]
    exact htidy.stop_le e (hmem e he)
  cases h with
  | first => exact hnew (by simp) .nil rfl
  | fresh _ => exact hnew (by simp) hcs rfl
  | taken _ => exact hnew (by simp +contextual) (List.pairwise_append.mp hcs).1 rfl
  | joined _ _ _ => exact hcs

theorem Adds.apart (h : Adds capacity state t cs cs') (hcs : Apart cs) (htidy : Tidy cs t.start)
    (ht : t.start ≤ t.stop) : Apart cs' := by
  have hafter := h.tidy htidy ht
  obtain ⟨init, c, hroom, rfl⟩ := h
  obtain ⟨hinit, -, hcross⟩ := List.pairwise_append.mp (hroom.apart hcs htidy)
  refine List.pairwise_append.mpr ⟨hinit, List.pairwise_cons.mpr ⟨fun e he => ?_, ?_⟩, ?_⟩
  · rw [eq_of_mem_seam he]
    exact hafter.stop_le _ (by simp)
  · rw [seam]
    split
    · exact .nil
    · exact List.pairwise_singleton ..
  · intro e he d hd
    rcases List.mem_cons.mp hd with rfl | hd
    · rw [start_absorb]
      exact hcross e he c (List.mem_singleton_self c)
    · rw [eq_of_mem_seam hd]
      exact hafter.stop_le e (List.mem_append_left _ he)

/-! ## All tokens -/

/-- The sequence with some tokens added. -/
def ingest (b : ChunkSequence) (added : List Incoming) : ChunkSequence :=
  added.foldl (fun b x => (b.add x.state x.token).1) b

/-- Every token that is added goes into the share of one chunk, and the chunks stay apart: the
induction is on the tokens still to be added. -/
theorem shared_ingest {b : ChunkSequence} {before added : List Incoming} {pos : Nat}
    (hcapacity : 0 < b.capacity) (hshared : Shared b.capacity b.chunks.toList before)
    (hapart : Apart b.chunks.toList) (htidy : Tidy b.chunks.toList pos)
    (horder : InOrder pos (added.map Incoming.token))
    (hbound : ∀ x ∈ added, x.token.stop < offsetBound) :
    Shared b.capacity (b.ingest added).chunks.toList (before ++ added) ∧
      Apart (b.ingest added).chunks.toList := by
  induction added generalizing b before pos with
  | nil => exact ⟨by rwa [List.append_nil], hapart⟩
  | cons x rest ih =>
    obtain ⟨hstart, ht, hrest⟩ := horder
    have hfrom := htidy.mono hstart
    have hadds := adds_add b x.state x.token
    have hx := hadds.shared hshared hfrom ht (hbound x List.mem_cons_self) hcapacity
    rw [← capacity_add b x.state x.token] at hx hcapacity
    have hall := ih hcapacity hx (hadds.apart hapart hfrom ht) (hadds.tidy hfrom ht) hrest
      fun y hy => hbound y (List.mem_cons_of_mem x hy)
    rwa [capacity_add, List.append_assoc] at hall

/-- Chunks that hold just some tokens, in order. -/
structure Holds (capacity : Nat) (cs : List Chunk) (added : List Incoming) : Prop where
  /-- Their leaves, at their places in the document, are those of the tokens. -/
  placed : cs.flatMap Chunk.placed = added.flatMap fun x => x.token.placed
  opens : cs.flatMap Chunk.opens = added.flatMap fun x => x.token.opens
  closes : cs.flatMap Chunk.closes = added.flatMap fun x => x.token.closes
  apart : Apart cs
  /-- Every chunk has a share of the tokens, from one in the list to another. -/
  shared : Shared capacity cs added

/-- What all chunks have of something is what all tokens have of it, if it is so for every chunk and
its share. -/
theorem flatMap_shared {α : Type} {f : Chunk → List α} {g : Incoming → List α}
    (hfg : ∀ {c : Chunk} {share : List Incoming}, Gathers capacity c share →
      f c = share.flatMap g) (h : Shared capacity cs added) : cs.flatMap f = added.flatMap g := by
  obtain ⟨shares, rfl, hshares⟩ := h
  induction hshares with
  | nil => rfl
  | cons hc _ ih => rw [List.flatMap_cons, hfg hc, ih, List.flatten_cons, List.flatMap_append]

/-- The chunks of tokens added in the order of the document hold just these tokens. -/
theorem chunks_ingest (capacity : Nat) (added : List Incoming)
    (horder : InOrder 0 (added.map Incoming.token))
    (hbound : ∀ x ∈ added, x.token.stop < offsetBound) :
    Holds (empty capacity).capacity ((empty capacity).ingest added).chunks.toList added := by
  have hcapacity : 0 < (empty capacity).capacity := Nat.le_max_right capacity 1
  have hnone : Shared (empty capacity).capacity (empty capacity).chunks.toList [] :=
    ⟨[], rfl, .nil⟩
  obtain ⟨hshared, hapart⟩ := shared_ingest hcapacity hnone .nil (.nil 0) horder hbound
  exact {
    placed := flatMap_shared Gathers.placed hshared
    opens := flatMap_shared Gathers.opens hshared
    closes := flatMap_shared Gathers.closes hshared
    apart := hapart
    shared := hshared }

/-- A node around a leaf, a bare token behind it whose chunk is taken by the next step, and a step
that fills that chunk. -/
def sampleIncoming : List Incoming :=
  [⟨some default, ⟨some ⟨4⟩, 0, 1, [⟨3⟩], [⟨3⟩]⟩⟩, ⟨some default, ⟨none, 1, 1, [], []⟩⟩,
    ⟨some default, ⟨none, 2, 3, [], []⟩⟩, ⟨none, ⟨some ⟨4⟩, 3, 4, [], []⟩⟩,
    ⟨none, ⟨some ⟨5⟩, 4, 5, [], []⟩⟩, ⟨some default, ⟨some ⟨5⟩, 5, 6, [], []⟩⟩]

theorem chunks_ingest_sample :
    InOrder 0 (sampleIncoming.map Incoming.token) ∧
      (∀ x ∈ sampleIncoming, x.token.stop < offsetBound) ∧
      Holds (empty 1).capacity ((empty 1).ingest sampleIncoming).chunks.toList sampleIncoming := by
  have horder : InOrder 0 (sampleIncoming.map Incoming.token) := by
    simp [sampleIncoming, InOrder]
  have hbound : ∀ x ∈ sampleIncoming, x.token.stop < offsetBound := by
    simp [sampleIncoming, offsetBound]
  exact ⟨horder, hbound, chunks_ingest 1 sampleIncoming horder hbound⟩

end ChunkSequence

end RegionTree
