import RegionTree.Proofs.Chunk.Layout
set_option autoImplicit false

/-!
# Where parsing can go on

Parsing can go on from a chunk with a state.  A token that comes with a state makes such a chunk, or
goes into one that has been there, and takes nothing away (`Adds.canRestart_of_some`).  A token that
comes without one makes none; it takes the state from a chunk only if that chunk is the last one and
still blank (`Adds.canRestart_of_settled`).  For the first token of a step to leave its chunk blank,
it has to be bare: without node and length, opening and closing nothing (`Adds.settled_or_bare`).
-/

namespace RegionTree

/-- A token that leaves nothing in a chunk. -/
structure Token.IsBare (t : Token) : Prop where
  node : t.node = none
  opens : t.opens = []
  closes : t.closes = []
  stop_le : t.stop ≤ t.start

namespace ChunkSequence

open Chunk (Revised)

/-! ## The last place where parsing can go on -/

/-- Whether parsing can go on from some of the chunks. -/
def CanRestart (cs : List Chunk) : Prop := ∃ c ∈ cs, c.state ≠ none

/-- The last chunk from which parsing can go on. -/
def lastRestart (b : ChunkSequence) : Option Nat := b.restartIndex (b.size - 1)

theorem lastRestart_eq (b : ChunkSequence) : b.lastRestart = b.lastRestartIn 0 b.size := by
  have hcount : min (b.size - 1 + 1) b.size = b.size := by omega
  rw [lastRestart, restartIndex, hcount]

/-- Behind the last restartable chunk of a stretch there is none. -/
theorem lastRestartIn_last {b : ChunkSequence} {start count i j : Nat} {d : Chunk}
    (h : b.lastRestartIn start count = some i) (hj : i < j) (hstop : j < start + count)
    (hd : b.chunks.toList[j]? = some d) : d.state = none := by
  induction count with
  | zero => cases h
  | succ count ih =>
    unfold lastRestartIn at h
    split at h
    · obtain rfl := Option.some.inj h
      omega
    · rename_i hnot
      rcases Nat.lt_or_ge j (start + count) with hlt | hge
      · exact ih h hlt
      · obtain rfl : j = start + count := by omega
        rw [Array.getElem?_toList] at hd
        simpa [hd, Chunk.canRestart] using hnot

/-- The last chunk from which parsing can go on is one, and none behind it is. -/
theorem lastRestart_eq_some {b : ChunkSequence} {i : Nat} (h : b.lastRestart = some i) :
    (∃ c, b.chunks.toList[i]? = some c ∧ c.state ≠ none) ∧
      ∀ j d, i < j → b.chunks.toList[j]? = some d → d.state = none := by
  rw [lastRestart_eq] at h
  obtain ⟨-, -, c, s, hc, hs⟩ := lastRestartIn_eq_some h
  refine ⟨⟨c, hc, by simp [hs]⟩, ?_⟩
  intro j d hj hd
  have hsize : b.size = b.chunks.toList.length := rfl
  obtain ⟨hlt, -⟩ := List.getElem?_eq_some_iff.mp hd
  exact lastRestartIn_last h hj (by omega) hd

theorem lastRestart_eq_none {b : ChunkSequence} (h : b.lastRestart = none) :
    ¬ CanRestart b.chunks.toList := by
  rw [lastRestart_eq] at h
  rintro ⟨c, hc, hsome⟩
  obtain ⟨i, hi, rfl⟩ := List.mem_iff_getElem.mp hc
  obtain ⟨s, hs⟩ := Option.ne_none_iff_exists'.mp hsome
  have hsize : b.size = b.chunks.toList.length := rfl
  exact lastRestartIn_ne_none (List.getElem?_eq_getElem hi) hs (Nat.zero_le i) (by omega) h

/-- The last chunk of all is the last one from which parsing can go on, if it has a state. -/
theorem lastRestart_concat {b : ChunkSequence} {front : List Chunk} {c : Chunk}
    (h : b.chunks.toList = front ++ [c]) (hc : c.state ≠ none) :
    b.lastRestart = some front.length := by
  have hlast : b.chunks.toList[front.length]? = some c := by simp [h]
  cases hfound : b.lastRestart with
  | none => exact absurd ⟨c, by simp [h], hc⟩ (lastRestart_eq_none hfound)
  | some i =>
    obtain ⟨⟨e, he, -⟩, hlater⟩ := lastRestart_eq_some hfound
    obtain ⟨hlt, -⟩ := List.getElem?_eq_some_iff.mp he
    rw [h, List.length_append, List.length_singleton] at hlt
    by_contra hne
    have hbefore : i < front.length := by
      have : i ≠ front.length := fun heq => hne (congrArg some heq)
      omega
    exact hc (hlater _ c hbefore hlast)

/-- The place depends on the states only. -/
theorem lastRestart_congr {b b' : ChunkSequence}
    (h : b'.chunks.toList.map Chunk.state = b.chunks.toList.map Chunk.state) :
    b'.lastRestart = b.lastRestart := by
  have hsize : b'.size = b.size := by
    have := congrArg List.length h
    simpa [size] using this
  have hstate : ∀ i : Nat, (b'.chunks[i]?).any Chunk.canRestart =
      (b.chunks[i]?).any Chunk.canRestart := by
    intro i
    have hi := congrArg (fun l => l[i]?) h
    simp only [List.getElem?_map, Array.getElem?_toList] at hi
    have hany : ∀ o : Option Chunk,
        o.any Chunk.canRestart = (o.map Chunk.state).any Option.isSome := by
      intro o
      cases o <;> rfl
    rw [hany, hany, hi]
  have hin : ∀ count, b'.lastRestartIn 0 count = b.lastRestartIn 0 count := by
    intro count
    induction count with
    | zero => rfl
    | succ count ih => rw [lastRestartIn, lastRestartIn, hstate, ih]
  rw [lastRestart_eq, lastRestart_eq, hsize, hin]

theorem canRestart_congr {cs cs' : List Chunk} (h : cs'.map Chunk.state = cs.map Chunk.state)
    (hcs : CanRestart cs) : CanRestart cs' := by
  obtain ⟨c, hc, hsome⟩ := hcs
  have hmem : c.state ∈ cs'.map Chunk.state := h ▸ List.mem_map_of_mem hc
  obtain ⟨c', hc', hstate⟩ := List.mem_map.mp hmem
  exact ⟨c', hc', hstate ▸ hsome⟩

theorem map_state_revised {cs cs' : List Chunk} (h : List.Forall₂ Revised cs cs') :
    cs'.map Chunk.state = cs.map Chunk.state := by
  induction h with
  | nil => rfl
  | cons hc _ ih => rw [List.map_cons, List.map_cons, hc.state_eq, ih]

/-! ## Tokens -/

/-- No chunk begins at a token, nor behind it: it goes into the last chunk. -/
theorem map_state_add {b : ChunkSequence} {state : Option State} {t : Token}
    (h : (b.add state t).2 = false) :
    (b.add state t).1.chunks.toList.map Chunk.state = b.chunks.toList.map Chunk.state := by
  have hroom : (b.makeRoom state t).1 = b.chunks ∧ t.closes.isEmpty = true := by
    unfold add at h
    dsimp only at h
    split at h
    · rename_i hcloses
      refine ⟨?_, hcloses⟩
      dsimp only at h
      unfold makeRoom at h ⊢
      split at h
      · cases h
      · split at h
        · cases h
        · split at h
          · cases h
          · rename_i hblank hnew
            rw [if_neg hblank, if_neg hnew]
    · cases h
  unfold add
  dsimp only
  rw [hroom.1, if_pos hroom.2]
  dsimp only
  rw [Array.toList_modify]
  apply List.ext_getElem (by simp)
  intro i h₁ h₂
  rw [List.getElem_map, List.getElem_map, List.getElem_modify]
  split
  · exact state_absorb _ t
  · rfl

/-- A token that leaves the chunk blank that starts at it is bare. -/
theorem isBare_of_absorb {c : Chunk} {t : Token} (h : (absorb c t).isBlank = true)
    (hstart : c.start = t.start) : t.IsBare := by
  rw [Chunk.isBlank_iff, absorb_eq] at h
  obtain ⟨hlength, hleaves, hopens, hcloses⟩ := h
  dsimp only at hlength hleaves hopens hcloses
  refine ⟨?_, (List.append_eq_nil_iff.mp hopens).2, (List.append_eq_nil_iff.mp hcloses).2, ?_⟩
  · have hnone := congrArg Array.toList hleaves
    cases hnode : t.node with
    | none => rfl
    | some n => simp [leavesAt, hnode] at hnone
  · omega

/-- A blank chunk at the end has no state. -/
def Settled (cs : List Chunk) : Prop :=
  ∀ c, cs.getLast? = some c → c.isBlank = true → c.state = none

variable {capacity : Nat} {state : Option State} {t : Token} {cs cs' : List Chunk}

theorem Adds.length_le (h : Adds capacity state t cs cs') : cs.length ≤ cs'.length := by
  obtain ⟨init, c, hroom, rfl⟩ := h
  cases hroom <;> simp

/-- A token with a state leaves a place where parsing can go on, if there was one. -/
theorem Adds.canRestart_of_some {s : State} (h : Adds capacity (some s) t cs cs')
    (hcs : CanRestart cs) : CanRestart cs' := by
  obtain ⟨init, c, hroom, rfl⟩ := h
  have hnew : c.state ≠ none → CanRestart (init ++ absorb c t :: seam t) :=
    fun hc => ⟨absorb c t, by simp, by rwa [state_absorb]⟩
  cases hroom with
  | first => exact hnew (by simp [Chunk.empty])
  | fresh _ => exact hnew (by simp [Chunk.empty])
  | taken _ => exact hnew (by simp)
  | @joined init last _ _ _ =>
    obtain ⟨e, he, hsome⟩ := hcs
    rcases List.mem_append.mp he with he | he
    · exact ⟨e, by simp [he], hsome⟩
    · rw [List.mem_singleton.mp he] at hsome
      exact hnew hsome

/-- A token without a state leaves a place where parsing can go on, if there was one and the last
chunk is no blank one with a state.  It is the same with the tokens behind it. -/
theorem Adds.canRestart_of_settled (h : Adds capacity none t cs cs') (hcs : Settled cs) :
    Settled cs' ∧ (CanRestart cs → CanRestart cs') := by
  obtain ⟨init, c, hroom, rfl⟩ := h
  have hsettled : (c.isBlank = true → c.state = none) → Settled (init ++ absorb c t :: seam t) := by
    intro hc e he hblank
    rcases last_seam he with ⟨rfl, -⟩ | rfl
    · rw [state_absorb]
      exact hc (isBlank_of_absorb hblank)
    · rfl
  cases hroom with
  | first => exact ⟨hsettled fun _ => rfl, fun ⟨e, he, _⟩ => by cases he⟩
  | fresh _ =>
    exact ⟨hsettled fun _ => rfl, fun ⟨e, he, hsome⟩ => ⟨e, List.mem_append_left _ he, hsome⟩⟩
  | @taken init last hlast =>
    refine ⟨hsettled fun _ => rfl, ?_⟩
    rintro ⟨e, he, hsome⟩
    rcases List.mem_append.mp he with he | he
    · exact ⟨e, by simp [he], hsome⟩
    · rw [List.mem_singleton.mp he] at hsome
      exact absurd (hcs last (by simp) hlast) hsome
  | @joined init c hlast _ _ =>
    refine ⟨hsettled fun hblank => ?_, ?_⟩
    · rw [hlast] at hblank
      cases hblank
    · rintro ⟨e, he, hsome⟩
      rcases List.mem_append.mp he with he | he
      · exact ⟨e, by simp [he], hsome⟩
      · rw [List.mem_singleton.mp he] at hsome
        exact ⟨absorb c t, by simp, by rwa [state_absorb]⟩

/-- A token after which the last chunk is blank and has a state is bare. -/
theorem Adds.settled_or_bare (h : Adds capacity state t cs cs') : Settled cs' ∨ t.IsBare := by
  obtain ⟨init, c, hroom, rfl⟩ := h
  cases hblank : (absorb c t).isBlank with
  | false =>
    refine .inl fun e he hlast => ?_
    rcases last_seam he with ⟨rfl, -⟩ | rfl
    · rw [hblank] at hlast
      cases hlast
    · rfl
  | true =>
    refine .inr (isBare_of_absorb hblank ?_)
    cases hroom with
    | first => rfl
    | fresh _ => rfl
    | taken _ => rfl
    | joined hlast _ _ =>
      rw [isBlank_of_absorb hblank] at hlast
      cases hlast

end ChunkSequence

end RegionTree
