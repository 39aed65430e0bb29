import RegionTree.Proofs.Chunk.Layout
import RegionTree.Proofs.Parse.Locality
set_option autoImplicit false

/-!
# The chunks of one step

A step of matching adds its tokens one after the other, and only the first comes with a state.  So
its chunks are the one that takes the first token and those behind it, which have no state
(`Batch`).  A token that leaves its chunk blank may lose the state of the step; a chunk that holds
something keeps what it has.

`feed_lookedTo` sums up what a step does to a sequence.
-/

namespace RegionTree.ChunkSequence

open Chunk (Abut Revised)
open Token (Tiles)

/-- All chunks but the last one are in front of a token. -/
theorem Room.size_le {capacity : Nat} {state : Option State} {t : Token} {b : ChunkSequence}
    {init : List Chunk} {c : Chunk} (h : Room capacity state t b.chunks.toList init c) :
    b.size - 1 ≤ init.length := by
  have hsize : b.size = b.chunks.toList.length := rfl
  rw [hsize]
  generalize b.chunks.toList = cs at h
  cases h with
  | first => exact Nat.zero_le _
  | fresh _ => exact Nat.sub_le _ _
  | taken _ => simp
  | joined _ _ _ => simp

theorem Tidy.of_append {base w : List Chunk} {pos : Nat} (h : Tidy (base ++ w) pos)
    (hw : w ≠ []) : Tidy w pos :=
  ⟨fun c hc => h.stop_le c (by simp [hc]), fun c hc => h.keepsOwn c (by simp [hc]),
    fun c hc => h.unclosed c (by rw [List.getLast?_append_of_ne_nil _ hw, hc])⟩

/-! ## One token after the other -/

/-- Adds tokens in order, at none of which a step starts. -/
def AddsAll (capacity : Nat) : List Token → List Chunk → List Chunk → Prop
  | [], cs, cs' => cs' = cs
  | t :: rest, cs, cs' => ∃ mid, Adds capacity none t cs mid ∧ AddsAll capacity rest mid cs'

theorem addsAll_foldl (b : ChunkSequence) (tokens : List Token) :
    AddsAll b.capacity tokens b.chunks.toList
      (tokens.foldl (fun b token => (b.add none token).1) b).chunks.toList := by
  induction tokens generalizing b with
  | nil => rfl
  | cons t rest ih =>
    refine ⟨_, adds_add b none t, ?_⟩
    have hrest := ih (b.add none t).1
    rwa [capacity_add] at hrest

variable {capacity : Nat} {state : Option State}

/-- Chunks in front of others have no part in what is added. -/
theorem Adds.of_append {t : Token} {base w cs' : List Chunk}
    (h : Adds capacity state t (base ++ w) cs') (hw : w ≠ []) :
    ∃ w', cs' = base ++ w' ∧ w' ≠ [] ∧ Adds capacity state t w w' := by
  obtain ⟨init, c, hroom, rfl⟩ := h
  obtain ⟨front, last, rfl⟩ := List.eq_nil_or_concat'  w |>.resolve_left hw
  generalize hcs : base ++ (front ++ [last]) = cs at hroom
  rw [← List.append_assoc] at hcs
  cases hroom with
  | first => simp at hcs
  | fresh hblank =>
    obtain ⟨rfl, hlast⟩ := List.append_inj' hcs rfl
    obtain rfl := List.singleton_inj.mp hlast
    exact ⟨_, by simp, by simp, _, _, .fresh hblank, rfl⟩
  | taken hblank =>
    obtain ⟨rfl, hlast⟩ := List.append_inj' hcs rfl
    obtain rfl := List.singleton_inj.mp hlast
    exact ⟨_, by rw [List.append_assoc], by simp, _, _, .taken hblank, rfl⟩
  | joined hblank hopens hroom =>
    obtain ⟨rfl, hlast⟩ := List.append_inj' hcs rfl
    obtain rfl := List.singleton_inj.mp hlast
    exact ⟨_, by rw [List.append_assoc], by simp, _, _, .joined hblank hopens hroom, rfl⟩

theorem AddsAll.of_append {tokens : List Token} {base w cs' : List Chunk}
    (h : AddsAll capacity tokens (base ++ w) cs') (hw : w ≠ []) :
    ∃ w', cs' = base ++ w' ∧ AddsAll capacity tokens w w' := by
  induction tokens generalizing w with
  | nil => exact ⟨w, h, rfl⟩
  | cons t rest ih =>
    obtain ⟨mid, hadds, hrest⟩ := h
    obtain ⟨w₁, rfl, hne, hadds⟩ := hadds.of_append hw
    obtain ⟨w', hw', hall⟩ := ih hrest hne
    exact ⟨w', hw', w₁, hadds, hall⟩

/-- Tokens that cover some text leave tidy chunks without gaps behind. -/
theorem AddsAll.tidy {tokens : List Token} {cs cs' : List Chunk} {pos stop : Nat}
    (h : AddsAll capacity tokens cs cs') (htiles : Tiles pos tokens stop) (htidy : Tidy cs pos) :
    Tidy cs' stop ∧ (∀ start, Abut start cs pos → Abut start cs' stop) ∧
      (stop < offsetBound → cs'.flatMap Chunk.actions =
        cs.flatMap Chunk.actions ++ tokens.flatMap Token.actions) := by
  induction tokens generalizing cs pos with
  | nil =>
    obtain rfl : cs' = cs := h
    obtain rfl : pos = stop := htiles
    exact ⟨htidy, fun _ h => h, fun _ => by simp⟩
  | cons t rest ih =>
    obtain ⟨mid, hadds, hall⟩ := h
    obtain ⟨rfl, hle, htiles⟩ := htiles
    obtain ⟨hrest, habut, hactions⟩ := ih hall htiles (hadds.tidy htidy hle)
    refine ⟨hrest, fun start h => habut start (hadds.abut h hle), ?_⟩
    intro hbound
    have hstop : t.stop < offsetBound := Nat.lt_of_le_of_lt htiles.le hbound
    rw [hactions hbound, hadds.actions_eq htidy hle hstop, List.flatMap_cons, List.append_assoc]

/-! ## The shape of a batch -/

/-- What may become of the chunk that takes the first token of a step. -/
structure Heads (c head : Chunk) : Prop where
  state : head.state = none ∨ head.state = c.state ∧ head.start = c.start
  kept : c.isBlank = false →
    head.isBlank = false ∧ head.state = c.state ∧ head.start = c.start ∧ c.reach ≤ head.reach

/-- The chunk that takes the first token of a step, and those without state behind it. -/
def Batch (c : Chunk) (w : List Chunk) : Prop :=
  ∃ head more, w = head :: more ∧ Heads c head ∧ ∀ e ∈ more, e.state = none

theorem state_seam (t : Token) : ∀ e ∈ seam t, e.state = none := by
  intro e he
  rw [eq_of_mem_seam he]
  rfl

theorem batch_absorb (c : Chunk) (t : Token) : Batch c (absorb c t :: seam t) := by
  refine ⟨_, _, rfl, ⟨.inr ⟨state_absorb c t, start_absorb c t⟩, ?_⟩, state_seam t⟩
  intro h
  exact ⟨isBlank_absorb h t, state_absorb c t, start_absorb c t, reach_le_absorb c t⟩

/-- A batch stays one with another token: the cases are those of `Room`, for the first chunk of the
batch and for the others. -/
theorem Batch.adds {c : Chunk} {t : Token} {w w' : List Chunk} (h : Batch c w)
    (hadds : Adds capacity none t w w') : Batch c w' := by
  obtain ⟨init, d, hroom, rfl⟩ := hadds
  obtain ⟨head, more, rfl, hhead, hmore⟩ := h
  generalize hcs : head :: more = cs at hroom
  have hnew : ∀ {init : List Chunk} {d : Chunk}, (∀ e ∈ init, e.state = none) → d.state = none →
      ∀ e ∈ init ++ absorb d t :: seam t, e.state = none := by
    intro init d hinit hd e he
    rcases List.mem_append.mp he with he | he
    · exact hinit e he
    · rcases List.mem_cons.mp he with rfl | he
      · rw [state_absorb, hd]
      · exact state_seam t e he
  cases hroom with
  | first => cases hcs
  | @fresh init last hblank =>
    rw [← hcs, List.cons_append]
    exact ⟨head, _, rfl, hhead, hnew hmore rfl⟩
  | @taken init last hblank =>
    cases init with
    | nil =>
      obtain ⟨rfl, rfl⟩ := List.cons.inj hcs
      refine ⟨_, _, rfl, ⟨.inl (state_absorb ..), ?_⟩, state_seam t⟩
      intro hc
      rw [(hhead.kept hc).1] at hblank
      cases hblank
    | cons x init =>
      obtain ⟨rfl, rfl⟩ := List.cons.inj hcs
      exact ⟨head, _, rfl, hhead, hnew (fun e he => hmore e (by simp [he])) rfl⟩
  | @joined init last hblank _ _ =>
    cases init with
    | nil =>
      obtain ⟨rfl, rfl⟩ := List.cons.inj hcs
      refine ⟨_, _, rfl, ⟨?_, ?_⟩, state_seam t⟩
      · rw [state_absorb, start_absorb]
        exact hhead.state
      · intro hc
        obtain ⟨hkept, hstate, hstart, hreach⟩ := hhead.kept hc
        rw [state_absorb, start_absorb]
        exact ⟨isBlank_absorb hkept t, hstate, hstart,
          Nat.le_trans hreach (reach_le_absorb _ t)⟩
    | cons x init =>
      obtain ⟨rfl, rfl⟩ := List.cons.inj hcs
      exact ⟨head, _, rfl, hhead,
        hnew (fun e he => hmore e (by simp [he])) (hmore _ (by simp))⟩

theorem Batch.addsAll {c : Chunk} {tokens : List Token} {w w' : List Chunk} (h : Batch c w)
    (hall : AddsAll capacity tokens w w') : Batch c w' := by
  induction tokens generalizing w with
  | nil =>
    obtain rfl : w' = w := hall
    exact h
  | cons t rest ih =>
    obtain ⟨mid, hadds, hrest⟩ := hall
    exact ih (h.adds hadds) hrest

theorem Batch.revised {c : Chunk} {w w' : List Chunk} (h : Batch c w)
    (hrev : List.Forall₂ Revised w w') : Batch c w' := by
  obtain ⟨head, more, rfl, hhead, hmore⟩ := h
  cases hrev with
  | cons hfirst hrest =>
    refine ⟨_, _, rfl, ⟨?_, ?_⟩, ?_⟩
    · rw [hfirst.state_eq, hfirst.start_eq]
      exact hhead.state
    · intro hc
      obtain ⟨hkept, hstate, hstart, hreach⟩ := hhead.kept hc
      rw [hfirst.isBlank_eq, hfirst.state_eq, hfirst.start_eq]
      exact ⟨hkept, hstate, hstart, Nat.le_trans hreach hfirst.reach_le⟩
    · intro e he
      obtain ⟨e₀, he₀, hrevised⟩ := exists_of_revised hrest he
      exact hrevised.state_eq.trans (hmore e₀ he₀)

/-! ## How far a batch reaches -/

/-- Some chunk holds something and does not stop before a position. -/
def Reached (w : List Chunk) (pos : Nat) : Prop := ∃ e ∈ w, e.isBlank = false ∧ pos ≤ e.stop

/-- A token with some length is held by a chunk. -/
theorem Adds.reached_of_lt {t : Token} {w w' : List Chunk} (h : Adds capacity state t w w')
    (htidy : Tidy w t.start) (ht : t.start < t.stop) : Reached w' t.stop := by
  obtain ⟨init, c, hroom, rfl⟩ := h
  have hstop := (hroom.receives htidy).stop_le
  refine ⟨absorb c t, by simp, isBlank_absorb_of_lt ?_ ht, ?_⟩
  · exact Nat.le_trans c.start_le_stop hstop
  · exact Nat.le_of_eq (stop_absorb hstop (Nat.le_of_lt ht)).symm

/-- What was reached stays reached: the chunk that takes the token holds it, or else the token has
no length and the chunk that was there is still there. -/
theorem Adds.reached {t : Token} {w w' : List Chunk} (h : Adds capacity state t w w')
    (htidy : Tidy w t.start) (ht : t.start ≤ t.stop) (hw : Reached w t.start) :
    Reached w' t.stop := by
  rcases Nat.lt_or_ge t.start t.stop with hlt | hge
  · exact h.reached_of_lt htidy hlt
  · obtain ⟨init, c, hroom, rfl⟩ := h
    obtain ⟨e, he, hblank, hle⟩ := hw
    have hstop := stop_absorb (hroom.receives htidy).stop_le ht
    have hinit : e ∈ init → Reached (init ++ absorb c t :: seam t) t.stop :=
      fun he => ⟨e, by simp [he], hblank, by omega⟩
    cases hroom with
    | first => cases he
    | fresh _ => exact hinit he
    | taken hlast =>
      rcases List.mem_append.mp he with he | he
      · exact hinit he
      · rw [List.mem_singleton.mp he, hlast] at hblank
        cases hblank
    | joined hlast _ _ =>
      exact ⟨absorb c t, by simp, isBlank_absorb hlast t, Nat.le_of_eq hstop.symm⟩

theorem AddsAll.reached {tokens : List Token} {w w' : List Chunk} {pos stop : Nat}
    (h : AddsAll capacity tokens w w') (htiles : Tiles pos tokens stop) (htidy : Tidy w pos)
    (hw : Reached w pos ∨ pos < stop) : Reached w' stop := by
  induction tokens generalizing w pos with
  | nil =>
    obtain rfl : w' = w := h
    obtain rfl : pos = stop := htiles
    exact hw.resolve_right (Nat.lt_irrefl pos)
  | cons t rest ih =>
    obtain ⟨mid, hadds, hrest⟩ := h
    obtain ⟨rfl, hle, htiles⟩ := htiles
    apply ih hrest htiles (hadds.tidy htidy hle)
    rcases Nat.lt_or_ge t.start t.stop with hlt | hge
    · exact .inl (hadds.reached_of_lt htidy hlt)
    · rcases hw with hw | hlt
      · exact .inl (hadds.reached htidy hle hw)
      · exact .inr (by omega)

/-! ## A step -/

/-- What the chunks `init ++ w` are after a step, if `c` was the chunk with room for its first
token: `c` was there before or is new with the state of the step, and the chunks of the step do what
the step does and reach as far as it looked. -/
structure StepChunks (c : Chunk) (w : List Chunk) (actions : List Action) (stop seen : Nat) :
    Prop where
  batch : Batch c w
  reached : ∃ e ∈ w, e.isBlank = false ∧ seen ≤ e.reach
  actions : stop < offsetBound → w.flatMap Chunk.actions = c.actions ++ actions

/-- What a step does to a sequence: adds its tokens, and notes how far it looked. -/
theorem feed_lookedTo {b : ChunkSequence} {s : State} {tokens : List Token} {pos stop : Nat}
    (htidy : Tidy b.chunks.toList pos) (htiles : Tiles pos tokens stop) (hlt : pos < stop)
    (reach : Nat) :
    ∃ (first : Token) (init init' : List Chunk) (c : Chunk) (w : List Chunk),
      first.start = pos ∧ Room b.capacity (some s) first b.chunks.toList init c ∧
      ((b.feed s tokens).lookedTo (b.size - 1) reach).chunks.toList = init' ++ w ∧
      List.Forall₂ Revised init init' ∧
      StepChunks c w (tokens.flatMap Token.actions) stop (max reach stop) ∧
      Tidy (init' ++ w) stop ∧
      ∀ start, Abut start b.chunks.toList pos → Abut start (init' ++ w) stop := by
  cases tokens with
  | nil => exact absurd hlt (by rw [show pos = stop from htiles]; exact Nat.lt_irrefl _)
  | cons first rest =>
    obtain ⟨rfl, hle, hrest⟩ := htiles
    obtain ⟨init, c, hroom, hfirst⟩ := adds_add b (some s) first
    have hadds : Adds b.capacity (some s) first b.chunks.toList
        (b.add (some s) first).1.chunks.toList := ⟨init, c, hroom, hfirst⟩
    have hall := addsAll_foldl (b.add (some s) first).1 rest
    rw [capacity_add] at hall
    have hmid := hadds.tidy htidy hle
    obtain ⟨htidy', habut, hactions⟩ := hall.tidy hrest hmid
    rw [hfirst] at hall hmid
    obtain ⟨w, hw, hbatch⟩ := hall.of_append (by simp)
    have hfeed : (b.feed s (first :: rest)).chunks.toList = init ++ w := hw
    obtain ⟨init', w', hlooked, hinit', hw', hseen⟩ := lookedTo_append hfeed hroom.size_le reach
    have hboth : List.Forall₂ Revised (init ++ w) (init' ++ w') := List.rel_append hinit' hw'
    have hreached : Reached w stop := by
      apply hbatch.reached hrest (hmid.of_append (by simp))
      have hstop := (hroom.receives htidy).stop_le
      rcases Nat.lt_or_ge first.start first.stop with hpositive | hzero
      · exact .inl ⟨absorb c first, by simp,
          isBlank_absorb_of_lt (Nat.le_trans c.start_le_stop hstop) hpositive,
          Nat.le_of_eq (stop_absorb hstop hle).symm⟩
      · exact .inr (by omega)
    refine ⟨first, init, init', c, w', rfl, hroom, hlooked, hinit', ⟨?_, ?_, fun hbound => ?_⟩,
      ?_, fun start h => ?_⟩
    · exact ((batch_absorb c first).addsAll hbatch).revised hw'
    · obtain ⟨e, he, hblank, hle⟩ := hreached
      obtain ⟨e', he', hrev⟩ := exists_revised hw' he
      have hkept : e'.isBlank = false := by rw [hrev.isBlank_eq, hblank]
      refine ⟨e', he', hkept, ?_⟩
      have := hseen e' he' hkept
      rw [Chunk.reach, hrev.stop_eq]
      omega
    · have hbefore := hadds.actions_eq htidy hle (Nat.lt_of_le_of_lt hrest.le hbound)
      have hall := hactions hbound
      rw [hw, hbefore, ← hroom.actions_eq, List.flatMap_append, List.append_assoc,
        List.append_assoc] at hall
      rw [actions_revised hw', List.append_cancel_left hall, List.flatMap_cons]
    · rw [hw] at htidy'
      exact htidy'.revised hboth
    · have hfull := habut start (hadds.abut h hle)
      rw [hw] at hfull
      exact hfull.revised hboth

end RegionTree.ChunkSequence
