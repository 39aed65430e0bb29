import RegionTree.Proofs.Chunk.Layout
import RegionTree.Proofs.Parse.Stride
set_option autoImplicit false

/-!
# The course of a parse

A parse is advanced again and again, and before each advance it may be told to break off at a
position: a list of such requests, one for each advance, leads to one parse (`Task.after`).  What
holds of a parse that was begun, and is kept by a step of matching and by taking over old chunks,
holds of every running parse (`Task.after_running`).

The two ways to take over chunks are described by the lists of the chunks: `Begun` for those before
the edit, and `splice_eq` for those behind it.
-/

namespace RegionTree

namespace Parse

/-- The parse, told to break off at a position if one is given. -/
def asked (p : Parse) : Option Nat → Parse
  | none => p
  | some pos => { p with breakOff := some pos }

theorem asked_eq (p : Parse) (request : Option Nat) :
    ∃ breakOff, p.asked request = { p with breakOff } := by
  cases request with
  | none => exact ⟨p.breakOff, rfl⟩
  | some pos => exact ⟨some pos, rfl⟩

/-- The parse after some advances. -/
def go (t : Task) (p : Parse) (requests : List (Option Nat)) : Parse :=
  requests.foldl (fun p request => (advance t (p.asked request)).1) p

/-- Whether an advance takes over old chunks. -/
def takesOver (t : Task) (p : Parse) : Bool :=
  p.stage == .running && !p.atEnd && match outlook t p with
    | .take _ _ => true
    | _ => false

/-- How many of some advances take over old chunks. -/
def splices (t : Task) : Parse → List (Option Nat) → Nat
  | _, [] => 0
  | p, request :: rest =>
    (takesOver t (p.asked request)).toNat + splices t (advance t (p.asked request)).1 rest

/-- What an advance does: the parse is begun, or is over, or comes to its end, or takes over old
chunks, or makes a step of matching. -/
inductive Advances (t : Task) (p : Parse) : Parse × Option ParseResult → Prop where
  | begun : p.stage = .fresh → Advances t p (init t p, none)
  | idle : p.stage = .finished → Advances t p (p, none)
  | ended : p.stage = .running → p.atEnd = true →
      Advances t p ({ p with
        stage := .finished, chunks := .empty t.config.chunkCapacity, old := none },
        some (result t p))
  | spliced {old : ChunkSequence} {index : Nat} : p.stage = .running → p.atEnd = false →
      outlook t p = .take old index → Advances t p (splice t p old index, none)
  | stepped {old : Option ChunkSequence} : p.stage = .running → p.atEnd = false →
      takesOver t p = false → old = p.old ∨ old = none →
      Advances t p (matchStep t { p with old }, none)

theorem advances_advance (t : Task) (p : Parse) : Advances t p (advance t p) := by
  unfold advance
  cases hstage : p.stage with
  | fresh => exact .begun hstage
  | finished => exact .idle hstage
  | running =>
    dsimp only
    cases hend : p.atEnd with
    | true => exact .ended hstage hend
    | false =>
      rw [if_neg (by simp)]
      cases hlook : outlook t p with
      | take old index => exact .spliced hstage hend hlook
      | giveUp =>
        have hnot : takesOver t p = false := by simp [takesOver, hlook]
        have hstepped : Advances t p (matchStep t { p with old := none }, none) :=
          .stepped hstage hend hnot (.inr rfl)
        rwa [hstage] at hstepped
      | wait =>
        have hnot : takesOver t p = false := by simp [takesOver, hlook]
        exact .stepped hstage hend hnot (.inl rfl)

theorem advance_of_atEnd {t : Task} {p : Parse} (hrunning : p.stage = .running)
    (hend : p.atEnd = true) : (advance t p).2 = some (result t p) := by
  rw [advance, hrunning]
  dsimp only
  rw [if_pos hend]

/-- A parse that goes on has not come to where it stops. -/
theorem lt_stop_of_not_atEnd {p : Parse} (h : p.atEnd = false) : p.pos < p.stop := by
  unfold atEnd at h
  rw [Bool.or_eq_false_iff, decide_eq_false_iff_not] at h
  exact Nat.lt_of_not_le h.2

/-- Only a running parse that has come to its end gives a result. -/
theorem advance_eq_some {t : Task} {p : Parse} {parsed : ParseResult}
    (h : (advance t p).2 = some parsed) :
    p.stage = .running ∧ p.atEnd = true ∧ parsed = result t p := by
  have hadvances := advances_advance t p
  generalize advance t p = q at hadvances h
  cases hadvances with
  | ended hrunning hend => exact ⟨hrunning, hend, (Option.some.inj h).symm⟩
  | begun _ => cases h
  | idle _ => cases h
  | spliced _ _ _ => cases h
  | stepped _ _ _ _ => cases h

/-- The tree of a parse is the forest that its chunks make. -/
theorem tree_result (t : Task) {p : Parse} (hstart : ∀ c ∈ p.chunks.chunks.toList, c.start ≤ p.pos)
    (hkept : ∀ c ∈ p.chunks.chunks.toList, c.KeepsOwn) :
    (result t p).tree = .node .document p.start (p.start + (p.pos - p.start))
      ((PartialForest.empty.play p.chunks.actions).finish p.pos t.config.markUnfinished).trees := by
  rw [result, Tree.ofPostfix, ChunkSequence.forest_assemble hstart hkept]

/-! ## Putting chunks in place -/

theorem resume_eq (p : Parse) (chunks : ChunkSequence) (index : Nat) :
    ∃ pos state, p.resume chunks index =
        { p with chunks, checkpoint := some index, pos, state } ∧
      ∀ front last s, chunks.chunks.toList = front ++ [last] → last.state = some s →
        pos = last.start ∧ state = s := by
  unfold resume
  dsimp only
  have hback : ∀ front last, chunks.chunks.toList = front ++ [last] →
      chunks.chunks.back? = some last := by
    intro front last h
    rw [← Array.getLast?_toList, h, List.getLast?_concat]
  split
  · rename_i last hlast
    split
    · rename_i s hs
      refine ⟨last.start, s, rfl, ?_⟩
      intro front e u h hu
      rw [hback front e h] at hlast
      obtain rfl := Option.some.inj hlast
      rw [hs] at hu
      exact ⟨rfl, Option.some.inj hu⟩
    · rename_i hnone
      refine ⟨p.pos, p.state, rfl, ?_⟩
      intro front e u h hu
      rw [hback front e h] at hlast
      obtain rfl := Option.some.inj hlast
      rw [hnone] at hu
      cases hu
  · rename_i hnone
    refine ⟨p.pos, p.state, rfl, fun front e u h _ => ?_⟩
    rw [hback front e h] at hnone
    cases hnone

/-- What a parse has when it was begun: the point it starts from, the chunks kept before the edit,
and those that may still be taken over behind it. -/
inductive Begun (t : Task) : Point → List Chunk → Option ChunkSequence → Prop where
  | anew {old : Option ChunkSequence} :
      (∀ o, old = some o → ∃ f ∈ t.fragments, f.chunks = o) →
      Begun t ⟨Ranges.start t.ranges, t.grammar.initialState⟩ [] old
  | kept {f : Fragment} {front back : List Chunk} {c : Chunk} {s : State} {right : ChunkSequence} :
      f ∈ t.fragments → f.chunks.chunks.toList = front ++ c :: back → c.state = some s →
      (∀ e ∈ front, e.reach < staleFrom t.begin.edit) → right.chunks.toList = c :: back →
      Begun t ⟨c.start, s⟩ (front ++ [c.strip]) (some right)

/-- A chunk with a state is where parsing goes on, and those before it looked only at what was not
edited. -/
theorem restartChunk?_eq_some {old : ChunkSequence} {edit : Edit} {start index : Nat}
    (h : restartChunk? old edit start = some index) :
    ∃ front c back s, old.chunks.toList = front ++ c :: back ∧ front.length = index ∧
      c.state = some s ∧ ∀ e ∈ front, e.reach < staleFrom edit := by
  rw [restartChunk?, Option.filter_eq_some_iff] at h
  obtain ⟨hle, c, s, hc, hs⟩ := ChunkSequence.restartIndex_eq_some h.1
  obtain ⟨hcut, hlength⟩ := ChunkSequence.eq_take_cons_drop hc
  refine ⟨_, c, _, s, hcut, hlength, hs, fun e he => ?_⟩
  obtain ⟨i, hi, rfl⟩ := List.mem_take_iff_getElem.mp he
  apply old.firstDependent_spec (staleFrom edit) (i := i) (by omega)
  rw [List.getElem?_eq_getElem]

theorem init_eq (t : Task) (breakOff : Option Nat) :
    ∃ pos state chunks checkpoint old stats, init t { t.begin with breakOff } =
        { stage := .running, start := Ranges.start t.ranges, stop := Ranges.stop t.ranges, pos,
          breakOff, state, chunks, checkpoint, old, edit := t.begin.edit, stats } ∧
      stats.forcedErrors = 0 ∧ Begun t ⟨pos, state⟩ chunks.chunks.toList old := by
  unfold init
  dsimp only
  split
  · exact ⟨_, _, _, _, none, _, rfl, rfl, .anew fun o h => by cases h⟩
  · rename_i f hf
    have hmem := List.mem_of_find?_eq_some hf
    unfold keepLeft
    split
    · exact ⟨_, _, _, _, some f.chunks, _, rfl, rfl,
        .anew fun o h => ⟨f, hmem, Option.some.inj h⟩⟩
    · rename_i index hindex
      obtain ⟨front, c, back, s, hs, rfl, hc, hstale⟩ := restartChunk?_eq_some hindex
      obtain ⟨hleft, hright⟩ := ChunkSequence.toList_split hs
      obtain ⟨pos, state, hresume, hlast⟩ := resume_eq
        { t.begin with breakOff, stage := .running, start := Ranges.start t.ranges,
                       stop := Ranges.stop t.ranges, pos := Ranges.start t.ranges }
        ((f.chunks.split front.length).1.withCapacity t.config.chunkCapacity) front.length
      obtain ⟨hpos, hstate⟩ := hlast front c.strip s hleft hc
      subst hpos hstate
      dsimp only
      rw [hresume]
      have hbegun : Begun t ⟨c.start, state⟩ (front ++ [c.strip])
          (some (f.chunks.split front.length).2) := .kept hmem hs hc hstale hright
      rw [← hleft] at hbegun
      exact ⟨_, _, _, _, _, _, rfl, rfl, hbegun⟩

/-! ## Taking over chunks behind the edit -/

theorem outlook_eq_take {t : Task} {p : Parse} {old : ChunkSequence} {index : Nat}
    (h : outlook t p = .take old index) :
    p.old = some old ∧ spliceFrom t p ≤ p.pos ∧
      ∃ front c back, old.chunks.toList = front ++ c :: back ∧ front.length = index ∧
        c.state = some p.state ∧ (c.start : Int) + p.edit.offset = p.pos := by
  unfold outlook at h
  split at h
  · cases h
  · rename_i o ho
    dsimp only at h
    split at h
    · cases h
    · rename_i hrange
      split at h
      · cases h
      · split at h
        · cases h
        · rename_i hsight
          split at h
          · rename_i i hi
            obtain ⟨rfl, rfl⟩ : o = old ∧ i = index := by
              cases h
              exact ⟨rfl, rfl⟩
            rw [inStep?, Option.filter_eq_some_iff] at hi
            obtain ⟨hsearch, hstate⟩ := hi
            have hstart := ChunkSequence.startOf_search hsearch
            simp only [decide_eq_true_eq, Option.bind_eq_some_iff] at hstate
            obtain ⟨c, hc, hs⟩ := hstate
            rw [← Array.getElem?_toList] at hc
            obtain ⟨hcut, hlength⟩ := ChunkSequence.eq_take_cons_drop hc
            rw [ChunkSequence.startOf_eq hc] at hstart
            exact ⟨ho, Nat.le_of_not_lt hsight, _, c, _, hcut, hlength, hs, by omega⟩
          · cases h

/-- Nothing is taken over behind the end of a document that was not edited. -/
theorem outlook_ne_take {t : Task} (ht : Ranges.Regular t.document t.ranges) (hnone : t.edit = none)
    (hsight : Document.length t.document + t.config.marginBefore ≤ maxPosition) {p : Parse}
    (hstop : p.stop = Ranges.stop t.ranges) (hedit : p.edit = t.begin.edit)
    (hend : p.atEnd = false) (old : ChunkSequence) (index : Nat) :
    outlook t p ≠ .take old index := by
  intro hlook
  obtain ⟨-, hfrom, -⟩ := outlook_eq_take hlook
  have hlt := lt_stop_of_not_atEnd hend
  have hlast := ht.boundary_stop.le
  have hunedited : t.begin.edit = .insert (Document.length t.document) 0 := by
    rw [Task.begin, hnone]
    rfl
  have hnew : (Edit.insert (Document.length t.document) 0).newStop =
      Document.length t.document := by
    rw [Edit.newStop, Edit.insert, shiftClamped]
    dsimp only
    omega
  rw [hstop] at hlt
  rw [← Document.length_eq] at hlast
  rw [spliceFrom, hedit, hunedited, hnew, Nat.mod_eq_of_lt (Nat.lt_succ_of_le hsight)] at hfrom
  omega

/-- Taking over chunks leaves the parse with those up to the last one where parsing can go on.  The
chunk that the old ones are taken over from is such a chunk, so if there is room for all of them the
last one is among them. -/
theorem splice_eq (t : Task) (p : Parse) (old : ChunkSequence) (index : Nat) :
    ∃ pos state chunks checkpoint kept, splice t p old index =
        { p with
          old := none, pos, state, chunks, checkpoint
          stats := { p.stats with keptRight := kept } } ∧
      ∀ front c back s, old.chunks.toList = front ++ c :: back → front.length = index →
        c.state = some s → (∀ e ∈ c :: back, (e.shift p.edit.offset).stop ≤ p.stop) →
        ∃ mid d rest, c :: back = mid ++ d :: rest ∧ d.state = some state ∧
          pos = (d.shift p.edit.offset).start ∧
          chunks.chunks.toList = ChunkSequence.trim p.chunks.chunks.toList ++
            mid.map (fun e => e.shift p.edit.offset) ++ [(d.shift p.edit.offset).strip] := by
  unfold splice
  dsimp only
  have hjoined := ChunkSequence.appendUpTo_eq p.chunks
    (old.relocate index p.edit.offset true) p.stop
  generalize p.chunks.appendUpTo (old.relocate index p.edit.offset true) p.stop = joined at *
  obtain ⟨joined, linked⟩ := joined
  dsimp only at hjoined ⊢
  obtain ⟨hchunks, hlinked⟩ := hjoined
  have hsize : joined.size = joined.chunks.toList.length := rfl
  have hlist : ∀ {front back : List Chunk} {c : Chunk}, old.chunks.toList = front ++ c :: back →
      front.length = index → (∀ e ∈ c :: back, (e.shift p.edit.offset).stop ≤ p.stop) →
      joined.chunks.toList = ChunkSequence.trim p.chunks.chunks.toList ++
        (c :: back).map (fun e => e.shift p.edit.offset) ∧ linked = (c :: back).length := by
    intro front back c hold hindex hall
    subst hindex
    rw [hchunks, hlinked, ChunkSequence.toList_relocate hold, List.takeWhile_eq_self_iff.mpr]
    · exact ⟨rfl, List.length_map _⟩
    · intro e he
      obtain ⟨d, hd, rfl⟩ := List.mem_map.mp he
      exact decide_eq_true (hall d hd)
  have hfound : ∀ {front back : List Chunk} {c : Chunk} {s : State},
      old.chunks.toList = front ++ c :: back → front.length = index → c.state = some s →
      (∀ e ∈ c :: back, (e.shift p.edit.offset).stop ≤ p.stop) →
      ∃ i mid d rest u, joined.lastRestartIn (joined.size - linked) linked = some i ∧
        c :: back = mid ++ d :: rest ∧ d.state = some u ∧
        (joined.split i).1.chunks.toList = ChunkSequence.trim p.chunks.chunks.toList ++
          mid.map (fun e => e.shift p.edit.offset) ++ [(d.shift p.edit.offset).strip] := by
    intro front back c s hold hindex hc hall
    obtain ⟨hjoined, rfl⟩ := hlist hold hindex hall
    have hspliced : joined.size - (c :: back).length =
        (ChunkSequence.trim p.chunks.chunks.toList).length := by
      rw [hsize, hjoined, List.length_append, List.length_map]
      exact Nat.add_sub_cancel _ _
    rw [hspliced]
    generalize ChunkSequence.trim p.chunks.chunks.toList = base at *
    have hfirst : joined.chunks.toList[base.length]? = some (c.shift p.edit.offset) := by
      rw [hjoined, List.getElem?_append_right (Nat.le_refl _), Nat.sub_self]
      rfl
    obtain ⟨i, hi⟩ := Option.ne_none_iff_exists'.mp (ChunkSequence.lastRestartIn_ne_none hfirst hc
      (Nat.le_refl base.length) (Nat.lt_add_of_pos_right (Nat.succ_pos back.length)))
    obtain ⟨hle, hlt, d', u, hd', hu⟩ := ChunkSequence.lastRestartIn_eq_some hi
    obtain ⟨k, rfl⟩ := Nat.exists_eq_add_of_le hle
    rw [hjoined, List.getElem?_append_right (Nat.le_add_right _ _), Nat.add_sub_cancel_left,
      List.getElem?_map, Option.map_eq_some_iff] at hd'
    obtain ⟨d, hd, rfl⟩ := hd'
    obtain ⟨hcut, htake⟩ := ChunkSequence.eq_take_cons_drop hd
    refine ⟨_, _, d, _, u, hi, hcut, hu, ?_⟩
    have hlength : (base ++ ((c :: back).take k).map fun e => e.shift p.edit.offset).length =
        base.length + k := by
      rw [List.length_append, List.length_map, htake]
    have hplaced : joined.chunks.toList =
        (base ++ ((c :: back).take k).map fun e => e.shift p.edit.offset) ++
          d.shift p.edit.offset ::
            ((c :: back).drop (k + 1)).map fun e => e.shift p.edit.offset := by
      rw [hjoined, List.append_assoc]
      conv_lhs => rw [hcut]
      rw [List.map_append, List.map_cons]
    rw [← hlength]
    exact (ChunkSequence.toList_split hplaced).1
  split
  · rename_i i hi
    obtain ⟨pos, state, hresume, hlast⟩ := resume_eq
      { p with old := none,
               stats := { p.stats with keptRight := p.stats.keptRight +
                            (((some i).map fun i => i - (joined.size - linked)).getD 0) } }
      (joined.split i).1 i
    rw [hi, hresume]
    refine ⟨_, _, _, _, _, rfl, ?_⟩
    intro front c back s hold hindex hc hall
    obtain ⟨j, mid, d, rest, u, hj, hcut, hu, hsplit⟩ := hfound hold hindex hc hall
    rw [hj, Option.some_or] at hi
    obtain rfl := Option.some.inj hi
    obtain ⟨hpos, hstate⟩ := hlast _ _ u hsplit hu
    exact ⟨mid, d, rest, hcut, by rw [hu, hstate], hpos, hsplit⟩
  · rename_i hi
    rw [hi]
    refine ⟨_, _, _, _, _, rfl, ?_⟩
    intro front c back s hold hindex hc hall
    obtain ⟨j, mid, d, rest, u, hj, -⟩ := hfound hold hindex hc hall
    rw [hj, Option.some_or] at hi
    cases hi

theorem stage_init (t : Task) (breakOff : Option Nat) :
    (init t { t.begin with breakOff }).stage = .running := by
  obtain ⟨_, _, _, _, _, _, hinit, -⟩ := init_eq t breakOff
  rw [hinit]

theorem stage_splice (t : Task) (p : Parse) (old : ChunkSequence) (index : Nat) :
    (splice t p old index).stage = p.stage := by
  obtain ⟨_, _, _, _, _, hsplice, -⟩ := splice_eq t p old index
  rw [hsplice]

theorem stage_matchStep (t : Task) (p : Parse) : (matchStep t p).stage = p.stage := by
  obtain ⟨_, hstep⟩ := matchStep_eq t p
  rw [hstep]

theorem breakOff_init (t : Task) (breakOff : Option Nat) :
    (init t { t.begin with breakOff }).breakOff = breakOff := by
  obtain ⟨_, _, _, _, _, _, hinit, -⟩ := init_eq t breakOff
  rw [hinit]

theorem breakOff_splice (t : Task) (p : Parse) (old : ChunkSequence) (index : Nat) :
    (splice t p old index).breakOff = p.breakOff := by
  obtain ⟨_, _, _, _, _, hsplice, -⟩ := splice_eq t p old index
  rw [hsplice]

theorem breakOff_matchStep (t : Task) (p : Parse) : (matchStep t p).breakOff = p.breakOff := by
  obtain ⟨_, hstep⟩ := matchStep_eq t p
  rw [hstep]

/-! ## What holds of running parses -/

/-- What holds of a parse, as long as it is running; one that is not begun yet has done nothing. -/
structure While (t : Task) (I : Parse → Prop) (p : Parse) : Prop where
  fresh : p.stage = .fresh → ∃ breakOff, p = { t.begin with breakOff }
  running : p.stage = .running → I p

/-- What is kept by all that a running parse may do. -/
structure Kept (t : Task) (I : Parse → Prop) : Prop where
  breakOff : ∀ p breakOff, I p → I { p with breakOff }
  begun : ∀ breakOff, I (init t { t.begin with breakOff })
  spliced : ∀ p old index, I p → p.atEnd = false → outlook t p = .take old index →
    I (splice t p old index)
  stepped : ∀ p old, I p → p.atEnd = false → old = p.old ∨ old = none →
    I (matchStep t { p with old })

variable {t : Task} {I : Parse → Prop}

theorem While.asked (hI : Kept t I) {p : Parse} (hp : While t I p) (request : Option Nat) :
    While t I (p.asked request) := by
  obtain ⟨breakOff, hasked⟩ := p.asked_eq request
  rw [hasked]
  refine ⟨?_, fun hrunning => hI.breakOff p breakOff (hp.running hrunning)⟩
  intro hfresh
  obtain ⟨b, rfl⟩ := hp.fresh hfresh
  exact ⟨breakOff, rfl⟩

/-- What holds of a parse that has just been begun, and of this one after whatever it may do, holds
of it after an advance. -/
theorem While.advance_of {p : Parse} (hp : While t I p)
    (begun : ∀ breakOff, I (init t { t.begin with breakOff }))
    (spliced : ∀ old index, p.stage = .running → p.atEnd = false →
      outlook t p = .take old index → I (splice t p old index))
    (stepped : ∀ old, p.stage = .running → p.atEnd = false → old = p.old ∨ old = none →
      I (matchStep t { p with old })) : While t I (Parse.advance t p).1 := by
  have hadvances := advances_advance t p
  generalize Parse.advance t p = q at hadvances
  cases hadvances with
  | begun hfresh =>
    obtain ⟨b, rfl⟩ := hp.fresh hfresh
    refine ⟨?_, fun _ => begun b⟩
    intro h
    rw [stage_init] at h
    cases h
  | idle hidle => exact hp
  | ended hrunning hend => exact ⟨fun h => (by cases h), fun h => (by cases h)⟩
  | spliced hrunning hend hlook =>
    refine ⟨?_, fun _ => spliced _ _ hrunning hend hlook⟩
    intro h
    rw [stage_splice, hrunning] at h
    cases h
  | stepped hrunning hend hnot hold =>
    refine ⟨?_, fun _ => stepped _ hrunning hend hold⟩
    intro h
    rw [stage_matchStep, hrunning] at h
    cases h

theorem While.advance (hI : Kept t I) {p : Parse} (hp : While t I p) :
    While t I (Parse.advance t p).1 :=
  hp.advance_of hI.begun
    (fun old index hrunning => hI.spliced p old index (hp.running hrunning))
    (fun old hrunning => hI.stepped p old (hp.running hrunning))

theorem While.go (hI : Kept t I) {p : Parse} (hp : While t I p) (requests : List (Option Nat)) :
    While t I (p.go t requests) := by
  induction requests generalizing p with
  | nil => exact hp
  | cons request rest ih => exact ih ((hp.asked hI request).advance hI)

theorem while_begin (t : Task) (I : Parse → Prop) : While t I t.begin :=
  ⟨fun _ => ⟨none, rfl⟩, fun h => (by cases h)⟩

end Parse

namespace Task

/-- The parse of a task after some advances. -/
def after (t : Task) (requests : List (Option Nat)) : Parse := t.begin.go t requests

/-- What a parse of the task may be when it is about to be advanced. -/
def Comes (t : Task) (p : Parse) : Prop :=
  ∃ requests request, p = (t.after requests).asked request

theorem comes_begin (t : Task) : t.Comes t.begin := ⟨[], none, rfl⟩

theorem Comes.asked {t : Task} {p : Parse} (h : t.Comes p) (request : Option Nat) :
    t.Comes (p.asked request) := by
  obtain ⟨requests, before, rfl⟩ := h
  cases request with
  | none => exact ⟨requests, before, rfl⟩
  | some pos =>
    refine ⟨requests, some pos, ?_⟩
    cases before <;> rfl

theorem Comes.advance {t : Task} {p : Parse} (h : t.Comes p) : t.Comes (Parse.advance t p).1 := by
  obtain ⟨requests, request, rfl⟩ := h
  refine ⟨requests ++ [request], none, ?_⟩
  rw [after, after, Parse.go, Parse.go, List.foldl_append]
  rfl

/-- What is kept by all that a running parse may do holds of every running parse of a task. -/
theorem Comes.holds {t : Task} {I : Parse → Prop} {p : Parse} (h : t.Comes p)
    (hI : Parse.Kept t I) : Parse.While t I p := by
  obtain ⟨requests, request, rfl⟩ := h
  exact ((Parse.while_begin t I).go hI requests).asked hI request

/-- So it holds of a parse that gives its result. -/
theorem Comes.finished {t : Task} {I : Parse → Prop} {p : Parse} {parsed : ParseResult}
    (h : t.Comes p) (hI : Parse.Kept t I) (hparsed : (Parse.advance t p).2 = some parsed) :
    I p ∧ parsed = Parse.result t p := by
  obtain ⟨hrunning, -, hresult⟩ := Parse.advance_eq_some hparsed
  exact ⟨(h.holds hI).running hrunning, hresult⟩

/-- A parse that has just been begun, as all of the task are in the beginning. -/
theorem Comes.fresh {t : Task} {p : Parse} (h : t.Comes p) (hfresh : p.stage = .fresh) :
    ∃ breakOff, p = { t.begin with breakOff } :=
  (h.holds (I := fun _ => True) ⟨fun _ _ _ => trivial, fun _ => trivial, fun _ _ _ _ _ _ => trivial,
    fun _ _ _ _ _ => trivial⟩).fresh hfresh

/-- The result of a parse that was not broken off is that of a parse that came to the end. -/
theorem Comes.of_runFrom {t : Task} {fuel : Nat} {p q : Parse} {parsed : ParseResult}
    (h : t.Comes p) (hbreak : p.breakOff = none)
    (hrun : Parse.runFrom t fuel p = some (q, parsed)) :
    ∃ last, t.Comes last ∧ (Parse.advance t last).2 = some parsed ∧ last.stop ≤ last.pos := by
  induction fuel generalizing p with
  | zero => cases hrun
  | succ fuel ih =>
    unfold Parse.runFrom at hrun
    have hadvances := Parse.advances_advance t p
    have hcomes := h.advance
    generalize hnext : Parse.advance t p = next at hadvances hcomes hrun
    cases hadvances with
    | ended _ hend =>
      cases hrun
      refine ⟨p, h, by rw [hnext], ?_⟩
      rw [Parse.atEnd, hbreak] at hend
      simpa using hend
    | idle _ => exact ih hcomes hbreak hrun
    | begun hfresh =>
      obtain ⟨breakOff, rfl⟩ := h.fresh hfresh
      exact ih hcomes ((Parse.breakOff_init t breakOff).trans hbreak) hrun
    | spliced _ _ _ => exact ih hcomes ((Parse.breakOff_splice ..).trans hbreak) hrun
    | stepped _ _ _ _ => exact ih hcomes ((Parse.breakOff_matchStep ..).trans hbreak) hrun

end Task

end RegionTree
