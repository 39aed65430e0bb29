import RegionTree.Proofs.Chunk.Outline
set_option autoImplicit false

/-!
# Steps made again

A step adds its tokens to the chunk with room for the first of them, and behind it (`toList_step`).
Made from sequences with the same outlines it leads to the same outlines (`Like.step`).

A sequence may be cut at any chunk with a state, and the chunk emptied, for the tokens from there on
to be added again.  If the chunk was there before the last step, it was the same chunk then; or the
step began with it, and the same step from the cut sequence leads to the same outlines again
(`step_cut`).
-/

namespace RegionTree.ChunkSequence

variable {capacity : Nat} {state : Option State} {t : Token} {cs cs' : List Chunk}

/-! ## How far a step looked -/

/-- Some chunk holds something. -/
def Held (cs : List Chunk) : Prop := ∃ c ∈ cs, c.isBlank = false

theorem Held.sameOutlines (h : Held cs) (hsame : SameOutlines cs cs') : Held cs' := by
  obtain ⟨c, hc, hheld⟩ := h
  obtain ⟨c', hc', hout⟩ := hsame.symm.exists_of_mem hc
  exact ⟨c', hc', by rw [← Chunk.isBlank_of_outline hout, hheld]⟩

/-- The chunks of a step with how far it looked; a blank one at the end is left out. -/
def charge (pos : Nat) (w : List Chunk) : List Chunk :=
  w.mapIdx fun i c => if i + 1 = w.length ∧ c.isBlank = true then c else c.lookedTo pos

theorem charge_cons (pos : Nat) (c : Chunk) {w : List Chunk} (hw : w ≠ []) :
    charge pos (c :: w) = c.lookedTo pos :: charge pos w := by
  have hlength := List.length_pos_of_ne_nil hw
  rw [charge, List.mapIdx_cons, List.length_cons, if_neg (by omega)]
  simp only [charge, Nat.add_right_cancel_iff]

theorem revised_charge (pos : Nat) (w : List Chunk) :
    List.Forall₂ Chunk.Revised w (charge pos w) := by
  refine forall₂_mapIdx (fun i c => ?_) w
  split
  · exact .refl c
  · exact Chunk.revised_lookedTo c pos

/-- What a step looked at is noted with its chunks, if one of them holds something. -/
theorem toList_lookedTo_append {b : ChunkSequence} {init w : List Chunk}
    (h : b.chunks.toList = init ++ w) (hw : Held w) (pos : Nat) :
    (b.lookedTo init.length pos).chunks.toList = init ++ charge pos w := by
  obtain ⟨e, he, hheld⟩ := hw
  obtain ⟨front, last, rfl⟩ := (List.eq_nil_or_concat' w).resolve_left (List.ne_nil_of_mem he)
  have hback : b.chunks.back? = some last := by
    rw [← Array.getLast?_toList, h, ← List.append_assoc, List.getLast?_concat]
  have hsize : b.size = init.length + (front.length + 1) := by
    rw [size, ← Array.length_toList, h]
    simp
  -- the last chunk of the step is left out only if there is another one
  have hmore : last.isBlank = true → 0 < front.length := by
    intro hblank
    rcases List.mem_append.mp he with he | he
    · exact List.length_pos_of_mem he
    · rw [List.mem_singleton.mp he, hblank] at hheld
      cases hheld
  rw [toList_lookedTo, h, hback, hsize, Option.any_some, List.mapIdx_append, charge,
    List.length_append, List.length_singleton]
  generalize hstop : (if last.isBlank = true then init.length + (front.length + 1) - 1
    else init.length + (front.length + 1)) = stop
  have hfront : init.length + front.length ≤ stop ∧ init.length < stop := by
    rw [← hstop]
    split
    · rename_i hblank
      have := hmore hblank
      omega
    · omega
  refine congrArg₂ (· ++ ·) ?_ ?_
  · apply List.ext_getElem (by simp)
    intro i h₁ h₂
    rw [List.getElem_mapIdx, if_neg (by omega)]
  · apply List.ext_getElem (by simp)
    intro i h₁ h₂
    rw [List.length_mapIdx, List.length_append, List.length_singleton] at h₂
    rw [List.getElem_mapIdx, List.getElem_mapIdx]
    by_cases hi : i = front.length
    · subst hi
      rw [List.getElem_concat_length rfl]
      cases hblank : last.isBlank with
      | true =>
        rw [hblank, if_pos rfl] at hstop
        rw [if_neg (by omega), if_pos ⟨rfl, rfl⟩]
      | false =>
        rw [hblank, if_neg Bool.false_ne_true] at hstop
        rw [if_pos (by omega), if_neg (by simp)]
    · rw [if_pos (by omega), if_neg (by omega)]

theorem SameOutlines.charge (h : SameOutlines cs cs') (pos : Nat) :
    SameOutlines (charge pos cs) (charge pos cs') := by
  rw [ChunkSequence.charge, ChunkSequence.charge, h.length_eq]
  refine h.mapIdx fun i c c' hc => ?_
  rw [Chunk.isBlank_of_outline hc]
  split
  · exact hc
  · exact Chunk.outline_lookedTo hc pos

/-! ## What a step leaves -/

/-- Chunks ready for a token at a position: they are tidy, and nothing was seen behind the position
for a chunk that is still blank. -/
structure Ready (cs : List Chunk) (pos : Nat) : Prop extends Tidy cs pos where
  unseen : ∀ c, cs.getLast? = some c → c.isBlank = true → c.looked ≤ pos

theorem Ready.mono {pos stop : Nat} (h : Ready cs pos) (hle : pos ≤ stop) : Ready cs stop :=
  ⟨h.toTidy.mono hle, fun c hc hblank => Nat.le_trans (h.unseen c hc hblank) hle⟩

theorem Adds.ready (h : Adds capacity state t cs cs') (hcs : Ready cs t.start)
    (ht : t.start ≤ t.stop) : Ready cs' t.stop := by
  refine ⟨h.tidy hcs.toTidy ht, fun e he hblank => ?_⟩
  obtain ⟨init, c, hroom, rfl⟩ := h
  rcases last_seam he with ⟨rfl, -⟩ | rfl
  · have hc := isBlank_of_absorb hblank
    rw [absorb_eq]
    refine Nat.le_trans ?_ ht
    cases hroom with
    | first => exact Nat.le_refl _
    | fresh _ => exact Nat.le_refl _
    | @taken init last hlast => exact hcs.unseen last (by simp) hlast
    | joined hlast _ _ =>
      rw [hlast] at hc
      cases hc
  · exact Nat.le_refl _

theorem Ready.foldl_grow {tokens : List Token} {pos stop : Nat} (h : Ready cs pos)
    (horder : InOrder pos tokens) (hpos : pos ≤ stop) (hstop : ∀ t ∈ tokens, t.stop ≤ stop) :
    Ready (tokens.foldl (ChunkSequence.grow capacity none) cs) stop := by
  induction tokens generalizing cs pos with
  | nil => exact h.mono hpos
  | cons t rest ih =>
    obtain ⟨hstart, ht, hrest⟩ := horder
    have hnext := (adds_grow capacity none t cs).ready (h.mono hstart) ht
    exact ih hnext hrest (hstop t (by simp)) fun u hu => hstop u (by simp [hu])

theorem Adds.held (h : Adds capacity state t cs cs') (hcs : Held cs) : Held cs' := by
  obtain ⟨init, c, hroom, rfl⟩ := h
  obtain ⟨e, he, hheld⟩ := hcs
  cases hroom with
  | first => cases he
  | fresh _ => exact ⟨e, List.mem_append_left _ he, hheld⟩
  | taken hlast =>
    rcases List.mem_append.mp he with he | he
    · exact ⟨e, List.mem_append_left _ he, hheld⟩
    · rw [List.mem_singleton.mp he, hlast] at hheld
      cases hheld
  | joined hlast _ _ => exact ⟨absorb c t, by simp, isBlank_absorb hlast t⟩

theorem Held.foldl_grow (h : Held cs) (tokens : List Token) :
    Held (tokens.foldl (ChunkSequence.grow capacity none) cs) := by
  induction tokens generalizing cs with
  | nil => exact h
  | cons t rest ih => exact ih ((adds_grow capacity none t cs).held h)

/-- Tokens of which one has a length leave something behind. -/
theorem held_foldl_grow {tokens : List Token} {pos : Nat} (hcs : Tidy cs pos)
    (horder : InOrder pos tokens) (h : ∃ t ∈ tokens, t.start < t.stop) :
    Held (tokens.foldl (ChunkSequence.grow capacity none) cs) := by
  induction tokens generalizing cs pos with
  | nil => simp at h
  | cons t rest ih =>
    obtain ⟨hstart, ht, hrest⟩ := horder
    obtain ⟨u, hu, hlt⟩ := h
    have hfrom := hcs.mono hstart
    have hadds := adds_grow capacity none t cs
    rcases List.mem_cons.mp hu with rfl | hu
    · obtain ⟨e, he, hheld, -⟩ := hadds.reached_of_lt hfrom hlt
      exact Held.foldl_grow ⟨e, he, hheld⟩ rest
    · exact ih (hadds.tidy hfrom ht) hrest ⟨u, hu, hlt⟩

theorem addsAll_grow (capacity : Nat) (tokens : List Token) (cs : List Chunk) :
    AddsAll capacity tokens cs (tokens.foldl (ChunkSequence.grow capacity none) cs) := by
  induction tokens generalizing cs with
  | nil => rfl
  | cons t rest ih => exact ⟨_, adds_grow capacity none t cs, ih _⟩

/-! ## One step -/

/-- The tokens of a step from a position: they are in order, the first one is there, and one of them
has a length. -/
structure TokensFrom (pos : Nat) (tokens : List Token) : Prop where
  first : ∃ first rest, tokens = first :: rest ∧ first.start = pos
  order : InOrder pos tokens
  solid : ∃ t ∈ tokens, t.start < t.stop

/-- Adds the tokens of a step, and notes how far the step looked. -/
def step (b : ChunkSequence) (s : State) (tokens : List Token) (reach : Nat) : ChunkSequence :=
  (b.feed s tokens).lookedTo (b.size - 1) reach

/-- What the tokens of a step make of the chunk with room for the first of them. -/
def batchOf (capacity : Nat) (c : Chunk) : List Token → List Chunk
  | [] => [c]
  | first :: rest => rest.foldl (ChunkSequence.grow capacity none) (absorb c first :: seam first)

theorem batch_batchOf (capacity : Nat) (c : Chunk) {tokens : List Token} {pos : Nat}
    (h : TokensFrom pos tokens) : Batch c (batchOf capacity c tokens) := by
  obtain ⟨⟨first, rest, rfl, -⟩, -, -⟩ := h
  exact (batch_absorb c first).addsAll (addsAll_grow ..)

variable {b : ChunkSequence} {s : State} {tokens : List Token} {pos : Nat}

/-- What a step makes of an empty chunk holds something. -/
theorem held_batchOf_empty (capacity : Nat) (s : State) (h : TokensFrom pos tokens) :
    Held (batchOf capacity (.empty pos (some s)) tokens) := by
  obtain ⟨⟨first, rest, rfl, rfl⟩, ⟨-, hfirst, hrest⟩, u, hu, hlt⟩ := h
  have hadds : Adds capacity (some s) first [] (absorb (.empty first.start (some s)) first ::
      seam first) := ⟨[], _, .first, rfl⟩
  rcases List.mem_cons.mp hu with rfl | hu
  · obtain ⟨e, he, hheld, -⟩ := hadds.reached_of_lt (.nil _) hlt
    exact Held.foldl_grow ⟨e, he, hheld⟩ rest
  · exact held_foldl_grow (hadds.tidy (.nil _) hfirst) hrest ⟨u, hu, hlt⟩

/-- What a step makes of a chunk that looks empty is what it makes of an empty one. -/
theorem sameOutlines_batchOf (capacity : Nat) {c : Chunk} (h : TokensFrom pos tokens)
    (hc : c.outline = (Chunk.empty pos (some s)).outline) :
    SameOutlines (batchOf capacity (.empty pos (some s)) tokens) (batchOf capacity c tokens) := by
  obtain ⟨⟨first, rest, rfl, rfl⟩, ⟨-, hfirst, hrest⟩, -⟩ := h
  have hadds : Adds capacity (some s) first [] (absorb (.empty first.start (some s)) first ::
      seam first) := ⟨[], _, .first, rfl⟩
  refine SameOutlines.foldl_grow ?_ (hadds.tidy (.nil _) hfirst) hrest
  exact (SameOutlines.single (outline_absorb hc hfirst)).append (.refl (seam first))

theorem held_batchOf (capacity : Nat) {c : Chunk} (h : TokensFrom pos tokens)
    (hc : c.outline = (Chunk.empty pos (some s)).outline) : Held (batchOf capacity c tokens) :=
  (held_batchOf_empty capacity s h).sameOutlines (sameOutlines_batchOf capacity h hc)

@[simp] theorem capacity_step (b : ChunkSequence) (s : State) (tokens : List Token) (reach : Nat) :
    (b.step s tokens reach).capacity = b.capacity := capacity_feed b s tokens

theorem toList_feed_cons (b : ChunkSequence) (s : State) (first : Token) (rest : List Token) :
    (b.feed s (first :: rest)).chunks.toList = rest.foldl (ChunkSequence.grow b.capacity none)
      (ChunkSequence.grow b.capacity (some s) b.chunks.toList first) := by
  rw [feed, toList_foldl_add, capacity_add, toList_add]

theorem toList_feed {init : List Chunk} {c : Chunk} {first : Token} {rest : List Token}
    (h : ChunkSequence.grow b.capacity (some s) b.chunks.toList first =
      init ++ absorb c first :: seam first) :
    (b.feed s (first :: rest)).chunks.toList = init ++ batchOf b.capacity c (first :: rest) := by
  rw [toList_feed_cons, h, foldl_grow_append (by simp), batchOf]

/-- A step puts its first token into a blank chunk at the end. -/
theorem toList_step_taken {init : List Chunk} {last : Chunk}
    (hchunks : b.chunks.toList = init ++ [last]) (hblank : last.isBlank = true)
    (hlooked : last.looked ≤ pos) (h : TokensFrom pos tokens) (s : State) (reach : Nat) :
    ∃ c, c.outline = (Chunk.empty pos (some s)).outline ∧
      (b.step s tokens reach).chunks.toList =
        init ++ charge reach (batchOf b.capacity c tokens) := by
  have hempty : ({ last with start := pos, state := some s } : Chunk).outline =
      (Chunk.empty pos (some s)).outline := Chunk.outline_of_isBlank hblank hlooked
  have hheld := held_batchOf b.capacity h hempty
  have hindex : b.size - 1 = init.length := by
    rw [size, ← Array.length_toList, hchunks, List.length_append]
    exact Nat.add_sub_cancel _ _
  obtain ⟨⟨first, rest, rfl, rfl⟩, -, -⟩ := h
  refine ⟨_, hempty, ?_⟩
  rw [step, hindex]
  refine toList_lookedTo_append (toList_feed ?_) hheld reach
  rw [hchunks, ChunkSequence.grow, List.getLast?_concat, List.dropLast_concat]
  dsimp only
  rw [if_pos hblank]

/-- The chunks in front of a step were there before, but for how far the last of them looked. -/
def Retains (cs init : List Chunk) : Prop :=
  ∀ front e back, init = front ++ e :: back →
    ∃ e₀ back₀, cs = front ++ e₀ :: back₀ ∧ e₀.start = e.start ∧ e₀.state = e.state

theorem retains_append (init rest : List Chunk) : Retains (init ++ rest) init := by
  rintro front e back rfl
  exact ⟨e, back ++ rest, by simp, rfl, rfl⟩

theorem retains_lookedTo (init : List Chunk) (last : Chunk) (reach : Nat) :
    Retains (init ++ [last]) (init ++ [last.lookedTo reach]) := by
  intro front e back h
  rcases List.eq_nil_or_concat' back with rfl | ⟨more, d, rfl⟩
  · obtain ⟨rfl, hlast⟩ := List.append_inj' h rfl
    obtain rfl := List.singleton_inj.mp hlast
    exact ⟨last, [], rfl, rfl, rfl⟩
  · rw [← List.cons_append, ← List.append_assoc] at h
    obtain ⟨rfl, -⟩ := List.append_inj' h rfl
    exact ⟨e, more ++ [last], by simp, rfl, rfl⟩

/-- A step goes on with the last chunk, or begins with a chunk of its own behind those before. -/
theorem toList_step (h : Ready b.chunks.toList pos) (htokens : TokensFrom pos tokens) (s : State)
    (reach : Nat) :
    ∃ init c, (b.step s tokens reach).chunks.toList =
        init ++ charge reach (batchOf b.capacity c tokens) ∧
      Retains b.chunks.toList init ∧ (b.chunks.toList = init ++ [c] ∨
        c.outline = (Chunk.empty pos (some s)).outline) := by
  have hnew := held_batchOf_empty b.capacity s htokens
  have hsize : b.size = b.chunks.toList.length := rfl
  obtain ⟨⟨first, rest, rfl, rfl⟩, -, -⟩ := id htokens
  obtain ⟨init, c, hroom, hgrow⟩ := adds_grow b.capacity (some s) first b.chunks.toList
  have hfeed : (b.feed s (first :: rest)).chunks.toList =
      init ++ batchOf b.capacity c (first :: rest) := toList_feed hgrow
  generalize hcs : b.chunks.toList = cs at h hroom hsize
  cases hroom with
  | first =>
    refine ⟨[], _, ?_, retains_append [] [], .inr rfl⟩
    rw [step, hsize]
    exact toList_lookedTo_append hfeed hnew reach
  | @fresh init last _ =>
    refine ⟨init ++ [last.lookedTo reach], _, ?_, retains_lookedTo init last reach, .inr rfl⟩
    obtain ⟨e, he, hheld⟩ := hnew
    rw [List.append_assoc, List.singleton_append] at hfeed ⊢
    rw [step, hsize, List.length_append, List.length_singleton, Nat.add_sub_cancel,
      toList_lookedTo_append hfeed ⟨e, List.mem_cons_of_mem _ he, hheld⟩,
      charge_cons reach last (List.ne_nil_of_mem he)]
  | @taken init last hblank =>
    obtain ⟨c, hc, hstep⟩ :=
      toList_step_taken hcs hblank (h.unseen last (by simp) hblank) htokens s reach
    exact ⟨init, c, hstep, retains_append init [last], .inr hc⟩
  | joined hlast _ _ =>
    refine ⟨init, c, ?_, retains_append init [c], .inl rfl⟩
    rw [step, hsize, List.length_append, List.length_singleton, Nat.add_sub_cancel]
    refine toList_lookedTo_append hfeed ?_ reach
    exact Held.foldl_grow ⟨absorb c first, by simp, isBlank_absorb hlast first⟩ rest

/-- A blank chunk at the end is as it was before it was noted how far a step looked. -/
theorem getLast?_lookedTo {index pos : Nat} {c : Chunk}
    (hc : (b.lookedTo index pos).chunks.toList.getLast? = some c) (hblank : c.isBlank = true) :
    b.chunks.toList.getLast? = some c := by
  have hsize : b.size = b.chunks.toList.length := rfl
  rw [toList_lookedTo, ← Array.getLast?_toList, hsize] at hc
  generalize b.chunks.toList = cs at hc ⊢
  rcases List.eq_nil_or_concat' cs with rfl | ⟨front, last, rfl⟩
  · cases hc
  · rw [List.mapIdx_concat, List.getLast?_concat, List.getLast?_concat, Option.any_some,
      List.length_append, List.length_singleton] at hc
    rw [List.getLast?_concat]
    cases hlast : last.isBlank with
    | true =>
      rw [if_neg (by simp [hlast])] at hc
      exact hc
    | false =>
      rw [← Option.some.inj hc, (revised_ite_lookedTo _ last pos).isBlank_eq, hlast] at hblank
      cases hblank

/-- A step leaves the chunks ready for the next one. -/
theorem Ready.step {stop : Nat} (h : Ready b.chunks.toList pos) (htokens : TokensFrom pos tokens)
    (hstop : ∀ t ∈ tokens, t.stop ≤ stop) (s : State) (reach : Nat) :
    Ready (b.step s tokens reach).chunks.toList stop := by
  obtain ⟨⟨first, rest, rfl, rfl⟩, ⟨-, hfirst, hrest⟩, -⟩ := htokens
  have hfed : Ready (b.feed s (first :: rest)).chunks.toList stop := by
    rw [toList_feed_cons]
    exact ((adds_grow b.capacity (some s) first _).ready h hfirst).foldl_grow hrest
      (hstop first (by simp)) fun t ht => hstop t (by simp [ht])
  refine ⟨hfed.toTidy.revised (revised_lookedTo ..), fun c hc hblank => ?_⟩
  exact hfed.unseen c (getLast?_lookedTo hc hblank) hblank

theorem keepsOwn_step (hb : ∀ c ∈ b.chunks.toList, c.KeepsOwn) (s : State) (tokens : List Token)
    (reach : Nat) : ∀ c ∈ (b.step s tokens reach).chunks.toList, c.KeepsOwn := by
  have hrest : ∀ (tokens : List Token) (cs : List Chunk), (∀ c ∈ cs, c.KeepsOwn) →
      ∀ c ∈ tokens.foldl (ChunkSequence.grow b.capacity none) cs, c.KeepsOwn := by
    intro tokens
    induction tokens with
    | nil => exact fun _ hcs => hcs
    | cons t rest ih => exact fun cs hcs => ih _ ((adds_grow b.capacity none t cs).keepsOwn hcs)
  have hfed : ∀ c ∈ (b.feed s tokens).chunks.toList, c.KeepsOwn := by
    cases tokens with
    | nil => exact hb
    | cons first rest =>
      rw [toList_feed_cons]
      exact hrest rest _ ((adds_grow b.capacity (some s) first _).keepsOwn hb)
  intro c hc
  obtain ⟨e, he, hrevised⟩ := exists_of_revised (revised_lookedTo ..) hc
  exact hrevised.keepsOwn (hfed e he)

/-- Where two lists put together are cut, one of them is. -/
theorem cut_append {init w front back : List Chunk} {e : Chunk}
    (h : init ++ w = front ++ e :: back) :
    (∃ rest, init = front ++ e :: rest) ∨ ∃ mid, front = init ++ mid ∧ w = mid ++ e :: back := by
  rcases List.append_eq_append_iff.mp h with ⟨mid, hfront, hw⟩ | ⟨mid, hinit, hback⟩
  · exact .inr ⟨mid, hfront, hw⟩
  · cases mid with
    | nil => exact .inr ⟨[], by simpa using hinit.symm, by simpa using hback.symm⟩
    | cons d rest =>
      obtain ⟨rfl, -⟩ := List.cons.inj hback
      exact .inl ⟨rest, hinit⟩

/-! ## Cut and made again -/

/-- Sequences that look the same still do after a step. -/
theorem Like.step {b' : ChunkSequence} (h : Like b b') (hb : Tidy b.chunks.toList pos)
    (htokens : TokensFrom pos tokens) (s : State) (reach : Nat) :
    Like (b.step s tokens reach) (b'.step s tokens reach) := by
  obtain ⟨hcapacity, hchunks⟩ := h
  refine ⟨?_, ?_⟩
  · rw [capacity_step, capacity_step, hcapacity]
  · have hsize : b'.size = b.size := hchunks.length_eq
    rw [ChunkSequence.step, ChunkSequence.step, hsize]
    apply SameOutlines.lookedTo
    obtain ⟨⟨first, rest, rfl, rfl⟩, ⟨-, hfirst, hrest⟩, -⟩ := htokens
    have htidy := (adds_grow b.capacity (some s) first b.chunks.toList).tidy hb hfirst
    rw [toList_feed_cons, toList_feed_cons, hcapacity]
    exact (hchunks.grow hb.stop_le hfirst).foldl_grow htidy hrest

/-- A step that began a chunk is made again in a sequence with an empty chunk in its place. -/
theorem like_step_again {init : List Chunk} {c : Chunk} {reach : Nat}
    (hmade : (b.step s tokens reach).chunks.toList =
      init ++ charge reach (batchOf b.capacity c tokens))
    (hc : c.outline = (Chunk.empty pos (some s)).outline) (htokens : TokensFrom pos tokens)
    {d : ChunkSequence} (hcapacity : d.capacity = b.capacity)
    (hd : SameOutlines (init ++ [.empty pos (some s)]) d.chunks.toList) :
    Like (d.step s tokens reach) (b.step s tokens reach) := by
  obtain ⟨init', last, hlist, hinit, hlast⟩ := hd.concat
  have hblank : last.isBlank = true := Chunk.isBlank_of_outline hlast
  have hlooked : last.looked ≤ pos := by
    have hreach : last.reach = (Chunk.empty pos (some s)).reach :=
      (Chunk.outline_eq_iff.mp hlast).2.2.2.2.2.2
    have hsame : (Chunk.empty pos (some s)).reach = pos := Nat.max_self _
    rw [← hsame, ← hreach]
    exact Nat.le_max_left _ _
  obtain ⟨c', hc', hagain⟩ := toList_step_taken hlist hblank hlooked htokens s reach
  have hbatches := (sameOutlines_batchOf b.capacity htokens hc').symm.trans
    (sameOutlines_batchOf b.capacity htokens hc)
  refine ⟨by rw [capacity_step, capacity_step, hcapacity], ?_⟩
  rw [hagain, hmade, hcapacity]
  exact hinit.symm.append (hbatches.charge reach)

/-- If a chunk with a state is behind others after a step, it was the same chunk before the step; or
else the step began there, and if it is made again with what is in front of the chunk, it leads to
the same outlines. -/
theorem step_cut (h : Ready b.chunks.toList pos) (htokens : TokensFrom pos tokens) {reach : Nat}
    {front back : List Chunk} {e : Chunk} {u : State}
    (hstep : (b.step s tokens reach).chunks.toList = front ++ e :: back) (hu : e.state = some u) :
    (∃ e₀ back₀, b.chunks.toList = front ++ e₀ :: back₀ ∧ e₀.start = e.start ∧
      e₀.state = e.state) ∨
    (e.start = pos ∧ u = s ∧ ∀ d : ChunkSequence, d.capacity = b.capacity →
      SameOutlines (front ++ [e.strip]) d.chunks.toList →
      Like (d.step s tokens reach) (b.step s tokens reach)) := by
  obtain ⟨init, c, hmade, hretains, hc⟩ := toList_step h htokens s reach
  rw [hmade] at hstep
  rcases cut_append hstep with ⟨rest, hinit⟩ | ⟨mid, rfl, hcut⟩
  · exact .inl (hretains front e rest hinit)
  · -- behind its first chunk the step has left no state
    obtain ⟨head, more, hbatch, hhead, hmore⟩ :=
      (batch_batchOf b.capacity c htokens).revised (revised_charge reach _)
    rw [hbatch] at hcut
    cases mid with
    | cons d mid =>
      obtain ⟨-, hrest⟩ := List.cons.inj hcut
      rw [hmore e (by simp [hrest])] at hu
      cases hu
    | nil =>
      obtain rfl : e = head := (List.cons.inj hcut).1.symm
      rw [List.append_nil]
      obtain ⟨hstate, hstart⟩ := hhead.state.resolve_left (by simp [hu])
      rcases hc with hlast | hempty
      · exact .inl ⟨c, [], hlast, hstart.symm, hstate.symm⟩
      · obtain ⟨hpos, -, -, -, -, hbegun, -⟩ := Chunk.outline_eq_iff.mp hempty
        replace hstart : e.start = pos := hstart.trans hpos
        replace hstate : e.state = some s := hstate.trans hbegun
        obtain rfl : u = s := Option.some.inj (hu.symm.trans hstate)
        refine .inr ⟨hstart, rfl, fun d hcapacity hd => ?_⟩
        rw [Chunk.strip, hstart, hstate] at hd
        exact like_step_again hmade hempty htokens hcapacity hd

end RegionTree.ChunkSequence
