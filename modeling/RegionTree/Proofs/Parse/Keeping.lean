import RegionTree.Proofs.Parse.Lineage
set_option autoImplicit false

/-!
# Which old chunks are kept

When a parse is begun it keeps the old chunks before the edit, and when it takes over old chunks
behind the edit it keeps those in front of the last one from which parsing can go on (`Parse.kept`).
All of them are chunks of the fragment that was chosen, so they lie where its tree does
(`Task.kept_within`).

The range of a fragment is asked for only when a fragment is chosen.  A chunk that is kept may lie
behind the range, if the tree does (`Task.not_kept_within`).
-/

namespace RegionTree

namespace Parse

variable {t : Task}

/-- The old chunks that the next advance of a parse keeps. -/
def kept (t : Task) (p : Parse) : List Chunk :=
  match p.stage with
  | .fresh => (init t p).chunks.chunks.toList.dropLast
  | .running =>
    match outlook t p with
    | .take old index =>
      if p.atEnd then []
      else
        (old.chunks.toList.drop index).take
          ((splice t p old index).stats.keptRight - p.stats.keptRight)
    | _ => []
  | .finished => []

/-- Where a parse that takes over old chunks goes on from one of them, it has those in front of that
one, moved to their places. -/
theorem splice_keeps (t : Task) (p : Parse) (old : ChunkSequence) (index : Nat) :
    ∃ count, (splice t p old index).stats.keptRight = p.stats.keptRight + count ∧
      ∀ c ∈ (old.chunks.toList.drop index).take count,
        c.shift p.edit.offset ∈ (splice t p old index).chunks.chunks.toList := by
  unfold splice
  dsimp only
  have hjoined := ChunkSequence.appendUpTo_eq p.chunks
    (old.relocate index p.edit.offset true) p.stop
  have hmoved : (old.relocate index p.edit.offset true).chunks.toList =
      (old.chunks.toList.drop index).map fun c => c.shift p.edit.offset := by
    simp [ChunkSequence.relocate, ChunkSequence.size]
  generalize p.chunks.appendUpTo (old.relocate index p.edit.offset true) p.stop = joined at *
  obtain ⟨joined, linked⟩ := joined
  dsimp only at hjoined ⊢
  obtain ⟨hchunks, hlinked⟩ := hjoined
  rw [hmoved] at hchunks hlinked
  have hsize : joined.size = joined.chunks.toList.length := rfl
  have hspliced : joined.size - linked = (ChunkSequence.trim p.chunks.chunks.toList).length := by
    rw [hsize, hchunks, List.length_append, ← hlinked, Nat.add_sub_cancel]
  split
  · rename_i i hi
    obtain ⟨_, _, hresume, -⟩ := resume_eq
      { p with old := none,
               stats := { p.stats with keptRight := p.stats.keptRight +
                            (((some i).map fun i => i - (joined.size - linked)).getD 0) } }
      (joined.split i).1 i
    rw [hi, hresume]
    refine ⟨i - (joined.size - linked), rfl, fun c hc => ?_⟩
    rcases Option.or_eq_some_iff.mp hi with hfound | ⟨-, hfiltered⟩
    · obtain ⟨hle, hlt, d, -, hd, -⟩ := ChunkSequence.lastRestartIn_eq_some hfound
      rw [hspliced] at hc hle hlt
      obtain ⟨k, rfl⟩ := Nat.exists_eq_add_of_le hle
      rw [Nat.add_sub_cancel_left] at hc
      generalize ChunkSequence.trim p.chunks.chunks.toList = base at *
      generalize htaken : List.takeWhile (fun c => decide (c.stop ≤ p.stop))
        ((old.chunks.toList.drop index).map fun c => c.shift p.edit.offset) = taken at *
      obtain ⟨more, hmore⟩ : taken <+:
          (old.chunks.toList.drop index).map fun c => c.shift p.edit.offset :=
        htaken ▸ List.takeWhile_prefix _
      rw [hchunks, List.getElem?_append_right (Nat.le_add_right _ _),
        Nat.add_sub_cancel_left] at hd
      obtain ⟨hk, -⟩ := List.getElem?_eq_some_iff.mp hd
      obtain ⟨hplace, htake⟩ := ChunkSequence.eq_take_cons_drop hd
      have hcut : joined.chunks.toList =
          (base ++ taken.take k) ++ d :: taken.drop (k + 1) := by
        rw [hchunks, List.append_assoc, ← hplace]
      have hlength : (base ++ taken.take k).length = base.length + k := by
        rw [List.length_append, htake]
      have hmoved : c.shift p.edit.offset ∈ taken.take k := by
        have hbegin : (taken ++ more).take k = taken.take k :=
          List.take_append_of_le_length (Nat.le_of_lt hk)
        rw [← hbegin, hmore, ← List.map_take]
        exact List.mem_map_of_mem hc
      rw [← hlength, (ChunkSequence.toList_split hcut).1]
      simp [hmoved]
    · have hbefore := (Option.filter_eq_some_iff.mp hfiltered).2
      rw [decide_eq_true_eq] at hbefore
      rw [Nat.sub_eq_zero_of_le (Nat.le_of_lt hbefore)] at hc
      cases hc
  · rename_i hi
    rw [hi]
    exact ⟨0, rfl, fun c hc => by cases hc⟩

/-- The chunks that are kept are among those of the parse after the advance, at their new places. -/
theorem advance_keeps {p : Parse} {c : Chunk} (hc : c ∈ p.kept t) :
    (p.stage = .fresh ∧ c ∈ (advance t p).1.chunks.chunks.toList) ∨
      (p.stage = .running ∧
        c.shift p.edit.offset ∈ (advance t p).1.chunks.chunks.toList) := by
  unfold kept at hc
  split at hc
  · rename_i hfresh
    refine .inl ⟨hfresh, ?_⟩
    rw [advance, hfresh]
    exact List.dropLast_subset _ hc
  · rename_i hrunning
    refine .inr ⟨hrunning, ?_⟩
    split at hc
    · rename_i old index hlook
      split at hc
      · cases hc
      · rename_i hend
        obtain ⟨count, hcount, hmem⟩ := splice_keeps t p old index
        rw [hcount, Nat.add_sub_cancel_left] at hc
        rw [advance, hrunning]
        dsimp only
        rw [if_neg hend, hlook]
        exact hmem c hc
    · cases hc
  · cases hc

/-- The chunks that may still be taken over are those of a fragment. -/
def Offered (t : Task) (p : Parse) : Prop :=
  ∀ o, p.old = some o → ∃ f ∈ t.fragments, ∀ c ∈ o.chunks.toList, c ∈ f.chunks.chunks.toList

theorem kept_offered (t : Task) : Kept t (Offered t) where
  breakOff p _ hp := hp
  begun breakOff := by
    obtain ⟨pos, state, chunks, _, old, _, hinit, -, hbegun⟩ := init_eq t breakOff
    rw [hinit]
    intro o ho
    dsimp only at ho
    generalize (⟨pos, state⟩ : Point) = point at hbegun
    generalize chunks.chunks.toList = cs at hbegun
    cases hbegun with
    | anew hold =>
      obtain ⟨f, hf, rfl⟩ := hold o ho
      exact ⟨f, hf, fun c hc => hc⟩
    | kept hf hchunks _ _ hright =>
      obtain rfl := Option.some.inj ho
      refine ⟨_, hf, fun e he => ?_⟩
      rw [hright] at he
      rw [hchunks]
      exact List.mem_append_right _ he
  spliced p old index _ _ _ := by
    obtain ⟨_, _, _, _, _, hsplice, -⟩ := splice_eq t p old index
    rw [hsplice]
    intro o ho
    cases ho
  stepped p old hp _ hold := by
    obtain ⟨_, hstep⟩ := matchStep_eq t { p with old }
    rw [hstep]
    intro o ho
    rcases hold with rfl | rfl
    · exact hp o ho
    · cases ho

end Parse

namespace Task

variable {t : Task}

/-- All chunks that are kept are those of a fragment; those kept before the edit looked only at what
was not edited. -/
theorem Comes.mem_kept {p : Parse} (hp : t.Comes p) {c : Chunk} (hc : c ∈ p.kept t) :
    ∃ f ∈ t.fragments, c ∈ f.chunks.chunks.toList ∧
      (p.stage = .fresh → c.reach < Parse.staleFrom t.begin.edit) := by
  unfold Parse.kept at hc
  split at hc
  · rename_i hfresh
    obtain ⟨breakOff, rfl⟩ := hp.fresh hfresh
    obtain ⟨pos, state, chunks, _, old, _, hinit, -, hbegun⟩ := Parse.init_eq t breakOff
    rw [hinit] at hc
    dsimp only at hc
    generalize (⟨pos, state⟩ : Point) = point at hbegun
    generalize chunks.chunks.toList = cs at hbegun hc
    cases hbegun with
    | anew _ => cases hc
    | kept hf hchunks _ hstale _ =>
      rw [List.dropLast_concat] at hc
      exact ⟨_, hf, by simp [hchunks, hc], fun _ => hstale c hc⟩
  · rename_i hrunning
    split at hc
    · rename_i old index hlook
      split at hc
      · cases hc
      · obtain ⟨hold, -⟩ := Parse.outlook_eq_take hlook
        obtain ⟨f, hf, hmem⟩ := (hp.holds (Parse.kept_offered t)).running hrunning old hold
        refine ⟨f, hf, hmem c (List.mem_of_mem_drop (List.mem_of_mem_take hc)), ?_⟩
        intro hfresh
        rw [hfresh] at hrunning
        cases hrunning
    · cases hc
  · cases hc

/-- A parse with the chunks of an earlier one as its only fragment keeps only chunks that lie where
the tree of the earlier parse does, whatever the range of the fragment is. -/
theorem kept_within {grammar : Grammar} {before : Task}
    (hbefore : Lineage grammar (fun document _ => Document.length document ≤ maxPosition) before)
    {q : Parse} {parsed : ParseResult} (hq : before.Comes q)
    (hparsed : (Parse.advance before q).2 = some parsed) {document : String} {config : Config}
    {edit : Option Edit} {stop : Nat}
    (ht : t = (fresh grammar document config).reuse [⟨parsed.chunks, 0, stop⟩] edit)
    {p : Parse} (hp : t.Comes p) {c : Chunk} (hc : c ∈ p.kept t) :
    c ∈ parsed.chunks.chunks.toList ∧ c.stop ≤ parsed.tree.stop ∧
      (p.stage = .fresh → c.reach < Parse.staleFrom t.begin.edit) := by
  obtain ⟨f, hf, hmem, hreach⟩ := hp.mem_kept hc
  obtain ⟨old, hfollows⟩ := hbefore.follows fun _ _ hle => hle
  obtain ⟨hlaid, rfl⟩ := hq.finished hfollows.kept hparsed
  subst ht
  obtain rfl := List.mem_singleton.mp hf
  refine ⟨hmem, ?_, hreach⟩
  have habut := (hlaid.fits.revised (ChunkSequence.revised_remember q.chunks q.pos)).abut
  have hstop : (Parse.result before q).tree.stop = q.start + (q.pos - q.start) := rfl
  rw [hstop, hlaid.start_eq]
  have hle := (habut.mem hmem).2
  omega

/-- Three groups with a letter behind them, and their parse as a fragment for the first parenthesis
only. -/
def narrowGroups : Task :=
  (fresh .groups "()()()a" { marginBefore := 1, marginAfter := 1 }).reuse
    [⟨(Parse.result threeGroups (threeGroups.after (.replicate 7 none))).chunks, 0, 1⟩]
    (some (.insert 6 1))

/-- The first two groups are kept. -/
theorem exists_kept_narrowGroups : ∃ c, c ∈ narrowGroups.begin.kept narrowGroups ∧ c.stop = 4 := by
  have hstops : (narrowGroups.begin.kept narrowGroups).map Chunk.stop = [2, 4] := by decide +kernel
  have hmem : 4 ∈ (narrowGroups.begin.kept narrowGroups).map Chunk.stop := by simp [hstops]
  exact List.mem_map.mp hmem

theorem kept_within_narrowGroups :
    Lineage .groups (fun document _ => Document.length document ≤ maxPosition) threeGroups ∧
      ∃ q parsed c, threeGroups.Comes q ∧ (Parse.advance threeGroups q).2 = some parsed ∧
        narrowGroups = (fresh .groups "()()()a" { marginBefore := 1, marginAfter := 1 }).reuse
          [⟨parsed.chunks, 0, 1⟩] (some (.insert 6 1)) ∧
        narrowGroups.Comes narrowGroups.begin ∧ c ∈ narrowGroups.begin.kept narrowGroups ∧
        c ∈ parsed.chunks.chunks.toList ∧ c.stop ≤ parsed.tree.stop ∧
        (narrowGroups.begin.stage = .fresh →
          c.reach < Parse.staleFrom narrowGroups.begin.edit) := by
  have hlength : Document.length "()()()" ≤ maxPosition := by decide +kernel
  have hend : (threeGroups.after (.replicate 7 none)).stage = .running ∧
      (threeGroups.after (.replicate 7 none)).atEnd = true := by decide +kernel
  obtain ⟨c, hc, -⟩ := exists_kept_narrowGroups
  have hbefore : Lineage .groups (fun document _ => Document.length document ≤ maxPosition)
      threeGroups := .first hlength
  have hq : threeGroups.Comes (threeGroups.after (.replicate 7 none)) := ⟨_, none, rfl⟩
  have hparsed := Parse.advance_of_atEnd (t := threeGroups) hend.1 hend.2
  exact ⟨hbefore, _, _, c, hq, hparsed, rfl, narrowGroups.comes_begin, hc,
    kept_within hbefore hq hparsed rfl narrowGroups.comes_begin hc⟩

/-- The second group is kept, which is not in the range of the fragment. -/
theorem not_kept_within :
    ¬ ∀ (grammar : Grammar) (old document : String) (config : Config) (edit : Option Edit)
        (stop : Nat) (q p : Parse) (parsed : ParseResult) (c : Chunk),
      (fresh grammar old config).Comes q →
      (Parse.advance (fresh grammar old config) q).2 = some parsed →
      Edit.Consistent old document edit →
      ((fresh grammar document config).reuse [⟨parsed.chunks, 0, stop⟩] edit).Comes p →
      c ∈ p.kept ((fresh grammar document config).reuse [⟨parsed.chunks, 0, stop⟩] edit) →
      c.stop ≤ stop := by
  intro hall
  have hend : (threeGroups.after (.replicate 7 none)).stage = .running ∧
      (threeGroups.after (.replicate 7 none)).atEnd = true := by decide +kernel
  have hedit : Edit.Consistent "()()()" "()()()a" (some (.insert 6 1)) := by
    refine ⟨6, 6, "a", Nat.le_refl 6, ?_, ?_, ?_, ?_⟩
    · decide +kernel
    · decide +kernel
    · decide +kernel
    · decide +kernel
  obtain ⟨c, hc, hstop⟩ := exists_kept_narrowGroups
  have hle := hall .groups "()()()" "()()()a" { marginBefore := 1, marginAfter := 1 }
    (some (.insert 6 1)) 1 _ narrowGroups.begin _ c ⟨.replicate 7 none, none, rfl⟩
    (Parse.advance_of_atEnd hend.1 hend.2) hedit narrowGroups.comes_begin hc
  rw [hstop] at hle
  exact absurd hle (by decide)

end Task

end RegionTree
