import Mathlib
import RegionTree.Proofs.Document.Windows
set_option autoImplicit false

/-!
# Positions of a window and of its document

A window of separated ranges shows what lies near a position in each of them, cut at boundaries
(`Window.Cuts`), whatever the ranges are: their ends need not be boundaries.  Positions are translated
into the window and back without loss, and from the window in order (`Window.exact_around`).
-/

namespace RegionTree.Window

open Text

variable {document : String}

/-! ## The pieces -/

/-- A part of a document lies between boundaries, and is what is read there. -/
theorem Part.read_eq {pos : Nat} {part : List Char} (h : Part document pos part) :
    Boundary document.toList pos ∧ Boundary document.toList (pos + byteLength part) ∧
      (Document.read document pos (pos + byteLength part)).toList = part := by
  obtain ⟨a, b, hs, rfl⟩ := h
  have hstart : Boundary document.toList (byteLength a) := ⟨a, part ++ b, by simp [hs], rfl⟩
  have hstop : Boundary document.toList (byteLength (a ++ part)) := ⟨a ++ part, b, hs, rfl⟩
  rw [← byteLength_append]
  exact ⟨hstart, hstop, Document.toList_read hs (Document.floor_of_boundary hstart)
    (Document.floor_of_boundary hstop)⟩

namespace Laid

theorem nonempty {offset : Nat} {pieces : List WindowPiece} {cs : List Char}
    (h : Laid document offset pieces cs) : ∀ p ∈ pieces, 0 < p.length := by
  induction pieces generalizing offset cs with
  | nil => exact fun p hp => absurd hp List.not_mem_nil
  | cons p rest ih =>
    obtain ⟨-, hlength, -, part, more, -, -, -, hrest⟩ := h
    exact List.forall_mem_cons.mpr ⟨hlength, ih hrest⟩

theorem ordered {offset : Nat} {pieces : List WindowPiece} {cs : List Char}
    (h : Laid document offset pieces cs) :
    pieces.Pairwise fun p q => p.document + p.length ≤ q.document := by
  induction pieces generalizing offset cs with
  | nil => exact .nil
  | cons p rest ih =>
    obtain ⟨-, -, hlater, part, more, -, -, -, hrest⟩ := h
    exact List.pairwise_cons.mpr ⟨hlater, ih hrest⟩

theorem boundaries {offset : Nat} {pieces : List WindowPiece} {cs : List Char}
    (h : Laid document offset pieces cs) : ∀ p ∈ pieces,
      Boundary document.toList p.document ∧ Boundary document.toList (p.document + p.length) := by
  induction pieces generalizing offset cs with
  | nil => exact fun p hp => absurd hp List.not_mem_nil
  | cons p rest ih =>
    obtain ⟨-, -, -, part, more, -, hlength, hpart, hrest⟩ := h
    obtain ⟨hstart, hstop, -⟩ := hpart.read_eq
    rw [hlength] at hstop
    exact List.forall_mem_cons.mpr ⟨⟨hstart, hstop⟩, ih hrest⟩

/-- The texts of the pieces, put together, are the text of the window. -/
theorem text_eq {offset : Nat} {pieces : List WindowPiece} {cs : List Char}
    (h : Laid document offset pieces cs) :
    (String.join (pieces.map fun p =>
      Document.read document p.document (p.document + p.length))).toList = cs := by
  induction pieces generalizing offset cs with
  | nil => exact h.symm
  | cons p rest ih =>
    obtain ⟨-, -, -, part, more, rfl, hlength, hpart, hrest⟩ := h
    obtain ⟨-, -, hread⟩ := hpart.read_eq
    rw [List.map_cons, String.join_cons, String.toList_append, ih hrest, ← hlength, hread]

/-! ## Translation by pieces -/

/-- What is one byte long stops right behind its start, also at the end of a piece. -/
theorem stopIn_succ {offset n : Nat} {pieces : List WindowPiece} {cs : List Char}
    (h : Laid document offset pieces cs) (hlow : offset ≤ n) (hhigh : n < offset + byteLength cs) :
    stopIn pieces (n + 1) = startIn pieces n + 1 := by
  induction pieces generalizing offset cs with
  | nil =>
    obtain rfl : cs = [] := h
    exact absurd hhigh (Nat.not_lt.mpr hlow)
  | cons p rest ih =>
    obtain ⟨rfl, -, -, part, more, rfl, hlength, -, hrest⟩ := h
    rw [byteLength_append, hlength] at hhigh
    by_cases hin : n < p.window + p.length
    · rw [startIn_cons_of_lt hin, stopIn_cons_of_le hin]
      omega
    · cases rest with
      | nil =>
        obtain rfl : more = [] := hrest
        rw [byteLength_nil] at hhigh
        omega
      | cons q others =>
        rw [startIn_cons_of_le (by omega), stopIn_cons_of_lt (by omega)]
        exact ih hrest (by omega) (by omega)

/-- What stops behind the end of the window stops where the window ends. -/
theorem stopIn_behind {offset n : Nat} {p : WindowPiece} {rest : List WindowPiece}
    {cs : List Char} (h : Laid document offset (p :: rest) cs) (hn : offset + byteLength cs ≤ n) :
    stopIn (p :: rest) n = stopIn (p :: rest) (offset + byteLength cs) := by
  induction rest generalizing offset p cs with
  | nil =>
    obtain ⟨rfl, -, -, part, more, rfl, hlength, -, rfl⟩ := h
    rw [List.append_nil, hlength] at hn ⊢
    rw [stopIn_cons_of_le (Nat.le_refl _)]
    rcases Nat.eq_or_lt_of_le hn with rfl | hlt
    · exact stopIn_cons_of_le (Nat.le_refl _)
    · rw [stopIn_single_of_lt hlt]
      omega
  | cons q others ih =>
    obtain ⟨rfl, -, -, part, more, rfl, hlength, -, hrest⟩ := h
    have hmore : q.length ≤ byteLength more := by
      obtain ⟨-, -, -, first, behind, rfl, hfirst, -⟩ := hrest
      rw [byteLength_append]
      omega
    have hpositive := hrest.nonempty q List.mem_cons_self
    rw [byteLength_append, hlength, ← Nat.add_assoc] at hn ⊢
    rw [stopIn_cons_of_lt (by omega), stopIn_cons_of_lt (by omega)]
    exact ih hrest hn

theorem stopIn_mono {pieces : List WindowPiece} {cs : List Char}
    (h : Laid document 0 pieces cs) : Monotone (stopIn pieces) := by
  refine monotone_nat_of_le_succ fun n => ?_
  by_cases hn : n < byteLength cs
  · rw [h.stopIn_succ (Nat.zero_le n) (by omega)]
    exact Nat.le_succ_of_le h.stopIn_le_startIn
  · cases pieces with
    | nil => exact Nat.le_succ n
    | cons p rest =>
      rw [h.stopIn_behind (n := n) (by omega), h.stopIn_behind (n := n + 1) (by omega)]

end Laid

/-! ## Translation by a window -/

/-- What the pieces of a window are, and how they translate: positions of the document that the window
shows are found again, and so are those of the window; a stop is right behind what is before it; and
both ways out of the window keep the order. -/
structure Exact (document : String) (w : Window) : Prop where
  nonempty : ∀ p ∈ w.pieces, 0 < p.length
  ordered : w.pieces.Pairwise fun p q => p.document + p.length ≤ q.document
  boundaries : ∀ p ∈ w.pieces,
    Boundary document.toList p.document ∧ Boundary document.toList (p.document + p.length)
  text_eq : w.text =
    String.join (w.pieces.map fun p => Document.read document p.document (p.document + p.length))
  start_position : ∀ p ∈ w.pieces, ∀ pos, p.document ≤ pos → pos < p.document + p.length →
    w.startInDocument (w.position pos) = pos
  position_start : ∀ n, n < w.length → w.position (w.startInDocument n) = n
  stop_eq : ∀ n, 0 < n → n ≤ w.length → w.stopInDocument n = w.startInDocument (n - 1) + 1
  start_mono : Monotone w.startInDocument
  stop_mono : Monotone w.stopInDocument
  stop_le_start : ∀ n, w.stopInDocument n ≤ w.startInDocument n

/-- A position inside a piece has its place in the window. -/
theorem position_eq {w : Window} (h : Laid document 0 w.pieces w.text.toList) {p : WindowPiece}
    (hp : p ∈ w.pieces) {pos : Nat} (hstart : p.document ≤ pos)
    (hstop : pos < p.document + p.length) : w.position pos = p.window + (pos - p.document) := by
  rw [position, h.position_of_mem hp hstart hstop]

theorem Laid.exact {w : Window} (h : Laid document 0 w.pieces w.text.toList) :
    Exact document w where
  nonempty := h.nonempty
  ordered := h.ordered
  boundaries := h.boundaries
  text_eq := String.toList_injective h.text_eq.symm
  start_position p hp pos hstart hstop := by
    rw [position_eq h hp hstart hstop]
    exact h.startIn_of_mem hp hstart hstop
  position_start n hn := by
    rw [length, Document.length_eq] at hn
    have hne : w.pieces ≠ [] := by
      intro hnil
      rw [hnil] at h
      rw [h, byteLength_nil] at hn
      exact Nat.not_lt_zero n hn
    obtain ⟨p, hp, hfrom, hto, hfound⟩ := h.startIn_mem hne (Nat.zero_le n) (by omega)
    rw [startInDocument_eq, hfound, position_eq h hp (by omega) (by omega)]
    omega
  stop_eq n hpositive hn := by
    rw [length, Document.length_eq] at hn
    obtain ⟨k, rfl⟩ : ∃ k, n = k + 1 := ⟨n - 1, by omega⟩
    exact h.stopIn_succ (Nat.zero_le k) (by omega)
  start_mono _ _ hle := h.startIn_mono hle
  stop_mono _ _ hle := h.stopIn_mono hle
  stop_le_start _ := h.stopIn_le_startIn

/-! ## Windows of any ranges -/

/-- A window shows what lies in some intervals near a position, cut at boundaries. -/
structure Cuts (document : String) (pos before after : Nat) (intervals : List Interval)
    (w : Window) : Prop where
  laid : Laid document 0 w.pieces w.text.toList
  shown : ∀ n, (∃ p ∈ w.pieces, p.document ≤ n ∧ n < p.document + p.length) ↔
    ∃ i ∈ intervals, Document.floor document (max i.start (pos - before)) ≤ n ∧
      n < Document.floor document (min i.stop (pos + after))

theorem Cuts.append {pos before after : Nat} {intervals : List Interval} {w : Window}
    (h : Cuts document pos before after intervals w) {i : Interval}
    (hbehind : ∀ j ∈ intervals, j.stop ≤ i.start) :
    Cuts document pos before after (intervals ++ [i])
      (w.append document (max i.start (pos - before)) (min i.stop (pos + after))) := by
  have hafter : ∀ p ∈ w.pieces,
      p.document + p.length ≤ Document.floor document (max i.start (pos - before)) := by
    intro p hp
    have hpositive := h.laid.nonempty p hp
    obtain ⟨j, hj, -, hlast⟩ :=
      (h.shown (p.document + p.length - 1)).mp ⟨p, hp, by omega, by omega⟩
    have hcut : Document.floor document (min j.stop (pos + after)) ≤
        Document.floor document (max i.start (pos - before)) := by
      apply Document.floor_mono
      have := hbehind j hj
      omega
    omega
  refine ⟨h.laid.append_text hafter _, fun n => ?_⟩
  simp only [List.mem_append, List.mem_singleton, or_and_right, exists_or, exists_eq_left]
  rw [← h.shown]
  rcases append_cases w document (max i.start (pos - before)) (min i.stop (pos + after)) with
    ⟨hnone, hsame⟩ | ⟨hlt, part, -, -, happend⟩
  · rw [hsame, or_iff_left (by omega)]
  · rw [happend]
    simp only [List.mem_append, List.mem_singleton, or_and_right, exists_or, exists_eq_left]
    rw [Nat.add_sub_cancel' (Nat.le_of_lt hlt)]

theorem cuts_around {r : IntervalSet} (h : IntervalSet.Separated r.intervals)
    (pos before after : Nat) :
    Cuts document pos before after r.intervals (around r document pos before after) :=
  around_induction h ⟨rfl, by simp [empty]⟩ fun _ _ _ _ hbehind hw => hw.append hbehind

/-- Windows of ranges are exact, and show what lies near in each of the ranges, cut at boundaries. -/
theorem exact_around (ranges : List Interval) (document : String) (pos before after : Nat) :
    Exact document (around (.ofList ranges) document pos before after) ∧
      ∀ n, (∃ p ∈ (around (.ofList ranges) document pos before after).pieces,
          p.document ≤ n ∧ n < p.document + p.length) ↔
        ∃ i ∈ (IntervalSet.ofList ranges).intervals,
          Document.floor document (max i.start (pos - before)) ≤ n ∧
            n < Document.floor document (min i.stop (pos + after)) := by
  have hcuts : Cuts document pos before after _ _ :=
    cuts_around (IntervalSet.separated_ofList ranges) pos before after
  exact ⟨hcuts.laid.exact, hcuts.shown⟩

/-- Both ranges are cut, one of them by a margin that falls into a character.  Where their texts meet,
what starts there starts in the second and what stops there stops in the first. -/
theorem exact_around_cut :
    around (.ofList [⟨5, 8⟩, ⟨0, 4⟩]) "aéXXdef" 5 3 2 = ⟨"éXde", [⟨0, 1, 3⟩, ⟨3, 5, 2⟩]⟩ ∧
      (around (.ofList [⟨5, 8⟩, ⟨0, 4⟩]) "aéXXdef" 5 3 2).startInDocument 3 = 5 ∧
      (around (.ofList [⟨5, 8⟩, ⟨0, 4⟩]) "aéXXdef" 5 3 2).stopInDocument 3 = 4 ∧
      Exact "aéXXdef" (around (.ofList [⟨5, 8⟩, ⟨0, 4⟩]) "aéXXdef" 5 3 2) := by
  refine ⟨?_, ?_, ?_, (exact_around [⟨5, 8⟩, ⟨0, 4⟩] "aéXXdef" 5 3 2).1⟩ <;> cbv

end RegionTree.Window
