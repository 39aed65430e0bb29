import RegionTree.Proofs.Document.Regions
set_option autoImplicit false

/-!
# Windows and the document

The pieces of a window stand one behind the other in the window and in the order of the document
(`Laid`).  So a boundary of the window is one of the document, and what comes later in the window
comes later in the document.

In the whole document a window is the text around a position, cut at boundaries (`around_whole`).
-/

namespace RegionTree.Window

open Text

/-- A part of the text of a document. -/
def Part (document : String) (pos : Nat) (part : List Char) : Prop :=
  ∃ a b, document.toList = a ++ part ++ b ∧ byteLength a = pos

/-- Pieces that make up a text from a window position on. -/
def Laid (document : String) : Nat → List WindowPiece → List Char → Prop
  | _, [], cs => cs = []
  | offset, p :: rest, cs =>
    p.window = offset ∧ 0 < p.length ∧ (∀ q ∈ rest, p.document + p.length ≤ q.document) ∧
      ∃ part more, cs = part ++ more ∧ byteLength part = p.length ∧
        Part document p.document part ∧ Laid document (offset + p.length) rest more

/-- The position in the document where something starts at a position of pieces. -/
def startIn (pieces : List WindowPiece) (pos : Nat) : Nat :=
  (Window.mk "" pieces).startInDocument pos

theorem startInDocument_eq (w : Window) (pos : Nat) :
    w.startInDocument pos = startIn w.pieces pos := rfl

theorem startIn_cons_of_lt {p : WindowPiece} {rest : List WindowPiece} {pos : Nat}
    (h : pos < p.window + p.length) : startIn (p :: rest) pos = p.document + (pos - p.window) := by
  simp [startIn, startInDocument, h]

theorem startIn_single_of_le {p : WindowPiece} {pos : Nat} (h : p.window + p.length ≤ pos) :
    startIn [p] pos = p.document + p.length := by
  have hnot : ¬ pos < p.window + p.length := by omega
  simp [startIn, startInDocument, documentStop, hnot]

theorem startIn_cons_of_le {p q : WindowPiece} {rest : List WindowPiece} {pos : Nat}
    (h : p.window + p.length ≤ pos) : startIn (p :: q :: rest) pos = startIn (q :: rest) pos := by
  have hnot : ¬ pos < p.window + p.length := by omega
  simp only [startIn, startInDocument, List.find?_cons, hnot, decide_false]
  congr 1

/-- The position in the document where something stops at a position of pieces. -/
def stopIn (pieces : List WindowPiece) (pos : Nat) : Nat :=
  (Window.mk "" pieces).stopInDocument pos

theorem stopIn_cons_of_le {p : WindowPiece} {rest : List WindowPiece} {pos : Nat}
    (h : pos ≤ p.window + p.length) : stopIn (p :: rest) pos = p.document + (pos - p.window) := by
  simp [stopIn, stopInDocument, h]

theorem stopIn_single_of_lt {p : WindowPiece} {pos : Nat} (h : p.window + p.length < pos) :
    stopIn [p] pos = p.document + p.length := by
  have hnot : ¬ pos ≤ p.window + p.length := by omega
  simp [stopIn, stopInDocument, documentStop, hnot]

theorem stopIn_cons_of_lt {p q : WindowPiece} {rest : List WindowPiece} {pos : Nat}
    (h : p.window + p.length < pos) : stopIn (p :: q :: rest) pos = stopIn (q :: rest) pos := by
  have hnot : ¬ pos ≤ p.window + p.length := by omega
  simp only [stopIn, stopInDocument, List.find?_cons, hnot, decide_false]
  congr 1

/-- The translation of a position lies in one of the pieces, or at its end. -/
theorem exists_startIn {pieces : List WindowPiece} (h : pieces ≠ []) (pos : Nat) :
    ∃ p ∈ pieces, p.document ≤ startIn pieces pos ∧ startIn pieces pos ≤ p.document + p.length := by
  rw [startIn, startInDocument]
  split
  · rename_i p hp
    have hbefore := List.find?_some hp
    simp only [decide_eq_true_eq] at hbefore
    exact ⟨p, List.mem_of_find?_eq_some hp, Nat.le_add_right _ _, by omega⟩
  · unfold documentStop
    split
    · rename_i p hp
      exact ⟨p, List.mem_of_getLast? hp, Nat.le_add_right _ _, Nat.le_refl _⟩
    · rename_i hp
      exact absurd (List.getLast?_eq_none_iff.mp hp) h

namespace Laid

variable {document : String}

/-- Another piece behind the others. -/
theorem append {offset : Nat} {pieces : List WindowPiece} {cs part : List Char}
    (h : Laid document offset pieces cs) {pos : Nat} (hpart : Part document pos part)
    (hne : part ≠ []) (hafter : ∀ p ∈ pieces, p.document + p.length ≤ pos) :
    Laid document offset (pieces ++ [⟨offset + byteLength cs, pos, byteLength part⟩])
      (cs ++ part) := by
  induction pieces generalizing offset cs with
  | nil =>
    obtain rfl : cs = [] := h
    exact ⟨rfl, byteLength_pos hne, by simp, part, [], by simp, rfl, hpart, rfl⟩
  | cons p rest ih =>
    obtain ⟨hwindow, hlength, hlater, first, more, rfl, hfirst, hdocument, hrest⟩ := h
    have hnext := ih hrest fun q hq => hafter q (by simp [hq])
    refine ⟨hwindow, hlength, ?_, first, more ++ part, by simp, hfirst, hdocument, ?_⟩
    · intro q hq
      rcases List.mem_append.mp hq with hq | hq
      · exact hlater q hq
      · rw [List.mem_singleton.mp hq]
        exact hafter p (by simp)
    · rw [byteLength_append, hfirst, ← Nat.add_assoc]
      exact hnext

theorem boundary_of_part {pos : Nat} {part : List Char} (h : Part document pos part) {k : Nat}
    (hk : Boundary part k) : Boundary document.toList (pos + k) := by
  obtain ⟨a, b, hs, rfl⟩ := h
  obtain ⟨x, y, rfl, rfl⟩ := hk
  exact ⟨a ++ x, y ++ b, by simp [hs], byteLength_append a x⟩

/-- A boundary of the window is one of the document: the induction is on the pieces in front of
it. -/
theorem boundary_startIn {offset : Nat} {pieces : List WindowPiece} {cs : List Char}
    (h : Laid document offset pieces cs) (hne : pieces ≠ []) {k : Nat} (hk : Boundary cs k) :
    Boundary document.toList (startIn pieces (offset + k)) := by
  induction pieces generalizing offset cs k with
  | nil => exact absurd rfl hne
  | cons p rest ih =>
    obtain ⟨hwindow, -, -, part, more, rfl, hlength, hpart, hrest⟩ := h
    by_cases hin : k < p.length
    · rw [startIn_cons_of_lt (by omega)]
      have hcut : offset + k - p.window = k := by omega
      rw [hcut]
      exact boundary_of_part hpart (hk.of_append_left (by omega))
    · cases rest with
      | nil =>
        rw [startIn_single_of_le (by omega), ← hlength]
        exact boundary_of_part hpart (boundary_byteLength part)
      | cons q others =>
        obtain ⟨n, rfl⟩ := Nat.exists_eq_add_of_le (Nat.le_of_not_lt hin)
        rw [startIn_cons_of_le (by omega), ← Nat.add_assoc]
        rw [← hlength] at hk
        exact ih hrest (by simp) hk.of_append_right

/-- A position inside a piece, as seen in the window. -/
theorem position_of_mem {offset : Nat} {pieces : List WindowPiece} {cs : List Char}
    (h : Laid document offset pieces cs) {p : WindowPiece} (hp : p ∈ pieces) {pos : Nat}
    (hstart : p.document ≤ pos) (hstop : pos < p.document + p.length) :
    pieces.find? (fun p => decide (p.document ≤ pos) && decide (pos < p.document + p.length)) =
      some p := by
  induction pieces generalizing offset cs with
  | nil => cases hp
  | cons q rest ih =>
    obtain ⟨-, -, hlater, part, more, rfl, -, -, hrest⟩ := h
    rcases List.mem_cons.mp hp with rfl | hp
    · rw [List.find?_cons_of_pos (by simp [hstart, hstop])]
    · have := hlater p hp
      rw [List.find?_cons_of_neg (by simp; omega)]
      exact ih hrest hp

/-- A boundary of the document inside a piece is one of the window, and not its end. -/
theorem boundary_of_mem {offset : Nat} {pieces : List WindowPiece} {cs : List Char}
    (h : Laid document offset pieces cs) {p : WindowPiece} (hp : p ∈ pieces) {pos : Nat}
    (hpos : Boundary document.toList pos) (hstart : p.document ≤ pos)
    (hstop : pos < p.document + p.length) :
    ∃ k, p.window + (pos - p.document) = offset + k ∧ Boundary cs k ∧ k < byteLength cs := by
  induction pieces generalizing offset cs with
  | nil => cases hp
  | cons q rest ih =>
    obtain ⟨hwindow, -, -, part, more, rfl, hlength, hpart, hrest⟩ := h
    rcases List.mem_cons.mp hp with rfl | hp
    · obtain ⟨a, b, hs, ha⟩ := hpart
      refine ⟨pos - p.document, by omega, boundary_append_left ?_, ?_⟩
      · rw [hs, List.append_assoc, ← Nat.add_sub_cancel' hstart, ← ha] at hpos
        rw [← ha]
        exact hpos.of_append_right.of_append_left (by omega)
      · rw [byteLength_append]
        omega
    · obtain ⟨k, hk, hcut, hlt⟩ := ih hrest hp
      refine ⟨p.window + (pos - p.document) - offset, by omega, ?_, ?_⟩
      · have hsum : p.window + (pos - p.document) - offset = byteLength part + k := by omega
        rw [hsum]
        exact boundary_append_right hcut
      · rw [byteLength_append]
        omega

theorem le_window {offset : Nat} {pieces : List WindowPiece} {cs : List Char}
    (h : Laid document offset pieces cs) {p : WindowPiece} (hp : p ∈ pieces) :
    offset ≤ p.window := by
  induction pieces generalizing offset cs with
  | nil => cases hp
  | cons q rest ih =>
    obtain ⟨hwindow, -, -, _, more, -, -, -, hrest⟩ := h
    rcases List.mem_cons.mp hp with rfl | hp
    · exact Nat.le_of_eq hwindow.symm
    · exact Nat.le_trans (Nat.le_add_right _ _) (ih hrest hp)

/-- A position inside a piece is where the window has it. -/
theorem startIn_of_mem {offset : Nat} {pieces : List WindowPiece} {cs : List Char}
    (h : Laid document offset pieces cs) {p : WindowPiece} (hp : p ∈ pieces) {pos : Nat}
    (hstart : p.document ≤ pos) (hstop : pos < p.document + p.length) :
    startIn pieces (p.window + (pos - p.document)) = pos := by
  induction pieces generalizing offset cs with
  | nil => cases hp
  | cons q rest ih =>
    obtain ⟨hwindow, -, -, part, more, -, -, -, hrest⟩ := h
    rcases List.mem_cons.mp hp with rfl | hp
    · rw [startIn_cons_of_lt (by omega)]
      omega
    · have hbehind := hrest.le_window hp
      cases rest with
      | nil => cases hp
      | cons r others =>
        rw [startIn_cons_of_le (by omega)]
        exact ih hrest hp

/-- Later pieces lie behind the end of the first. -/
theorem stop_le_startIn {offset n : Nat} {p q : WindowPiece} {rest : List WindowPiece}
    {cs : List Char} (h : Laid document offset (p :: q :: rest) cs) :
    p.document + p.length ≤ startIn (q :: rest) n := by
  obtain ⟨-, -, hlater, -⟩ := h
  obtain ⟨r, hr, hle, -⟩ := exists_startIn (List.cons_ne_nil q rest) n
  exact Nat.le_trans (hlater r hr) hle

/-- Positions keep their order when they are translated. -/
theorem startIn_mono {offset m n : Nat} {pieces : List WindowPiece} {cs : List Char}
    (h : Laid document offset pieces cs) (hle : m ≤ n) : startIn pieces m ≤ startIn pieces n := by
  induction pieces generalizing offset cs with
  | nil => exact hle
  | cons p rest ih =>
    have hbehind := h
    obtain ⟨-, -, -, part, more, -, -, -, hrest⟩ := h
    by_cases hn : n < p.window + p.length
    · rw [startIn_cons_of_lt hn, startIn_cons_of_lt (by omega)]
      omega
    · by_cases hm : m < p.window + p.length
      · rw [startIn_cons_of_lt hm]
        cases rest with
        | nil =>
          rw [startIn_single_of_le (by omega)]
          omega
        | cons q others =>
          have := hbehind.stop_le_startIn (n := n)
          rw [startIn_cons_of_le (by omega)]
          omega
      · cases rest with
        | nil => rw [startIn_single_of_le (by omega), startIn_single_of_le (by omega)]
        | cons q others =>
          rw [startIn_cons_of_le (by omega), startIn_cons_of_le (by omega)]
          exact ih hrest

/-- What stops at a position of the window does not stop behind where something starts there: the
two differ only where two pieces meet. -/
theorem stopIn_le_startIn {offset n : Nat} {pieces : List WindowPiece} {cs : List Char}
    (h : Laid document offset pieces cs) : stopIn pieces n ≤ startIn pieces n := by
  induction pieces generalizing offset cs with
  | nil => exact Nat.le_refl n
  | cons p rest ih =>
    have hbehind := h
    obtain ⟨-, -, -, part, more, -, -, -, hrest⟩ := h
    rcases Nat.lt_trichotomy n (p.window + p.length) with hlt | heq | hgt
    · rw [startIn_cons_of_lt hlt, stopIn_cons_of_le (Nat.le_of_lt hlt)]
    · rw [stopIn_cons_of_le (Nat.le_of_eq heq)]
      cases rest with
      | nil =>
        rw [startIn_single_of_le (Nat.le_of_eq heq.symm)]
        omega
      | cons q others =>
        have := hbehind.stop_le_startIn (n := n)
        rw [startIn_cons_of_le (Nat.le_of_eq heq.symm)]
        omega
    · cases rest with
      | nil => rw [startIn_single_of_le (Nat.le_of_lt hgt), stopIn_single_of_lt hgt]
      | cons q others =>
        rw [startIn_cons_of_le (Nat.le_of_lt hgt), stopIn_cons_of_lt hgt]
        exact ih hrest

/-- What comes later in the window comes later in the document: the induction is on the pieces in
front of the one that is looked at. -/
theorem lt_startIn {offset : Nat} {pieces : List WindowPiece} {cs : List Char}
    (h : Laid document offset pieces cs) {p : WindowPiece} (hp : p ∈ pieces) {pos n : Nat}
    (hstart : p.document ≤ pos) (hstop : pos < p.document + p.length)
    (hn : p.window + (pos - p.document) < n) : pos < startIn pieces n := by
  induction pieces generalizing offset cs with
  | nil => cases hp
  | cons q rest ih =>
    have hall := h
    obtain ⟨hwindow, -, -, part, more, -, -, -, hrest⟩ := h
    rcases List.mem_cons.mp hp with rfl | hp
    · by_cases hin : n < p.window + p.length
      · rw [startIn_cons_of_lt hin]
        omega
      · cases rest with
        | nil =>
          rw [startIn_single_of_le (by omega)]
          exact hstop
        | cons r others =>
          have := hall.stop_le_startIn (n := n)
          rw [startIn_cons_of_le (by omega)]
          omega
    · have hbehind := hrest.le_window hp
      cases rest with
      | nil => cases hp
      | cons r others =>
        rw [startIn_cons_of_le (by omega)]
        exact ih hrest hp

/-- What starts at a position of the window starts in a piece, or at the end of the window. -/
theorem startIn_mem {offset n : Nat} {pieces : List WindowPiece} {cs : List Char}
    (h : Laid document offset pieces cs) (hne : pieces ≠ []) (hlow : offset ≤ n)
    (hhigh : n ≤ offset + byteLength cs) :
    ∃ p ∈ pieces, p.window ≤ n ∧
      (n < p.window + p.length ∨ n = p.window + p.length ∧ n = offset + byteLength cs) ∧
      startIn pieces n = p.document + (n - p.window) := by
  induction pieces generalizing offset cs with
  | nil => exact absurd rfl hne
  | cons p rest ih =>
    obtain ⟨rfl, -, -, part, more, rfl, hlength, -, hrest⟩ := h
    rw [byteLength_append, hlength] at hhigh
    by_cases hin : n < p.window + p.length
    · exact ⟨p, by simp, hlow, .inl hin, startIn_cons_of_lt hin⟩
    · cases rest with
      | nil =>
        obtain rfl : more = [] := hrest
        rw [byteLength_nil] at hhigh
        rw [List.append_nil, hlength]
        refine ⟨p, by simp, hlow, .inr (by omega), ?_⟩
        rw [startIn_single_of_le (by omega)]
        omega
      | cons q others =>
        obtain ⟨r, hr, hfrom, hto, hfound⟩ := ih hrest (by simp) (by omega) (by omega)
        rw [startIn_cons_of_le (by omega)]
        refine ⟨r, by simp [hr], hfrom, ?_, hfound⟩
        rw [byteLength_append, hlength, ← Nat.add_assoc]
        exact hto

/-- What stops at a position of the window stops in a piece that reaches up to it. -/
theorem stopIn_mem {offset n : Nat} {pieces : List WindowPiece} {cs : List Char}
    (h : Laid document offset pieces cs) (hne : pieces ≠ []) (hlow : offset ≤ n)
    (hhigh : n ≤ offset + byteLength cs) :
    ∃ p ∈ pieces, p.window ≤ n ∧ n ≤ p.window + p.length ∧
      stopIn pieces n = p.document + (n - p.window) := by
  induction pieces generalizing offset cs with
  | nil => exact absurd rfl hne
  | cons p rest ih =>
    obtain ⟨rfl, -, -, part, more, rfl, hlength, -, hrest⟩ := h
    rw [byteLength_append, hlength] at hhigh
    by_cases hin : n ≤ p.window + p.length
    · exact ⟨p, by simp, hlow, hin, stopIn_cons_of_le hin⟩
    · cases rest with
      | nil =>
        obtain rfl : more = [] := hrest
        rw [byteLength_nil] at hhigh
        omega
      | cons q others =>
        obtain ⟨r, hr, hfound⟩ := ih hrest (by simp) (by omega) (by omega)
        rw [stopIn_cons_of_lt (by omega)]
        exact ⟨r, by simp [hr], hfound⟩

/-- What has some length in the window has some in the document: the induction is on the pieces in
front of the one where it starts. -/
theorem startIn_lt_stopIn {offset m n : Nat} {pieces : List WindowPiece} {cs : List Char}
    (h : Laid document offset pieces cs) (hlow : offset ≤ m) (hlt : m < n)
    (hhigh : n ≤ offset + byteLength cs) : startIn pieces m < stopIn pieces n := by
  induction pieces generalizing offset cs with
  | nil => exact hlt
  | cons p rest ih =>
    obtain ⟨rfl, -, hlater, part, more, rfl, hlength, -, hrest⟩ := h
    rw [byteLength_append, hlength] at hhigh
    by_cases hin : n ≤ p.window + p.length
    · rw [startIn_cons_of_lt (by omega), stopIn_cons_of_le hin]
      omega
    · cases rest with
      | nil =>
        obtain rfl : more = [] := hrest
        rw [byteLength_nil] at hhigh
        omega
      | cons q others =>
        rw [stopIn_cons_of_lt (by omega)]
        by_cases hm : m < p.window + p.length
        · obtain ⟨r, hr, -, -, hstop⟩ :=
            hrest.stopIn_mem (by simp) (n := n) (by omega) (by omega)
          have hbehind := hlater r hr
          rw [startIn_cons_of_lt hm, hstop]
          omega
        · rw [startIn_cons_of_le (by omega)]
          exact ih hrest (by omega) (by omega)

end Laid

/-! ## Windows of ranges -/

/-- What is read between two boundaries is a part of the document. -/
theorem part_read {document : String} {start stop : Nat} (h : Document.floor document start ≤
    Document.floor document stop) :
    Part document (Document.floor document start)
        (Document.read document (Document.floor document start)
          (Document.floor document stop)).toList ∧
      Document.floor document start +
          Document.length (Document.read document (Document.floor document start)
            (Document.floor document stop)) = Document.floor document stop := by
  have hstart := Document.boundary_floor document start
  have hstop := Document.boundary_floor document stop
  obtain ⟨a, part, b, hs, ha, hpart⟩ := hstart.split hstop h
  have hread : (Document.read document (Document.floor document start)
      (Document.floor document stop)).toList = part := by
    apply Document.toList_read hs
    · rw [Document.floor_of_boundary hstart, ha]
    · rw [Document.floor_of_boundary hstop, hpart]
  rw [Document.length_eq, hread]
  refine ⟨⟨a, b, hs, ha⟩, ?_⟩
  rw [← ha, ← byteLength_append, hpart]

/-- Adding the text between two positions adds one piece, or nothing if there is no character
between them. -/
theorem append_cases (w : Window) (document : String) (start stop : Nat) :
    Document.floor document stop ≤ Document.floor document start ∧
        w.append document start stop = w ∨
      Document.floor document start < Document.floor document stop ∧
        ∃ part, Part document (Document.floor document start) part.toList ∧
          Document.length part = Document.floor document stop - Document.floor document start ∧
          w.append document start stop = ⟨w.text ++ part, w.pieces ++ [⟨Document.length w.text,
            Document.floor document start,
            Document.floor document stop - Document.floor document start⟩]⟩ := by
  unfold append
  dsimp only
  split
  · rename_i hnone
    exact .inl ⟨hnone, rfl⟩
  · rename_i hsome
    obtain ⟨hpart, hlength⟩ := part_read (Nat.le_of_not_le hsome)
    have hsize : Document.length (Document.read document (Document.floor document start)
        (Document.floor document stop)) =
          Document.floor document stop - Document.floor document start := by omega
    refine .inr ⟨Nat.lt_of_not_le hsome, _, hpart, hsize, ?_⟩
    rw [hsize]

/-- Text from behind the pieces of a window is laid behind them. -/
theorem Laid.append_text {document : String} {w : Window}
    (h : Laid document 0 w.pieces w.text.toList) {start : Nat}
    (hafter : ∀ p ∈ w.pieces, p.document + p.length ≤ Document.floor document start)
    (stop : Nat) :
    Laid document 0 (w.append document start stop).pieces
      (w.append document start stop).text.toList := by
  rcases append_cases w document start stop with ⟨-, hsame⟩ | ⟨hlt, part, hpart, hsize, happend⟩
  · rw [hsame]
    exact h
  · have hne : part.toList ≠ [] := by
      intro hnil
      rw [Document.length_eq, hnil, byteLength_nil] at hsize
      omega
    rw [happend, ← hsize, String.toList_append, Document.length_eq, Document.length_eq]
    simpa using h.append hpart hne hafter

/-- What holds of the window without text, and is kept when the text of one more interval is added
behind the others, holds of a window of separated intervals. -/
theorem around_induction {document : String} {r : IntervalSet}
    (h : IntervalSet.Separated r.intervals) {pos before after : Nat}
    {P : List Interval → Window → Prop} (hempty : P [] empty)
    (happend : ∀ done i w, i ∈ r.intervals → (∀ j ∈ done, j.stop ≤ i.start) → P done w →
      P (done ++ [i]) (w.append document (max i.start (pos - before)) (min i.stop (pos + after)))) :
    P r.intervals (around r document pos before after) := by
  have hfold : ∀ (rest done : List Interval) (w : Window), done ++ rest = r.intervals → P done w →
      P r.intervals (rest.foldl (fun w i =>
        w.append document (max i.start (pos - before)) (min i.stop (pos + after))) w) := by
    intro rest
    induction rest with
    | nil =>
      intro done w hall hw
      rw [List.append_nil] at hall
      rw [← hall]
      exact hw
    | cons i rest ih =>
      intro done w hall hw
      have hi : i ∈ r.intervals := by simp [← hall]
      refine ih (done ++ [i]) _ (by simp [← hall]) (happend done i w hi (fun j hj => ?_) hw)
      have hapart := h.apart
      rw [← hall] at hapart
      exact Nat.le_of_lt ((List.pairwise_append.mp hapart).2.2 j hj i (by simp))
  exact hfold r.intervals [] empty rfl hempty

/-- The pieces of a window of some intervals: each lies in an interval, and each interval of which
some text is near has its piece. -/
structure Shows (document : String) (pos before after : Nat) (intervals : List Interval)
    (w : Window) : Prop where
  laid : Laid document 0 w.pieces w.text.toList
  inside : ∀ p ∈ w.pieces, ∃ i ∈ intervals, i.start ≤ p.document ∧ p.document + p.length ≤ i.stop
  complete : ∀ i ∈ intervals, ∀ pos', max i.start (pos - before) ≤ pos' →
    Boundary document.toList pos' → ∀ next, pos' < next → next ≤ min i.stop (pos + after) →
    Boundary document.toList next →
    ∃ p ∈ w.pieces, p.document ≤ pos' ∧ next ≤ p.document + p.length

/-- Adding the text of one more interval, behind the others. -/
theorem Shows.append {document : String} {pos before after : Nat} {intervals : List Interval}
    {w : Window} (h : Shows document pos before after intervals w) {i : Interval}
    (hstart : Boundary document.toList i.start)
    (hbehind : ∀ j ∈ intervals, j.stop ≤ i.start) :
    Shows document pos before after (intervals ++ [i])
      (w.append document (max i.start (pos - before)) (min i.stop (pos + after))) := by
  have hlow : i.start ≤ Document.floor document (max i.start (pos - before)) :=
    Document.le_floor hstart (Nat.le_max_left _ _)
  have hhigh : Document.floor document (min i.stop (pos + after)) ≤ i.stop :=
    Nat.le_trans (Document.floor_le _ _) (Nat.min_le_left _ _)
  have hafter : ∀ p ∈ w.pieces,
      p.document + p.length ≤ Document.floor document (max i.start (pos - before)) := by
    intro p hp
    obtain ⟨j, hj, -, hin⟩ := h.inside p hp
    have := hbehind j hj
    omega
  refine ⟨h.laid.append_text hafter _, ?_, ?_⟩
  · intro p hp
    rcases append_cases w document (max i.start (pos - before)) (min i.stop (pos + after)) with
      ⟨-, hsame⟩ | ⟨hlt, part, -, -, happend⟩
    · rw [hsame] at hp
      obtain ⟨j, hj, hin⟩ := h.inside p hp
      exact ⟨j, by simp [hj], hin⟩
    · rw [happend] at hp
      rcases List.mem_append.mp hp with hp | hp
      · obtain ⟨j, hj, hin⟩ := h.inside p hp
        exact ⟨j, by simp [hj], hin⟩
      · obtain rfl := List.mem_singleton.mp hp
        refine ⟨i, by simp, hlow, ?_⟩
        dsimp only
        omega
  · intro j hj pos' hpos' hcut next hlt hnext hend
    rcases List.mem_append.mp hj with hj | hj
    · obtain ⟨p, hp, hin⟩ := h.complete j hj pos' hpos' hcut next hlt hnext hend
      refine ⟨p, ?_, hin⟩
      rcases append_cases w document (max i.start (pos - before)) (min i.stop (pos + after)) with
        ⟨-, hsame⟩ | ⟨-, part, -, -, happend⟩
      · rwa [hsame]
      · rw [happend]
        exact List.mem_append_left _ hp
    · obtain rfl := List.mem_singleton.mp hj
      have hfrom := Nat.le_trans (Document.floor_le document (max j.start (pos - before))) hpos'
      have hto := Document.le_floor hend hnext
      rcases append_cases w document (max j.start (pos - before)) (min j.stop (pos + after)) with
        ⟨hnone, -⟩ | ⟨-, part, -, -, happend⟩
      · -- the text of the interval is empty, so there is no room for two boundaries
        omega
      · rw [happend]
        refine ⟨_, List.mem_append_right _ (List.mem_singleton.mpr rfl), hfrom, ?_⟩
        dsimp only
        omega

/-- The window at a position of regular ranges. -/
theorem shows_around {document : String} {r : IntervalSet} (h : Ranges.Regular document r)
    (pos before after : Nat) :
    Shows document pos before after r.intervals (around r document pos before after) :=
  around_induction h.separated ⟨rfl, by simp [empty], by simp⟩
    fun _ i _ hi hbehind hw => hw.append (h.ends i hi).1 hbehind

/-! ## Windows of the whole document -/

/-- In the whole document a window holds the text from one boundary near a position to another, or
nothing. -/
theorem around_whole {document : String} {front back : List Char} (before after : Nat)
    (h : document.toList = front ++ back) :
    around (Ranges.whole (Document.length document)) document (byteLength front) before after =
      if dropBytes (byteLength front - before) front ++ takeBytes after back = [] then empty
      else
        ⟨String.ofList (dropBytes (byteLength front - before) front ++ takeBytes after back),
          [⟨0, byteLength (takeBytes (byteLength front - before) front), byteLength
            (dropBytes (byteLength front - before) front ++ takeBytes after back)⟩]⟩ := by
  have hfront : front = takeBytes (byteLength front - before) front ++
      dropBytes (byteLength front - before) front := (takeBytes_append_dropBytes _ _).symm
  have hsplit : document.toList = takeBytes (byteLength front - before) front ++
      (dropBytes (byteLength front - before) front ++ takeBytes after back) ++
        dropBytes after back := by
    rw [h, ← List.append_assoc, takeBytes_append_dropBytes, List.append_assoc,
      takeBytes_append_dropBytes]
  have hlow : Document.floor document (byteLength front - before) =
      byteLength (takeBytes (byteLength front - before) front) := by
    rw [Document.floor_eq, h, takeBytes_append_of_le_left (Nat.sub_le _ _)]
  have hhigh : Document.floor document (min (Document.length document) (byteLength front + after)) =
      byteLength (takeBytes (byteLength front - before) front ++
        (dropBytes (byteLength front - before) front ++ takeBytes after back)) := by
    have hmin : Document.floor document
        (min (Document.length document) (byteLength front + after)) =
          Document.floor document (byteLength front + after) := by
      rw [Document.floor, Document.floor]
      congr 1
      omega
    rw [hmin, Document.floor_eq, h, takeBytes_append_of_le (Nat.le_add_right _ _),
      Nat.add_sub_cancel_left, ← List.append_assoc, takeBytes_append_dropBytes]
  have happend : around (Ranges.whole (Document.length document)) document (byteLength front)
      before after = empty.append document (byteLength front - before)
        (min (Document.length document) (byteLength front + after)) := by
    rw [around, Ranges.whole_intervals]
    split
    · rename_i hzero
      rw [List.foldl_nil, append, if_pos]
      have := Document.floor_le_length document
        (min (Document.length document) (byteLength front + after))
      omega
    · rw [List.foldl_cons, List.foldl_nil, Nat.zero_max]
  have hread := Document.toList_read hsplit
    (Document.floor_of_boundary ⟨_, _, by rw [hsplit, List.append_assoc], rfl⟩)
    (Document.floor_of_boundary ⟨_, _, hsplit, rfl⟩)
  rw [happend, append, hlow, hhigh]
  dsimp only
  split
  · rename_i hle
    rw [byteLength_append] at hle
    rw [if_pos (byteLength_eq_zero (by omega))]
  · rename_i hlt
    rw [if_neg]
    · rw [String.ofList_toList.symm.trans (congrArg String.ofList hread), Document.length_ofList]
      simp [empty, Document.length]
    · intro hnil
      rw [hnil, List.append_nil] at hlt
      exact hlt (Nat.le_refl _)

end RegionTree.Window
