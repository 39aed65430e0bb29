import RegionTree.Proofs.Document.Windows
set_option autoImplicit false

/-!
# Positions as machine words

Positions are words of 64 bits, and positions relative to a chunk words of 32.  Here a sum, a
difference or a negation has no value if it is not such a word, where a machine would go on with
another number.

The positions of a window are translated with such sums as they are without, because no piece leads
past the document (`Window.startInDocument?_eq`).  The bounds of a window are not such sums: past
the largest word they stay there, and the window is the same (`Window.saturated_eq`).
-/

namespace RegionTree

/-- The largest offset by which positions are moved. -/
def maxOffset : Int := (Nat.pow 2 63 : Nat) - 1

namespace Word

/-- The sum of two positions, if it is a position. -/
def add? (a b : Nat) : Option Nat := if a + b ≤ maxPosition then some (a + b) else none

/-- The difference of two positions, if it is a position. -/
def sub? (a b : Nat) : Option Nat := if b ≤ a then some (a - b) else none

/-- A position as one relative to a chunk, if it is small enough. -/
def narrow? (a : Nat) : Option Nat := if a < offsetBound then some a else none

/-- The offset back, if it is an offset. -/
def negate? (offset : Int) : Option Int := if -offset ≤ maxOffset then some (-offset) else none

variable {a b : Nat} {offset : Int}

theorem add?_eq (h : a + b ≤ maxPosition) : add? a b = some (a + b) := if_pos h

theorem sub?_eq (h : b ≤ a) : sub? a b = some (a - b) := if_pos h

theorem narrow?_eq (h : a < offsetBound) : narrow? a = some a := if_pos h

theorem negate?_eq (h : -offset ≤ maxOffset) : negate? offset = some (-offset) := if_pos h

end Word

namespace Window

open Text

/-! ## Translating positions -/

/-- The position in the window of a position in the document, which `last` is for if it is in none
of the pieces. -/
def positionIn? (last document : Nat) : List WindowPiece → Option Nat
  | [] => some last
  | p :: rest =>
    if p.document ≤ document then do
      let stop ← Word.add? p.document p.length
      if document < stop then Word.add? p.window (← Word.sub? document p.document)
      else positionIn? last document rest
    else positionIn? last document rest

/-- `Window.position` with checked sums. -/
def position? (w : Window) (document : Nat) : Option Nat := positionIn? w.length document w.pieces

/-- `Window.documentStop` with a checked sum. -/
def documentStop? (w : Window) (pos : Nat) : Option Nat :=
  match w.pieces.getLast? with
  | some p => Word.add? p.document p.length
  | none => some pos

/-- The position in the document of a position in the window, by the first of some pieces with it
`within` its end, or else at the end of the window. -/
def inDocument? (w : Window) (within : Nat → Bool) (pos : Nat) : List WindowPiece → Option Nat
  | [] => w.documentStop? pos
  | p :: rest => do
    let stop ← Word.add? p.window p.length
    if within stop then Word.add? p.document (pos - p.window)
    else w.inDocument? within pos rest

/-- `Window.startInDocument` with checked sums. -/
def startInDocument? (w : Window) (pos : Nat) : Option Nat :=
  w.inDocument? (fun stop => decide (pos < stop)) pos w.pieces

/-- `Window.stopInDocument` with checked sums. -/
def stopInDocument? (w : Window) (pos : Nat) : Option Nat :=
  w.inDocument? (fun stop => decide (pos ≤ stop)) pos w.pieces

/-- `Window.around` with its bounds cut off at the largest position. -/
def saturated (ranges : IntervalSet) (document : String) (pos before after : Nat) : Window :=
  ranges.intervals.foldl
    (fun w i =>
      w.append document (max i.start (pos - before)) (min i.stop (min (pos + after) maxPosition)))
    empty

/-- The ends of a piece are positions, in the window and in the document. -/
structure Short (p : WindowPiece) : Prop where
  window : p.window + p.length ≤ maxPosition
  document : p.document + p.length ≤ maxPosition

theorem positionIn?_eq {pieces : List WindowPiece} (h : ∀ p ∈ pieces, Short p)
    (last document : Nat) :
    positionIn? last document pieces = some
      (match pieces.find? fun p =>
          decide (p.document ≤ document) && decide (document < p.document + p.length) with
        | some p => p.window + (document - p.document)
        | none => last) := by
  induction pieces with
  | nil => rfl
  | cons p rest ih =>
    obtain ⟨hp, hrest⟩ := List.forall_mem_cons.mp h
    have ih := ih hrest
    rw [positionIn?]
    by_cases hfrom : p.document ≤ document
    · rw [if_pos hfrom, Word.add?_eq hp.document]
      by_cases hto : document < p.document + p.length
      · have hwindow := hp.window
        rw [List.find?_cons_of_pos (by simp [hfrom, hto])]
        dsimp only [Option.bind_eq_bind, Option.bind_some]
        rw [if_pos hto, Word.sub?_eq hfrom, Option.bind_some, Word.add?_eq (by omega)]
      · rw [List.find?_cons_of_neg (by simp [hto])]
        dsimp only [Option.bind_eq_bind, Option.bind_some]
        rw [if_neg hto]
        exact ih
    · rw [if_neg hfrom, List.find?_cons_of_neg (by simp [hfrom])]
      exact ih

section

variable {w : Window} (h : ∀ p ∈ w.pieces, Short p) (pos : Nat)
include h

theorem documentStop?_eq : w.documentStop? pos = some (w.documentStop pos) := by
  unfold documentStop? documentStop
  cases hlast : w.pieces.getLast? with
  | none => rfl
  | some p => exact Word.add?_eq (h p (List.mem_of_getLast? hlast)).document

theorem inDocument?_eq {within : Nat → Bool} (hwithin : ∀ stop, within stop = true → pos ≤ stop)
    {pieces : List WindowPiece} (hpieces : ∀ p ∈ pieces, Short p) :
    w.inDocument? within pos pieces = some
      (match pieces.find? fun p => within (p.window + p.length) with
        | some p => p.document + (pos - p.window)
        | none => w.documentStop pos) := by
  induction pieces with
  | nil => exact documentStop?_eq h pos
  | cons p rest ih =>
    obtain ⟨hp, hrest⟩ := List.forall_mem_cons.mp hpieces
    have hdocument := hp.document
    rw [inDocument?, Word.add?_eq hp.window, List.find?_cons]
    dsimp only [Option.bind_eq_bind, Option.bind_some]
    cases hin : within (p.window + p.length) with
    | true =>
      have hle := hwithin _ hin
      exact Word.add?_eq (by omega)
    | false => exact ih hrest

theorem position?_eq : w.position? pos = some (w.position pos) := positionIn?_eq h w.length pos

theorem startInDocument?_eq : w.startInDocument? pos = some (w.startInDocument pos) :=
  inDocument?_eq h pos (fun _ hstop => Nat.le_of_lt (of_decide_eq_true hstop)) h

theorem stopInDocument?_eq : w.stopInDocument? pos = some (w.stopInDocument pos) :=
  inDocument?_eq h pos (fun _ hstop => of_decide_eq_true hstop) h

end

/-! ## Windows of a document -/

variable {document : String}

/-- From its first piece on a window takes no more than there is of the document. -/
theorem Laid.byteLength_le {offset : Nat} {p : WindowPiece} {rest : List WindowPiece}
    {cs : List Char} (h : Laid document offset (p :: rest) cs) :
    p.document + byteLength cs ≤ Document.length document := by
  induction rest generalizing offset p cs with
  | nil =>
    obtain ⟨-, -, -, part, more, rfl, -, ⟨a, b, hs, ha⟩, rfl⟩ := h
    rw [Document.length_eq, hs]
    simp only [byteLength_append, byteLength_nil]
    omega
  | cons q others ih =>
    obtain ⟨-, -, hlater, part, more, rfl, hlength, -, hrest⟩ := h
    have hbehind := hlater q (by simp)
    have hleft := ih hrest
    rw [byteLength_append]
    omega

theorem Laid.piece_le {offset : Nat} {pieces : List WindowPiece} {cs : List Char}
    (h : Laid document offset pieces cs) {p : WindowPiece} (hp : p ∈ pieces) :
    p.window + p.length ≤ offset + byteLength cs ∧
      p.document + p.length ≤ Document.length document := by
  induction pieces generalizing offset cs with
  | nil => cases hp
  | cons q rest ih =>
    have hall := h.byteLength_le
    obtain ⟨rfl, -, -, part, more, rfl, hlength, -, hrest⟩ := h
    rw [byteLength_append] at hall ⊢
    rcases List.mem_cons.mp hp with rfl | hp
    · omega
    · obtain ⟨hwindow, hdocument⟩ := ih hrest hp
      omega

theorem Laid.length_le {pieces : List WindowPiece} {cs : List Char}
    (h : Laid document 0 pieces cs) : byteLength cs ≤ Document.length document := by
  cases pieces with
  | nil =>
    obtain rfl : cs = [] := h
    exact Nat.zero_le _
  | cons p rest => exact Nat.le_trans (Nat.le_add_left _ _) h.byteLength_le

theorem Laid.short {w : Window} (h : Laid document 0 w.pieces w.text.toList)
    (hlength : Document.length document ≤ maxPosition) : ∀ p ∈ w.pieces, Short p := by
  intro p hp
  obtain ⟨hwindow, hdocument⟩ := h.piece_le hp
  have htext := h.length_le
  exact ⟨by omega, by omega⟩

/-- No range goes past the largest position, so nothing is cut off. -/
theorem saturated_eq {ranges : IntervalSet} (h : ∀ i ∈ ranges.intervals, i.stop ≤ maxPosition)
    (pos before after : Nat) :
    saturated ranges document pos before after = around ranges document pos before after := by
  unfold saturated around
  generalize empty = w
  generalize ranges.intervals = intervals at h
  induction intervals generalizing w with
  | nil => rfl
  | cons i rest ih =>
    obtain ⟨hi, hrest⟩ := List.forall_mem_cons.mp h
    have hmin : min i.stop (min (pos + after) maxPosition) = min i.stop (pos + after) := by omega
    rw [List.foldl_cons, List.foldl_cons, hmin]
    exact ih _ hrest

end Window

end RegionTree
