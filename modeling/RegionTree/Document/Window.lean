import RegionTree.Document
import RegionTree.Document.Ranges
set_option autoImplicit false

/-!
# Windows

A step of matching sees a window: the text of the ranges near a position, put together as one
text.  Its pieces say where in the document each part of it stands, so positions are translated
both ways.  Where two pieces meet, the start of a token belongs to the later piece and the end of
one to the earlier.
-/

namespace RegionTree

/-- A part of a window that stands together in the document. -/
structure WindowPiece where
  /-- Where it starts in the window. -/
  window : Nat
  /-- Where it starts in the document. -/
  document : Nat
  length : Nat
  deriving DecidableEq, Repr, Inhabited

/-- A text made of pieces of a document. -/
structure Window where
  text : String
  pieces : List WindowPiece
  deriving DecidableEq, Repr, Inhabited

namespace Window

/-- The window without text. -/
def empty : Window := ⟨"", []⟩

/-- The window with the text of the document between two positions added at its end. -/
def append (w : Window) (document : String) (start stop : Nat) : Window :=
  let start := Document.floor document start
  let stop := Document.floor document stop
  if stop ≤ start then w
  else
    let text := Document.read document start stop
    ⟨w.text ++ text, w.pieces ++ [⟨Document.length w.text, start, Document.length text⟩]⟩

/-- The text of the ranges from `before` bytes before a position to `after` bytes after it. -/
def around (ranges : IntervalSet) (document : String) (pos before after : Nat) : Window :=
  ranges.intervals.foldl
    (fun w i => w.append document (max i.start (pos - before)) (min i.stop (pos + after)))
    empty

/-- The number of bytes. -/
def length (w : Window) : Nat := Document.length w.text

/-- The position in the window of a position in the document, or the end of the window if it is in
none of the pieces. -/
def position (w : Window) (document : Nat) : Nat :=
  match w.pieces.find? fun p =>
      decide (p.document ≤ document) && decide (document < p.document + p.length) with
  | some p => p.window + (document - p.document)
  | none => w.length

/-- The end of the last piece in the document, or `pos` if there is none. -/
def documentStop (w : Window) (pos : Nat) : Nat :=
  match w.pieces.getLast? with
  | some p => p.document + p.length
  | none => pos

/-- The position in the document where something starts at a position in the window. -/
def startInDocument (w : Window) (pos : Nat) : Nat :=
  match w.pieces.find? fun p => decide (pos < p.window + p.length) with
  | some p => p.document + (pos - p.window)
  | none => w.documentStop pos

/-- The position in the document where something stops at a position in the window. -/
def stopInDocument (w : Window) (pos : Nat) : Nat :=
  match w.pieces.find? fun p => decide (pos ≤ p.window + p.length) with
  | some p => p.document + (pos - p.window)
  | none => w.documentStop pos

end Window

end RegionTree
