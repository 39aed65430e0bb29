set_option autoImplicit false

/-!
# Byte positions in a text

Positions and lengths count the bytes of a text in UTF-8.  A position is a boundary if no character
straddles it.  On lists of characters, `takeBytes` and `dropBytes` cut at the last boundary at or
before a position; a `Place` is a text cut in two at a boundary, with the characters before it in
reverse.
-/

namespace RegionTree.Text

/-- The number of bytes that characters take up. -/
def byteLength : List Char → Nat
  | [] => 0
  | c :: rest => c.utf8Size + byteLength rest

/-- The characters that fit into a number of bytes. -/
def takeBytes : Nat → List Char → List Char
  | _, [] => []
  | n, c :: rest => if c.utf8Size ≤ n then c :: takeBytes (n - c.utf8Size) rest else []

/-- The characters after those that fit into a number of bytes. -/
def dropBytes : Nat → List Char → List Char
  | _, [] => []
  | n, c :: rest => if c.utf8Size ≤ n then dropBytes (n - c.utf8Size) rest else c :: rest

theorem takeBytes_append_dropBytes (n : Nat) (cs : List Char) :
    takeBytes n cs ++ dropBytes n cs = cs := by
  induction cs generalizing n with
  | nil => rfl
  | cons c rest ih =>
    simp only [takeBytes, dropBytes]
    split
    · simp [ih]
    · rfl

theorem byteLength_append (a b : List Char) :
    byteLength (a ++ b) = byteLength a + byteLength b := by
  induction a with
  | nil => simp [byteLength]
  | cons c rest ih => simp [byteLength, ih, Nat.add_assoc]

theorem byteLength_takeBytes_le (n : Nat) (cs : List Char) : byteLength (takeBytes n cs) ≤ n := by
  induction cs generalizing n with
  | nil => simp [takeBytes, byteLength]
  | cons c rest ih =>
    simp only [takeBytes]
    split
    · have := ih (n - c.utf8Size)
      simp only [byteLength]
      omega
    · simp [byteLength]

/-- The characters between two byte positions. -/
def sliceBytes (start stop : Nat) (cs : List Char) : List Char :=
  takeBytes (stop - start) (dropBytes start cs)

/-- A text cut in two at a boundary. -/
structure Place where
  /-- The characters before the cut, the nearest first. -/
  before : List Char
  /-- The characters after the cut. -/
  after : List Char
  /-- The position of the cut. -/
  pos : Nat
  deriving DecidableEq, Repr, Inhabited

namespace Place

/-- A text cut at its start. -/
def start (cs : List Char) : Place := ⟨[], cs, 0⟩

/-- Moves characters from after the cut to before it while they fit into a number of bytes. -/
def moveFrom (before : List Char) (pos : Nat) : Nat → List Char → Place
  | _, [] => ⟨before, [], pos⟩
  | n, c :: rest =>
    if c.utf8Size ≤ n then moveFrom (c :: before) (pos + c.utf8Size) (n - c.utf8Size) rest
    else ⟨before, c :: rest, pos⟩

/-- The cut a number of bytes further on, or at the last boundary before. -/
def move (p : Place) (n : Nat) : Place := moveFrom p.before p.pos n p.after

/-- A text cut at a position, or at the last boundary before it. -/
def atByte (cs : List Char) (pos : Nat) : Place := (start cs).move pos

/-- The text before the cut. -/
def prior (p : Place) : List Char := p.before.reverse

/-- The whole text. -/
def text (p : Place) : List Char := p.prior ++ p.after

theorem moveFrom_text (before : List Char) (pos n : Nat) (cs : List Char) :
    (moveFrom before pos n cs).text = before.reverse ++ cs := by
  induction cs generalizing before pos n with
  | nil => simp [moveFrom, text, prior]
  | cons c rest ih =>
    simp only [moveFrom]
    split
    · simp [ih]
    · simp [text, prior]

/-- Moving the cut leaves the text as it is. -/
@[simp] theorem text_move (p : Place) (n : Nat) : (p.move n).text = p.text := by
  rw [move, moveFrom_text]
  rfl

end Place

end RegionTree.Text
