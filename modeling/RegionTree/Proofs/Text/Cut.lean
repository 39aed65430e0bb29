import RegionTree.Text.Utf8
set_option autoImplicit false

/-!
# Cutting a text at byte positions

A position is a boundary of a text if some of its characters in front take up just that many bytes.
`takeBytes` stops at the last boundary at or before a position, so what it takes and where it stops
depend only on the text up to that boundary: `takeBytes_append_congr` and `dropBytes_append_of_le`
are the two locality facts that reuse of an earlier parse rests on.
-/

namespace RegionTree.Text

/-- A byte position at which a text can be cut in two. -/
def Boundary (cs : List Char) (pos : Nat) : Prop :=
  ∃ a b, cs = a ++ b ∧ byteLength a = pos

@[simp] theorem byteLength_nil : byteLength [] = 0 := rfl

@[simp] theorem byteLength_cons (c : Char) (cs : List Char) :
    byteLength (c :: cs) = c.utf8Size + byteLength cs := rfl

theorem byteLength_eq_zero {cs : List Char} (h : byteLength cs = 0) : cs = [] := by
  cases cs with
  | nil => rfl
  | cons c rest =>
    have := c.utf8Size_pos
    simp only [byteLength_cons] at h
    omega

theorem byteLength_pos {cs : List Char} (h : cs ≠ []) : 0 < byteLength cs := by
  cases hl : byteLength cs with
  | zero => exact absurd (byteLength_eq_zero hl) h
  | succ n => omega

/-! ## Taking and dropping -/

@[simp] theorem takeBytes_nil (n : Nat) : takeBytes n [] = [] := by
  cases n <;> rfl

/-- What fits into the bytes of some characters in front, and what is left, go on behind them. -/
theorem takeBytes_append_of_le {a b : List Char} {n : Nat} (h : byteLength a ≤ n) :
    takeBytes n (a ++ b) = a ++ takeBytes (n - byteLength a) b := by
  induction a generalizing n with
  | nil => simp
  | cons c rest ih =>
    simp only [byteLength_cons] at h
    rw [List.cons_append, takeBytes, if_pos (by omega), ih (by omega), List.cons_append,
      byteLength_cons, Nat.sub_sub]

theorem dropBytes_append_of_le {a b : List Char} {n : Nat} (h : byteLength a ≤ n) :
    dropBytes n (a ++ b) = dropBytes (n - byteLength a) b := by
  induction a generalizing n with
  | nil => simp
  | cons c rest ih =>
    simp only [byteLength_cons] at h
    rw [List.cons_append, dropBytes, if_pos (by omega), ih (by omega), byteLength_cons, Nat.sub_sub]

/-- What fits into at most the bytes of some characters in front does not depend on the others. -/
theorem takeBytes_append_of_le_left {a b : List Char} {n : Nat} (h : n ≤ byteLength a) :
    takeBytes n (a ++ b) = takeBytes n a := by
  induction a generalizing n with
  | nil =>
    obtain rfl : n = 0 := Nat.le_zero.mp h
    cases b with
    | nil => rfl
    | cons c rest =>
      have := c.utf8Size_pos
      rw [List.nil_append, takeBytes_nil, takeBytes, if_neg (by omega)]
  | cons c rest ih =>
    simp only [byteLength_cons] at h
    rw [List.cons_append, takeBytes, takeBytes]
    split
    · rw [ih (by omega)]
    · rfl

@[simp] theorem takeBytes_byteLength (a b : List Char) : takeBytes (byteLength a) (a ++ b) = a := by
  rw [takeBytes_append_of_le (Nat.le_refl _), Nat.sub_self]
  cases b with
  | nil => simp
  | cons c rest =>
    have := c.utf8Size_pos
    rw [takeBytes, if_neg (by omega), List.append_nil]

/-- A cut that falls strictly inside some characters in front does not see what follows them. -/
theorem takeBytes_append_of_lt {a : List Char} {n : Nat}
    (h : byteLength (takeBytes n a) < byteLength a) (b : List Char) :
    takeBytes n (a ++ b) = takeBytes n a := by
  induction a generalizing n with
  | nil => simp at h
  | cons c rest ih =>
    rw [List.cons_append, takeBytes]
    rw [takeBytes] at h ⊢
    split
    · rename_i hc
      rw [if_pos hc] at h
      simp only [byteLength_cons] at h
      rw [ih (by omega)]
    · rfl

/-- Whatever follows, a cut that falls strictly inside some characters in front stays there. -/
theorem takeBytes_append_congr {a b : List Char} {n : Nat}
    (h : byteLength (takeBytes n (a ++ b)) < byteLength a) (b' : List Char) :
    takeBytes n (a ++ b') = takeBytes n (a ++ b) := by
  have hfront : byteLength (takeBytes n a) < byteLength a := by
    apply Nat.lt_of_not_le
    intro hle
    have hn : byteLength a ≤ n := Nat.le_trans hle (byteLength_takeBytes_le n a)
    rw [takeBytes_append_of_le hn, byteLength_append] at h
    omega
  rw [takeBytes_append_of_lt hfront b', takeBytes_append_of_lt hfront b]

/-- The characters that fit into more bytes start with those that fit into fewer. -/
theorem takeBytes_le {m n : Nat} (h : m ≤ n) (cs : List Char) :
    ∃ part, takeBytes n cs = takeBytes m cs ++ part := by
  have hm := byteLength_takeBytes_le m cs
  refine ⟨takeBytes (n - byteLength (takeBytes m cs)) (dropBytes m cs), ?_⟩
  have := takeBytes_append_of_le (b := dropBytes m cs) (Nat.le_trans hm h)
  rwa [takeBytes_append_dropBytes] at this

/-! ## Boundaries -/

theorem boundary_zero (cs : List Char) : Boundary cs 0 := ⟨[], cs, rfl, rfl⟩

theorem boundary_append (a b : List Char) : Boundary (a ++ b) (byteLength a) := ⟨a, b, rfl, rfl⟩

theorem boundary_byteLength (cs : List Char) : Boundary cs (byteLength cs) :=
  ⟨cs, [], by simp, rfl⟩

theorem Boundary.le {cs : List Char} {pos : Nat} (h : Boundary cs pos) : pos ≤ byteLength cs := by
  obtain ⟨a, b, rfl, rfl⟩ := h
  rw [byteLength_append]
  omega

/-- At a boundary nothing is cut off. -/
theorem Boundary.byteLength_takeBytes {cs : List Char} {pos : Nat} (h : Boundary cs pos) :
    byteLength (takeBytes pos cs) = pos := by
  obtain ⟨a, b, rfl, rfl⟩ := h
  rw [takeBytes_byteLength]

theorem boundary_takeBytes (n : Nat) (cs : List Char) :
    Boundary cs (byteLength (takeBytes n cs)) :=
  ⟨takeBytes n cs, dropBytes n cs, (takeBytes_append_dropBytes n cs).symm, rfl⟩

/-- `takeBytes` stops at the last boundary at or before a position. -/
theorem Boundary.le_takeBytes {cs : List Char} {m n : Nat} (h : Boundary cs m) (hmn : m ≤ n) :
    m ≤ byteLength (takeBytes n cs) := by
  obtain ⟨part, hpart⟩ := takeBytes_le hmn cs
  rw [hpart, byteLength_append, h.byteLength_takeBytes]
  omega

/-- Of two cuts of one text the later one goes on where the earlier one stops. -/
theorem Boundary.split {cs : List Char} {m n : Nat} (hm : Boundary cs m) (hn : Boundary cs n)
    (h : m ≤ n) :
    ∃ a part b, cs = a ++ part ++ b ∧ byteLength a = m ∧ byteLength (a ++ part) = n := by
  obtain ⟨part, hpart⟩ := takeBytes_le h cs
  refine ⟨takeBytes m cs, part, dropBytes n cs, ?_, hm.byteLength_takeBytes, ?_⟩
  · rw [← hpart, takeBytes_append_dropBytes]
  · rw [← hpart, hn.byteLength_takeBytes]

theorem boundary_append_left {a b : List Char} {pos : Nat} (h : Boundary a pos) :
    Boundary (a ++ b) pos := by
  obtain ⟨x, y, rfl, rfl⟩ := h
  exact ⟨x, y ++ b, by simp, rfl⟩

theorem boundary_append_right {a b : List Char} {pos : Nat} (h : Boundary b pos) :
    Boundary (a ++ b) (byteLength a + pos) := by
  obtain ⟨x, y, rfl, rfl⟩ := h
  exact ⟨a ++ x, y, by simp, byteLength_append a x⟩

/-- Up to the end of some characters in front, what follows them makes no boundaries. -/
theorem Boundary.of_append_left {a b : List Char} {pos : Nat} (h : Boundary (a ++ b) pos)
    (hpos : pos ≤ byteLength a) : Boundary a pos := by
  obtain ⟨x, part, y, hcs, hx, hxp⟩ := h.split (boundary_append a b) hpos
  have ha : a = x ++ part := by
    have := takeBytes_byteLength a b
    rw [hcs, ← hxp, takeBytes_byteLength] at this
    exact this.symm
  exact ⟨x, part, ha, hx⟩

/-- From the end of some characters in front on, they make no boundaries. -/
theorem Boundary.of_append_right {a b : List Char} {pos : Nat}
    (h : Boundary (a ++ b) (byteLength a + pos)) : Boundary b pos := by
  obtain ⟨x, y, hxy, hx⟩ := h
  have htake : x = a ++ takeBytes pos b := by
    have := takeBytes_byteLength x y
    rw [← hxy, hx, takeBytes_append_of_le (by omega)] at this
    simpa using this.symm
  refine ⟨takeBytes pos b, dropBytes pos b, (takeBytes_append_dropBytes pos b).symm, ?_⟩
  rw [htake, byteLength_append] at hx
  omega

/-- A boundary behind some characters in front cuts what follows them. -/
theorem Boundary.split_append {a b : List Char} {pos : Nat} (h : Boundary (a ++ b) pos)
    (hpos : byteLength a ≤ pos) : ∃ x y, b = x ++ y ∧ byteLength (a ++ x) = pos := by
  obtain ⟨k, rfl⟩ := Nat.exists_eq_add_of_le hpos
  obtain ⟨x, y, hb, hx⟩ := h.of_append_right
  exact ⟨x, y, hb, by rw [byteLength_append, hx]⟩

/-- After a boundary there is a character, unless it is the end. -/
theorem Boundary.next {cs : List Char} {pos : Nat} (h : Boundary cs pos)
    (hpos : pos < byteLength cs) :
    ∃ a c b, cs = a ++ c :: b ∧ byteLength a = pos := by
  obtain ⟨a, b, rfl, rfl⟩ := h
  cases b with
  | nil => simp at hpos
  | cons c rest => exact ⟨a, c, rest, rfl, rfl⟩

namespace Place

theorem moveFrom_append (before a b : List Char) (pos : Nat) :
    moveFrom before pos (byteLength a) (a ++ b) =
      ⟨a.reverse ++ before, b, pos + byteLength a⟩ := by
  induction a generalizing before pos with
  | nil =>
    cases b with
    | nil => rfl
    | cons c rest =>
      have := c.utf8Size_pos
      simp only [List.nil_append, byteLength_nil, moveFrom]
      rw [if_neg (by omega)]
      simp
  | cons c rest ih =>
    simp only [List.cons_append, byteLength_cons, moveFrom]
    rw [if_pos (by omega), Nat.add_sub_cancel_left, ih]
    simp [Nat.add_assoc]

/-- Cutting a text where some characters in front of it stop. -/
theorem atByte_append (a b : List Char) :
    atByte (a ++ b) (byteLength a) = ⟨a.reverse, b, byteLength a⟩ := by
  rw [atByte, move, start, moveFrom_append]
  simp

end Place

end RegionTree.Text
