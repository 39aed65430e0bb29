import RegionTree.Binary.Codec
import Mathlib.Data.List.Basic
import Mathlib.Tactic.Ring
set_option autoImplicit false

/-!
# Readers and what is written for them

`Reads n read bytes x` is what makes `bytes` the written form of a value `x`: a reader finds the
value in front of any rest, and refuses bytes that end within its form as incomplete.  Nothing marks
where a value ends, so the second half is what keeps a cut value from being read as another one.

The bound `n` is on the bytes that the reader is given.  A reader of values inside one another
spends a unit of fuel for each of them, and a sum type spends a byte, so the two go down together
(`Reads.getCase`).  There is one lemma for each way of building readers, and those of a record or of
a sum type are put together from them.
-/

namespace RegionTree.Binary

/-- Lengths are numbers of 64 bits. -/
def lengthBound : Nat := Nat.pow 2 64

/-- Numbers in a record are numbers of 32 bits. -/
def wordBound : Nat := Nat.pow 2 32

/-- Of fewer than `n` bytes, a reader finds `x` where they begin with `bytes`, and misses something
where they stop before. -/
structure Reads {α : Type} (n : Nat) (read : Reader α) (bytes : Bytes) (x : α) : Prop where
  whole : ∀ rest, (bytes ++ rest).length < n → read (bytes ++ rest) = .ok (x, rest)
  cut : ∀ front, front.length < n → front <+: bytes → front ≠ bytes →
    read front = .error .incomplete

namespace Reads

variable {α β : Type} {n : Nat}

theorem zero (read : Reader α) (bytes : Bytes) (x : α) : Reads 0 read bytes x :=
  ⟨fun _ h => absurd h (Nat.not_lt_zero _), fun _ h => absurd h (Nat.not_lt_zero _)⟩

theorem mono {m : Nat} {read : Reader α} {bytes : Bytes} {x : α} (h : Reads n read bytes x)
    (hle : m ≤ n) : Reads m read bytes x :=
  ⟨fun rest hlt => h.whole rest (by omega), fun front hlt => h.cut front (by omega)⟩

/-! ## One after the other -/

theorem give (x : α) : Reads n (give x) [] x where
  whole _ _ := rfl
  cut _ _ hfront hne := absurd (List.prefix_nil.mp hfront) hne

/-- Bytes that end within two forms end within the first one, or behind it within the second.  The
second reader is given fewer bytes by those of the first form. -/
theorem sequence {m : Nat} {first : Reader α} {second : α → Reader β} {a b : Bytes} {x : α} {y : β}
    (hfirst : Reads m first a x) (hsecond : Reads n (second x) b y) (hle : m ≤ n + a.length) :
    Reads m (Binary.andThen first second) (a ++ b) y where
  whole rest hlt := by
    rw [List.append_assoc] at hlt ⊢
    rw [Binary.andThen, hfirst.whole _ hlt]
    rw [List.length_append] at hlt
    exact hsecond.whole rest (by omega)
  cut front hlt hfront hne := by
    rw [Binary.andThen]
    rcases List.prefix_or_prefix_of_prefix hfront (List.prefix_append a b) with hin | hpast
    · by_cases hall : front = a
      · -- the first form is there, and nothing of the second
        subst hall
        have hnil : ([] : Bytes) ≠ b := fun h => hne (by rw [← h, List.append_nil])
        have hwhole := hfirst.whole [] (by rwa [List.append_nil])
        rw [List.append_nil] at hwhole
        rw [hwhole]
        exact hsecond.cut [] (by rw [List.length_nil]; omega) List.nil_prefix hnil
      · rw [hfirst.cut front hlt hin hall]
    · obtain ⟨behind, rfl⟩ := hpast
      rw [hfirst.whole behind hlt]
      rw [List.length_append] at hlt
      refine hsecond.cut behind (by omega) ((List.prefix_append_right_inj a).mp hfront) ?_
      rintro rfl
      exact hne rfl

theorem andThen {first : Reader α} {second : α → Reader β} {a b : Bytes} {x : α} {y : β}
    (hfirst : Reads n first a x) (hsecond : Reads n (second x) b y) :
    Reads n (Binary.andThen first second) (a ++ b) y :=
  hfirst.sequence hsecond (Nat.le_add_right n _)

theorem mapped {read : Reader α} {bytes : Bytes} {x : α} (h : Reads n read bytes x) (f : α → β) :
    Reads n (mapped f read) bytes (f x) := by
  rw [← List.append_nil bytes]
  exact h.andThen (give (f x))

/-! ## Bytes and numbers -/

theorem getByte (b : UInt8) : Reads n getByte [b] b where
  whole _ _ := rfl
  cut front _ hfront hne := by
    rcases List.prefix_cons_iff.mp hfront with rfl | ⟨rest, rfl, hrest⟩
    · rfl
    · exact absurd (by rw [List.prefix_nil.mp hrest]) hne

theorem cons {next : UInt8 → Reader α} {b : UInt8} {bytes : Bytes} {x : α}
    (h : Reads n (next b) bytes x) : Reads n (Binary.andThen Binary.getByte next) (b :: bytes) x :=
  (getByte b).andThen h

theorem getBytes (bytes : Bytes) : Reads n (getBytes bytes.length) bytes bytes where
  whole rest _ := by
    rw [Binary.getBytes, if_pos (by simp), List.take_left, List.drop_left]
  cut front _ hfront hne := by
    rw [Binary.getBytes, if_neg]
    exact fun hle => hne (hfront.eq_of_length_le hle)

/-- One byte of a number, and what is left of it. -/
theorem getNumberFrom_succ (top value shift left : Nat) :
    getNumberFrom top value shift (left + 1) = Binary.andThen Binary.getByte fun b =>
      if 0x80 ≤ b.toNat then
        getNumberFrom top (value + b.toNat % 0x80 * 2 ^ shift) (shift + 7) left
      else if left == 0 && decide (top < b.toNat) then fun _ => .error .number
      else Binary.give (value + b.toNat % 0x80 * 2 ^ shift) := by
  funext bytes
  cases bytes with
  | nil => rfl
  | cons b rest =>
    change (if 0x80 ≤ b.toNat then
        getNumberFrom top (value + b.toNat % 0x80 * 2 ^ shift) (shift + 7) left rest
      else if left == 0 && decide (top < b.toNat) then .error .number
      else .ok (value + b.toNat % 0x80 * 2 ^ shift, rest)) = _
    rw [Binary.andThen, Binary.getByte]
    dsimp only
    split
    · rfl
    · split <;> rfl

/-- A number is read if it fits in the bytes that are allowed, the last of them up to `top`. -/
theorem getNumberFrom {top : Nat} (htop : top < 0x80) (left : Nat) {k : Nat}
    (hk : k < (top + 1) * 2 ^ (7 * left)) (value shift : Nat) :
    Reads n (getNumberFrom top value shift (left + 1)) (putNumber k) (value + k * 2 ^ shift) := by
  induction left generalizing k value shift with
  | zero =>
    have hlt : k < 0x80 := by omega
    have hbyte : (UInt8.ofNat k).toNat = k := by rw [UInt8.toNat_ofNat']; omega
    rw [getNumberFrom_succ, putNumber, if_pos hlt]
    refine cons ?_
    rw [hbyte, if_neg (by omega), if_neg (by simp; omega), Nat.mod_eq_of_lt hlt]
    exact give _
  | succ left ih =>
    rw [getNumberFrom_succ, putNumber]
    split
    · next hlt =>
      have hbyte : (UInt8.ofNat k).toNat = k := by rw [UInt8.toNat_ofNat']; omega
      refine cons ?_
      rw [hbyte, if_neg (by omega), if_neg (by simp), Nat.mod_eq_of_lt hlt]
      exact give _
    · have hbyte : (UInt8.ofNat (k % 0x80 + 0x80)).toNat = k % 0x80 + 0x80 := by
        rw [UInt8.toNat_ofNat']
        omega
      have hlow : (k % 0x80 + 0x80) % 0x80 = k % 0x80 := by omega
      have hhigh : k / 0x80 < (top + 1) * 2 ^ (7 * left) := by
        rw [Nat.div_lt_iff_lt_mul (by decide)]
        calc k < (top + 1) * 2 ^ (7 * (left + 1)) := hk
          _ = (top + 1) * 2 ^ (7 * left) * 0x80 := by ring
      have hvalue : value + k % 0x80 * 2 ^ shift + k / 0x80 * 2 ^ (shift + 7) =
          value + k * 2 ^ shift := by
        conv_rhs => rw [← Nat.mod_add_div k 0x80]
        rw [Nat.pow_add]
        ring
      refine cons ?_
      rw [hbyte, if_pos (by omega), hlow, ← hvalue]
      exact ih hhigh _ _

theorem getWord {k : Nat} (hk : k < wordBound) : Reads n getWord (putNumber k) k := by
  have h : Reads n Binary.getWord (putNumber k) (0 + k * 2 ^ 0) :=
    getNumberFrom (by decide) 4 hk 0 0
  rwa [Nat.zero_add, Nat.pow_zero, Nat.mul_one] at h

theorem getLength {k : Nat} (hk : k < lengthBound) : Reads n getLength (putNumber k) k := by
  have h : Reads n Binary.getLength (putNumber k) (0 + k * 2 ^ 0) :=
    getNumberFrom (by decide) 9 hk 0 0
  rwa [Nat.zero_add, Nat.pow_zero, Nat.mul_one] at h

theorem getBool (b : Bool) : Reads n getBool (putBool b) b := by
  cases b <;> exact cons (give _)

/-! ## Strings, options, lists and sums -/

/-- What is written of a text is a text. -/
theorem toText?_ofText (s : String) : toText? (ofText s) = some s := by
  have hbytes : (⟨(ofText s).toArray⟩ : ByteArray) = s.toByteArray := by simp [ofText]
  rw [toText?, hbytes, String.fromUTF8?, dif_pos s.isValidUTF8]
  rfl

theorem length_ofText (s : String) : (ofText s).length = s.utf8ByteSize := rfl

theorem getString {s : String} (hs : s.utf8ByteSize < lengthBound) :
    Reads n getString (putString s) s := by
  refine (getLength hs).andThen ?_
  rw [← List.append_nil (ofText s), ← length_ofText]
  refine (getBytes (ofText s)).andThen ?_
  rw [toText?_ofText]
  exact give s

theorem getOption {read : Reader α} {put : α → Bytes} {o : Option α}
    (h : ∀ x ∈ o, Reads n read (put x) x) : Reads n (getOption read) (putOption put o) o := by
  cases o with
  | none => exact cons (give none)
  | some x => exact cons ((h x rfl).mapped some)

theorem getAll {read : Reader α} {put : α → Bytes} {l : List α}
    (h : ∀ x ∈ l, Reads n read (put x) x) : Reads n (getAll read l.length) (putAll put l) l := by
  induction l with
  | nil => exact give []
  | cons x rest ih =>
    have hrest := ih fun y hy => h y (List.mem_cons_of_mem x hy)
    exact (h x List.mem_cons_self).andThen (hrest.mapped (x :: ·))

theorem getList {read : Reader α} {put : α → Bytes} {l : List α} (hl : l.length < lengthBound)
    (h : ∀ x ∈ l, Reads n read (put x) x) : Reads n (getList read) (putList put l) l :=
  (getLength hl).andThen (getAll h)

theorem getPair {first : Reader α} {second : Reader β} {put : α → Bytes} {put' : β → Bytes}
    {p : α × β} (hfirst : Reads n first (put p.1) p.1) (hsecond : Reads n second (put' p.2) p.2) :
    Reads n (getPair first second) (putPair put put' p) p :=
  hfirst.andThen (hsecond.mapped (p.1, ·))

/-- The number of a case takes a byte, so what follows is shorter. -/
theorem getCase_succ {cases : List (Reader α)} {read : Reader α} {k : Nat} {bytes : Bytes} {x : α}
    (hk : k < 0x80) (hread : cases[k]? = some read) (h : Reads n read bytes x) :
    Reads (n + 1) (Binary.getCase cases) (UInt8.ofNat k :: bytes) x := by
  have hnumber : Reads (n + 1) Binary.getWord (putNumber k) k :=
    getWord (Nat.lt_trans hk (by decide))
  rw [putNumber, if_pos hk] at hnumber
  refine hnumber.sequence (n := n) ?_ (Nat.le_refl (n + 1))
  rw [hread]
  exact h

theorem getCase {cases : List (Reader α)} {read : Reader α} {k : Nat} {bytes : Bytes} {x : α}
    (hk : k < 0x80) (hread : cases[k]? = some read) (h : Reads n read bytes x) :
    Reads n (Binary.getCase cases) (UInt8.ofNat k :: bytes) x :=
  (getCase_succ hk hread h).mono (Nat.le_succ n)

end Reads

end RegionTree.Binary
