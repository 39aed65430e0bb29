import RegionTree.Proofs.Chunk.Action
import RegionTree.Proofs.Parse.Stride
set_option autoImplicit false

/-!
# What a stride depends on

In a whole document a stride is made from the text between the two margins and from the character at
its point (`Stride.from`).  Two facts follow, on which the reuse of chunks rests:

* a stride that looked only at text that two documents share is the same in both
  (`stride_eq_of_shared`);
* a stride whose margin before it does not reach back to where two documents differ is the same in
  both, but for its place (`stride_moved`).
-/

namespace RegionTree

open Text (Boundary byteLength takeBytes dropBytes)

/-! ## Moving -/

/-- A position moved by an offset. -/
def movedBy (offset : Int) (pos : Nat) : Nat := (pos + offset).toNat

namespace Token

/-- A token of a window that starts at a position, as one of the document. -/
def placedAt (base : Nat) (t : Token) : Token :=
  { t with start := base + t.start, stop := base + t.stop }

theorem Tiles.placedAt {tokens : List Token} {start stop : Nat} (h : Tiles start tokens stop)
    (base : Nat) : Tiles (base + start) (tokens.map (Token.placedAt base)) (base + stop) := by
  induction tokens generalizing start with
  | nil => exact congrArg _ h
  | cons t rest ih =>
    obtain ⟨hstart, hle, hrest⟩ := h
    exact ⟨by simp [Token.placedAt, hstart], by simp only [Token.placedAt]; omega, ih hrest⟩

theorem Tiles.stop_le {tokens : List Token} {start stop : Nat} (h : Tiles start tokens stop) :
    ∀ t ∈ tokens, start ≤ t.start ∧ t.start ≤ t.stop ∧ t.stop ≤ stop := by
  induction tokens generalizing start with
  | nil => simp
  | cons t rest ih =>
    obtain ⟨hstart, hle, hrest⟩ := h
    intro u hu
    rcases List.mem_cons.mp hu with rfl | hu
    · exact ⟨Nat.le_of_eq hstart.symm, hstart ▸ hle, hrest.le⟩
    · have := ih hrest u hu
      omega

end Token

namespace Action

/-- An action moved by an offset. -/
def moved (offset : Int) : Action → Action
  | .opening node pos => .opening node (movedBy offset pos)
  | .leaf node start stop => .leaf node (movedBy offset start) (movedBy offset stop)
  | .closing node pos => .closing node (movedBy offset pos)

end Action

/-- A token placed elsewhere does the same elsewhere. -/
theorem Token.actions_placedAt {offset : Int} {base base' : Nat} (h : (base : Int) + offset = base')
    (t : Token) :
    (t.placedAt base').actions = (t.placedAt base).actions.map (Action.moved offset) := by
  have hmoved : ∀ n, movedBy offset (base + n) = base' + n := by
    intro n
    unfold movedBy
    omega
  simp [Token.actions, Token.placedAt, Action.moved, hmoved, Function.comp_def]

namespace Chunk

/-- Whether an offset moves a chunk to where there are positions. -/
def CanMove (offset : Int) (c : Chunk) : Prop :=
  0 ≤ c.start + offset ∧ c.start + offset ≤ maxPosition

variable {offset : Int} {c : Chunk}

theorem start_shift (h : c.CanMove offset) : (c.shift offset).start = movedBy offset c.start := by
  have hle := h.2
  rw [shift, shiftClamped, movedBy]
  dsimp only
  omega

theorem stop_shift (h : c.CanMove offset) : (c.shift offset).stop = movedBy offset c.stop := by
  have hpos := h.1
  have hlength : (c.shift offset).length = c.length := rfl
  rw [stop, stop, start_shift h, hlength, movedBy, movedBy]
  omega

theorem actions_shift (h : c.CanMove offset) :
    (c.shift offset).actions = c.actions.map (Action.moved offset) := by
  have hpos := h.1
  have hmoved : ∀ n, movedBy offset c.start + n = movedBy offset (c.start + n) := by
    intro n
    rw [movedBy, movedBy]
    omega
  rw [actions, actions, start_shift h, stop_shift h]
  simp [shift, Action.moved, hmoved, Function.comp_def]

/-- A moved chunk reaches as far as before. -/
theorem reach_shift (h : c.CanMove offset) {pos : Nat} (hpos : pos ≤ c.reach)
    (hmax : movedBy offset pos ≤ maxPosition) : movedBy offset pos ≤ (c.shift offset).reach := by
  have hstop := stop_shift h
  have hlooked : (c.shift offset).looked = shiftClamped c.looked offset := rfl
  rw [reach] at hpos ⊢
  rw [hstop, hlooked, shiftClamped]
  rw [movedBy] at hmax ⊢
  unfold movedBy
  omega

end Chunk

namespace Stride

/-- What a stride does to the forest. -/
def actions (r : Stride) : List Action := r.tokens.flatMap Token.actions

/-- The end of the text that a stride depends on. -/
def seen (r : Stride) : Nat := max r.reach r.next.pos

/-- The stride at a point, from the text seen before and after it and the character there. -/
def «from» (g : Grammar) (before after : List Char) (c : Char) (a : Point) : Stride :=
  match g.stepAt a.state ⟨before.reverse, after, byteLength before⟩ with
  | none =>
    { tokens := [.plain (some .error) a.pos (a.pos + c.utf8Size)]
      next := ⟨a.pos + c.utf8Size, a.state⟩
      reach := if before ++ after = [] then 0 else a.pos + byteLength after
      forced := true }
  | some step =>
    { tokens := step.tokens.map (Token.placedAt (a.pos - byteLength before))
      next := ⟨a.pos + step.length, step.state⟩
      reach := a.pos + byteLength after
      forced := false }

end Stride

namespace Task

/-- A task for a whole document. -/
def IsWhole (t : Task) : Prop := t.ranges = Ranges.whole (Document.length t.document)

variable {t : Task}

theorem IsWhole.regular (h : t.IsWhole) : Ranges.Regular t.document t.ranges := by
  rw [h]
  exact Ranges.regular_whole t.document

theorem IsWhole.stop_eq (h : t.IsWhole) : Ranges.stop t.ranges = Document.length t.document := by
  rw [h, Ranges.stop_whole]

/-- A boundary of the whole document is a spot. -/
theorem IsWhole.spot (h : t.IsWhole) {pos : Nat} (hpos : Boundary t.document.toList pos) :
    Ranges.Spot t.document t.ranges pos := by
  refine ⟨hpos, ?_⟩
  have hle := hpos.le
  rw [← Document.length_eq] at hle
  rcases Nat.lt_or_ge pos (Document.length t.document) with hlt | hge
  · refine .inl ⟨⟨0, Document.length t.document⟩, ?_, Nat.zero_le _, hlt⟩
    rw [h, Ranges.whole_intervals, if_neg (by omega)]
    exact List.mem_singleton.mpr rfl
  · rw [h.stop_eq]
    exact .inr (Nat.le_antisymm hle hge)

/-- The translation of window positions when the window is one piece. -/
theorem startInDocument_single {text : String} {base n : Nat} (h : n ≤ Document.length text) :
    (Window.mk text [⟨0, base, Document.length text⟩]).startInDocument n = base + n ∧
      (Window.mk text [⟨0, base, Document.length text⟩]).stopInDocument n = base + n := by
  constructor
  · rcases Nat.lt_or_ge n (Document.length text) with hlt | hge
    · simp [Window.startInDocument, hlt]
    · have hnot : ¬ n < Document.length text := by omega
      simp only [Window.startInDocument, Window.documentStop, Nat.zero_add, hnot, decide_false,
        Bool.false_eq_true, not_false_eq_true, List.find?_cons_of_neg, List.find?_nil,
        List.getLast?_singleton]
      omega
  · simp [Window.stopInDocument, h]

/-- In a whole document, a stride is made from what lies between the margins. -/
theorem stride_whole (h : t.IsWhole) {front back : List Char} {c : Char}
    (hs : t.document.toList = front ++ c :: back) {a : Point} (ha : a.pos = byteLength front) :
    t.stride a = .from t.grammar
      (dropBytes (byteLength front - t.config.marginBefore) front)
      (takeBytes t.config.marginAfter (c :: back)) c a := by
  have hlength : Document.length t.document = byteLength front + byteLength (c :: back) := by
    rw [Document.length_eq, hs, Text.byteLength_append]
  have hafter : byteLength (takeBytes t.config.marginAfter (c :: back)) ≤
      byteLength (c :: back) := (Text.boundary_takeBytes _ _).le
  have hbefore := congrArg byteLength
    (Text.takeBytes_append_dropBytes (byteLength front - t.config.marginBefore) front)
  rw [Text.byteLength_append] at hbefore
  have hwindow := Window.around_whole t.config.marginBefore t.config.marginAfter hs
  rw [← ha] at hwindow hbefore ⊢
  generalize hX : dropBytes (a.pos - t.config.marginBefore) front = X at *
  generalize hY : takeBytes t.config.marginAfter (c :: back) = Y at *
  generalize hbase : byteLength (takeBytes (a.pos - t.config.marginBefore) front) = base at *
  have haround : t.window a.pos = Window.around (Ranges.whole (Document.length t.document))
      t.document a.pos t.config.marginBefore t.config.marginAfter := by rw [window, h]
  rw [← haround] at hwindow
  have hskip : ∀ reach, t.skip a reach =
      { tokens := [.plain (some .error) a.pos (a.pos + c.utf8Size)]
        next := ⟨a.pos + c.utf8Size, a.state⟩
        reach
        forced := true } := by
    intro reach
    rw [Text.byteLength_cons] at hlength
    rw [next_skip hs ha, h, Ranges.clamp_whole (by omega)]
  have hnone : ∀ {x y : List Char}, y = [] →
      t.grammar.stepAt a.state ⟨x.reverse, y, byteLength x⟩ = none := by
    intro x y hy
    cases hstep : t.grammar.stepAt a.state ⟨x.reverse, y, byteLength x⟩ with
    | none => rfl
    | some step =>
      obtain ⟨⟨part, rest, htext, hsize⟩, hpos, -⟩ := Grammar.stepAt_consumes hstep
      have hpart : part = [] := (List.append_eq_nil_iff.mp (htext.symm.trans hy)).1
      rw [← hsize, hpart] at hpos
      exact absurd hpos (Nat.lt_irrefl 0)
  by_cases hempty : X ++ Y = []
  · rw [if_pos hempty] at hwindow
    obtain ⟨rfl, rfl⟩ := List.append_eq_nil_iff.mp hempty
    have hstep : t.stepFrom a = none := by
      rw [stepFrom, hwindow]
      exact hnone (x := []) rfl
    rw [stride, hstep, Stride.from, hnone (x := []) rfl]
    dsimp only
    rw [hskip, reachFrom, hwindow]
    rfl
  · rw [if_neg hempty] at hwindow
    have htext : (t.window a.pos).text.toList = X ++ Y := by rw [hwindow, String.toList_ofList]
    have hsize : Document.length (String.ofList (X ++ Y)) = byteLength X + byteLength Y := by
      rw [Document.length_ofList, Text.byteLength_append]
    rw [← Document.length_ofList] at hwindow
    have hposition : (t.window a.pos).position a.pos = byteLength X := by
      rw [hwindow, Window.position]
      split
      · rename_i p hp
        obtain rfl := List.mem_singleton.mp (List.mem_of_find?_eq_some hp)
        dsimp only
        omega
      · rename_i hmiss
        rw [Window.length, hsize]
        rw [List.find?_eq_none] at hmiss
        have := hmiss _ (List.mem_singleton.mpr rfl)
        simp only [hsize, Bool.and_eq_true, decide_eq_true_eq, not_and, Nat.not_lt] at this
        omega
    have hstep : t.stepFrom a = t.grammar.stepAt a.state ⟨X.reverse, Y, byteLength X⟩ := by
      rw [stepFrom, hposition, htext, Text.Place.atByte_append]
    have hreach : t.reachFrom a.pos = a.pos + byteLength Y := by
      rw [reachFrom, Window.length, hwindow, (startInDocument_single (Nat.le_refl _)).2, hsize]
      omega
    rw [stride, hstep, Stride.from]
    cases hfound : t.grammar.stepAt a.state ⟨X.reverse, Y, byteLength X⟩ with
    | none =>
      dsimp only
      rw [hskip, hreach, if_neg hempty]
    | some step =>
      obtain ⟨⟨part, rest, hpart, hconsumed⟩, hpos, htiles⟩ := Grammar.stepAt_consumes hfound
      dsimp only at hpart htiles
      have hfits : step.length ≤ byteLength Y := by
        rw [hpart, Text.byteLength_append]
        omega
      have hlanding : t.landing a.pos step = a.pos + step.length := by
        rw [landing, hposition, hwindow, (startInDocument_single (by omega)).1, h,
          Ranges.clamp_whole (by omega)]
        omega
      have htokens : step.tokens.map (Parse.inDocument (t.window a.pos)) =
          step.tokens.map (Token.placedAt (a.pos - byteLength X)) := by
        apply List.map_congr_left
        intro token htoken
        obtain ⟨hlow, hmid, hhigh⟩ := htiles.stop_le token htoken
        have hbase' : a.pos - byteLength X = base := by omega
        rw [Parse.inDocument, Token.placedAt, hwindow, (startInDocument_single (by omega)).1,
          (startInDocument_single (by omega)).2, hbase', Nat.max_eq_left (by omega)]
      dsimp only
      rw [hlanding, if_neg (by omega), htokens, hreach]

/-- In a whole document the tokens of a stride cover the text up to the next point. -/
theorem tiles_stride (h : t.IsWhole) {a : Point} (ha : Boundary t.document.toList a.pos)
    (hlt : a.pos < Document.length t.document) :
    Token.Tiles a.pos (t.stride a).tokens (t.stride a).next.pos := by
  rw [Document.length_eq] at hlt
  obtain ⟨front, c, back, hs, hfront⟩ := ha.next hlt
  rw [stride_whole h hs hfront.symm, Stride.from]
  have hbefore := congrArg byteLength
    (Text.takeBytes_append_dropBytes (byteLength front - t.config.marginBefore) front)
  rw [Text.byteLength_append] at hbefore
  split
  · exact Token.tiles_plain _ (Nat.le_add_right _ _)
  · rename_i step hstep
    have htiles := (Grammar.stepAt_consumes hstep).tiles.placedAt
      (a.pos - byteLength (dropBytes (byteLength front - t.config.marginBefore) front))
    dsimp only at htiles
    rw [← Nat.add_assoc, Nat.sub_add_cancel (by omega)] at htiles
    exact htiles

/-- A stride of a whole document goes forward to a boundary and sees nothing past the end. -/
theorem IsWhole.stride_spec (h : t.IsWhole) {a : Point} (ha : Boundary t.document.toList a.pos)
    (hlt : a.pos < Document.length t.document) :
    a.pos < (t.stride a).next.pos ∧ Boundary t.document.toList (t.stride a).next.pos ∧
      (t.stride a).next.pos ≤ (t.stride a).seen ∧
      (t.stride a).seen ≤ Document.length t.document := by
  obtain ⟨hforward, hspot, -⟩ :=
    stride_progress h.regular (h.spot ha) (by rw [h.stop_eq]; exact hlt)
  refine ⟨hforward, hspot.boundary, Nat.le_max_right _ _, Nat.max_le.mpr ⟨?_, ?_⟩⟩
  · rw [Document.length_eq] at hlt
    obtain ⟨front, c, back, hs, hfront⟩ := ha.next hlt
    have hafter := (Text.boundary_takeBytes t.config.marginAfter (c :: back)).le
    have hreach : a.pos + byteLength (takeBytes t.config.marginAfter (c :: back)) ≤
        Document.length t.document := by
      rw [Document.length_eq, hs, Text.byteLength_append]
      omega
    rw [stride_whole h hs hfront.symm, Stride.from]
    split
    · dsimp only
      split
      · exact Nat.zero_le _
      · exact hreach
    · exact hreach
  · rw [Document.length_eq]
    exact hspot.boundary.le

end Task

/-! ## Locality -/

namespace Task

variable {t t' : Task}

/-- Tasks that see equal texts in the same way: whole documents, one grammar, and equal margins. -/
structure Alike (t t' : Task) : Prop where
  whole : t.IsWhole
  whole' : t'.IsWhole
  grammar : t'.grammar = t.grammar
  marginBefore : t'.config.marginBefore = t.config.marginBefore
  marginAfter : t'.config.marginAfter = t.config.marginAfter

/-- In one document, tasks that are alike make the same strides. -/
theorem stride_congr (h : Alike t t') (hdocument : t'.document = t.document) (a : Point) :
    t'.stride a = t.stride a := by
  have hranges : t'.ranges = t.ranges := by rw [h.whole, h.whole', hdocument]
  have hwindow : t'.window = t.window := by
    funext pos
    rw [window, window, hranges, hdocument, h.marginBefore, h.marginAfter]
  have hstep : t'.stepFrom a = t.stepFrom a := by rw [stepFrom, stepFrom, hwindow, h.grammar]
  have hlanding : t'.landing = t.landing := by
    funext pos step
    rw [landing, landing, hwindow, hranges]
  have hskip : t'.skip = t.skip := by
    funext a reach
    rw [skip, skip, hdocument, hranges]
  have hreach : t'.reachFrom = t.reachFrom := by
    funext pos
    rw [reachFrom, reachFrom, hwindow]
  rw [stride, stride, hstep, hlanding, hskip, hreach, hwindow]

/-- A stride that looked only at text that two documents share is the same in both. -/
theorem stride_eq_of_shared (h : Alike t t') {shared back back' : List Char}
    (hs : t.document.toList = shared ++ back) (hs' : t'.document.toList = shared ++ back')
    {a : Point} (ha : Boundary t.document.toList a.pos)
    (hseen : (t.stride a).seen < byteLength shared) (hnext : a.pos < (t.stride a).next.pos) :
    t'.stride a = t.stride a := by
  unfold Stride.seen at hseen
  have hin : Boundary shared a.pos := by
    rw [hs] at ha
    exact ha.of_append_left (by omega)
  obtain ⟨front, c, more, hshared, hfront⟩ := hin.next (by omega)
  have hone : t.document.toList = front ++ c :: (more ++ back) := by simp [hs, hshared]
  have htwo : t'.document.toList = front ++ c :: (more ++ back') := by simp [hs', hshared]
  rw [stride_whole h.whole hone hfront.symm] at hseen ⊢
  rw [stride_whole h.whole' htwo hfront.symm, h.grammar, h.marginBefore, h.marginAfter]
  -- the text seen after the point stops inside of what is shared
  have hafter : byteLength (takeBytes t.config.marginAfter (c :: (more ++ back))) <
      byteLength (c :: more) := by
    rw [hshared, Text.byteLength_append, hfront] at hseen
    rw [Stride.from] at hseen
    split at hseen
    · rename_i hnone
      have hnil := Grammar.stepAt_eq_none hnone
      dsimp only at hnil
      rw [hnil]
      exact Text.byteLength_pos (by simp)
    · dsimp only at hseen
      omega
  have hcut := Text.takeBytes_append_congr (a := c :: more) (b := back) hafter back'
  rw [List.cons_append, List.cons_append] at hcut
  rw [hcut]

/-- Where the same characters lie between the margins and behind a point of two documents, the
strides are the same but for their place. -/
theorem stride_moved (h : Alike t t') {front front' back : List Char} {c : Char}
    (hs : t.document.toList = front ++ c :: back) (hs' : t'.document.toList = front' ++ c :: back)
    (hbefore : dropBytes (byteLength front' - t.config.marginBefore) front' =
      dropBytes (byteLength front - t.config.marginBefore) front)
    {a a' : Point} (ha : a.pos = byteLength front) (ha' : a'.pos = byteLength front')
    (hstate : a'.state = a.state) {offset : Int} (hoffset : (a.pos : Int) + offset = a'.pos) :
    (t'.stride a').actions = (t.stride a).actions.map (Action.moved offset) ∧
      (t'.stride a').next = ⟨movedBy offset (t.stride a).next.pos, (t.stride a).next.state⟩ ∧
      (t'.stride a').seen = movedBy offset (t.stride a).seen := by
  have hmoved : ∀ n, movedBy offset (a.pos + n) = a'.pos + n := by
    intro n
    unfold movedBy
    omega
  have hfits : byteLength (dropBytes (byteLength front - t.config.marginBefore) front) ≤ a.pos := by
    have := congrArg byteLength
      (Text.takeBytes_append_dropBytes (byteLength front - t.config.marginBefore) front)
    rw [Text.byteLength_append] at this
    omega
  have hfits' : byteLength (dropBytes (byteLength front - t.config.marginBefore) front) ≤
      a'.pos := by
    have := congrArg byteLength
      (Text.takeBytes_append_dropBytes (byteLength front' - t.config.marginBefore) front')
    rw [Text.byteLength_append, hbefore] at this
    omega
  rw [stride_whole h.whole hs ha, stride_whole h.whole' hs' ha', h.grammar, h.marginBefore,
    h.marginAfter, hbefore]
  generalize dropBytes (byteLength front - t.config.marginBefore) front = X at *
  generalize takeBytes t.config.marginAfter (c :: back) = Y
  rw [Stride.from, Stride.from, hstate]
  cases t.grammar.stepAt a.state ⟨X.reverse, Y, byteLength X⟩ with
  | none =>
    refine ⟨?_, by rw [hmoved], ?_⟩
    · have hstart := hmoved 0
      rw [Nat.add_zero, Nat.add_zero] at hstart
      simp [Stride.actions, Token.actions, Token.plain, Action.moved, hmoved, hstart]
    · rw [Stride.seen, Stride.seen]
      dsimp only
      split
      · rw [Nat.zero_max, Nat.zero_max, hmoved]
      · rw [Nat.add_max_add_left, Nat.add_max_add_left, hmoved]
  | some step =>
    refine ⟨?_, by rw [hmoved], ?_⟩
    · simp only [Stride.actions, List.flatMap_map, List.map_flatMap]
      refine List.flatMap_congr fun token _ => ?_
      exact token.actions_placedAt (by omega)
    · rw [Stride.seen, Stride.seen]
      dsimp only
      rw [Nat.add_max_add_left, Nat.add_max_add_left, hmoved]

end Task

end RegionTree
