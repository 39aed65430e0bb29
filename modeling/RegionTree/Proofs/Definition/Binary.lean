import RegionTree.Definition.Binary
import RegionTree.Proofs.Binary.Codec
set_option autoImplicit false

/-!
# Definitions from their binary form

A definition fits its binary form if its lengths are numbers of 64 bits and the groups that it
captures are numbers of 32 bits (`Definition.fits`).  Then its form is read as the definition,
whatever stands behind it, and no part of the form that ends before it is read as anything
(`Definition.decode_delimited`).

Items hold items.  The reader of items gives up when it is out of fuel, and it has as much as there
are bytes; each item takes a byte, so the induction is on the fuel as a bound on the bytes, and not
on the items (`Item.reads_decodeWith`).
-/

namespace RegionTree

open Binary (Reads lengthBound wordBound)

/-! ## What fits -/

namespace Binary

/-- Whether the length of a text fits. -/
def textFits (s : String) : Bool := decide (s.utf8ByteSize < lengthBound)

/-- Whether the length of a list fits, and so do its elements. -/
def listFits {α : Type} (fits : α → Bool) (l : List α) : Bool :=
  decide (l.length < lengthBound) && l.all fits

end Binary

open Binary (textFits listFits)

/-- Whether the texts of a pattern fit. -/
def PatternSource.fits : PatternSource → Bool
  | .regex source => textFits source
  | .literal text => textFits text
  | .lookup words => listFits textFits words

/-- Whether the name of a capture fits. -/
def CaptureSource.fits : CaptureSource → Bool
  | .node name => textFits name
  | .function name => textFits name

/-- Whether the pattern of a guard fits. -/
def GuardSource.fits (g : GuardSource) : Bool := textFits g.pattern

/-- Whether the text of a test fits. -/
def TestSource.fits : TestSource → Bool
  | .nonEmpty => true
  | .equals text => textFits text
  | .matchesPattern pattern => textFits pattern

/-- Whether the texts of a condition fit. -/
def ConditionSource.fits (c : ConditionSource) : Bool := c.subject.all textFits && c.test.fits

/-- Whether the texts of a setter fit. -/
def SetterSource.fits (s : SetterSource) : Bool :=
  textFits s.name && (s.value.all textFits && s.condition.all ConditionSource.fits)

/-- Whether the texts of a rule fit, and so do the numbers of the groups it captures. -/
def RuleSource.fits (r : RuleSource) : Bool :=
  r.node.all textFits && (r.pattern.fits
    && (listFits (fun c => decide (c.1 < wordBound) && c.2.fits) r.captures
    && (r.lookbehind.all GuardSource.fits && (r.lookahead.all GuardSource.fits
    && listFits SetterSource.fits r.context))))

mutual

/-- Whether all that an item holds fits. -/
def Item.fits : Item → Bool
  | .reference name => textFits name
  | .rule source => source.fits
  | .region node opening closings body embedded =>
    node.all textFits && (opening.fits
      && (decide (closings.length < lengthBound) && itemsFit closings
      && (decide (body.length < lengthBound) && itemsFit body && embedded.all textFits)))

/-- Whether all that some items hold fits. -/
def itemsFit : List Item → Bool
  | [] => true
  | x :: rest => x.fits && itemsFit rest

end

/-- Whether all items of an entry fit. -/
def Entry.fits : Entry → Bool
  | .item x => x.fits
  | .list items => listFits Item.fits items

/-- Whether the properties of a node fit. -/
def NodeSource.fits (n : NodeSource) : Bool := n.autocomplete.all textFits

/-- Whether all that a definition holds fits. -/
def Definition.fits (d : Definition) : Bool :=
  textFits d.name && (listFits (fun c => textFits c.1 && textFits c.2) d.constants
    && (listFits (fun c => textFits c.1 && textFits c.2) d.context
    && (d.fallback.all textFits && (listFits Item.fits d.root && (listFits Item.fits d.global
    && (listFits (fun e => textFits e.1 && e.2.fits) d.repository
    && listFits (fun e => textFits e.1 && e.2.fits) d.nodes))))))

/-! ## Reading what was written -/

namespace Binary

variable {n : Nat}

theorem reads_text {s : String} (h : textFits s) : Reads n getString (putString s) s :=
  .getString (of_decide_eq_true h)

theorem reads_optional {α : Type} {fits : α → Bool} {o : Option α} {read : Reader α}
    {put : α → Bytes} (h : o.all fits) (hread : ∀ x, fits x → Reads n read (put x) x) :
    Reads n (getOption read) (putOption put o) o :=
  .getOption fun x hx => hread x (by rw [hx] at h; exact h)

theorem reads_list {α : Type} {fits : α → Bool} {l : List α} {read : Reader α} {put : α → Bytes}
    (h : listFits fits l) (hread : ∀ x, fits x → Reads n read (put x) x) :
    Reads n (getList read) (putList put l) l := by
  rw [listFits, Bool.and_eq_true, decide_eq_true_eq, List.all_eq_true] at h
  exact .getList h.1 fun x hx => hread x (h.2 x hx)

theorem reads_pair {α β : Type} {fits : α → Bool} {fits' : β → Bool} {p : α × β}
    {first : Reader α} {second : Reader β} {put : α → Bytes} {put' : β → Bytes}
    (h : fits p.1 && fits' p.2) (hfirst : ∀ x, fits x → Reads n first (put x) x)
    (hsecond : ∀ x, fits' x → Reads n second (put' x) x) :
    Reads n (getPair first second) (putPair put put' p) p := by
  rw [Bool.and_eq_true] at h
  exact .getPair (hfirst _ h.1) (hsecond _ h.2)

theorem reads_texts {l : List (String × String)}
    (h : listFits (fun c => textFits c.1 && textFits c.2) l) :
    Reads n (getList (getPair getString getString)) (putList (putPair putString putString) l) l :=
  reads_list h fun _ hc => reads_pair hc (fun _ => reads_text) fun _ => reads_text

end Binary

open Binary (reads_text reads_optional reads_list reads_pair reads_texts)

variable {n : Nat}

theorem PatternSource.reads {p : PatternSource} (h : p.fits) : Reads n decode p.encode p := by
  cases p with
  | regex source => exact .getCase (k := 0) (by decide) rfl ((reads_text h).mapped _)
  | literal text => exact .getCase (k := 1) (by decide) rfl ((reads_text h).mapped _)
  | lookup words =>
    have hwords := reads_list (n := n) h fun _ => reads_text
    exact .getCase (k := 2) (by decide) rfl (hwords.mapped _)

theorem CaptureSource.reads {c : CaptureSource} (h : c.fits) : Reads n decode c.encode c := by
  cases c with
  | node name => exact .getCase (k := 0) (by decide) rfl ((reads_text h).mapped _)
  | function name => exact .getCase (k := 1) (by decide) rfl ((reads_text h).mapped _)

theorem GuardSource.reads {g : GuardSource} (h : g.fits) : Reads n decode g.encode g :=
  (reads_text h).andThen (.mapped (.getBool g.negate) _)

theorem TestSource.reads {t : TestSource} (h : t.fits) : Reads n decode t.encode t := by
  cases t with
  | nonEmpty => exact .getCase (k := 0) (by decide) rfl (.give _)
  | equals text => exact .getCase (k := 1) (by decide) rfl ((reads_text h).mapped _)
  | matchesPattern pattern => exact .getCase (k := 2) (by decide) rfl ((reads_text h).mapped _)

theorem ConditionSource.reads {c : ConditionSource} (h : c.fits) :
    Reads n decode c.encode c := by
  rw [fits, Bool.and_eq_true] at h
  exact (reads_optional h.1 fun _ => reads_text).andThen ((TestSource.reads h.2).mapped _)

theorem SetterSource.reads {s : SetterSource} (h : s.fits) : Reads n decode s.encode s := by
  simp only [fits, Bool.and_eq_true] at h
  obtain ⟨hname, hvalue, hcondition⟩ := h
  exact (reads_text hname).andThen <| (reads_optional hvalue fun _ => reads_text).andThen <|
    (reads_optional hcondition fun _ => ConditionSource.reads).andThen <|
    .mapped (.getBool s.immediate) _

theorem RuleSource.reads {r : RuleSource} (h : r.fits) : Reads n decode r.encode r := by
  simp only [fits, Bool.and_eq_true] at h
  obtain ⟨hnode, hpattern, hcaptures, hbehind, hahead, hcontext⟩ := h
  have hindex : ∀ k : Nat, decide (k < wordBound) →
      Reads n Binary.getWord (Binary.putNumber k) k :=
    fun _ hk => .getWord (of_decide_eq_true hk)
  have hcaptures := reads_list (n := n) hcaptures fun c hc =>
    reads_pair hc hindex fun _ => CaptureSource.reads
  exact (reads_optional hnode fun _ => reads_text).andThen <|
    (PatternSource.reads hpattern).andThen <| hcaptures.andThen <|
    (reads_optional hbehind fun _ => GuardSource.reads).andThen <|
    (reads_optional hahead fun _ => GuardSource.reads).andThen <|
    (reads_list hcontext fun _ => SetterSource.reads).andThen <| .mapped (.getBool r.rematch) _

theorem encodeItems_eq (items : List Item) : encodeItems items = Binary.putAll Item.encode items := by
  induction items with
  | nil => rw [encodeItems, Binary.putAll]
  | cons x rest ih => rw [encodeItems, Binary.putAll, ih]

theorem itemsFit_eq (items : List Item) : itemsFit items = items.all Item.fits := by
  induction items with
  | nil => rw [itemsFit, List.all_nil]
  | cons x rest ih => rw [itemsFit, List.all_cons, ih]

theorem Item.encode_region (node embedded : Option String) (opening : Item)
    (closings body : List Item) :
    (Item.region node opening closings body embedded).encode =
      2 :: (Binary.putOption Binary.putString node ++ (opening.encode ++
        (Binary.putList encode closings ++ (Binary.putList encode body ++
          Binary.putOption Binary.putString embedded)))) := by
  simp only [Item.encode, encodeItems_eq, Binary.putList, List.append_assoc]

/-- Items are read from no more bytes than there is fuel. -/
theorem Item.reads_decodeWith {x : Item} (h : x.fits) : Reads n (decodeWith n) x.encode x := by
  induction n generalizing x with
  | zero => exact .zero ..
  | succ n ih =>
    cases x with
    | reference name =>
      rw [Item.fits] at h
      rw [Item.encode]
      exact .getCase (k := 0) (by decide) rfl ((reads_text h).mapped _)
    | rule source =>
      rw [Item.fits] at h
      rw [Item.encode]
      exact .getCase (k := 1) (by decide) rfl ((RuleSource.reads h).mapped _)
    | region node opening closings body embedded =>
      rw [Item.fits, itemsFit_eq, itemsFit_eq, ← listFits, ← listFits] at h
      simp only [Bool.and_eq_true] at h
      obtain ⟨hnode, hopening, hclosings, hbody, hembedded⟩ := h
      rw [Item.encode_region]
      refine .getCase_succ (k := 2) (by decide) rfl ?_
      exact (reads_optional hnode fun _ => reads_text).andThen <| (ih hopening).andThen <|
        (reads_list hclosings fun _ => ih).andThen <| (reads_list hbody fun _ => ih).andThen <|
        (reads_optional hembedded fun _ => reads_text).mapped _

theorem Item.reads {x : Item} (h : x.fits) : Reads n decode x.encode x where
  whole rest _ := (reads_decodeWith h).whole rest (Nat.lt_succ_self _)
  cut front _ := (reads_decodeWith h).cut front (Nat.lt_succ_self _)

theorem Entry.reads {e : Entry} (h : e.fits) : Reads n decode e.encode e := by
  cases e with
  | item x => exact .getCase (k := 0) (by decide) rfl ((Item.reads h).mapped _)
  | list items =>
    have hitems := reads_list (n := n) h fun _ => Item.reads
    exact .getCase (k := 1) (by decide) rfl (hitems.mapped _)

theorem NodeSource.reads {p : NodeSource} (h : p.fits) : Reads n decode p.encode p :=
  (reads_optional h fun _ => reads_text).mapped _

theorem Definition.reads {d : Definition} (h : d.fits) : Reads n decoder d.encode d := by
  simp only [fits, Bool.and_eq_true] at h
  obtain ⟨hname, hconstants, hcontext, hfallback, hroot, hglobal, hrepository, hnodes⟩ := h
  exact (reads_text hname).andThen <| (Reads.getBool d.ignoreCase).andThen <|
    (reads_texts hconstants).andThen <| (reads_texts hcontext).andThen <|
    (reads_optional hfallback fun _ => reads_text).andThen <|
    (reads_list hroot fun _ => Item.reads).andThen <|
    (reads_list hglobal fun _ => Item.reads).andThen <|
    (reads_list hrepository fun _ he =>
      reads_pair he (fun _ => reads_text) fun _ => Entry.reads).andThen <|
    (reads_list hnodes fun _ he =>
      reads_pair he (fun _ => reads_text) fun _ => NodeSource.reads).mapped _

/-- The binary form of a definition is read as the definition, whatever follows it, and what stops
before its end is refused as incomplete. -/
theorem Definition.decode_delimited {d : Definition} (h : d.fits) :
    (∀ rest, Definition.decode (d.encode ++ rest) = .ok d) ∧
      ∀ front, front <+: d.encode → front ≠ d.encode →
        Definition.decode front = .error .incomplete := by
  constructor
  · intro rest
    rw [decode, (reads h).whole rest (Nat.lt_succ_self _)]
    rfl
  · intro front hfront hne
    rw [decode, (reads h).cut front (Nat.lt_succ_self _) hfront hne]
    rfl

/-- A rule with a group whose number takes two bytes, a guard and a setter. -/
def RuleSource.tag : RuleSource where
  node := some "Tag"
  pattern := .regex "<(\\w+)"
  captures := [(1, .node "Name"), (300, .function "check")]
  lookbehind := some ⟨"a", true⟩
  lookahead := none
  context := [⟨"name", some "$1", some ⟨none, .matchesPattern "x"⟩, true⟩]
  rematch := false

/-- Regions inside one another, and a text whose length takes two bytes. -/
def Definition.layered : Definition where
  name := "layered"
  ignoreCase := true
  constants := [("word", String.ofList (.replicate 200 'a'))]
  context := [("name", "")]
  fallback := none
  root := [.reference "tag"]
  global := []
  repository := [("tag", .list [.region (some "Element") (.rule .tag) [.rule .tag, .reference "end"]
    [.region none (.reference "tag") [.rule .tag] [] none] (some "text")])]
  nodes := [("Tag", ⟨some "tag"⟩)]

theorem Definition.decode_delimited_layered :
    Definition.layered.fits ∧
      (∀ rest, Definition.decode (Definition.layered.encode ++ rest) = .ok .layered) ∧
      ∀ front, front <+: Definition.layered.encode → front ≠ Definition.layered.encode →
        Definition.decode front = .error .incomplete := by
  have hfits : Definition.layered.fits := by decide +kernel
  exact ⟨hfits, decode_delimited hfits⟩

end RegionTree
