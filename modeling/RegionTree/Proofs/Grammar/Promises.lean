import RegionTree.Proofs.Grammar.Naming
import Mathlib.Data.List.TakeWhile
set_option autoImplicit false

/-!
# Numbers promised in advance

A host may ask for the number of a node before the grammar is built (`Host.declareNode`).  The
number it is given counts the names asked for; the number the node gets in the grammar counts those
of them that are not in every grammar anyway.  `Grammar.promise_kept_iff` says that a promise is
kept just where none of the latter kind was asked for up to it, and `Grammar.not_promise_kept` has a
promise that is not.
-/

namespace RegionTree

/-- A name of a node that is in every grammar. -/
def ReservedName (name : String) : Prop := ∃ id, NodeId.reservedName? id = some name

theorem reservedName_iff {name : String} :
    ReservedName name ↔ name ∈ NodeTable.initial.names := by
  have hnames : NodeTable.initial.names = ["⚠", "Incomplete", "Document"] := rfl
  rw [hnames]
  constructor
  · rintro ⟨id, hid⟩
    unfold NodeId.reservedName? at hid
    split at hid
    · obtain rfl := Option.some.inj hid
      simp
    · split at hid
      · obtain rfl := Option.some.inj hid
        simp
      · split at hid
        · obtain rfl := Option.some.inj hid
          simp
        · cases hid
  · intro hmem
    simp only [List.mem_cons, List.not_mem_nil, or_false] at hmem
    rcases hmem with rfl | rfl | rfl
    · exact ⟨.error, rfl⟩
    · exact ⟨.incomplete, rfl⟩
    · exact ⟨.document, rfl⟩

instance (name : String) : Decidable (ReservedName name) := decidable_of_iff' _ reservedName_iff

/-! ## Asking for numbers -/

/-- Asks for the numbers of some nodes, one after the other. -/
def Host.declareNodes (h : Host) : List String → List NodeId × Host
  | [] => ([], h)
  | name :: rest =>
    let (id, h) := h.declareNode name
    let (ids, h) := h.declareNodes rest
    (id :: ids, h)

namespace Host

variable {h : Host} {name : String} {calls : List String}

theorem promised_eq (h : Host) (name : String) :
    h.promised name =
      if name ∈ h.declared then some ⟨NodeId.firstDeclared + h.declared.idxOf name⟩ else none := by
  rw [promised, findIdx?_beq_eq]
  split <;> rfl

theorem declared_declareNode (h : Host) (name : String) :
    (h.declareNode name).2.declared =
      if name ∈ h.declared then h.declared else h.declared ++ [name] := by
  rw [declareNode, promised_eq]
  by_cases hmem : name ∈ h.declared
  · simp only [if_pos hmem]
  · simp only [if_neg hmem]

theorem mem_declared_declareNode (h : Host) (name : String) :
    name ∈ (h.declareNode name).2.declared := by
  rw [declared_declareNode]
  split
  · next hmem => exact hmem
  · exact List.mem_append_right _ (List.mem_singleton_self _)

/-- The number given for a name counts the names asked for before it. -/
theorem fst_declareNode (h : Host) (name : String) :
    (h.declareNode name).1 =
      ⟨NodeId.firstDeclared + (h.declareNode name).2.declared.idxOf name⟩ := by
  rw [declared_declareNode, declareNode, promised_eq]
  by_cases hmem : name ∈ h.declared
  · simp only [if_pos hmem]
  · simp only [if_neg hmem]
    rw [List.idxOf_append_of_notMem hmem, List.idxOf_cons_self, Nat.add_zero]

theorem declared_prefix_declareNodes (h : Host) (calls : List String) :
    h.declared <+: (h.declareNodes calls).2.declared := by
  induction calls generalizing h with
  | nil => exact List.prefix_rfl
  | cons name rest ih =>
    refine List.IsPrefix.trans ?_ (ih (h.declareNode name).2)
    rw [declared_declareNode]
    split
    · exact List.prefix_rfl
    · exact List.prefix_append _ _

theorem nodup_declareNodes (hnodup : h.declared.Nodup) (calls : List String) :
    (h.declareNodes calls).2.declared.Nodup := by
  induction calls generalizing h with
  | nil => exact hnodup
  | cons name rest ih =>
    refine ih (h := (h.declareNode name).2) ?_
    rw [declared_declareNode]
    split
    · exact hnodup
    · next hmem => exact List.nodup_append_comm.mp (List.nodup_cons.mpr ⟨hmem, hnodup⟩)

/-- The number given for a name counts the different names asked for before it. -/
theorem fst_declareNodes {id : NodeId} (h : Host)
    (hcall : (name, id) ∈ calls.zip (h.declareNodes calls).1) :
    name ∈ (h.declareNodes calls).2.declared ∧
      id = ⟨NodeId.firstDeclared + (h.declareNodes calls).2.declared.idxOf name⟩ := by
  induction calls generalizing h with
  | nil => cases hcall
  | cons first rest ih =>
    rw [declareNodes] at hcall ⊢
    dsimp only at hcall ⊢
    rw [List.zip_cons_cons, List.mem_cons] at hcall
    rcases hcall with heq | hcall
    · obtain ⟨rfl, rfl⟩ := Prod.mk.inj heq
      have hmem := h.mem_declared_declareNode name
      obtain ⟨more, hmore⟩ := (h.declareNode name).2.declared_prefix_declareNodes rest
      rw [fst_declareNode, ← hmore, List.idxOf_append_of_mem hmem]
      exact ⟨List.mem_append_left _ hmem, rfl⟩
    · exact ih _ hcall

/-- The names asked for before the first time a name is asked for. -/
theorem mem_takeWhile_declareNodes (hname : name ∉ h.declared) (calls : List String)
    (other : String) :
    other ∈ (h.declareNodes calls).2.declared.takeWhile (· != name) ↔
      other ∈ h.declared ∨ other ∈ calls.takeWhile (· != name) := by
  have hall : ∀ l : List String, name ∉ l → ∀ x ∈ l, (x != name) = true := by
    intro l hl x hx
    rw [bne_iff_ne]
    rintro rfl
    exact hl hx
  induction calls generalizing h with
  | nil =>
    rw [declareNodes, List.takeWhile_eq_self_iff.mpr (hall _ hname), List.takeWhile_nil]
    simp
  | cons first rest ih =>
    rw [declareNodes]
    dsimp only
    by_cases hfirst : first = name
    · subst hfirst
      obtain ⟨more, hmore⟩ := (h.declareNode first).2.declared_prefix_declareNodes rest
      rw [declared_declareNode, if_neg hname, List.append_assoc, List.singleton_append] at hmore
      rw [← hmore, List.takeWhile_append_of_pos (hall _ hname)]
      simp
    · have hnot : name ∉ (h.declareNode first).2.declared := by
        rw [declared_declareNode]
        split
        · exact hname
        · rw [List.mem_append, List.mem_singleton]
          exact not_or.mpr ⟨hname, fun heq => hfirst heq.symm⟩
      have hbne : (first != name) = true := bne_iff_ne.mpr hfirst
      refine (ih hnot).trans ?_
      rw [List.takeWhile_cons_of_pos (p := (· != name)) hbne, List.mem_cons, declared_declareNode]
      split
      · next hmem =>
        constructor
        · exact fun hor => hor.imp_right .inr
        · rintro (hold | rfl | hrest)
          · exact .inl hold
          · exact .inl hmem
          · exact .inr hrest
      · rw [List.mem_append, List.mem_singleton, or_assoc]

end Host

/-! ## Numbers in the grammar -/

theorem NodeTable.names_foldl_declare (t : NodeTable) {declared : List String}
    (hnodup : declared.Nodup) :
    (declared.foldl (fun t name => (t.declare (NodeTable.plainNode name .full)).2) t).names =
      t.names ++ declared.filter fun name => decide (name ∉ t.names) := by
  induction declared generalizing t with
  | nil => simp
  | cons first rest ih =>
    obtain ⟨hfirst, hnodup⟩ := List.nodup_cons.mp hnodup
    have hstep : (t.declare (plainNode first .full)).2.names =
      if first ∈ t.names then t.names else t.names ++ [first] := t.names_declare _
    rw [List.foldl_cons, ih _ hnodup, hstep]
    by_cases hmem : first ∈ t.names
    · rw [if_pos hmem, List.filter_cons_of_neg (by simpa using hmem)]
    · have hsame : (rest.filter fun name => decide (name ∉ t.names ++ [first])) =
          rest.filter fun name => decide (name ∉ t.names) := by
        refine List.filter_congr fun name hname => ?_
        have hne : name ≠ first := fun heq => hfirst (heq ▸ hname)
        simp [hne]
      rw [if_neg hmem, hsame, List.filter_cons_of_pos (by simpa using hmem), List.append_assoc,
        List.singleton_append]

/-- The nodes declared in advance, without those that are in every grammar. -/
theorem Draft.names_initial {declared : List String} (hnodup : declared.Nodup) :
    (Draft.initial declared).nodes.names =
      NodeTable.initial.names ++ declared.filter fun name => decide (¬ ReservedName name) := by
  rw [Draft.initial, NodeTable.names_foldl_declare _ hnodup]
  simp only [reservedName_iff]

/-- What is left out before an element of a list is missing in its index. -/
theorem idxOf_filter_add {p : String → Bool} {l : List String} {name : String}
    (hname : p name = true) (hmem : name ∈ l) :
    (l.filter p).idxOf name + ((l.takeWhile (· != name)).filter fun x => !p x).length =
      l.idxOf name := by
  induction l with
  | nil => cases hmem
  | cons first rest ih =>
    by_cases hfirst : first = name
    · subst hfirst
      simp [hname]
    · have hmem : name ∈ rest := (List.mem_cons.mp hmem).resolve_left (Ne.symm hfirst)
      have hrest := ih hmem
      have hbne : (first != name) = true := bne_iff_ne.mpr hfirst
      rw [List.takeWhile_cons_of_pos (p := (· != name)) hbne, List.idxOf_cons_ne _ hfirst]
      cases hp : p first with
      | true =>
        rw [List.filter_cons_of_pos hp, List.idxOf_cons_ne _ hfirst,
          List.filter_cons_of_neg (by simp [hp])]
        omega
      | false =>
        rw [List.filter_cons_of_neg (by simp [hp]), List.filter_cons_of_pos (by simp [hp]),
          List.length_cons]
        omega

theorem Grammar.names_grow {d : Definition} {h : Host} {g : Grammar}
    (hbuild : Grammar.build d h = .ok g) :
    (Draft.initial h.declared).nodes.names <+: g.nodes.names := by
  obtain ⟨⟨⟨global, fallback⟩, D⟩, hwhole, rfl⟩ := build_ok hbuild
  rw [← NodeTable.map_fst_origins, ← NodeTable.map_fst_origins]
  exact (Sources.whole_origins hwhole).map Prod.fst

/-- The node promised the number `id` under a name has it in the grammar just where neither this
name nor one asked for before it is in every grammar anyway. -/
theorem Grammar.promise_kept_iff {d : Definition} {h : Host} {calls : List String} {g : Grammar}
    {name : String} {id : NodeId} (hnew : h.declared = [])
    (hbuild : Grammar.build d (h.declareNodes calls).2 = .ok g)
    (hcall : (name, id) ∈ calls.zip (h.declareNodes calls).1) :
    (g.nodes.id? name = some id ∧ g.nodes.name id = name) ↔
      ¬ ReservedName name ∧ ∀ earlier ∈ calls.takeWhile (· != name), ¬ ReservedName earlier := by
  obtain ⟨hmem, rfl⟩ := h.fst_declareNodes hcall
  have hnodup := h.nodup_declareNodes (hnew ▸ List.nodup_nil) calls
  have hfresh : name ∉ h.declared := by simp [hnew]
  have hearlier := Host.mem_takeWhile_declareNodes hfresh calls
  simp only [hnew, List.not_mem_nil, false_or] at hearlier
  obtain ⟨more, hmore⟩ := names_grow hbuild
  rw [Draft.names_initial hnodup, List.append_assoc] at hmore
  have hlength : NodeTable.initial.names.length = NodeId.firstDeclared := rfl
  by_cases hname : ReservedName name
  · -- the number of a reserved name is below all numbers that are promised
    have hreserved := reservedName_iff.mp hname
    have hlt := List.idxOf_lt_length_iff.mpr hreserved
    have hid : g.nodes.id? name = some ⟨NodeTable.initial.names.idxOf name⟩ := by
      rw [NodeTable.id?_eq, ← hmore, List.idxOf_append_of_mem hreserved,
        if_pos (List.mem_append_left _ hreserved)]
    refine iff_of_false (fun hkept => ?_) fun hnone => hnone.1 hname
    have heq := congrArg NodeId.index (Option.some.inj (hid.symm.trans hkept.1))
    dsimp only at heq
    omega
  · have hnot : name ∉ NodeTable.initial.names := fun h => hname (reservedName_iff.mpr h)
    have hp : decide (¬ ReservedName name) = true := decide_eq_true hname
    have hfiltered : name ∈ (h.declareNodes calls).2.declared.filter
        fun name => decide (¬ ReservedName name) := List.mem_filter.mpr ⟨hmem, hp⟩
    have hid : g.nodes.id? name = some ⟨NodeId.firstDeclared +
        ((h.declareNodes calls).2.declared.filter fun name => decide (¬ ReservedName name)).idxOf
          name⟩ := by
      rw [NodeTable.id?_eq, ← hmore, List.idxOf_append_of_notMem hnot, hlength,
        List.idxOf_append_of_mem hfiltered,
        if_pos (List.mem_append_right _ (List.mem_append_left _ hfiltered))]
    have hadd := idxOf_filter_add (p := fun name => decide (¬ ReservedName name)) hp hmem
    have hcount : ((((h.declareNodes calls).2.declared.takeWhile (· != name)).filter
        fun x => !decide (¬ ReservedName x)).length = 0) ↔
          ∀ earlier ∈ calls.takeWhile (· != name), ¬ ReservedName earlier := by
      rw [List.length_eq_zero_iff, List.filter_eq_nil_iff]
      simp only [hearlier, decide_not, Bool.not_not, decide_eq_true_eq]
    rw [← hcount]
    constructor
    · rintro ⟨hkept, -⟩
      have heq := congrArg NodeId.index (Option.some.inj (hid.symm.trans hkept))
      dsimp only at heq
      exact ⟨hname, by omega⟩
    · rintro ⟨-, hzero⟩
      have heq : g.nodes.id? name = some ⟨NodeId.firstDeclared +
          (h.declareNodes calls).2.declared.idxOf name⟩ := by
        rw [hid, ← hadd, hzero, Nat.add_zero]
      exact ⟨heq, NodeTable.name_of_id? heq⟩

/-- The host that has asked for the numbers of some nodes. -/
def Host.asking (calls : List String) : Host := (({} : Host).declareNodes calls).2

theorem Grammar.promise_kept_parentheses :
    ∃ g, Grammar.build .parentheses (.asking ["Word", "Group", "Word"]) = .ok g ∧
      g.nodes.id? "Group" = some ⟨4⟩ ∧ g.nodes.name ⟨4⟩ = "Group" := by
  have hok : (Grammar.build .parentheses (.asking ["Word", "Group", "Word"])).toOption.isSome =
      true := by decide +kernel
  cases hbuild : Grammar.build .parentheses (.asking ["Word", "Group", "Word"]) with
  | error e =>
    rw [hbuild] at hok
    cases hok
  | ok g =>
    have hcall : ("Group", ⟨4⟩) ∈ ["Word", "Group", "Word"].zip
        (({} : Host).declareNodes ["Word", "Group", "Word"]).1 := by decide +kernel
    exact ⟨g, rfl, (promise_kept_iff rfl hbuild hcall).mpr (by decide +kernel)⟩

/-- Promises are not always kept: the document is in every grammar, under a number of its own. -/
theorem Grammar.not_promise_kept :
    ¬ ∀ (d : Definition) (h : Host) (calls : List String) (g : Grammar) (name : String)
      (id : NodeId), h.declared = [] → Grammar.build d (h.declareNodes calls).2 = .ok g →
      (name, id) ∈ calls.zip (h.declareNodes calls).1 →
      g.nodes.id? name = some id ∧ g.nodes.name id = name := by
  intro hkept
  have hid : (Grammar.build .parentheses (.asking ["Document"])).toOption.map
      (fun g => g.nodes.id? "Document") = some (some .document) := by decide +kernel
  cases hbuild : Grammar.build .parentheses (.asking ["Document"]) with
  | error e =>
    rw [hbuild] at hid
    cases hid
  | ok g =>
    rw [hbuild] at hid
    have hcall : ("Document", ⟨3⟩) ∈ ["Document"].zip
        (({} : Host).declareNodes ["Document"]).1 := by decide +kernel
    obtain ⟨hpromised, -⟩ := hkept _ _ _ g _ _ rfl hbuild hcall
    have hreserved : g.nodes.id? "Document" = some .document := Option.some.inj hid
    have hsame := Option.some.inj (hreserved.symm.trans hpromised)
    exact absurd hsame (by decide)

end RegionTree
