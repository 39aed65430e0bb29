import RegionTree.Proofs.Grammar.Closure
set_option autoImplicit false

/-!
# How nodes come to their names

A node is declared where it is first named, and keeps the entry that is being compiled there.
`NodeTable.origins` lists the names of a table with these entries, in the order of the numbers;
building only adds to it.  `Sources.Names` says what a step of building adds: what its items name
outside the bodies of regions, as declared in the innermost entry that is being compiled, and what
the entries it compiles name there, as declared in these.
-/

namespace RegionTree

open Build

/-! ## Tables of nodes -/

theorem findIdx?_beq_eq (l : List String) (name : String) :
    l.findIdx? (· == name) = if name ∈ l then some (l.idxOf name) else none := by
  split
  · next hmem =>
    have hexists : ∃ x ∈ l, (x == name) = true := ⟨name, hmem, beq_self_eq_true name⟩
    rw [List.findIdx?_eq_some_of_exists hexists]
    rfl
  · next hmem =>
    rw [List.findIdx?_eq_none_iff]
    intro other hother
    rw [beq_eq_false_iff_ne]
    rintro rfl
    exact hmem hother

namespace NodeTable

variable {t : NodeTable} {name : String}

/-- The names of the nodes, in the order of their numbers. -/
def names (t : NodeTable) : List String := t.nodes.map Node.name

/-- The names of the nodes with the entries in which they were first declared. -/
def origins (t : NodeTable) : List (String × Option String) :=
  t.nodes.map fun node => (node.name, node.source)

theorem map_fst_origins (t : NodeTable) : t.origins.map Prod.fst = t.names := by
  rw [origins, List.map_map]
  rfl

theorem id?_eq (t : NodeTable) (name : String) :
    t.id? name = if name ∈ t.names then some ⟨t.names.idxOf name⟩ else none := by
  have hfind : t.nodes.findIdx? (fun node => node.name == name) =
      t.names.findIdx? (· == name) := by
    rw [names, List.findIdx?_map]
    rfl
  rw [id?, hfind, findIdx?_beq_eq]
  split <;> rfl

theorem name_eq (t : NodeTable) (id : NodeId) : t.name id = (t.names[id.index]?).getD "?" := by
  rw [NodeTable.name, get?, names, List.getElem?_map]

theorem name_of_id? {id : NodeId} (h : t.id? name = some id) : t.name id = name := by
  rw [id?_eq] at h
  split at h
  · next hmem =>
    obtain rfl := Option.some.inj h
    rw [name_eq, List.getElem?_idxOf hmem, Option.getD_some]
  · cases h

/-- The node with a name is the first of this name. -/
theorem exists_node_of_lookup {source : Option String} (h : t.origins.lookup name = some source) :
    ∃ id node, t.id? name = some id ∧ t.get? id = some node ∧ node.source = source := by
  obtain ⟨before, after, horigins, hbefore⟩ := List.lookup_eq_some_iff.mp h
  obtain ⟨first, rest, hnodes, hfirst, hrest⟩ := List.map_eq_append_iff.mp horigins
  obtain ⟨node, others, rfl, hnode, -⟩ := List.map_eq_cons_iff.mp hrest
  obtain ⟨hname, hsource⟩ := Prod.mk.inj hnode
  have hnot : ∀ n ∈ first, ¬ (n.name == name) = true := by
    intro n hn
    have hmem : (n.name, n.source) ∈ before := hfirst ▸ List.mem_map_of_mem hn
    have := hbefore _ hmem
    simp only [bne_iff_ne, ne_eq, beq_iff_eq] at this ⊢
    exact fun heq => this heq.symm
  have hindex : t.nodes.findIdx? (fun n => n.name == name) = some first.length := by
    rw [hnodes, List.findIdx?_append, List.findIdx?_eq_none_iff.mpr (by simpa using hnot)]
    simp [List.findIdx?_cons, hname]
  refine ⟨⟨first.length⟩, node, by rw [id?, hindex]; rfl, ?_, hsource⟩
  rw [get?, hnodes]
  simp

theorem names_declare (t : NodeTable) (node : Node) :
    (t.declare node).2.names =
      if node.name ∈ t.names then t.names else t.names ++ [node.name] := by
  rw [declare, id?_eq]
  split
  · next hid =>
    split at hid
    · next hmem => rw [if_pos hmem]
    · cases hid
  · next hid =>
    split at hid
    · cases hid
    · next hmem =>
      rw [if_neg hmem, names, List.map_append]
      rfl

theorem origins_declare (t : NodeTable) (node : Node) :
    (t.declare node).2.origins =
      if node.name ∈ t.names then t.origins else t.origins ++ [(node.name, node.source)] := by
  rw [declare, id?_eq]
  split
  · next hid =>
    split at hid
    · next hmem => rw [if_pos hmem]
    · cases hid
  · next hid =>
    split at hid
    · cases hid
    · next hmem =>
      rw [if_neg hmem, origins, List.map_append]
      rfl

theorem origins_setAutocomplete (t : NodeTable) (id : NodeId) (tag : String) :
    (t.setAutocomplete id tag).origins = t.origins := by
  refine List.ext_getElem? fun index => ?_
  rw [origins, origins, List.getElem?_map, List.getElem?_map, setAutocomplete,
    List.getElem?_modify]
  cases t.nodes[index]? with
  | none => rfl
  | some node =>
    dsimp only [Option.map_some]
    split <;> rfl

theorem mem_names_declare (t : NodeTable) (node : Node) : node.name ∈ (t.declare node).2.names := by
  rw [names_declare]
  split
  · next hmem => exact hmem
  · exact List.mem_append_right _ (List.mem_singleton_self _)

end NodeTable

/-! ## Names in a definition -/

/-- The node that a capture names. -/
def CaptureSource.node? : CaptureSource → Option String
  | .node name => some name
  | .function _ => none

/-- The nodes that a rule names: its own and those of its captures. -/
def RuleSource.mentions (r : RuleSource) : List String :=
  r.node.toList ++ r.captures.filterMap fun c => c.2.node?

mutual

/-- The nodes that an item names outside the bodies of regions. -/
def Item.mentions : Item → List String
  | .reference _ => []
  | .rule source => source.mentions
  | .region node opening closings _ _ => node.toList ++ (opening.mentions ++ mentionsAll closings)

/-- The nodes that some items name outside the bodies of regions. -/
def mentionsAll : List Item → List String
  | [] => []
  | x :: rest => x.mentions ++ mentionsAll rest

end

/-- The nodes that an item names itself, apart from the items inside it. -/
def Placed.named : Placed → List String
  | ⟨_, .reference _⟩ => []
  | ⟨_, .rule source⟩ => source.mentions
  | ⟨_, .region node _ _ _ _⟩ => node.toList

/-- Whether a name is that of a node somewhere in a list of items. -/
def NamedIn (name : String) (sites : List Placed) : Prop := ∃ p ∈ sites, name ∈ p.named

theorem NamedIn.mono {name : String} {sites others : List Placed} (h : NamedIn name sites)
    (hsub : sites ⊆ others) : NamedIn name others := by
  obtain ⟨p, hp, hname⟩ := h
  exact ⟨p, hsub hp, hname⟩

theorem flatMap_mentions_placeFrom (path : String) (index : Nat) (items : List Item) :
    (placeFrom path index items).flatMap (fun p => p.item.mentions) = mentionsAll items := by
  induction items generalizing index with
  | nil => rw [placeFrom, List.flatMap_nil, mentionsAll]
  | cons x rest ih => rw [placeFrom, List.flatMap_cons, ih, mentionsAll]

mutual

theorem Item.namedIn_sites {name : String} :
    (x : Item) → (path : String) → name ∈ x.mentions → NamedIn name (x.sites path)
  | .reference _, path, h => by simp [Item.mentions] at h
  | .rule source, path, h => by
    rw [Item.mentions] at h
    exact ⟨⟨path, .rule source⟩, by simp [Item.sites], h⟩
  | .region node opening closings body embedded, path, h => by
    rw [Item.mentions, List.mem_append, List.mem_append] at h
    rw [Item.sites]
    rcases h with h | h | h
    · exact ⟨_, List.mem_cons_self, h⟩
    · exact (opening.namedIn_sites (path ++ ".begin") h).mono fun p hp => by simp [hp]
    · exact (namedIn_sitesFrom closings (path ++ ".end") 0 h).mono fun p hp => by simp [hp]

theorem namedIn_sitesFrom {name : String} :
    (items : List Item) → (path : String) → (index : Nat) → name ∈ mentionsAll items →
      NamedIn name (sitesFrom path index items)
  | [], path, index, h => by simp [mentionsAll] at h
  | x :: rest, path, index, h => by
    rw [mentionsAll, List.mem_append] at h
    rw [sitesFrom]
    rcases h with h | h
    · exact (x.namedIn_sites (indexed path index) h).mono (List.subset_append_left _ _)
    · exact (namedIn_sitesFrom rest path (index + 1) h).mono (List.subset_append_right _ _)

end

mutual

/-- What is named inside an item is named outside the bodies of regions, or in the body of some
region outside the bodies of regions in it. -/
theorem Item.mem_mentions_of_namedIn {name : String} :
    (x : Item) → (path : String) → NamedIn name (x.sites path) →
      name ∈ x.mentions ∨ ∃ r : RegionSite, r.placed ∈ x.sites path ∧ name ∈ mentionsAll r.body
  | .reference _, path, h => by
    obtain ⟨p, hp, hname⟩ := h
    obtain rfl : p = _ := by simpa [Item.sites] using hp
    simp [Placed.named] at hname
  | .rule source, path, h => by
    obtain ⟨p, hp, hname⟩ := h
    obtain rfl : p = _ := by simpa [Item.sites] using hp
    exact .inl (by rwa [Item.mentions])
  | .region node opening closings body embedded, path, h => by
    obtain ⟨p, hp, hname⟩ := h
    rw [Item.sites, List.mem_cons, List.mem_append, List.mem_append] at hp
    rw [Item.mentions, Item.sites]
    rcases hp with rfl | (hp | hp) | hp
    · exact .inl (List.mem_append_left _ hname)
    · rcases opening.mem_mentions_of_namedIn (path ++ ".begin") ⟨p, hp, hname⟩ with h | ⟨r, hr, h⟩
      · exact .inl (by simp [h])
      · exact .inr ⟨r, by simp [hr], h⟩
    · rcases mem_mentionsAll_of_namedIn closings (path ++ ".end") 0 ⟨p, hp, hname⟩ with
        h | ⟨r, hr, h⟩
      · exact .inl (by simp [h])
      · exact .inr ⟨r, by simp [hr], h⟩
    · rcases mem_mentionsAll_of_namedIn body (path ++ ".patterns") 0 ⟨p, hp, hname⟩ with
        h | ⟨r, hr, h⟩
      · exact .inr ⟨⟨path, node, opening, closings, body, embedded⟩, List.mem_cons_self, h⟩
      · exact .inr ⟨r, by simp [hr], h⟩

theorem mem_mentionsAll_of_namedIn {name : String} :
    (items : List Item) → (path : String) → (index : Nat) →
      NamedIn name (sitesFrom path index items) →
      name ∈ mentionsAll items ∨
        ∃ r : RegionSite, r.placed ∈ sitesFrom path index items ∧ name ∈ mentionsAll r.body
  | [], path, index, h => by
    obtain ⟨p, hp, -⟩ := h
    simp [sitesFrom] at hp
  | x :: rest, path, index, h => by
    obtain ⟨p, hp, hname⟩ := h
    rw [sitesFrom, List.mem_append] at hp
    rw [mentionsAll, sitesFrom]
    rcases hp with hp | hp
    · rcases x.mem_mentions_of_namedIn (indexed path index) ⟨p, hp, hname⟩ with h | ⟨r, hr, h⟩
      · exact .inl (List.mem_append_left _ h)
      · exact .inr ⟨r, List.mem_append_left _ hr, h⟩
    · rcases mem_mentionsAll_of_namedIn rest path (index + 1) ⟨p, hp, hname⟩ with h | ⟨r, hr, h⟩
      · exact .inl (List.mem_append_right _ h)
      · exact .inr ⟨r, List.mem_append_right _ hr, h⟩

end

/-- The nodes that an entry names outside the bodies of regions. -/
def Definition.mentions (d : Definition) (entry : String) : List String :=
  match d.entry? entry with
  | none => []
  | some found => mentionsAll found.items

/-! ## Steps of building -/

namespace Sources

variable {s : Sources} {resolving : List String} {D D₁ D₂ D' : Draft} {mentioned more : List String}

/-- What a step of building does to the nodes, within the entries `resolving` and where `mentioned`
are the nodes that its items name outside the bodies of regions. -/
structure Names (s : Sources) (resolving mentioned : List String) (D D' : Draft) : Prop where
  keys : D.keys ⊆ D'.keys
  origins : ∃ added, D'.nodes.origins = D.nodes.origins ++ added ∧
    ∀ o ∈ added, o.1 ∈ mentioned ∧ o.2 = resolving.head? ∨
      ∃ entry ∈ D'.keys, o.2 = some entry ∧ o.1 ∈ s.definition.mentions entry
  mentioned : mentioned ⊆ D'.nodes.names
  entries : ∀ entry ∈ D'.keys, entry ∈ D.keys ∨ s.definition.mentions entry ⊆ D'.nodes.names

namespace Names

theorem origins_grow (h : s.Names resolving mentioned D D') :
    D.nodes.origins <+: D'.nodes.origins := by
  obtain ⟨added, hadded, -⟩ := h.origins
  exact ⟨added, hadded.symm⟩

theorem names_subset (h : s.Names resolving mentioned D D') : D.nodes.names ⊆ D'.nodes.names := by
  rw [← NodeTable.map_fst_origins, ← NodeTable.map_fst_origins]
  exact (h.origins_grow.map Prod.fst).subset

theorem refl (s : Sources) (resolving : List String) (D : Draft) : s.Names resolving [] D D :=
  ⟨List.Subset.refl _, ⟨[], by simp⟩, List.nil_subset _, fun _ h => .inl h⟩

theorem trans (h : s.Names resolving mentioned D D₁) (h' : s.Names resolving more D₁ D₂) :
    s.Names resolving (mentioned ++ more) D D₂ where
  keys := List.Subset.trans h.keys h'.keys
  origins := by
    obtain ⟨added, hadded, hall⟩ := h.origins
    obtain ⟨added', hadded', hall'⟩ := h'.origins
    refine ⟨added ++ added', by rw [hadded', hadded, List.append_assoc], ?_⟩
    intro o ho
    rcases List.mem_append.mp ho with ho | ho
    · rcases hall o ho with ⟨hmem, hsource⟩ | ⟨entry, hentry, hsource⟩
      · exact .inl ⟨List.mem_append_left _ hmem, hsource⟩
      · exact .inr ⟨entry, h'.keys hentry, hsource⟩
    · rcases hall' o ho with ⟨hmem, hsource⟩ | hentry
      · exact .inl ⟨List.mem_append_right _ hmem, hsource⟩
      · exact .inr hentry
  mentioned :=
    List.append_subset.mpr ⟨List.Subset.trans h.mentioned h'.names_subset, h'.mentioned⟩
  entries entry hentry := by
    rcases h'.entries entry hentry with hold | hnew
    · exact (h.entries entry hold).imp_right fun hsub => List.Subset.trans hsub h'.names_subset
    · exact .inr hnew

/-- A step that leaves names and entries alone may follow. -/
theorem congr (h : s.Names resolving mentioned D D')
    (horigins : D₂.nodes.origins = D'.nodes.origins) (hkeys : D₂.keys = D'.keys) :
    s.Names resolving mentioned D D₂ := by
  have hnames : D₂.nodes.names = D'.nodes.names := by
    rw [← NodeTable.map_fst_origins, horigins, NodeTable.map_fst_origins]
  exact ⟨hkeys ▸ h.keys, by simpa only [horigins, hkeys] using h.origins,
    hnames ▸ h.mentioned, by simpa only [hnames, hkeys] using h.entries⟩

/-- One node is declared, or found to be there. -/
theorem declare (D : Draft) (name : String) (role : Role) (embedded : Option String) :
    s.Names resolving [name] D
      { D with nodes := (D.nodes.declare ⟨name, none, role, resolving.head?, embedded⟩).2 } where
  keys := List.Subset.refl _
  origins := by
    rw [NodeTable.origins_declare]
    split
    · exact ⟨[], by simp⟩
    · exact ⟨_, rfl, by simp⟩
  mentioned := by
    rintro _ hname
    obtain rfl := List.mem_singleton.mp hname
    exact D.nodes.mem_names_declare ⟨_, none, role, resolving.head?, embedded⟩
  entries _ h := .inl h

/-- The entry whose items were compiled is kept. -/
theorem keep {name : String} (h : s.Names (name :: resolving) (s.definition.mentions name) D D')
    (alternatives : List Alternative) : s.Names resolving [] D (D'.keep name alternatives) where
  keys := List.Subset.trans h.keys (List.subset_cons_self _ _)
  origins := by
    obtain ⟨added, hadded, hall⟩ := h.origins
    refine ⟨added, hadded, fun o ho => .inr ?_⟩
    rcases hall o ho with ⟨hmem, hsource⟩ | ⟨entry, hentry, hsource⟩
    · exact ⟨name, List.mem_cons_self, hsource, hmem⟩
    · exact ⟨entry, List.mem_cons_of_mem _ hentry, hsource⟩
  mentioned := List.nil_subset _
  entries entry hentry := by
    rcases List.mem_cons.mp hentry with rfl | hentry
    · exact .inr h.mentioned
    · exact h.entries entry hentry

end Names

theorem declare?_names {name : Option String} {role : Role} {embedded : Option String}
    {node : Option NodeId} (h : declare? resolving name role embedded D = .ok (node, D')) :
    s.Names resolving name.toList D D' := by
  cases name with
  | none =>
    obtain ⟨-, rfl⟩ := ok_inj h
    exact .refl ..
  | some name =>
    obtain ⟨-, rfl⟩ := ok_inj h
    exact .declare ..

theorem capture_names {path : String} {source : CaptureSource} {capture : Capture}
    (h : s.capture resolving path source D = .ok (capture, D')) :
    s.Names resolving source.node?.toList D D' := by
  cases source with
  | node name =>
    obtain ⟨-, rfl⟩ := ok_inj h
    exact .declare ..
  | function name =>
    obtain ⟨nodes, rfl⟩ := capture_ok h
    cases hindex : s.functions.findIdx? (· == name) with
    | none =>
      simp only [Sources.capture, hindex] at h
      cases h
    | some index =>
      simp only [Sources.capture, hindex] at h
      obtain ⟨-, hdraft⟩ := ok_inj h
      rw [← hdraft]
      exact .refl ..

theorem captures_names {path : String} {groups : Nat} {sources : List (Nat × CaptureSource)}
    {captures : List (Nat × Capture)}
    (h : s.captures resolving path groups sources D = .ok (captures, D')) :
    s.Names resolving (sources.filterMap fun c => c.2.node?) D D' := by
  induction sources generalizing D captures with
  | nil =>
    obtain ⟨-, rfl⟩ := ok_inj h
    exact .refl ..
  | cons first rest ih =>
    obtain ⟨index, source⟩ := first
    rw [Sources.captures] at h
    split at h
    · cases h
    · simp only [bind_eq_ok] at h
      obtain ⟨capture, D₁, hcapture, others, D₂, hothers, h⟩ := h
      obtain ⟨-, rfl⟩ := ok_inj h
      have hnames := (capture_names hcapture).trans (ih hothers)
      rw [List.filterMap_cons]
      cases source with
      | node name => exact hnames
      | function name => exact hnames

theorem rule_names {source : RuleSource} {path : String} {id : RuleId}
    (h : s.rule resolving source path D = .ok (id, D')) :
    s.Names resolving source.mentions D D' := by
  rw [Sources.rule, bind_eq_ok] at h
  obtain ⟨node, D₁, hnode, h⟩ := h
  simp only [bind_eq_ok] at h
  obtain ⟨matcher, D₂, hmatcher, h⟩ := h
  obtain ⟨-, rfl⟩ := lift_eq_ok.mp hmatcher
  split at h
  · cases h
  · simp only [bind_eq_ok] at h
    obtain ⟨captures, D₃, hcaptures, lookbehind, D₄, hbehind, lookahead, D₅, hahead, setters, D₆,
      hsetters, h⟩ := h
    obtain ⟨-, rfl⟩ := lift_eq_ok.mp hbehind
    obtain ⟨-, rfl⟩ := lift_eq_ok.mp hahead
    obtain ⟨-, rfl⟩ := lift_eq_ok.mp hsetters
    obtain ⟨-, rfl⟩ := ok_inj h
    exact ((declare?_names hnode).trans (captures_names hcaptures)).congr rfl rfl

/-- Following an include declares what the entries it compiles name. -/
def NamesIncludes (s : Sources) (resolving : List String)
    (visit : String → String → Build (List Alternative)) : Prop :=
  ∀ {name path : String} {D D' : Draft} {alternatives : List Alternative},
    visit name path D = .ok (alternatives, D') → s.Names resolving [] D D'

mutual

theorem item_names {visit : String → String → Build (List Alternative)}
    (hvisit : s.NamesIncludes resolving visit) :
    (x : Item) → (path : String) → {D D' : Draft} → {alternatives : List Alternative} →
      s.item visit resolving x path D = .ok (alternatives, D') →
      s.Names resolving x.mentions D D'
  | .reference name, path, D, D', alternatives, h => by
    rw [Sources.item] at h
    rw [Item.mentions]
    exact hvisit h
  | .rule source, path, D, D', alternatives, h => by
    rw [Sources.item, bind_eq_ok] at h
    obtain ⟨id, D₁, hrule, h⟩ := h
    obtain ⟨-, rfl⟩ := ok_inj h
    rw [Item.mentions]
    exact rule_names hrule
  | .region nodeName opening closings body embedded, path, D, D', alternatives, h => by
    rw [Sources.item, bind_eq_ok] at h
    obtain ⟨node, D₁, hnode, h⟩ := h
    simp only [bind_eq_ok] at h
    obtain ⟨id, D₂, hid, openings, D₃, hopenings, first, D₄, hfirst, closers, D₅, hclosers, last,
      D₆, hlast, _, D₇, hchange, _, D₈, hpostpone, h⟩ := h
    obtain ⟨-, rfl⟩ := ok_inj hid
    obtain ⟨-, rfl⟩ := openingRule_ok hfirst
    obtain ⟨-, rfl⟩ := closingRules_ok hlast
    obtain ⟨-, rfl⟩ := ok_inj hchange
    obtain ⟨-, rfl⟩ := ok_inj hpostpone
    obtain ⟨-, rfl⟩ := ok_inj h
    have hentered : s.Names resolving nodeName.toList D
        { D₁ with scopes := D₁.scopes.push ⟨path, node, none, [], [], embedded⟩ } :=
      (declare?_names hnode).congr rfl rfl
    have hopening := item_names hvisit opening (path ++ ".begin") hopenings
    have hclosing := items_names hvisit closings (path ++ ".end") 0 hclosers
    rw [Item.mentions]
    exact (hentered.trans (hopening.trans hclosing)).congr rfl rfl

theorem items_names {visit : String → String → Build (List Alternative)}
    (hvisit : s.NamesIncludes resolving visit) :
    (xs : List Item) → (path : String) → (index : Nat) → {D D' : Draft} →
      {alternatives : List Alternative} →
      s.items visit resolving path index xs D = .ok (alternatives, D') →
      s.Names resolving (mentionsAll xs) D D'
  | [], path, index, D, D', alternatives, h => by
    rw [Sources.items] at h
    obtain ⟨-, rfl⟩ := ok_inj h
    rw [mentionsAll]
    exact .refl ..
  | x :: rest, path, index, D, D', alternatives, h => by
    rw [Sources.items] at h
    simp only [bind_eq_ok] at h
    obtain ⟨first, D₁, hfirst, others, D₂, hothers, h⟩ := h
    obtain ⟨-, rfl⟩ := ok_inj h
    rw [mentionsAll]
    exact (item_names hvisit x (indexed path index) hfirst).trans
      (items_names hvisit rest path (index + 1) hothers)

end

theorem entryItems_names {visit : String → String → Build (List Alternative)}
    (hvisit : s.NamesIncludes resolving visit) {name : String} {entry : Entry}
    {alternatives : List Alternative}
    (h : s.entryItems visit resolving name entry D = .ok (alternatives, D')) :
    s.Names resolving (mentionsAll entry.items) D D' := by
  cases entry with
  | item x =>
    rw [Entry.items, mentionsAll, mentionsAll, List.append_nil]
    exact item_names hvisit x _ h
  | list xs => exact items_names hvisit xs _ 0 h

theorem visitStep_names {visit : List String → String → String → Build (List Alternative)}
    (hvisit : ∀ resolving, s.NamesIncludes resolving (visit resolving)) :
    s.NamesIncludes resolving (s.visitStep visit resolving) := by
  intro name path D D' alternatives h
  rw [visitStep] at h
  split at h
  · obtain ⟨-, rfl⟩ := ok_inj h
    exact .refl ..
  · split at h
    · cases h
    · split at h
      · cases h
      · next entry hentry =>
        obtain ⟨inner, D₁, hinner, h⟩ := bind_eq_ok.mp h
        have hnames := entryItems_names (hvisit _) hinner
        have hmentions : s.definition.mentions name = mentionsAll entry.items := by
          rw [Definition.mentions, hentry]
        rw [← hmentions] at hnames
        rw [keepEntry] at h
        split at h
        · cases h
        · obtain ⟨-, rfl⟩ := ok_inj h
          exact hnames.keep inner

theorem visitEntry_names (fuel : Nat) :
    s.NamesIncludes resolving (s.visitEntry fuel resolving) := by
  induction fuel generalizing resolving with
  | zero =>
    intro _ _ _ _ _ h
    cases h
  | succ fuel ih =>
    rw [visitEntry_succ]
    exact visitStep_names fun _ => ih

theorem topItems_names {path : String} {items : List Item} {alternatives : List Alternative}
    (h : s.topItems path items D = .ok (alternatives, D')) :
    s.Names [] (mentionsAll items) D D' :=
  items_names (visitEntry_names _) items path 0 h

theorem nodeProperties_names {nodes : List (String × NodeSource)}
    (h : nodeProperties nodes D = .ok ((), D')) : s.Names [] (nodes.map Prod.fst) D D' := by
  induction nodes generalizing D with
  | nil =>
    obtain ⟨-, rfl⟩ := ok_inj h
    exact .refl ..
  | cons first rest ih =>
    obtain ⟨name, node⟩ := first
    rw [nodeProperties] at h
    have hdeclare : s.Names [] [name] D _ := .declare D name .full none
    cases htag : node.autocomplete with
    | none =>
      rw [htag] at h
      exact hdeclare.trans (ih h)
    | some tag =>
      rw [htag] at h
      let declared := D.nodes.declare ⟨name, none, .full, none, none⟩
      have htagged : s.Names [] [name] D
          { D with nodes := declared.2.setAutocomplete declared.1 tag } :=
        hdeclare.congr (NodeTable.origins_setAutocomplete ..) rfl
      exact htagged.trans (ih h)

/-- Compiling a definition adds to the names declared in advance. -/
theorem whole_origins {declared : List String} {global : List Alternative} {fallback : NodeId}
    (h : s.whole (.initial declared) = .ok ((global, fallback), D')) :
    (Draft.initial declared).nodes.origins <+: D'.nodes.origins := by
  obtain ⟨root, D₁, D₂, D₃, node, D₄, hroot, hglobal, hbodies, hnode, hnodes⟩ := whole_steps h
  have hround : ∀ {D D₁ : Draft} {b : Body} {rest : List Body} {alternatives : List Alternative},
      D₂.nodes.origins <+: D.nodes.origins → D.pending = b :: rest →
      s.topItems b.path b.items (D.take rest) = .ok (alternatives, D₁) →
      D₂.nodes.origins <+: (D₁.fill b.scope alternatives).nodes.origins :=
    fun hD _ htop => hD.trans (topItems_names htop).origins_grow
  have howed := owed_le_regionCount hroot hglobal
  obtain ⟨hrounds, -⟩ := bodies_invariant hround (Nat.lt_succ_of_le howed) List.prefix_rfl hbodies
  have htops := (topItems_names hroot).origins_grow.trans (topItems_names hglobal).origins_grow
  have hends := (declare?_names (s := s) hnode).origins_grow.trans
    (nodeProperties_names (s := s) hnodes).origins_grow
  exact htops.trans (hrounds.trans hends)

end Sources

end RegionTree
