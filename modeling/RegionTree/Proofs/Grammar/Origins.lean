import RegionTree.Proofs.Grammar.Promises
set_option autoImplicit false

/-!
# The entry of a node

Every node of a grammar keeps the entry that was being compiled when it was first declared.  The
bodies of regions are compiled when no entry is any more, so `Grammar.source_of_name` gives a node
that only one entry names this entry if it is named there outside the bodies of regions, and none if
it is named in these only; `Grammar.not_source_of_name` has a node of the latter kind.

`Sources.Homes` is what the rounds keep for one name: where it has been declared, it has the entry
it is to have in the grammar.  A body that names a node of its entry comes too late to declare it,
since the entry has been compiled.
-/

namespace RegionTree

open Build

/-! ## The entry of a node in a table -/

namespace NodeTable

variable {t : NodeTable} {name : String} {home : Option String}

/-- The entry in which the node with a name was first declared, if there is such a node. -/
def source? (t : NodeTable) (name : String) : Option (Option String) :=
  ((t.id? name).bind t.get?).map Node.source

/-- A node that is there was first declared in a given entry, or outside all of them. -/
def Homed (t : NodeTable) (name : String) (home : Option String) : Prop :=
  ∀ source, t.origins.lookup name = some source → source = home

theorem lookup_origins_eq_none (h : name ∉ t.names) : t.origins.lookup name = none := by
  rwa [lookup_eq_none_iff_not_mem, map_fst_origins]

theorem Homed.source?_eq (h : t.Homed name home) (hmem : name ∈ t.names) :
    t.source? name = some home := by
  cases hlookup : t.origins.lookup name with
  | none =>
    rw [lookup_eq_none_iff_not_mem, map_fst_origins] at hlookup
    exact absurd hmem hlookup
  | some source =>
    obtain ⟨id, node, hid, hget, hsource⟩ := exists_node_of_lookup hlookup
    rw [source?, hid, Option.bind_some, hget, Option.map_some, hsource, h source hlookup]

theorem not_mem_names_foldl_declare {declared : List String} (ht : name ∉ t.names)
    (hname : name ∉ declared) :
    name ∉ (declared.foldl (fun t name => (t.declare (plainNode name .full)).2) t).names := by
  induction declared generalizing t with
  | nil => exact ht
  | cons first rest ih =>
    obtain ⟨hfirst, hrest⟩ := not_or.mp (List.mem_cons.not.mp hname)
    refine ih ?_ hrest
    rw [names_declare]
    split
    · exact ht
    · exact fun hmem => (List.mem_append.mp hmem).elim ht fun heq =>
        hfirst (List.mem_singleton.mp heq)

end NodeTable

/-! ## The entry that names a node -/

theorem Entry.flatMap_mentions_placed (name : String) (entry : Entry) :
    (entry.placed name).flatMap (fun p => p.item.mentions) = mentionsAll entry.items := by
  cases entry with
  | item x => simp [placed, items, mentionsAll]
  | list xs => exact flatMap_mentions_placeFrom ..

theorem namedIn_flatMap_sites {name : String} {items : List Placed}
    (h : name ∈ items.flatMap fun p => p.item.mentions) :
    NamedIn name (items.flatMap Placed.sites) := by
  obtain ⟨p, hp, hname⟩ := List.mem_flatMap.mp h
  exact (p.item.namedIn_sites p.path hname).mono fun _ hsite => List.mem_flatMap.mpr ⟨p, hp, hsite⟩

theorem mem_mentions_of_namedIn_flatMap {name : String} {items : List Placed}
    (h : NamedIn name (items.flatMap Placed.sites)) :
    (name ∈ items.flatMap fun p => p.item.mentions) ∨
      ∃ r : RegionSite, r.placed ∈ items.flatMap Placed.sites ∧ name ∈ mentionsAll r.body := by
  obtain ⟨site, hsite, hname⟩ := h
  obtain ⟨p, hp, hsite⟩ := List.mem_flatMap.mp hsite
  rcases p.item.mem_mentions_of_namedIn p.path ⟨site, hsite, hname⟩ with h | ⟨r, hr, h⟩
  · exact .inl (List.mem_flatMap.mpr ⟨p, hp, h⟩)
  · exact .inr ⟨r, List.mem_flatMap.mpr ⟨p, hp, hr⟩, h⟩

namespace Definition

variable {d : Definition} {name entry : String}

theorem namedIn_entrySites (h : name ∈ d.mentions entry) : NamedIn name (d.entrySites entry) := by
  rw [mentions] at h
  rw [entrySites]
  cases hfound : d.entry? entry with
  | none =>
    rw [hfound] at h
    cases h
  | some found =>
    rw [hfound] at h
    dsimp only at h ⊢
    rw [← found.flatMap_mentions_placed entry] at h
    exact namedIn_flatMap_sites h

theorem mem_mentions_of_namedIn_entrySites (h : NamedIn name (d.entrySites entry)) :
    name ∈ d.mentions entry ∨
      ∃ r : RegionSite, r.placed ∈ d.entrySites entry ∧ name ∈ mentionsAll r.body := by
  rw [entrySites] at h
  rw [mentions, entrySites]
  cases hfound : d.entry? entry with
  | none =>
    rw [hfound] at h
    obtain ⟨p, hp, -⟩ := h
    cases hp
  | some found =>
    rw [hfound] at h
    dsimp only at h ⊢
    rw [← found.flatMap_mentions_placed entry]
    exact mem_mentions_of_namedIn_flatMap h

instance (name : String) (sites : List Placed) : Decidable (NamedIn name sites) :=
  inferInstanceAs (Decidable (∃ p ∈ sites, name ∈ p.named))

/-- A node is named outside the repository. -/
def NamedOutside (d : Definition) (name : String) : Prop :=
  NamedIn name d.topSites ∨ d.fallback = some name ∨ name ∈ d.nodes.map Prod.fst

/-- Among the root, the global list and the entries that these lead to, only one entry names a
node. -/
structure NamedOnlyIn (d : Definition) (name entry : String) : Prop where
  reachable : d.Reachable entry
  named : NamedIn name (d.entrySites entry)
  tops : ¬ NamedIn name d.topSites
  others : ∀ other, d.Reachable other → NamedIn name (d.entrySites other) → other = entry

/-- The one entry in which a node can be declared first, or that it cannot be declared in any. -/
structure HasHome (d : Definition) (name : String) (home : Option String) : Prop where
  tops : NamedIn name d.topSites → home = none
  entries : ∀ entry, d.Reachable entry → NamedIn name (d.entrySites entry) →
    home = if name ∈ d.mentions entry then some entry else none
  mentioned : ∀ entry, home = some entry → d.Reachable entry ∧ name ∈ d.mentions entry

theorem NamedOnlyIn.hasHome (h : d.NamedOnlyIn name entry) :
    d.HasHome name (if name ∈ d.mentions entry then some entry else none) where
  tops htop := absurd htop h.tops
  entries other hreachable hnamed := by rw [h.others other hreachable hnamed]
  mentioned other hother := by
    split at hother
    · next hmem =>
      obtain rfl := Option.some.inj hother
      exact ⟨h.reachable, hmem⟩
    · cases hother

theorem hasHome_none (h : ∀ entry, d.Reachable entry → ¬ NamedIn name (d.entrySites entry)) :
    d.HasHome name none where
  tops _ := rfl
  entries entry hreachable hnamed := absurd hnamed (h entry hreachable)
  mentioned _ hother := by cases hother

end Definition

/-! ## Rounds -/

theorem exists_waiting_mem_bodiesFrom {r : RegionSite} {regions : List RegionSite}
    (h : r ∈ regions) (start : ScopeId) : ∃ id, r.waiting id ∈ bodiesFrom start regions := by
  induction regions generalizing start with
  | nil => cases h
  | cons first rest ih =>
    rcases List.mem_cons.mp h with rfl | h
    · exact ⟨start, List.mem_cons_self⟩
    · obtain ⟨id, hid⟩ := ih h (start + 1)
      exact ⟨id, List.mem_cons_of_mem _ hid⟩

namespace Sources

variable {s : Sources} {name : String} {home : Option String} {mentioned : List String}
  {D D₁ D' : Draft} {made : List Placed} {names : List String} {taken : List Body}

/-- A step that compiles no body of the home of a name before the home leaves the name there. -/
theorem Names.homed (h : s.Names [] mentioned D D') (hhome : s.definition.HasHome name home)
    (hmentioned : name ∈ mentioned → home = none ∨ name ∈ D.nodes.names)
    (hreachable : ∀ entry ∈ D'.keys, s.definition.Reachable entry) (hD : D.nodes.Homed name home) :
    D'.nodes.Homed name home := by
  intro source hsource
  obtain ⟨added, hadded, hall⟩ := h.origins
  rw [hadded, List.lookup_append] at hsource
  cases hold : D.nodes.origins.lookup name with
  | some old =>
    rw [hold, Option.some_or] at hsource
    exact hD source (hold.trans hsource)
  | none =>
    rw [hold, Option.none_or] at hsource
    have hfresh : name ∉ D.nodes.names := by
      rwa [lookup_eq_none_iff_not_mem, NodeTable.map_fst_origins] at hold
    obtain ⟨before, after, happended, -⟩ := List.lookup_eq_some_iff.mp hsource
    have hoadded : (name, source) ∈ added := by simp [happended]
    rcases hall _ hoadded with ⟨hmem, htop⟩ | ⟨entry, hentry, rfl, hmem⟩
    · rw [(hmentioned hmem).resolve_right hfresh]
      exact htop
    · rw [hhome.entries entry (hreachable entry hentry) (Definition.namedIn_entrySites hmem),
        if_pos hmem]

/-- What the rounds keep: the accounts, that all that was met outside the bodies put aside has been
declared, and where the node with a given name was declared first. -/
structure Homes (s : Sources) (name : String) (home : Option String) (made : List Placed)
    (names : List String) (taken : List Body) (D : Draft) : Prop where
  accounts :
    Accounts s.definition (s.definition.tops ++ taken.flatMap Body.placed) made names taken D
  given : ∀ p ∈ s.definition.tops ++ taken.flatMap Body.placed, p.item.mentions ⊆ D.nodes.names
  entries : ∀ entry ∈ names, s.definition.mentions entry ⊆ D.nodes.names
  homed : D.nodes.Homed name home

namespace Homes

/-- A body put aside that names a node comes too late to declare it, or the node belongs to no
entry. -/
theorem late (h : s.Homes name home made names taken D) (hhome : s.definition.HasHome name home)
    {b : Body} (hb : b ∈ D.pending) (hname : name ∈ mentionsAll b.items) :
    home = none ∨ name ∈ D.nodes.names := by
  rw [← flatMap_mentions_placeFrom b.path 0] at hname
  obtain ⟨p, hp, hnamed⟩ : NamedIn name b.sites := namedIn_flatMap_sites hname
  have hsite : p ∈ made ++ D.pending.flatMap Body.sites :=
    List.mem_append_right _ (List.mem_flatMap.mpr ⟨b, hb, hp⟩)
  rcases List.mem_append.mp (h.accounts.sites_perm.subset hsite) with htop | hentry
  · exact .inl (hhome.tops ⟨p, htop, hnamed⟩)
  · obtain ⟨entry, hentry, hp⟩ := List.mem_flatMap.mp hentry
    have heq := hhome.entries entry (h.accounts.reachable entry hentry) ⟨p, hp, hnamed⟩
    by_cases hmem : name ∈ s.definition.mentions entry
    · exact .inr (h.entries entry hentry hmem)
    · exact .inl (heq.trans (if_neg hmem))

theorem round (h : s.Homes name home made names taken D) (hhome : s.definition.HasHome name home)
    {b : Body} {rest : List Body} {alternatives : List Alternative}
    (hpending : D.pending = b :: rest)
    (htop : s.topItems b.path b.items (D.take rest) = .ok (alternatives, D₁)) :
    ∃ made names taken, s.Homes name home made names taken (D₁.fill b.scope alternatives) := by
  obtain ⟨made', names', hrun⟩ := topItems_run htop
  have haccounts := h.accounts.round hpending hrun
  have hnames := topItems_names htop
  have hgrow : D.nodes.names ⊆ D₁.nodes.names := hnames.names_subset
  have hkeys : D₁.keys = names' ++ names := haccounts.keys
  refine ⟨_, _, _, haccounts, ?_, ?_, ?_⟩
  · intro p hp
    rw [List.flatMap_append, ← List.append_assoc, List.flatMap_singleton] at hp
    rcases List.mem_append.mp hp with hold | hnew
    · exact List.Subset.trans (h.given p hold) hgrow
    · intro mention hmention
      refine hnames.mentioned ?_
      rw [← flatMap_mentions_placeFrom b.path 0]
      exact List.mem_flatMap.mpr ⟨p, hnew, hmention⟩
  · intro entry hentry
    rcases hnames.entries entry (hkeys ▸ hentry) with hold | hnew
    · exact List.Subset.trans (h.entries entry (h.accounts.keys ▸ hold)) hgrow
    · exact hnew
  · exact hnames.homed hhome (h.late hhome (by simp [hpending]))
      (fun entry hentry => haccounts.reachable entry (hkeys ▸ hentry)) h.homed

/-- When no body is left, all that the root, the global list and the reachable entries name has been
declared. -/
theorem declared (h : s.Homes name home made names taken D) (hpending : D.pending = [])
    {other : String}
    (hother : NamedIn other s.definition.topSites ∨
      ∃ entry, s.definition.Reachable entry ∧ NamedIn other (s.definition.entrySites entry)) :
    other ∈ D.nodes.names := by
  have hmade := h.accounts.made_perm hpending
  have hbody : ∀ r : RegionSite, r.placed ∈ made → mentionsAll r.body ⊆ D.nodes.names := by
    intro r hr
    have hregion : r ∈ made.filterMap Placed.region? :=
      List.mem_filterMap.mpr ⟨r.placed, hr, r.region?_placed⟩
    obtain ⟨id, hid⟩ := exists_waiting_mem_bodiesFrom hregion 1
    have htaken : r.waiting id ∈ taken := by
      have hqueue := h.accounts.queue.symm.subset hid
      rwa [hpending, List.append_nil] at hqueue
    intro mention hmention
    rw [← flatMap_mentions_placeFrom (r.path ++ ".patterns") 0] at hmention
    obtain ⟨p, hp, hmention⟩ := List.mem_flatMap.mp hmention
    have hgiven : p ∈ taken.flatMap Body.placed := List.mem_flatMap.mpr ⟨_, htaken, hp⟩
    exact h.given p (List.mem_append_right _ hgiven) hmention
  rcases hother with htop | ⟨entry, hreachable, hentry⟩
  · rcases mem_mentions_of_namedIn_flatMap htop with hmem | ⟨r, hr, hmem⟩
    · obtain ⟨p, hp, hmem⟩ := List.mem_flatMap.mp hmem
      exact h.given p (List.mem_append_left _ hp) hmem
    · exact hbody r (hmade.symm.subset (List.mem_append_left _ hr)) hmem
  · have hcompiled := (h.accounts.mem_names_iff hpending entry).mpr hreachable
    rcases Definition.mem_mentions_of_namedIn_entrySites hentry with hmem | ⟨r, hr, hmem⟩
    · exact h.entries entry hcompiled hmem
    · have hsite := List.mem_flatMap.mpr ⟨entry, hcompiled, hr⟩
      exact hbody r (hmade.symm.subset (List.mem_append_right _ hsite)) hmem

end Homes

/-- What holds when the root and the global list have been compiled. -/
theorem homes_tops {declared : List String} {root global : List Alternative} {D₂ : Draft}
    (hhome : s.definition.HasHome name home) (hfresh : name ∉ (Draft.initial declared).nodes.names)
    (hroot : s.topItems "root" s.definition.root (.initial declared) = .ok (root, D₁))
    (hglobal : s.topItems "global" s.definition.global (D₁.fill rootScope root) =
      .ok (global, D₂)) : ∃ made names, s.Homes name home made names [] D₂ := by
  obtain ⟨made₁, names₁, hrun₁⟩ := topItems_run hroot
  obtain ⟨made₂, names₂, hrun₂⟩ := topItems_run hglobal
  have haccounts := accounts_tops hrun₁ hrun₂
  have hfilled : s.Names [] (mentionsAll s.definition.root) (.initial declared)
      (D₁.fill rootScope root) := (topItems_names hroot).congr rfl rfl
  have hnames := hfilled.trans (topItems_names hglobal)
  have hmentions : s.definition.tops.flatMap (fun p => p.item.mentions) =
      mentionsAll s.definition.root ++ mentionsAll s.definition.global := by
    rw [Definition.tops, List.flatMap_append, flatMap_mentions_placeFrom,
      flatMap_mentions_placeFrom]
  have htops : Accounts s.definition (s.definition.tops ++ [].flatMap Body.placed) (made₁ ++ made₂)
      (names₂ ++ names₁) [] D₂ := by
    rwa [List.flatMap_nil, List.append_nil]
  refine ⟨_, _, htops, ?_, ?_, ?_⟩
  · intro p hp
    rw [List.flatMap_nil, List.append_nil] at hp
    intro mention hmention
    refine hnames.mentioned ?_
    rw [← hmentions]
    exact List.mem_flatMap.mpr ⟨p, hp, hmention⟩
  · intro entry hentry
    rcases hnames.entries entry (haccounts.keys ▸ hentry) with hold | hnew
    · cases hold
    · exact hnew
  · refine hnames.homed hhome (fun hmem => .inl (hhome.tops ?_))
      (fun entry hentry => haccounts.reachable entry (haccounts.keys ▸ hentry)) ?_
    · rw [← hmentions] at hmem
      exact namedIn_flatMap_sites hmem
    · intro source hsource
      rw [NodeTable.lookup_origins_eq_none hfresh] at hsource
      cases hsource

/-- A definition that compiles declares all that it names, each in the entry it belongs to. -/
theorem whole_homed {declared : List String} {global : List Alternative} {fallback : NodeId}
    (hhome : s.definition.HasHome name home) (hfresh : name ∉ (Draft.initial declared).nodes.names)
    (h : s.whole (.initial declared) = .ok ((global, fallback), D')) :
    D'.nodes.Homed name home ∧
      ((s.definition.NamedOutside name ∨
        ∃ entry, s.definition.Reachable entry ∧ NamedIn name (s.definition.entrySites entry)) →
          name ∈ D'.nodes.names) := by
  obtain ⟨root, D₁, D₂, D₃, node, D₄, hroot, hglobal, hbodies, hnode, hnodes⟩ := whole_steps h
  obtain ⟨made, names, hstart⟩ := homes_tops hhome hfresh hroot hglobal
  have howed := owed_le_regionCount hroot hglobal
  obtain ⟨⟨made', names', taken, hend⟩, hpending⟩ :=
    bodies_invariant (P := fun D => ∃ made names taken, s.Homes name home made names taken D)
      (fun ⟨_, _, _, hP⟩ hpending htop => hP.round hhome hpending htop)
      (Nat.lt_succ_of_le howed) ⟨made, names, [], hstart⟩ hbodies
  have hlast := (declare?_names (s := s) hnode).trans (nodeProperties_names (s := s) hnodes)
  have hkeys : D'.keys = names' := by
    obtain ⟨_, _, hnode', -⟩ := declare?_spec [] s.definition.fallback .full none D₃
    obtain ⟨_, hnodes'⟩ := nodeProperties_spec s.definition.nodes D₄
    obtain ⟨-, rfl⟩ := ok_inj (hnode.symm.trans hnode')
    obtain ⟨-, rfl⟩ := ok_inj (hnodes.symm.trans hnodes')
    exact hend.accounts.keys
  constructor
  · refine hlast.homed hhome (fun _ => ?_)
      (fun entry hentry => hend.accounts.reachable entry (hkeys ▸ hentry)) hend.homed
    cases hentry : home with
    | none => exact .inl rfl
    | some entry =>
      obtain ⟨hreachable, hmem⟩ := hhome.mentioned entry hentry
      have hcompiled := (hend.accounts.mem_names_iff hpending entry).mpr hreachable
      exact .inr (hend.entries entry hcompiled hmem)
  · rintro ((htop | hfallback | hlisted) | hentry)
    · exact hlast.names_subset (hend.declared hpending (.inl htop))
    · exact hlast.mentioned (List.mem_append_left _ (by simp [hfallback]))
    · exact hlast.mentioned (List.mem_append_right _ hlisted)
    · exact hlast.names_subset (hend.declared hpending (.inr hentry))

end Sources

theorem Grammar.source?_of_hasHome {d : Definition} {h : Host} {g : Grammar} {name : String}
    {home : Option String} (hbuild : Grammar.build d h = .ok g) (hhome : d.HasHome name home)
    (hname : name ∉ h.declared) (hfree : ¬ ReservedName name)
    (hnamed : d.NamedOutside name ∨
      ∃ entry, d.Reachable entry ∧ NamedIn name (d.entrySites entry)) :
    g.nodes.source? name = some home := by
  obtain ⟨⟨⟨global, fallback⟩, D⟩, hwhole, rfl⟩ := build_ok hbuild
  have hfresh : name ∉ (Draft.initial h.declared).nodes.names :=
    NodeTable.not_mem_names_foldl_declare (reservedName_iff.not.mp hfree) hname
  obtain ⟨hhomed, hdeclared⟩ := Sources.whole_homed (s := h.sources d) hhome hfresh hwhole
  exact hhomed.source?_eq (hdeclared hnamed)

/-- A node that is neither declared in advance nor in every grammar, and that only one reachable
entry names, is first declared in this entry if it is named there outside the bodies of regions, and
else in none.  One that is named outside the repository only is first declared in no entry. -/
theorem Grammar.source_of_name {d : Definition} {h : Host} {g : Grammar} {name : String}
    (hbuild : Grammar.build d h = .ok g) (hname : name ∉ h.declared)
    (hfree : ¬ ReservedName name) :
    (∀ entry, d.NamedOnlyIn name entry →
      g.nodes.source? name = some (if name ∈ d.mentions entry then some entry else none)) ∧
    (d.NamedOutside name → (∀ entry, d.Reachable entry → ¬ NamedIn name (d.entrySites entry)) →
      g.nodes.source? name = some none) := by
  constructor
  · intro entry honly
    exact source?_of_hasHome hbuild honly.hasHome hname hfree
      (.inr ⟨entry, honly.reachable, honly.named⟩)
  · intro houtside hentries
    exact source?_of_hasHome hbuild (Definition.hasHome_none hentries) hname hfree (.inl houtside)

/-- Groups in parentheses that hold words, and marks. -/
def Definition.wordGroups : Definition where
  name := "words"
  ignoreCase := false
  constants := []
  context := []
  fallback := none
  root := [.reference "group", .rule { RuleSource.ofText "!" with node := some "Mark" }]
  global := []
  repository := [("group", .item (.region (some "Group") (.rule (.ofText "(")) [.rule (.ofText ")")]
    [.rule { RuleSource.ofText "word" with node := some "Word" }] none))]
  nodes := []

namespace Definition

theorem reachable_wordGroups : wordGroups.Reachable "group" :=
  have hsite : ⟨"root[0]", .reference "group"⟩ ∈ wordGroups.topSites := by decide +kernel
  .top hsite

theorem eq_of_namedIn_wordGroups {name other : String}
    (h : NamedIn name (wordGroups.entrySites other)) : other = "group" := by
  by_contra hother
  have hnone : wordGroups.entry? other = none :=
    lookup_eq_none_iff_not_mem.mpr (by simpa [wordGroups] using hother)
  rw [entrySites, hnone] at h
  obtain ⟨p, hp, -⟩ := h
  cases hp

theorem namedOnlyIn_wordGroups {name : String}
    (hnamed : NamedIn name (wordGroups.entrySites "group"))
    (htops : ¬ NamedIn name wordGroups.topSites) : wordGroups.NamedOnlyIn name "group" :=
  ⟨reachable_wordGroups, hnamed, htops, fun _ _ => eq_of_namedIn_wordGroups⟩

end Definition

theorem Grammar.source_of_name_wordGroups :
    ∃ g, Grammar.build .wordGroups {} = .ok g ∧ g.nodes.source? "Group" = some (some "group") ∧
      g.nodes.source? "Word" = some none ∧ g.nodes.source? "Mark" = some none := by
  have hok : (Grammar.build .wordGroups {}).toOption.isSome = true := by decide +kernel
  cases hbuild : Grammar.build .wordGroups {} with
  | error e =>
    rw [hbuild] at hok
    cases hok
  | ok g =>
    have hname : ∀ name : String, name ∉ ({} : Host).declared := fun _ => List.not_mem_nil
    have hgroup := (source_of_name hbuild (hname "Group") (by decide)).1 "group"
      (Definition.namedOnlyIn_wordGroups (by decide +kernel) (by decide +kernel))
    have hword := (source_of_name hbuild (hname "Word") (by decide)).1 "group"
      (Definition.namedOnlyIn_wordGroups (by decide +kernel) (by decide +kernel))
    have hmark := (source_of_name hbuild (hname "Mark") (by decide)).2
      (.inl (by decide +kernel)) fun entry _ hnamed => by
        obtain rfl := Definition.eq_of_namedIn_wordGroups hnamed
        exact absurd hnamed (by decide +kernel)
    have hmentioned : "Group" ∈ Definition.wordGroups.mentions "group" := by decide +kernel
    have hbody : "Word" ∉ Definition.wordGroups.mentions "group" := by decide +kernel
    rw [if_pos hmentioned] at hgroup
    rw [if_neg hbody] at hword
    exact ⟨g, rfl, hgroup, hword, hmark⟩

/-- A node that one entry alone names need not have this entry: the word is named in the body of a
region of the entry, which is compiled after it. -/
theorem Grammar.not_source_of_name :
    ¬ ∀ (d : Definition) (h : Host) (g : Grammar) (name entry : String),
      Grammar.build d h = .ok g → name ∉ h.declared → ¬ ReservedName name →
      d.Reachable entry → (∀ other, NamedIn name (d.entrySites other) ↔ other = entry) →
      ¬ d.NamedOutside name → g.nodes.source? name = some (some entry) := by
  intro hsource
  have hnone : (Grammar.build .wordGroups {}).toOption.map
      (fun g => g.nodes.source? "Word") = some (some none) := by decide +kernel
  cases hbuild : Grammar.build .wordGroups {} with
  | error e =>
    rw [hbuild] at hnone
    cases hnone
  | ok g =>
    rw [hbuild] at hnone
    have honly : ∀ other,
        NamedIn "Word" (Definition.wordGroups.entrySites other) ↔ other = "group" := by
      refine fun other => ⟨Definition.eq_of_namedIn_wordGroups, ?_⟩
      rintro rfl
      decide +kernel
    have houtside : ¬ Definition.wordGroups.NamedOutside "Word" := by
      rintro (htop | hfallback | hlisted)
      · exact absurd htop (by decide +kernel)
      · cases hfallback
      · cases hlisted
    have hgroup := hsource _ _ g "Word" "group" hbuild List.not_mem_nil (by decide)
      Definition.reachable_wordGroups honly houtside
    cases hgroup.symm.trans (Option.some.inj hnone)

end RegionTree
