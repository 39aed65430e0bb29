import RegionTree.Grammar.Build
import Mathlib.Logic.Relation
set_option autoImplicit false

/-!
# Includes in a definition

What the includes of a definition stand for, apart from how a grammar is built.  An item is taken
together with the path it is compiled under: its own place, or the entry it stands in.

`Definition.Flat` is the naive expansion of a list of items, which follows includes wherever they
lead and remembers nothing; it relates every list to at most one expansion (`Definition.Flat.unique`)
and a list that runs into a cycle to none.  `Placed.sites` lists an item with all items inside it,
`Definition.Reachable` says which entries includes lead to, and `Definition.Includes` is an include
that has to be followed before its own entry is done, that is, outside the body of a region.
-/

namespace RegionTree

/-! ## Items and their paths -/

/-- An item and the path it is compiled under. -/
structure Placed where
  path : String
  item : Item
  deriving DecidableEq, Repr

/-- The items of a list, from the one with a given index on. -/
def placeFrom (path : String) (index : Nat) : List Item → List Placed
  | [] => []
  | x :: rest => ⟨indexed path index, x⟩ :: placeFrom path (index + 1) rest

/-- The items of an entry with a given name. -/
def Entry.placed (name : String) : Entry → List Placed
  | .item x => [⟨"repository." ++ name, x⟩]
  | .list xs => placeFrom ("repository." ++ name) 0 xs

/-- A region and its path. -/
structure RegionSite where
  path : String
  node : Option String
  opening : Item
  closings : List Item
  body : List Item
  embedded : Option String
  deriving DecidableEq, Repr

namespace RegionSite

/-- The region as an item. -/
def placed (r : RegionSite) : Placed :=
  ⟨r.path, .region r.node r.opening r.closings r.body r.embedded⟩

/-- The item that opens the region. -/
def placedOpening (r : RegionSite) : Placed := ⟨r.path ++ ".begin", r.opening⟩

/-- The items that close the region. -/
def placedClosings (r : RegionSite) : List Placed := placeFrom (r.path ++ ".end") 0 r.closings

/-- The body of the region, which waits to be compiled for the scope of a given number. -/
def waiting (r : RegionSite) (id : ScopeId) : Body := ⟨id, r.body, r.path ++ ".patterns"⟩

end RegionSite

/-- The items of a body. -/
def Body.placed (b : Body) : List Placed := placeFrom b.path 0 b.items

/-- The items inside a region. -/
def RegionSite.placedBody (r : RegionSite) : List Placed := (r.waiting rootScope).placed

namespace Placed

/-- The rule that an item is. -/
def rule? : Placed → Option (String × RuleSource)
  | ⟨path, .rule source⟩ => some (path, source)
  | _ => none

/-- The region that an item is. -/
def region? : Placed → Option RegionSite
  | ⟨path, .region node opening closings body embedded⟩ =>
    some ⟨path, node, opening, closings, body, embedded⟩
  | _ => none

end Placed

theorem RegionSite.region?_placed (r : RegionSite) : r.placed.region? = some r := rfl

theorem RegionSite.rule?_placed (r : RegionSite) : r.placed.rule? = none := rfl

/-! ## All items inside an item -/

mutual

/-- An item and all items inside it, the bodies of regions included. -/
def Item.sites (path : String) : Item → List Placed
  | .reference name => [⟨path, .reference name⟩]
  | .rule source => [⟨path, .rule source⟩]
  | .region node opening closings body embedded =>
    ⟨path, .region node opening closings body embedded⟩ ::
      (opening.sites (path ++ ".begin") ++ sitesFrom (path ++ ".end") 0 closings
        ++ sitesFrom (path ++ ".patterns") 0 body)

/-- The items of a list, from the one with a given index on, and all items inside them. -/
def sitesFrom (path : String) (index : Nat) : List Item → List Placed
  | [] => []
  | x :: rest => x.sites (indexed path index) ++ sitesFrom path (index + 1) rest

end

/-- An item and all items inside it. -/
def Placed.sites (p : Placed) : List Placed := p.item.sites p.path

theorem sitesFrom_eq_flatMap (path : String) (index : Nat) (items : List Item) :
    sitesFrom path index items = (placeFrom path index items).flatMap Placed.sites := by
  induction items generalizing index with
  | nil => rw [sitesFrom, placeFrom, List.flatMap_nil]
  | cons x rest ih => rw [sitesFrom, placeFrom, List.flatMap_cons, ih, Placed.sites]

/-- All items in the body of a region. -/
def RegionSite.bodySites (r : RegionSite) : List Placed := r.placedBody.flatMap Placed.sites

/-- All items in a body that waits to be compiled. -/
def Body.sites (b : Body) : List Placed := b.placed.flatMap Placed.sites

theorem RegionSite.sites_placed (r : RegionSite) :
    r.placed.sites = r.placed :: (r.placedOpening.sites ++ r.placedClosings.flatMap Placed.sites
      ++ r.bodySites) := by
  rw [Placed.sites, placed, Item.sites, sitesFrom_eq_flatMap, sitesFrom_eq_flatMap]
  rfl

mutual

/-- The entries that an item includes outside the bodies of regions. -/
def Item.includes : Item → List String
  | .reference name => [name]
  | .rule _ => []
  | .region _ opening closings _ _ => opening.includes ++ includesAll closings

/-- The entries that some items include outside the bodies of regions. -/
def includesAll : List Item → List String
  | [] => []
  | x :: rest => x.includes ++ includesAll rest

end

theorem flatMap_includes_placeFrom (path : String) (index : Nat) (items : List Item) :
    (placeFrom path index items).flatMap (fun p => p.item.includes) = includesAll items := by
  induction items generalizing index with
  | nil => rw [placeFrom, List.flatMap_nil, includesAll]
  | cons x rest ih => rw [placeFrom, List.flatMap_cons, ih, includesAll]

theorem Entry.flatMap_includes_placed (name : String) (entry : Entry) :
    (entry.placed name).flatMap (fun p => p.item.includes) = includesAll entry.items := by
  cases entry with
  | item x => simp [placed, items, includesAll]
  | list xs => exact flatMap_includes_placeFrom ..

mutual

/-- What an item includes outside the bodies of regions is included in it. -/
theorem Item.exists_site_of_mem_includes {name : String} :
    (x : Item) → (path : String) → name ∈ x.includes →
      ∃ at', (⟨at', .reference name⟩ : Placed) ∈ x.sites path
  | .reference _, path, h => by
    rw [Item.includes, List.mem_singleton] at h
    exact ⟨path, by rw [Item.sites, h, List.mem_singleton]⟩
  | .rule _, _, h => by simp [Item.includes] at h
  | .region _ opening closings _ _, path, h => by
    rw [Item.includes, List.mem_append] at h
    rcases h with h | h
    · obtain ⟨at', hat⟩ := opening.exists_site_of_mem_includes (path ++ ".begin") h
      exact ⟨at', by rw [Item.sites]; simp [hat]⟩
    · obtain ⟨at', hat⟩ := exists_site_of_mem_includesAll closings (path ++ ".end") 0 h
      exact ⟨at', by rw [Item.sites]; simp [hat]⟩

theorem exists_site_of_mem_includesAll {name : String} :
    (items : List Item) → (path : String) → (index : Nat) → name ∈ includesAll items →
      ∃ at', (⟨at', .reference name⟩ : Placed) ∈ sitesFrom path index items
  | [], _, _, h => by simp [includesAll] at h
  | x :: rest, path, index, h => by
    rw [includesAll, List.mem_append] at h
    rcases h with h | h
    · obtain ⟨at', hat⟩ := x.exists_site_of_mem_includes (indexed path index) h
      exact ⟨at', by rw [sitesFrom]; simp [hat]⟩
    · obtain ⟨at', hat⟩ := exists_site_of_mem_includesAll rest path (index + 1) h
      exact ⟨at', by rw [sitesFrom]; simp [hat]⟩

end

namespace Definition

variable (d : Definition)

/-- The items of the root and of the global list. -/
def tops : List Placed := placeFrom "root" 0 d.root ++ placeFrom "global" 0 d.global

/-- All items of the root and of the global list. -/
def topSites : List Placed := d.tops.flatMap Placed.sites

/-- All items of an entry. -/
def entrySites (name : String) : List Placed :=
  match d.entry? name with
  | none => []
  | some entry => (entry.placed name).flatMap Placed.sites

/-- The entries that are included somewhere in the root or in the global list, or in an entry
that is reachable. -/
inductive Reachable : String → Prop
  | top {path name : String} : ⟨path, .reference name⟩ ∈ d.topSites → Reachable name
  | entry {outer path name : String} : Reachable outer →
      ⟨path, .reference name⟩ ∈ d.entrySites outer → Reachable name

/-- Some items include only entries that are reachable. -/
def Leads (sites : List Placed) : Prop :=
  ∀ ⦃path name : String⦄, ⟨path, .reference name⟩ ∈ sites → d.Reachable name

/-- An entry includes another outside the bodies of regions. -/
def Includes (outer inner : String) : Prop :=
  ∃ entry, d.entry? outer = some entry ∧ inner ∈ includesAll entry.items

/-- Includes outside the bodies of regions go round in a cycle of reachable entries. -/
def Cyclic : Prop :=
  ∃ e, Relation.TransGen
    (fun outer inner => d.Reachable outer ∧ d.Reachable inner ∧ d.Includes outer inner) e e

/-- Entries listed behind those that they include. -/
inductive Settled : List String → Prop
  | nil : Settled []
  | cons {name : String} {older : List String} : (∀ other, d.Includes name other → other ∈ older) →
      Settled older → Settled (name :: older)

/-! ## Naive expansion -/

/-- The paths of the rules and regions that items stand for. -/
inductive Flat : List Placed → List String → Prop
  | nil : Flat [] []
  | rule {path : String} {source : RuleSource} {rest : List Placed} {paths : List String} :
      Flat rest paths → Flat (⟨path, .rule source⟩ :: rest) (path :: paths)
  | region {path : String} {node embedded : Option String} {opening : Item}
      {closings body : List Item} {rest : List Placed} {paths : List String} :
      Flat rest paths →
      Flat (⟨path, .region node opening closings body embedded⟩ :: rest) (path :: paths)
  | reference {path name : String} {entry : Entry} {rest : List Placed}
      {inner paths : List String} : d.entry? name = some entry → Flat (entry.placed name) inner →
      Flat rest paths → Flat (⟨path, .reference name⟩ :: rest) (inner ++ paths)

variable {d}

theorem Leads.mono {sites others : List Placed} (h : d.Leads sites) (hsub : others ⊆ sites) :
    d.Leads others :=
  fun _ _ hmem => h (hsub hmem)

/-- Items have at most one expansion. -/
theorem Flat.unique {items : List Placed} {paths others : List String} (h : d.Flat items paths)
    (h' : d.Flat items others) : paths = others := by
  induction h generalizing others with
  | nil => cases h'; rfl
  | rule _ ih =>
    cases h' with
    | rule hrest => rw [ih hrest]
  | region _ ih =>
    cases h' with
    | region hrest => rw [ih hrest]
  | reference hentry _ _ ihInner ih =>
    cases h' with
    | reference hentry' hinner hrest =>
      obtain rfl : _ = _ := Option.some.inj (hentry.symm.trans hentry')
      rw [ihInner hinner, ih hrest]

theorem Settled.mem_of_includes {names : List String} (h : d.Settled names) {outer inner : String}
    (houter : outer ∈ names) (hincludes : d.Includes outer inner) : inner ∈ names := by
  induction h with
  | nil => cases houter
  | cons hnewest _ ih =>
    rcases List.mem_cons.mp houter with rfl | houter
    · exact List.mem_cons_of_mem _ (hnewest inner hincludes)
    · exact List.mem_cons_of_mem _ (ih houter)

/-- Entries listed behind those that they include are on no cycle of includes. -/
theorem Settled.acyclic {names : List String} (h : d.Settled names) (hnodup : names.Nodup)
    {name : String} (hname : name ∈ names) : ¬ Relation.TransGen d.Includes name name := by
  induction h generalizing name with
  | nil => cases hname
  | @cons newest older hincludes holder ih =>
    obtain ⟨hnew, hnodup⟩ := List.nodup_cons.mp hnodup
    -- what the newest entry or an older one includes is older still
    have hstep : ∀ {a b : String}, a ∈ newest :: older → d.Includes a b → b ∈ older := by
      intro a b ha hab
      rcases List.mem_cons.mp ha with rfl | ha
      · exact hincludes b hab
      · exact holder.mem_of_includes ha hab
    intro hcycle
    have hlast : ∀ {b : String}, Relation.TransGen d.Includes name b → b ∈ older := by
      intro b hb
      induction hb with
      | single hab => exact hstep hname hab
      | tail _ hbc ihb => exact hstep (List.mem_cons_of_mem _ ihb) hbc
    exact ih hnodup (hlast hcycle) hcycle

theorem Reachable.of_includes {outer inner : String} (h : d.Reachable outer)
    (hincludes : d.Includes outer inner) : d.Reachable inner := by
  obtain ⟨entry, hentry, hinner⟩ := hincludes
  rw [← entry.flatMap_includes_placed outer, List.mem_flatMap] at hinner
  obtain ⟨p, hp, hinner⟩ := hinner
  obtain ⟨path, hpath⟩ := p.item.exists_site_of_mem_includes p.path hinner
  have hsite : ⟨path, .reference inner⟩ ∈ d.entrySites outer := by
    rw [entrySites, hentry]
    exact List.mem_flatMap.mpr ⟨p, hp, hpath⟩
  exact .entry h hsite

/-- What a reachable entry includes is reachable, so it is enough that one entry of a cycle is. -/
theorem cyclic_iff :
    d.Cyclic ↔ ∃ e, d.Reachable e ∧ Relation.TransGen d.Includes e e := by
  constructor
  · rintro ⟨e, hcycle⟩
    obtain ⟨_, ⟨he, -⟩, -⟩ := Relation.TransGen.head'_iff.mp hcycle
    exact ⟨e, he, Relation.TransGen.mono (fun _ _ h => h.2.2) e e hcycle⟩
  · rintro ⟨e, he, hcycle⟩
    refine ⟨e, ?_⟩
    have hpath : ∀ {a : String}, Relation.TransGen d.Includes e a → d.Reachable a ∧
        Relation.TransGen (fun outer inner =>
          d.Reachable outer ∧ d.Reachable inner ∧ d.Includes outer inner) e a := by
      intro a ha
      induction ha with
      | single h => exact ⟨he.of_includes h, .single ⟨he, he.of_includes h, h⟩⟩
      | tail _ h ih => exact ⟨ih.1.of_includes h, ih.2.tail ⟨ih.1, ih.1.of_includes h, h⟩⟩
    exact (hpath hcycle).2

end Definition

end RegionTree
