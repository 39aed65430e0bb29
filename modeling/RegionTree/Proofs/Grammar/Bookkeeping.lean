import RegionTree.Proofs.Grammar.Compilation
import Mathlib.Algebra.GroupWithZero.Nat
import Mathlib.Data.List.Nodup
import Mathlib.Data.List.Perm.Basic
set_option autoImplicit false

/-!
# What a run leaves behind

A run compiles every entry it visits once and keeps it: the entries compiled are new, and what is
included outside the bodies of regions is there afterwards (`Sources.Run.mem_keys_of_includes`).
The items it meets, and the bodies it puts aside, are together the items it was given and those of
the entries it compiled (`Sources.Run.balance`), which is why nothing is lost and nothing is
compiled twice.

`Draft.owed` counts the regions that are still to be compiled.  A run adds no more to it than the
regions in its items, so a body taken from the bodies put aside leaves less to do.
-/

namespace RegionTree

theorem lookup_eq_none_iff_not_mem {β : Type} {l : List (String × β)} {name : String} :
    l.lookup name = none ↔ name ∉ l.map Prod.fst := by
  rw [List.lookup_eq_none_iff, List.mem_map]
  constructor
  · rintro h ⟨p, hp, rfl⟩
    exact absurd (h p hp) (by simp)
  · intro h p hp
    rw [bne_iff_ne]
    rintro rfl
    exact h ⟨p, hp, rfl⟩

theorem mem_of_lookup {β : Type} {l : List (String × β)} {name : String} {b : β}
    (h : l.lookup name = some b) : name ∈ l.map Prod.fst := by
  by_contra hnot
  rw [lookup_eq_none_iff_not_mem.mpr hnot] at h
  cases h

namespace Sources

variable {s : Sources} {resolving : List String} {items : List Placed} {D D' : Draft}
  {alternatives : List Alternative} {made : List Placed} {names : List String}

/-! ## Entries -/

theorem Run.keys_eq (h : s.Run resolving items D alternatives made names D') :
    D'.keys = names ++ D.keys := by
  induction h with
  | nil => rfl
  | rule _ _ ih => exact ih
  | region _ _ _ _ ih₁ ih₂ ih =>
    simp only [ih, Draft.keys_leave, ih₂, ih₁, Draft.keys_enter, List.append_assoc]
  | known _ _ ih => exact ih
  | entry _ _ _ _ _ ih₁ ih =>
    simp only [ih, Draft.keys_keep, ih₁, List.append_assoc, List.cons_append]

/-- An entry is not compiled within itself. -/
theorem Run.not_mem_resolving (h : s.Run resolving items D alternatives made names D') :
    ∀ name ∈ names, name ∉ resolving := by
  induction h with
  | nil => simp
  | rule _ _ ih => exact ih
  | region _ _ _ _ ih₁ ih₂ ih =>
    intro name hname
    rw [List.mem_append, List.mem_append] at hname
    rcases hname with hname | hname | hname
    · exact ih name hname
    · exact ih₂ name hname
    · exact ih₁ name hname
  | known _ _ ih => exact ih
  | entry _ hnew _ _ _ ih₁ ih =>
    intro name hname
    rw [List.mem_append, List.mem_cons] at hname
    rcases hname with hname | rfl | hname
    · exact ih name hname
    · exact hnew
    · exact fun hmem => ih₁ name hname (List.mem_cons_of_mem _ hmem)

/-- An entry that was not there is not compiled within itself either. -/
theorem Run.not_mem_keys {name : String}
    (h : s.Run (name :: resolving) items D alternatives made names D')
    (hlookup : D.resolved.lookup name = none) : name ∉ D'.keys := by
  rw [h.keys_eq, List.mem_append]
  rintro (hmem | hmem)
  · exact h.not_mem_resolving name hmem List.mem_cons_self
  · exact lookup_eq_none_iff_not_mem.mp hlookup hmem

/-- No entry is compiled twice. -/
theorem Run.nodup_keys (h : s.Run resolving items D alternatives made names D')
    (hD : D.keys.Nodup) : D'.keys.Nodup := by
  induction h with
  | nil => exact hD
  | rule _ _ ih => exact ih hD
  | region _ _ _ _ ih₁ ih₂ ih => exact ih (ih₂ (ih₁ hD))
  | known _ _ ih => exact ih hD
  | entry hlookup _ _ hinner _ ih₁ ih =>
    exact ih (List.nodup_cons.mpr ⟨hinner.not_mem_keys hlookup, ih₁ hD⟩)

theorem Run.mem_keys (h : s.Run resolving items D alternatives made names D') {name : String}
    (hname : name ∈ D.keys) : name ∈ D'.keys := by
  rw [h.keys_eq]
  exact List.mem_append_right _ hname

/-- An entry that was included by one of the items met has been compiled. -/
theorem Run.mem_keys_of_mem_made (h : s.Run resolving items D alternatives made names D')
    {path name : String} (hmem : ⟨path, .reference name⟩ ∈ made) : name ∈ D'.keys := by
  induction h with
  | nil => cases hmem
  | rule _ _ ih =>
    rw [List.mem_cons] at hmem
    rcases hmem with heq | hmem
    · cases heq
    · exact ih hmem
  | region _ _ hclosings hrest ih₁ ih₂ ih =>
    rw [List.mem_cons, List.mem_append, List.mem_append] at hmem
    rcases hmem with heq | (hmem | hmem) | hmem
    · cases heq
    · exact hrest.mem_keys (hclosings.mem_keys (ih₁ hmem))
    · exact hrest.mem_keys (ih₂ hmem)
    · exact ih hmem
  | known hlookup hrest ih =>
    rw [List.mem_cons] at hmem
    rcases hmem with heq | hmem
    · cases heq
      exact hrest.mem_keys (mem_of_lookup hlookup)
    · exact ih hmem
  | entry _ _ _ _ hrest ih₁ ih =>
    rw [List.mem_cons, List.mem_append] at hmem
    rcases hmem with heq | hmem | hmem
    · cases heq
      exact hrest.mem_keys List.mem_cons_self
    · exact hrest.mem_keys (List.mem_cons_of_mem _ (ih₁ hmem))
    · exact ih hmem

theorem Run.mem_keys_of_includes (h : s.Run resolving items D alternatives made names D')
    {name : String} (hname : name ∈ items.flatMap fun p => p.item.includes) : name ∈ D'.keys := by
  induction h with
  | nil => cases hname
  | rule _ _ ih => exact ih (by simpa [Item.includes] using hname)
  | @region _ r _ _ _ _ _ _ _ _ _ _ _ _ _ _ _ _ _ _ hclosings hrest ih₁ ih₂ ih =>
    have hitem : r.placed.item.includes = r.opening.includes ++ includesAll r.closings := by
      rw [RegionSite.placed, Item.includes]
    rw [List.flatMap_cons, hitem, List.mem_append, List.mem_append] at hname
    rcases hname with (hname | hname) | hname
    · exact hrest.mem_keys (hclosings.mem_keys (ih₁ (by rwa [List.flatMap_singleton])))
    · rw [← flatMap_includes_placeFrom (r.path ++ ".end") 0] at hname
      exact hrest.mem_keys (ih₂ hname)
    · exact ih hname
  | known hlookup hrest ih =>
    simp only [List.flatMap_cons, Item.includes, List.singleton_append, List.mem_cons] at hname
    rcases hname with rfl | hname
    · exact hrest.mem_keys (mem_of_lookup hlookup)
    · exact ih hname
  | entry _ _ _ _ hrest _ ih =>
    simp only [List.flatMap_cons, Item.includes, List.singleton_append, List.mem_cons] at hname
    rcases hname with rfl | hname
    · exact hrest.mem_keys List.mem_cons_self
    · exact ih hname

/-- An entry is kept behind those that it includes outside the bodies of regions. -/
theorem Run.settled (h : s.Run resolving items D alternatives made names D')
    (hD : s.definition.Settled D.keys) : s.definition.Settled D'.keys := by
  induction h with
  | nil => exact hD
  | rule _ _ ih => exact ih hD
  | region _ _ _ _ ih₁ ih₂ ih => exact ih (ih₂ (ih₁ hD))
  | known _ _ ih => exact ih hD
  | @entry _ _ name entry _ _ _ _ _ _ _ _ _ _ _ _ hentry hinner _ ih₁ ih =>
    refine ih (.cons ?_ (ih₁ hD))
    rintro other ⟨entry', hentry', hother⟩
    obtain rfl := Option.some.inj (hentry.symm.trans hentry')
    rw [← entry.flatMap_includes_placed name] at hother
    exact hinner.mem_keys_of_includes hother

/-! ## Items -/

/-- The items met and those in the bodies put aside are the items given and those of the entries
compiled. -/
theorem Run.balance (h : s.Run resolving items D alternatives made names D') :
    (made ++ (made.filterMap Placed.region?).flatMap RegionSite.bodySites).Perm
      (items.flatMap Placed.sites ++ names.flatMap s.definition.entrySites) := by
  rw [List.perm_iff_count]
  intro a
  induction h with
  | nil => rfl
  | rule _ _ ih =>
    simp only [List.count_append, List.flatMap_cons, Placed.sites, Item.sites, List.filterMap_cons,
      Placed.region?, List.count_cons, List.count_nil] at ih ⊢
    omega
  | region _ _ _ _ ih₁ ih₂ ih =>
    simp only [List.count_append, List.flatMap_cons, RegionSite.sites_placed, List.filterMap_cons,
      RegionSite.region?_placed, List.count_cons, List.filterMap_append, List.flatMap_append,
      List.flatMap_nil, List.count_nil] at ih₁ ih₂ ih ⊢
    omega
  | known _ _ ih =>
    simp only [List.count_append, List.flatMap_cons, Placed.sites, Item.sites, List.filterMap_cons,
      Placed.region?, List.count_cons, List.count_nil] at ih ⊢
    omega
  | @entry _ _ name entry _ _ _ _ _ _ _ _ _ _ _ _ hentry _ _ ih₁ ih =>
    have hsites : s.definition.entrySites name = (entry.placed name).flatMap Placed.sites := by
      rw [Definition.entrySites, hentry]
    simp only [List.count_append, List.flatMap_cons, Placed.sites, Item.sites, List.filterMap_cons,
      Placed.region?, List.count_cons, List.count_nil, List.filterMap_append, List.flatMap_append,
      hsites] at ih₁ ih ⊢
    omega

/-- Where the items given include only what is reachable, so do all items met, and only reachable
entries are compiled. -/
theorem Run.reachable (h : s.Run resolving items D alternatives made names D')
    (hitems : s.definition.Leads (items.flatMap Placed.sites)) :
    ∀ name ∈ names, s.definition.Reachable name := by
  induction h with
  | nil => simp
  | rule _ _ ih => exact ih (hitems.mono (List.subset_append_right _ _))
  | region _ _ _ _ ih₁ ih₂ ih =>
    rw [List.flatMap_cons, RegionSite.sites_placed] at hitems
    intro name hname
    rw [List.mem_append, List.mem_append] at hname
    rcases hname with hname | hname | hname
    · refine ih (hitems.mono ?_) name hname
      exact List.subset_append_right _ _
    · refine ih₂ (hitems.mono ?_) name hname
      intro p hp
      simp [hp]
    · refine ih₁ (hitems.mono ?_) name hname
      intro p hp
      rw [List.flatMap_singleton] at hp
      simp [hp]
  | known _ _ ih => exact ih (hitems.mono (List.subset_append_right _ _))
  | @entry _ path name entry _ _ _ _ _ _ _ _ _ _ _ _ hentry _ _ ih₁ ih =>
    have hsite : ⟨path, .reference name⟩ ∈ (⟨path, .reference name⟩ : Placed).sites := by
      rw [Placed.sites, Item.sites, List.mem_singleton]
    have hname : s.definition.Reachable name := hitems (List.mem_append_left _ hsite)
    intro other hother
    rw [List.mem_append, List.mem_cons] at hother
    rcases hother with hother | rfl | hother
    · exact ih (hitems.mono (List.subset_append_right _ _)) other hother
    · exact hname
    · refine ih₁ ?_ other hother
      intro at' inner hinner
      exact .entry hname (by rwa [Definition.entrySites, hentry])

/-! ## Scopes and bodies -/

theorem Run.size_eq (h : s.Run resolving items D alternatives made names D') :
    D'.scopes.size = D.scopes.size + (made.filterMap Placed.region?).length := by
  induction h with
  | nil => rfl
  | rule _ _ ih => exact ih
  | region _ _ _ _ ih₁ ih₂ ih =>
    simp only [Draft.size_enter, Draft.size_leave] at ih₁ ih
    simp only [List.filterMap_cons, RegionSite.region?_placed, List.length_cons, List.filterMap_append,
      List.length_append]
    omega
  | known _ _ ih => exact ih
  | entry _ _ _ _ _ ih₁ ih =>
    simp only [Draft.size_keep] at ih
    simp only [List.filterMap_cons, Placed.region?, List.filterMap_append, List.length_append]
    omega

end Sources

/-- The bodies of regions whose scopes are numbered one after the other. -/
def bodiesFrom (id : ScopeId) : List RegionSite → List Body
  | [] => []
  | r :: rest => r.waiting id :: bodiesFrom (id + 1) rest

theorem bodiesFrom_append (id : ScopeId) (regions others : List RegionSite) :
    bodiesFrom id (regions ++ others) =
      bodiesFrom id regions ++ bodiesFrom (id + regions.length) others := by
  induction regions generalizing id with
  | nil => rfl
  | cons r rest ih =>
    rw [List.cons_append, bodiesFrom, bodiesFrom, ih, List.cons_append, List.length_cons,
      Nat.add_right_comm, Nat.add_assoc]

theorem map_scope_bodiesFrom (id : ScopeId) (regions : List RegionSite) :
    (bodiesFrom id regions).map Body.scope = List.range' id regions.length := by
  induction regions generalizing id with
  | nil => rfl
  | cons r rest ih => rw [bodiesFrom, List.map_cons, ih, List.length_cons, List.range'_succ]; rfl

theorem flatMap_sites_bodiesFrom (id : ScopeId) (regions : List RegionSite) :
    (bodiesFrom id regions).flatMap Body.sites = regions.flatMap RegionSite.bodySites := by
  induction regions generalizing id with
  | nil => rfl
  | cons r rest ih => rw [bodiesFrom, List.flatMap_cons, ih, List.flatMap_cons]; rfl

deriving instance DecidableEq for Body

namespace Sources

variable {s : Sources} {resolving : List String} {items : List Placed} {D D' : Draft}
  {alternatives : List Alternative} {made : List Placed} {names : List String}

/-- The bodies put aside are those of the regions met. -/
theorem Run.pending_perm (h : s.Run resolving items D alternatives made names D') :
    D'.pending.Perm (bodiesFrom D.scopes.size (made.filterMap Placed.region?) ++ D.pending) := by
  rw [List.perm_iff_count]
  intro b
  induction h with
  | nil => rfl
  | rule _ _ ih => exact ih
  | region _ hopening hclosings _ ih₁ ih₂ ih =>
    have h₁ := hopening.size_eq
    have h₂ := hclosings.size_eq
    simp only [List.count_append, List.filterMap_cons, RegionSite.region?_placed, List.filterMap_append, bodiesFrom,
      bodiesFrom_append, List.cons_append, List.count_cons, Draft.size_enter, Draft.size_leave,
      Draft.pending_enter, Draft.pending_leave, h₁, h₂, List.length_append, Nat.add_assoc]
      at ih₁ ih₂ ih ⊢
    omega
  | known _ _ ih => exact ih
  | entry _ _ _ hinner _ ih₁ ih =>
    have h₁ := hinner.size_eq
    simp only [List.count_append, List.filterMap_cons, Placed.region?, List.filterMap_append,
      bodiesFrom_append, Draft.size_keep, Draft.pending_keep, h₁] at ih₁ ih ⊢
    omega

end Sources

/-! ## Regions to be compiled -/

theorem sum_regionCount_placeFrom (path : String) (index : Nat) (items : List Item) :
    ((placeFrom path index items).map fun p => p.item.regionCount).sum = regionCounts items := by
  induction items generalizing index with
  | nil => rfl
  | cons x rest ih => rw [placeFrom, List.map_cons, List.sum_cons, ih, regionCounts]

theorem Entry.sum_regionCount_placed (name : String) (entry : Entry) :
    ((entry.placed name).map fun p => p.item.regionCount).sum = regionCounts entry.items := by
  cases entry with
  | item x => simp [placed, items, regionCounts]
  | list xs => exact sum_regionCount_placeFrom ..

theorem entryRegionCounts_le_of_sublist {entries others : List (String × Entry)}
    (h : entries.Sublist others) : entryRegionCounts entries ≤ entryRegionCounts others := by
  induction h with
  | slnil => exact Nat.le_refl _
  | cons _ _ ih =>
    rw [entryRegionCounts]
    omega
  | cons_cons _ _ ih =>
    rw [entryRegionCounts, entryRegionCounts]
    omega

/-- The number of regions in the entries that are not among the given ones. -/
def Definition.unvisited (d : Definition) (keys : List String) : Nat :=
  entryRegionCounts (d.repository.filter fun e => !keys.contains e.1)

theorem entryRegionCounts_filter_cons {entries : List (String × Entry)} {keys : List String}
    {name : String} {entry : Entry} (hname : name ∉ keys)
    (hentry : entries.lookup name = some entry) :
    entryRegionCounts (entries.filter fun e => !(name :: keys).contains e.1)
        + regionCounts entry.items ≤
      entryRegionCounts (entries.filter fun e => !keys.contains e.1) := by
  induction entries with
  | nil => cases hentry
  | cons first rest ih =>
    obtain ⟨key, e⟩ := first
    rw [List.lookup_cons] at hentry
    by_cases hkey : name = key
    · subst hkey
      rw [beq_self_eq_true] at hentry
      obtain rfl := Option.some.inj hentry
      have hfewer : (rest.filter fun e => !(name :: keys).contains e.1).Sublist
          (rest.filter fun e => !keys.contains e.1) := by
        refine List.monotone_filter_right _ ?_
        intro e he
        simp at he ⊢
        exact he.2
      have := entryRegionCounts_le_of_sublist hfewer
      simp [hname, entryRegionCounts] at this ⊢
      omega
    · have hbeq : (name == key) = false := by simpa using hkey
      rw [hbeq] at hentry
      have := ih hentry
      by_cases hmem : key ∈ keys
      · simpa [hmem] using this
      · have hne : ¬ key = name := fun heq => hkey heq.symm
        simp [hmem, hne, entryRegionCounts] at this ⊢
        omega

/-- How many regions are still to be compiled in entries that have not been visited and in the
bodies put aside, these counted themselves. -/
def Draft.owed (d : Definition) (D : Draft) : Nat :=
  (D.pending.map fun b => regionCounts b.items + 1).sum + d.unvisited D.keys

namespace Sources

variable {s : Sources} {resolving : List String} {items : List Placed} {D D' : Draft}
  {alternatives : List Alternative} {made : List Placed} {names : List String}

theorem Run.owed_le (h : s.Run resolving items D alternatives made names D') :
    D'.owed s.definition ≤
      D.owed s.definition + (items.map fun p => p.item.regionCount).sum := by
  induction h with
  | nil => exact Nat.le_refl _
  | rule _ _ ih =>
    rw [List.map_cons, List.sum_cons, Item.regionCount, Nat.zero_add]
    exact ih
  | @region _ r _ _ _ _ _ _ _ _ _ _ _ _ _ _ _ _ _ _ _ _ ih₁ ih₂ ih =>
    rw [RegionSite.placedClosings, sum_regionCount_placeFrom] at ih₂
    simp only [Draft.owed, Draft.keys_enter, Draft.pending_enter, Draft.keys_leave,
      Draft.pending_leave, List.map_cons, List.sum_cons, List.map_nil, List.sum_nil,
      RegionSite.placedOpening, RegionSite.waiting, RegionSite.placed, Item.regionCount]
      at ih₁ ih₂ ih ⊢
    omega
  | known _ _ ih => simpa [Item.regionCount] using ih
  | @entry _ _ name entry _ D D₁ _ _ _ _ _ _ _ hlookup _ hentry hinner _ ih₁ ih =>
    have hless := entryRegionCounts_filter_cons (hinner.not_mem_keys hlookup) hentry
    rw [entry.sum_regionCount_placed] at ih₁
    simp only [Draft.owed, Draft.keys_keep, Draft.pending_keep, List.map_cons, List.sum_cons,
      Item.regionCount, Definition.unvisited] at ih₁ ih hless ⊢
    omega

end Sources

end RegionTree
