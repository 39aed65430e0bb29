import RegionTree.Proofs.Grammar.Rounds
import Mathlib.Data.List.Forall2
set_option autoImplicit false

/-!
# Includes flattened

Alternatives are read as the paths of rules and the names of scopes.  What a run makes of a list of
items reads as the naive expansion of the list (`Sources.Run.spells`), although entries are expanded
only once and bodies much later, because what can be read in a draft is read the same in every later
one.

`Grammar.build_flattens` says this for the root, the global list and every part of every region of a
grammar, and that each rule and region in reach of the root and the global list is in the grammar
once.
-/

namespace RegionTree

/-! ## Reading alternatives -/

/-- The path of a rule or the name of a scope. -/
def Alternative.nameIn (rules : Array Rule) (scopes : Array Scope) : Alternative → Option String
  | .rule id => rules[id]?.map Rule.path
  | .region id => scopes[id]?.map Scope.name

/-- A scope keeps its name when other things in it change. -/
theorem Alternative.nameIn_modify {rules : Array Rule} {scopes : Array Scope} {id : ScopeId}
    {f : Scope → Scope} (hf : ∀ scope, (f scope).name = scope.name) :
    Alternative.nameIn rules (scopes.modify id f) = Alternative.nameIn rules scopes := by
  funext a
  cases a with
  | rule id' => rfl
  | region id' =>
    simp only [nameIn, Array.getElem?_modify]
    split
    · cases scopes[id']? with
      | none => rfl
      | some scope => exact congrArg some (hf scope)
    · rfl

/-- Alternatives read as the expansion of some items. -/
def Definition.Spells (d : Definition) (read : Alternative → Option String) (items : List Placed)
    (alternatives : List Alternative) : Prop :=
  ∃ paths, d.Flat items paths ∧ alternatives.map read = paths.map some

namespace Definition.Spells

variable {d : Definition} {read read' : Alternative → Option String} {items others : List Placed}
  {alternatives more : List Alternative}

theorem mono (h : d.Spells read items alternatives)
    (hread : ∀ a path, read a = some path → read' a = some path) :
    d.Spells read' items alternatives := by
  obtain ⟨paths, hflat, hmap⟩ := h
  refine ⟨paths, hflat, ?_⟩
  rw [← hmap]
  refine List.map_congr_left ?_
  intro a ha
  have hsome : read a ∈ paths.map some := hmap ▸ List.mem_map_of_mem ha
  obtain ⟨path, -, hpath⟩ := List.mem_map.mp hsome
  rw [← hpath, hread a path hpath.symm]

theorem reference {path name : String} {entry : Entry} (hentry : d.entry? name = some entry)
    (h : d.Spells read (entry.placed name) alternatives) (h' : d.Spells read others more) :
    d.Spells read (⟨path, .reference name⟩ :: others) (alternatives ++ more) := by
  obtain ⟨paths, hflat, hmap⟩ := h
  obtain ⟨paths', hflat', hmap'⟩ := h'
  exact ⟨paths ++ paths', .reference hentry hflat hflat',
    by rw [List.map_append, hmap, hmap', List.map_append]⟩

end Definition.Spells

theorem getElem?_push_of_eq_some {α : Type} {xs : Array α} {i : Nat} {a b : α}
    (h : xs[i]? = some a) : (xs.push b)[i]? = some a := by
  obtain ⟨hlt, -⟩ := Array.getElem?_eq_some_iff.mp h
  rw [Array.getElem?_push, if_neg (Nat.ne_of_lt hlt), h]

namespace Draft

/-- The path of a rule or the name of a scope of a draft. -/
def read (D : Draft) : Alternative → Option String := Alternative.nameIn D.rules D.scopes

/-- What is read in a draft is read the same in another one. -/
def Grows (D D' : Draft) : Prop := ∀ a path, D.read a = some path → D'.read a = some path

variable {D D₁ D₂ : Draft}

theorem Grows.refl (D : Draft) : D.Grows D := fun _ _ h => h

theorem Grows.trans (h : D.Grows D₁) (h' : D₁.Grows D₂) : D.Grows D₂ :=
  fun a path hread => h' a path (h a path hread)

theorem read_fill (D : Draft) (id : ScopeId) (alternatives : List Alternative) :
    (D.fill id alternatives).read = D.read :=
  Alternative.nameIn_modify fun _ => rfl

theorem read_leave (D : Draft) (id : ScopeId) (r : RegionSite) (first : RuleId)
    (last : List RuleId) : (D.leave id r first last).read = D.read :=
  Alternative.nameIn_modify fun _ => rfl

theorem grows_withRule (D : Draft) (nodes : NodeTable) (rule : Rule) :
    D.Grows (D.withRule nodes rule) := by
  intro a path h
  cases a with
  | rule id =>
    simp only [read, Alternative.nameIn, Option.map_eq_some_iff] at h ⊢
    obtain ⟨found, hfound, rfl⟩ := h
    exact ⟨found, getElem?_push_of_eq_some hfound, rfl⟩
  | region id => exact h

theorem grows_enter (D : Draft) (nodes : NodeTable) (node : Option NodeId) (r : RegionSite) :
    D.Grows (D.enter nodes node r) := by
  intro a path h
  cases a with
  | rule id => exact h
  | region id =>
    simp only [read, Alternative.nameIn, Option.map_eq_some_iff] at h ⊢
    obtain ⟨found, hfound, rfl⟩ := h
    exact ⟨found, getElem?_push_of_eq_some hfound, rfl⟩

theorem grows_leave (D : Draft) (id : ScopeId) (r : RegionSite) (first : RuleId)
    (last : List RuleId) : D.Grows (D.leave id r first last) := by
  intro a path h
  rwa [read_leave]

end Draft

namespace Sources

variable {s : Sources} {resolving : List String} {items : List Placed} {D D' : Draft}
  {alternatives : List Alternative} {made : List Placed} {names : List String}

theorem Run.grows (h : s.Run resolving items D alternatives made names D') : D.Grows D' := by
  induction h with
  | nil => exact .refl _
  | rule _ _ ih => exact (Draft.grows_withRule _ _ _).trans ih
  | region _ _ _ _ ih₁ ih₂ ih =>
    have hleave := (Draft.grows_leave _ _ _ _ _).trans ih
    exact (Draft.grows_enter _ _ _ _).trans (ih₁.trans (ih₂.trans hleave))
  | known _ _ ih => exact ih
  | entry _ _ _ _ _ ih₁ ih => exact ih₁.trans ih

/-- The alternatives kept for an entry are its expansion. -/
def Faithful (s : Sources) (D : Draft) : Prop :=
  ∀ name alternatives, D.resolved.lookup name = some alternatives →
    ∃ entry, s.definition.entry? name = some entry ∧
      s.definition.Spells D.read (entry.placed name) alternatives

theorem Faithful.mono (h : s.Faithful D) (hresolved : D'.resolved = D.resolved)
    (hgrows : D.Grows D') : s.Faithful D' := by
  intro name alternatives hlookup
  rw [hresolved] at hlookup
  obtain ⟨entry, hentry, hspells⟩ := h name alternatives hlookup
  exact ⟨entry, hentry, hspells.mono hgrows⟩

theorem Faithful.keep (h : s.Faithful D) {name : String} {entry : Entry}
    (hentry : s.definition.entry? name = some entry)
    (hspells : s.definition.Spells D.read (entry.placed name) alternatives) :
    s.Faithful (D.keep name alternatives) := by
  intro other found hlookup
  simp only [Draft.keep, List.lookup_cons] at hlookup
  split at hlookup
  · next heq =>
    obtain rfl := Option.some.inj hlookup
    obtain rfl := eq_of_beq heq
    exact ⟨entry, hentry, hspells⟩
  · exact h other found hlookup

/-- What a run makes of some items reads as their expansion. -/
theorem Run.spells (h : s.Run resolving items D alternatives made names D') (hD : s.Faithful D) :
    s.Faithful D' ∧ s.definition.Spells D'.read items alternatives := by
  induction h with
  | nil => exact ⟨hD, [], .nil, rfl⟩
  | @rule _ path _ _ D _ nodes rule _ _ _ hrule hrest ih =>
    obtain ⟨hfaithful, paths, hflat, hmap⟩ := ih (hD.mono rfl (Draft.grows_withRule _ _ _))
    refine ⟨hfaithful, path :: paths, .rule hflat, ?_⟩
    have hread : (D.withRule nodes rule).read (.rule D.rules.size) = some path := by
      simp [Draft.read, Draft.withRule, Alternative.nameIn, hrule.place]
    rw [List.map_cons, hmap, hrest.grows _ _ hread, List.map_cons]
  | @region _ r _ D D₁ D₂ _ nodes node first last _ _ _ _ _ _ _ _ hopening hclosings hrest
      ih₁ ih₂ ih =>
    have hleave := D₂.grows_leave D.scopes.size r first last
    have hinner := (ih₂ (ih₁ (hD.mono rfl (Draft.grows_enter _ _ _ _))).1).1
    obtain ⟨hfaithful, paths, hflat, hmap⟩ := ih (hinner.mono rfl hleave)
    refine ⟨hfaithful, r.path :: paths, .region hflat, ?_⟩
    have hread : (D.enter nodes node r).read (.region D.scopes.size) = some r.path := by
      simp [Draft.read, Draft.enter, Alternative.nameIn]
    have hgrows := hopening.grows.trans (hclosings.grows.trans (hleave.trans hrest.grows))
    rw [List.map_cons, hmap, hgrows _ _ hread, List.map_cons]
  | known hlookup hrest ih =>
    obtain ⟨entry, hentry, hknown⟩ := hD _ _ hlookup
    obtain ⟨hfaithful, hspells⟩ := ih hD
    exact ⟨hfaithful, .reference hentry (hknown.mono hrest.grows) hspells⟩
  | entry hlookup _ hentry hinner hrest ih₁ ih =>
    obtain ⟨hfaithful₁, hspells₁⟩ := ih₁ hD
    obtain ⟨hfaithful, hspells⟩ := ih (hfaithful₁.keep hentry hspells₁)
    exact ⟨hfaithful, .reference hentry (hspells₁.mono hrest.grows) hspells⟩

/-! ## Rules and scopes -/

theorem Run.rules (h : s.Run resolving items D alternatives made names D') :
    ∃ added, D'.rules.toList = D.rules.toList ++ added ∧
      List.Forall₂ (fun site rule => s.Compiles site.1 site.2 rule)
        (made.filterMap Placed.rule?) added := by
  induction h with
  | nil => exact ⟨[], by simp, .nil⟩
  | @rule _ _ _ _ _ _ _ rule _ _ _ hrule _ ih =>
    obtain ⟨added, hadded, hrules⟩ := ih
    exact ⟨rule :: added, by simp [hadded, Draft.withRule], .cons hrule hrules⟩
  | region _ _ _ _ ih₁ ih₂ ih =>
    obtain ⟨added₁, hadded₁, hrules₁⟩ := ih₁
    obtain ⟨added₂, hadded₂, hrules₂⟩ := ih₂
    obtain ⟨added, hadded, hrules⟩ := ih
    refine ⟨added₁ ++ added₂ ++ added, ?_, ?_⟩
    · simp only [Draft.leave, Draft.enter] at hadded₁ hadded
      rw [hadded, hadded₂, hadded₁, List.append_assoc, List.append_assoc, List.append_assoc]
    · simp only [List.filterMap_cons, RegionSite.rule?_placed, List.filterMap_append]
      exact List.rel_append (List.rel_append hrules₁ hrules₂) hrules
  | known _ _ ih => exact ih
  | entry _ _ _ _ _ ih₁ ih =>
    obtain ⟨added₁, hadded₁, hrules₁⟩ := ih₁
    obtain ⟨added, hadded, hrules⟩ := ih
    refine ⟨added₁ ++ added, ?_, ?_⟩
    · simp only [Draft.keep] at hadded
      rw [hadded, hadded₁, List.append_assoc]
    · simp only [List.filterMap_cons, Placed.rule?, List.filterMap_append]
      exact List.rel_append hrules₁ hrules

end Sources

/-- A scope is what a region becomes before its body is compiled. -/
structure RegionSite.Bounds (d : Definition) (read : Alternative → Option String) (r : RegionSite)
    (scope : Scope) : Prop where
  name : scope.name = r.path
  node : scope.node.isSome = r.node.isSome
  embedded : scope.embedded = r.embedded
  opening : ∃ id, scope.opening = some id ∧ d.Spells read [r.placedOpening] [.rule id]
  closings : d.Spells read r.placedClosings (scope.closings.map .rule)

theorem RegionSite.Bounds.mono {d : Definition} {read read' : Alternative → Option String}
    {r : RegionSite} {scope : Scope} (h : r.Bounds d read scope)
    (hread : ∀ a path, read a = some path → read' a = some path) : r.Bounds d read' scope := by
  obtain ⟨id, hid, hspells⟩ := h.opening
  exact { h with opening := ⟨id, hid, hspells.mono hread⟩, closings := h.closings.mono hread }

theorem modify_append_cons {α : Type} (before after : List α) (a : α) (f : α → α) :
    (before ++ a :: after).modify before.length f = before ++ f a :: after := by
  induction before with
  | nil => rfl
  | cons b rest ih => rw [List.cons_append, List.length_cons, List.modify_succ_cons, ih,
      List.cons_append]

/-- Between entering a region and leaving it scopes are only added. -/
theorem Draft.toList_scopes_leave {D D₂ : Draft} {nodes : NodeTable} {node : Option NodeId}
    {r : RegionSite} {added : List Scope}
    (h : D₂.scopes.toList = (D.enter nodes node r).scopes.toList ++ added) (first : RuleId)
    (last : List RuleId) :
    (D₂.leave D.scopes.size r first last).scopes.toList =
      D.scopes.toList ++ ⟨r.path, node, some first, last, [], r.embedded⟩ :: added := by
  have henter : (D.enter nodes node r).scopes.toList =
      D.scopes.toList ++ [⟨r.path, node, none, [], [], r.embedded⟩] := Array.toList_push
  have hsize : D.scopes.size = D.scopes.toList.length := rfl
  rw [leave, Array.toList_modify, h, henter, List.append_assoc, List.singleton_append, hsize,
    modify_append_cons]

theorem Sources.Run.scopes {s : Sources} {resolving : List String} {items : List Placed}
    {D D' : Draft} {alternatives : List Alternative} {made : List Placed} {names : List String}
    (h : s.Run resolving items D alternatives made names D') (hD : s.Faithful D) :
    ∃ added, D'.scopes.toList = D.scopes.toList ++ added ∧
      List.Forall₂ (fun r scope => r.Bounds s.definition D'.read scope)
        (made.filterMap Placed.region?) added := by
  induction h with
  | nil => exact ⟨[], by simp, .nil⟩
  | rule _ _ ih => exact ih (hD.mono rfl (Draft.grows_withRule _ _ _))
  | @region _ r _ D D₁ D₂ D' nodes node first last _ _ _ _ _ _ _ hnode hopening hclosings hrest
      ih₁ ih₂ ih =>
    have hD₀ : s.Faithful (D.enter nodes node r) := hD.mono rfl (D.grows_enter nodes node r)
    obtain ⟨hD₁, hspells₁⟩ := hopening.spells hD₀
    obtain ⟨hD₂, hspells₂⟩ := hclosings.spells hD₁
    have hleave := D₂.grows_leave D.scopes.size r first last
    obtain ⟨added₁, hadded₁, hbounds₁⟩ := ih₁ hD₀
    obtain ⟨added₂, hadded₂, hbounds₂⟩ := ih₂ hD₁
    obtain ⟨added, hadded, hbounds⟩ := ih (hD₂.mono rfl hleave)
    have hgrows₂ := hleave.trans hrest.grows
    have hgrows₁ := hclosings.grows.trans hgrows₂
    rw [hadded₁, List.append_assoc] at hadded₂
    rw [Draft.toList_scopes_leave hadded₂, List.append_assoc] at hadded
    refine ⟨_, hadded, ?_⟩
    simp only [List.filterMap_cons, r.region?_placed, List.filterMap_append]
    refine .cons ?_ (List.rel_append (List.rel_append ?_ ?_) hbounds)
    · exact ⟨rfl, hnode, rfl, ⟨first, rfl, hspells₁.mono hgrows₁⟩, hspells₂.mono hgrows₂⟩
    · exact hbounds₁.imp fun _ _ h => h.mono hgrows₁
    · exact hbounds₂.imp fun _ _ h => h.mono hgrows₂
  | known _ _ ih => exact ih hD
  | entry _ _ hentry hinner hrest ih₁ ih =>
    obtain ⟨hD₁, hspells₁⟩ := hinner.spells hD
    obtain ⟨added₁, hadded₁, hbounds₁⟩ := ih₁ hD
    obtain ⟨added, hadded, hbounds⟩ := ih (hD₁.keep hentry hspells₁)
    refine ⟨added₁ ++ added, ?_, ?_⟩
    · simp only [Draft.keep] at hadded
      rw [hadded, hadded₁, List.append_assoc]
    · simp only [List.filterMap_cons, Placed.region?, List.filterMap_append]
      exact List.rel_append (hbounds₁.imp fun _ _ h => h.mono hrest.grows) hbounds

/-! ## The whole grammar -/

theorem forall₂_modify {α β : Type} {R : α → β → Prop} {f : β → β}
    (hf : ∀ a b, R a b → R a (f b)) {l : List α} {l' : List β} (h : List.Forall₂ R l l') (i : Nat) :
    List.Forall₂ R l (l'.modify i f) := by
  induction h generalizing i with
  | nil => simp
  | cons hab hrest ih =>
    cases i with
    | zero => exact .cons (hf _ _ hab) hrest
    | succ i => exact .cons hab (ih i)

/-- What bodies of regions numbered one after the other fill their scopes with. -/
theorem forall₂_placedBody (P : List Placed → Scope → Prop) {regions : List RegionSite}
    (before : List Scope) {scopes : List Scope} (hlength : regions.length = scopes.length)
    (h : ∀ b ∈ bodiesFrom before.length regions, ∃ scope,
      (before ++ scopes)[b.scope]? = some scope ∧ P b.placed scope) :
    List.Forall₂ (fun r scope => P r.placedBody scope) regions scopes := by
  induction regions generalizing before scopes with
  | nil =>
    obtain rfl := List.length_eq_zero_iff.mp hlength.symm
    exact .nil
  | cons r rest ih =>
    obtain ⟨scope, more, rfl⟩ := List.exists_cons_of_length_eq_add_one hlength.symm
    obtain ⟨found, hfound, hP⟩ := h (r.waiting before.length) (by simp [bodiesFrom])
    have hfirst : (before ++ scope :: more)[before.length]? = some scope := by simp
    obtain rfl := Option.some.inj (hfirst.symm.trans hfound)
    refine .cons hP (ih (before ++ [scope]) (by simpa using hlength) ?_)
    intro b hb
    rw [List.length_append, List.length_singleton] at hb
    rw [List.append_assoc, List.singleton_append]
    exact h b (List.mem_cons_of_mem _ hb)

/-- The body of the root. -/
def Definition.rootBody (d : Definition) : Body := ⟨rootScope, d.root, "root"⟩

/-- What a scope is apart from its alternatives; the root is made of no region. -/
def Scope.Renders (d : Definition) (read : Alternative → Option String) :
    Option RegionSite → Scope → Prop
  | none, scope => scope = { Scope.root with alternatives := scope.alternatives }
  | some r, scope => r.Bounds d read scope

theorem Scope.Renders.mono {d : Definition} {read read' : Alternative → Option String}
    {r? : Option RegionSite} {scope : Scope} (h : Scope.Renders d read r? scope)
    (hread : ∀ a path, read a = some path → read' a = some path) :
    Scope.Renders d read' r? scope := by
  cases r? with
  | none => exact h
  | some r => exact RegionSite.Bounds.mono h hread

/-- The rules and scopes of a draft are those of the items met, and the bodies `filled` are in
their scopes. -/
structure Flattened (s : Sources) (made : List Placed) (filled : List Body) (D : Draft) : Prop where
  faithful : s.Faithful D
  rules : List.Forall₂ (fun site rule => s.Compiles site.1 site.2 rule)
    (made.filterMap Placed.rule?) D.rules.toList
  scopes : List.Forall₂ (Scope.Renders s.definition D.read)
    (none :: (made.filterMap Placed.region?).map some) D.scopes.toList
  bodies : ∀ b ∈ filled, ∃ scope, D.scopes[b.scope]? = some scope ∧
    s.definition.Spells D.read b.placed scope.alternatives

namespace Flattened

variable {s : Sources} {items made made' : List Placed} {filled : List Body} {D D' : Draft}
  {alternatives : List Alternative} {names : List String}

theorem initial (s : Sources) (declared : List String) :
    Flattened s [] [] (.initial declared) where
  faithful := by
    intro name alternatives hlookup
    cases hlookup
  rules := .nil
  scopes := .cons rfl .nil
  bodies := by simp

theorem run (h : Flattened s made filled D)
    (hrun : s.Run [] items D alternatives made' names D') :
    Flattened s (made ++ made') filled D' where
  faithful := (hrun.spells h.faithful).1
  rules := by
    obtain ⟨added, hadded, hrules⟩ := hrun.rules
    rw [hadded, List.filterMap_append]
    exact List.rel_append h.rules hrules
  scopes := by
    obtain ⟨added, hadded, hscopes⟩ := hrun.scopes h.faithful
    rw [hadded, List.filterMap_append, List.map_append, ← List.cons_append]
    exact List.rel_append (h.scopes.imp fun _ _ hrenders => hrenders.mono hrun.grows)
      (List.forall₂_map_left_iff.mpr hscopes)
  bodies := by
    obtain ⟨added, hadded, -⟩ := hrun.scopes h.faithful
    intro b hb
    obtain ⟨scope, hscope, hspells⟩ := h.bodies b hb
    refine ⟨scope, ?_, hspells.mono hrun.grows⟩
    rw [← Array.getElem?_toList] at hscope ⊢
    rw [hadded]
    exact List.getElem?_append_left (List.getElem?_eq_some_iff.mp hscope).1 |>.trans hscope

theorem fill {b : Body} (h : Flattened s made filled D)
    (hspells : s.definition.Spells D.read b.placed alternatives) (hscope : b.scope < D.scopes.size)
    (hnew : ∀ c ∈ filled, c.scope ≠ b.scope) :
    Flattened s made (filled ++ [b]) (D.fill b.scope alternatives) where
  faithful := h.faithful.mono rfl (by rw [Draft.Grows, Draft.read_fill]; exact Draft.Grows.refl D)
  rules := h.rules
  scopes := by
    rw [Draft.read_fill, Draft.fill, Array.toList_modify]
    refine forall₂_modify ?_ h.scopes b.scope
    intro r? scope hrenders
    cases r? with
    | none =>
      rw [Scope.Renders] at hrenders
      rw [hrenders]
      rfl
    | some r =>
      exact ⟨hrenders.name, hrenders.node, hrenders.embedded, hrenders.opening, hrenders.closings⟩
  bodies := by
    intro c hc
    rw [Draft.read_fill]
    simp only [Draft.fill, Array.getElem?_modify]
    rcases List.mem_append.mp hc with hc | hc
    · rw [if_neg (Ne.symm (hnew c hc))]
      exact h.bodies c hc
    · obtain rfl := List.mem_singleton.mp hc
      rw [if_pos rfl, Array.getElem?_eq_getElem hscope]
      exact ⟨_, rfl, hspells⟩

/-- When no body is left, the alternatives of every scope are the expansion of its items. -/
theorem forall₂_bodies {taken : List Body}
    (h : Flattened s made (s.definition.rootBody :: taken) D)
    (haccounts : Accounts s.definition (s.definition.tops ++ taken.flatMap Body.placed) made names
      taken D) (hpending : D.pending = []) :
    List.Forall₂ (fun items scope => s.definition.Spells D.read items scope.alternatives)
      (s.definition.rootBody.placed ::
        (made.filterMap Placed.region?).map RegionSite.placedBody) D.scopes.toList := by
  obtain ⟨root, regions, -, hregions, hscopes⟩ := List.forall₂_cons_left_iff.mp h.scopes
  have hlength := (List.forall₂_map_left_iff.mp hregions).length_eq
  -- a scope is found by its number in the list of scopes
  have hbodies : ∀ b ∈ s.definition.rootBody :: taken, ∃ scope,
      (root :: regions)[b.scope]? = some scope ∧
        s.definition.Spells D.read b.placed scope.alternatives := by
    intro b hb
    obtain ⟨scope, hscope, hbody⟩ := h.bodies b hb
    rw [← Array.getElem?_toList, hscopes] at hscope
    exact ⟨scope, hscope, hbody⟩
  rw [hscopes]
  refine .cons ?_ (List.forall₂_map_left_iff.mpr ?_)
  · obtain ⟨scope, hscope, hbody⟩ := hbodies _ List.mem_cons_self
    obtain rfl := Option.some.inj hscope
    exact hbody
  · refine forall₂_placedBody
      (fun items scope => s.definition.Spells D.read items scope.alternatives) [root] hlength ?_
    intro b hb
    have hqueue := haccounts.queue
    rw [hpending, List.append_nil] at hqueue
    exact hbodies b (List.mem_cons_of_mem _ (hqueue.symm.subset hb))

end Flattened

/-- What every round keeps. -/
def Balanced (s : Sources) (start D : Draft) : Prop :=
  start.Grows D ∧ ∃ made names taken,
    Accounts s.definition (s.definition.tops ++ taken.flatMap Body.placed) made names taken D ∧
    Flattened s made (s.definition.rootBody :: taken) D

theorem Balanced.round {s : Sources} {start D D₁ : Draft} {b : Body} {rest : List Body}
    {alternatives : List Alternative} {made : List Placed} {names : List String}
    (h : Balanced s start D) (hpending : D.pending = b :: rest)
    (hrun : s.Run [] b.placed (D.take rest) alternatives made names D₁) :
    Balanced s start (D₁.fill b.scope alternatives) := by
  obtain ⟨hgrows, made', names', taken, haccounts, hflattened⟩ := h
  have htake : Flattened s made' (s.definition.rootBody :: taken) (D.take rest) :=
    ⟨hflattened.faithful, hflattened.rules, hflattened.scopes, hflattened.bodies⟩
  obtain ⟨hroot, hscope⟩ := haccounts.scope_pending (b := b) (by simp [hpending])
  have hsize : D.scopes.size ≤ D₁.scopes.size := by
    rw [hrun.size_eq, Draft.scopes_take]
    exact Nat.le_add_right _ _
  have hnew : ∀ c ∈ s.definition.rootBody :: taken, c.scope ≠ b.scope := by
    intro c hc
    rcases List.mem_cons.mp hc with rfl | hc
    · exact Nat.ne_of_lt hroot
    · exact haccounts.scope_ne_of_mem_taken hpending c hc
  have hspells := (hrun.spells htake.faithful).2
  have hfilled := (htake.run hrun).fill hspells (Nat.lt_of_lt_of_le hscope hsize) hnew
  refine ⟨?_, _, _, _, haccounts.round hpending hrun, hfilled⟩
  rw [Draft.Grows, Draft.read_fill]
  exact hgrows.trans hrun.grows

/-- The path of a rule or the name of a scope of a grammar. -/
def Grammar.read (g : Grammar) : Alternative → Option String := Alternative.nameIn g.rules g.scopes

theorem Sources.balanced_tops {s : Sources} {declared : List String}
    {root global : List Alternative} {D₁ D₂ : Draft}
    (hroot : s.topItems "root" s.definition.root (.initial declared) = .ok (root, D₁))
    (hglobal : s.topItems "global" s.definition.global (D₁.fill rootScope root) =
      .ok (global, D₂)) :
    Balanced s D₂ D₂ ∧
      s.definition.Spells D₂.read (placeFrom "global" 0 s.definition.global) global := by
  obtain ⟨made₁, names₁, hrun₁⟩ := topItems_run hroot
  obtain ⟨made₂, names₂, hrun₂⟩ := topItems_run hglobal
  have hinitial := Flattened.initial s declared
  have hspells : s.definition.Spells D₁.read s.definition.rootBody.placed root :=
    (hrun₁.spells hinitial.faithful).2
  have hsize : rootScope < D₁.scopes.size := by
    rw [hrun₁.size_eq]
    exact Nat.lt_of_lt_of_le Nat.zero_lt_one (Nat.le_add_right 1 _)
  have hfilled := (hinitial.run hrun₁).fill hspells hsize (by simp)
  have hspells₂ := (hrun₂.spells hfilled.faithful).2
  have hflattened := hfilled.run hrun₂
  exact ⟨⟨.refl _, _, _, [], by simpa using accounts_tops hrun₁ hrun₂, hflattened⟩, hspells₂⟩

/-- The items that are met in building: those of the root, of the global list and of the reachable
entries. -/
def Definition.Meets (d : Definition) (site : Placed) : Prop :=
  site ∈ d.topSites ∨ ∃ name, d.Reachable name ∧ site ∈ d.entrySites name

/-- The rules of a grammar are what the rules that are met in building compile to. -/
theorem Grammar.build_compiles {d : Definition} {h : Host} {g : Grammar}
    (hbuild : Grammar.build d h = .ok g) :
    ∃ sites : List Placed, (∀ site, site ∈ sites ↔ d.Meets site) ∧
      List.Forall₂ (fun site rule => (h.sources d).Compiles site.1 site.2 rule)
        (sites.filterMap Placed.rule?) g.rules.toList := by
  obtain ⟨⟨⟨global, fallback⟩, D⟩, hwhole, rfl⟩ := build_ok hbuild
  obtain ⟨root, D₁, D₂, D₃, nodes, hroot, hglobal, hbodies, rfl⟩ := Sources.whole_ok hwhole
  obtain ⟨hbalanced, -⟩ := Sources.balanced_tops hroot hglobal
  have howed := Sources.owed_le_regionCount hroot hglobal
  obtain ⟨⟨-, made, names, taken, haccounts, hflattened⟩, hpending⟩ :=
    Sources.bodies_ok Balanced.round (Nat.lt_succ_of_le howed) hbalanced hbodies
  refine ⟨made, fun site => ?_, hflattened.rules⟩
  rw [(haccounts.made_perm hpending).mem_iff, List.mem_append, List.mem_flatMap, Definition.Meets]
  simp only [haccounts.mem_names_iff hpending]
  rfl

/-- A grammar is what a definition flattens to.  `names` are the entries in use and `sites` the
items met in building, in the order of the numbers of rules and scopes. -/
structure Grammar.Flattens (g : Grammar) (d : Definition) (h : Host) (names : List String)
    (sites : List Placed) : Prop where
  /-- The entries in use are the reachable ones. -/
  nodup : names.Nodup
  reachable : ∀ name, name ∈ names ↔ d.Reachable name
  /-- Every item of the root, of the global list and of those entries is met once. -/
  met : sites.Perm (d.topSites ++ names.flatMap d.entrySites)
  /-- The rules among them are the rules of the grammar. -/
  rules : List.Forall₂ (fun site rule => (h.sources d).Compiles site.1 site.2 rule)
    (sites.filterMap Placed.rule?) g.rules.toList
  size_rules : g.rules.size =
    ((d.topSites ++ names.flatMap d.entrySites).filterMap Placed.rule?).length
  /-- The regions among them are its scopes, behind the root. -/
  scopes : List.Forall₂ (Scope.Renders d g.read)
    (none :: (sites.filterMap Placed.region?).map some) g.scopes.toList
  size_scopes : g.scopes.size =
    ((d.topSites ++ names.flatMap d.entrySites).filterMap Placed.region?).length + 1
  /-- The alternatives of a scope are the expansion of its own items. -/
  bodies : List.Forall₂ (fun items scope => d.Spells g.read items scope.alternatives)
    (placeFrom "root" 0 d.root :: (sites.filterMap Placed.region?).map RegionSite.placedBody)
    g.scopes.toList
  global : d.Spells g.read (placeFrom "global" 0 d.global) g.global

/-- A grammar that builds is what its definition flattens to when includes are followed wherever
they lead. -/
theorem Grammar.build_flattens {d : Definition} {h : Host} {g : Grammar}
    (hbuild : Grammar.build d h = .ok g) : ∃ names sites, g.Flattens d h names sites := by
  obtain ⟨⟨⟨global, fallback⟩, D⟩, hwhole, rfl⟩ := build_ok hbuild
  obtain ⟨root, D₁, D₂, D₃, nodes, hroot, hglobal, hbodies, rfl⟩ := Sources.whole_ok hwhole
  obtain ⟨hbalanced, hspells⟩ := Sources.balanced_tops hroot hglobal
  have howed := Sources.owed_le_regionCount hroot hglobal
  obtain ⟨⟨hgrows, made, names, taken, haccounts, hflattened⟩, hpending⟩ :=
    Sources.bodies_ok Balanced.round (Nat.lt_succ_of_le howed) hbalanced hbodies
  have hmade := haccounts.made_perm hpending
  exact ⟨names, made, {
    nodup := haccounts.nodup
    reachable := haccounts.mem_names_iff hpending
    met := hmade
    rules := hflattened.rules
    size_rules := hflattened.rules.length_eq.symm.trans (hmade.filterMap _).length_eq
    scopes := hflattened.scopes
    size_scopes := haccounts.size.trans (congrArg (· + 1) (hmade.filterMap _).length_eq)
    bodies := hflattened.forall₂_bodies haccounts hpending
    global := hspells.mono hgrows }⟩

theorem Grammar.build_flattens_parentheses :
    ∃ g, Grammar.build .parentheses {} = .ok g ∧
      ∃ names sites, g.Flattens .parentheses {} names sites := by
  obtain ⟨g, hbuild⟩ := exists_build_parentheses
  exact ⟨g, hbuild, build_flattens hbuild⟩

end RegionTree
