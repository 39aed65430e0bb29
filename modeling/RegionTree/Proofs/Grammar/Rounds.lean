import RegionTree.Proofs.Grammar.Bookkeeping
set_option autoImplicit false

/-!
# Bodies in rounds

After the root and the global list the bodies put aside are compiled, one each round, and a round
may put aside more of them.  `Sources.bodies_ok` and `Sources.bodies_error` package the induction
over the rounds: whatever a round keeps holds when no body is left, or when a round fails.

`Accounts` is the bookkeeping that every round keeps.  At the end it says that the items met are all
items of the root, of the global list and of the reachable entries, each once
(`Accounts.made_perm`), and that the entries compiled are the reachable ones
(`Accounts.mem_names_iff`).
-/

namespace RegionTree

open Build

/-! ## Rounds -/

namespace Draft

/-- The draft without the body put aside last. -/
def take (D : Draft) (rest : List Body) : Draft := { D with pending := rest }

@[simp] theorem keys_take (D : Draft) (rest : List Body) : (D.take rest).keys = D.keys := rfl
@[simp] theorem pending_take (D : Draft) (rest : List Body) : (D.take rest).pending = rest := rfl
@[simp] theorem scopes_take (D : Draft) (rest : List Body) : (D.take rest).scopes = D.scopes := rfl

theorem owed_take {d : Definition} {D : Draft} {b : Body} {rest : List Body}
    (h : D.pending = b :: rest) :
    (D.take rest).owed d + regionCounts b.items + 1 = D.owed d := by
  simp only [owed, pending_take, keys_take, h, List.map_cons, List.sum_cons]
  omega

end Draft

namespace Sources

variable {s : Sources} {D D' : Draft}

/-- A round: the body put aside last is compiled and `next` goes on. -/
def round (compile : String → List Item → Build (List Alternative))
    (next : Build Unit) : Build Unit := fun D =>
  match D.pending with
  | [] => .ok ((), D)
  | b :: rest =>
    (compile b.path b.items >>= fun alternatives D₁ => next (D₁.fill b.scope alternatives))
      (D.take rest)

theorem bodies_succ (fuel : Nat) : s.bodies (fuel + 1) = round s.topItems (s.bodies fuel) := by
  funext D
  rw [bodies, round, bind_apply, nextBody]
  cases hpending : D.pending with
  | nil => rfl
  | cons b rest => rfl

theorem topItems_owed_le {path : String} {items : List Item} {alternatives : List Alternative}
    (h : s.topItems path items D = .ok (alternatives, D')) :
    D'.owed s.definition ≤ D.owed s.definition + regionCounts items := by
  obtain ⟨made, names, hrun⟩ := topItems_run h
  have howed := hrun.owed_le
  rwa [sum_regionCount_placeFrom] at howed

/-- What compiling a body keeps holds when all bodies have been compiled. -/
theorem bodies_invariant {P : Draft → Prop}
    (hround : ∀ {D D₁ : Draft} {b : Body} {rest : List Body} {alternatives : List Alternative},
      P D → D.pending = b :: rest →
      s.topItems b.path b.items (D.take rest) = .ok (alternatives, D₁) →
      P (D₁.fill b.scope alternatives))
    {fuel : Nat} (hfuel : D.owed s.definition < fuel) (hD : P D)
    (h : s.bodies fuel D = .ok ((), D')) : P D' ∧ D'.pending = [] := by
  induction fuel generalizing D with
  | zero => omega
  | succ fuel ih =>
    rw [bodies_succ, round] at h
    split at h
    · next hpending =>
      obtain ⟨-, rfl⟩ := ok_inj h
      exact ⟨hD, hpending⟩
    · next b rest hpending =>
      obtain ⟨alternatives, D₁, htop, h⟩ := bind_eq_ok.mp h
      have howed := topItems_owed_le htop
      have htake := Draft.owed_take (d := s.definition) hpending
      have hfill : (D₁.fill b.scope alternatives).owed s.definition = D₁.owed s.definition := rfl
      exact ih (by omega) (hround hD hpending htop) h

/-- What every round keeps holds when all bodies have been compiled. -/
theorem bodies_ok {P : Draft → Prop}
    (hround : ∀ {D D₁ : Draft} {b : Body} {rest : List Body} {alternatives : List Alternative}
      {made : List Placed} {names : List String}, P D → D.pending = b :: rest →
      s.Run [] b.placed (D.take rest) alternatives made names D₁ →
      P (D₁.fill b.scope alternatives))
    {fuel : Nat} (hfuel : D.owed s.definition < fuel) (hD : P D)
    (h : s.bodies fuel D = .ok ((), D')) : P D' ∧ D'.pending = [] := by
  refine bodies_invariant (fun hP hpending htop => ?_) hfuel hD h
  obtain ⟨made, names, hrun⟩ := topItems_run htop
  exact hround hP hpending hrun

/-- When a round fails, what every round keeps holds before it. -/
theorem bodies_error {P : Draft → Prop}
    (hround : ∀ {D D₁ : Draft} {b : Body} {rest : List Body} {alternatives : List Alternative}
      {made : List Placed} {names : List String}, P D → D.pending = b :: rest →
      s.Run [] b.placed (D.take rest) alternatives made names D₁ →
      P (D₁.fill b.scope alternatives))
    {fuel : Nat} (hD : P D) {e : BuildError} (h : s.bodies fuel D = .error e) :
    ∃ D₁ b rest, P D₁ ∧ D₁.pending = b :: rest ∧
      s.topItems b.path b.items (D₁.take rest) = .error e := by
  induction fuel generalizing D with
  | zero => cases h
  | succ fuel ih =>
    rw [bodies_succ, round] at h
    split at h
    · cases h
    · next b rest hpending =>
      rcases bind_eq_error.mp h with htop | ⟨alternatives, D₁, htop, h⟩
      · exact ⟨D, b, rest, hD, hpending, htop⟩
      · obtain ⟨made, names, hrun⟩ := topItems_run htop
        exact ih (hround hD hpending hrun) h

end Sources

/-! ## Accounts -/

/-- The accounts of a draft: the items given to runs so far, the items met, the entries compiled
and the bodies taken. -/
structure Accounts (d : Definition) (given made : List Placed) (names : List String)
    (taken : List Body) (D : Draft) : Prop where
  keys : D.keys = names
  nodup : names.Nodup
  settled : d.Settled names
  size : D.scopes.size = (made.filterMap Placed.region?).length + 1
  queue : (taken ++ D.pending).Perm (bodiesFrom 1 (made.filterMap Placed.region?))
  balance : (made ++ (made.filterMap Placed.region?).flatMap RegionSite.bodySites).Perm
    (given.flatMap Placed.sites ++ names.flatMap d.entrySites)
  included : ∀ ⦃path name : String⦄, ⟨path, .reference name⟩ ∈ made → name ∈ names
  leads : d.Leads (given.flatMap Placed.sites)
  reachable : ∀ name ∈ names, d.Reachable name

namespace Accounts

variable {s : Sources} {d : Definition} {given made made' items : List Placed}
  {names names' : List String} {taken : List Body} {D D' : Draft}
  {alternatives : List Alternative}

theorem initial (d : Definition) (declared : List String) :
    Accounts d [] [] [] [] (.initial declared) where
  keys := rfl
  nodup := List.nodup_nil
  settled := .nil
  size := rfl
  queue := .refl _
  balance := .refl _
  included := by simp
  leads := by
    intro path name hmem
    cases hmem
  reachable := by simp

theorem fill (h : Accounts d given made names taken D) (id : ScopeId)
    (alternatives : List Alternative) :
    Accounts d given made names taken (D.fill id alternatives) :=
  { h with size := by rw [Draft.size_fill, h.size] }

theorem run (h : Accounts s.definition given made names taken D)
    (hitems : s.definition.Leads (items.flatMap Placed.sites))
    (hrun : s.Run [] items D alternatives made' names' D') :
    Accounts s.definition (given ++ items) (made ++ made') (names' ++ names) taken D' where
  keys := by rw [hrun.keys_eq, h.keys]
  nodup := by
    have hnodup := hrun.nodup_keys (h.keys ▸ h.nodup)
    rwa [hrun.keys_eq, h.keys] at hnodup
  size := by
    rw [hrun.size_eq, h.size, List.filterMap_append, List.length_append]
    omega
  settled := by
    have hsettled := hrun.settled (h.keys ▸ h.settled)
    rwa [hrun.keys_eq, h.keys] at hsettled
  queue := by
    have hqueue := h.queue
    have hpending := hrun.pending_perm
    rw [List.perm_iff_count] at hqueue hpending ⊢
    intro b
    have h₁ := hqueue b
    have h₂ := hpending b
    rw [h.size, Nat.add_comm] at h₂
    simp only [List.filterMap_append, bodiesFrom_append, List.count_append] at h₁ h₂ ⊢
    omega
  balance := by
    have hgiven := h.balance
    have hmet := hrun.balance
    rw [List.perm_iff_count] at hgiven hmet ⊢
    intro a
    have h₁ := hgiven a
    have h₂ := hmet a
    simp only [List.filterMap_append, List.flatMap_append, List.count_append] at h₁ h₂ ⊢
    omega
  included := by
    intro path name hmem
    rcases List.mem_append.mp hmem with hmem | hmem
    · exact List.mem_append_right _ (h.included hmem)
    · have hkeys := hrun.mem_keys_of_mem_made hmem
      rwa [hrun.keys_eq, h.keys] at hkeys
  leads := by
    intro path name hmem
    rw [List.flatMap_append, List.mem_append] at hmem
    exact hmem.elim (fun hmem => h.leads hmem) fun hmem => hitems hmem
  reachable := by
    intro name hname
    rcases List.mem_append.mp hname with hname | hname
    · exact hrun.reachable hitems name hname
    · exact h.reachable name hname

/-- The body put aside last is taken. -/
theorem take {b : Body} {rest : List Body} (h : Accounts d given made names taken D)
    (hpending : D.pending = b :: rest) :
    Accounts d given made names (taken ++ [b]) (D.take rest) :=
  { h with
    queue := by
      rw [Draft.pending_take, List.append_assoc, List.singleton_append, ← hpending]
      exact h.queue }

/-- A body put aside includes only what is reachable. -/
theorem leads_pending (h : Accounts d given made names taken D) {b : Body} (hb : b ∈ D.pending) :
    d.Leads b.sites := by
  intro path name hmem
  have hbody : b ∈ bodiesFrom 1 (made.filterMap Placed.region?) :=
    h.queue.subset (List.mem_append_right _ hb)
  have hregion := List.mem_flatMap.mpr ⟨b, hbody, hmem⟩
  rw [flatMap_sites_bodiesFrom] at hregion
  rcases List.mem_append.mp (h.balance.subset (List.mem_append_right _ hregion)) with hmem | hmem
  · exact h.leads hmem
  · obtain ⟨outer, houter, hmem⟩ := List.mem_flatMap.mp hmem
    exact .entry (h.reachable outer houter) hmem

/-- The accounts after a round. -/
theorem round {tops : List Placed} {b : Body} {rest : List Body}
    (h : Accounts s.definition (tops ++ taken.flatMap Body.placed) made names taken D)
    (hpending : D.pending = b :: rest)
    (hrun : s.Run [] b.placed (D.take rest) alternatives made' names' D') :
    Accounts s.definition (tops ++ (taken ++ [b]).flatMap Body.placed) (made ++ made')
      (names' ++ names) (taken ++ [b]) (D'.fill b.scope alternatives) := by
  have hleads : s.definition.Leads b.sites := h.leads_pending (by simp [hpending])
  have hround := ((h.take hpending).run hleads hrun).fill b.scope alternatives
  rwa [List.append_assoc, ← List.flatMap_singleton Body.placed b, ← List.flatMap_append] at hround

/-- A body put aside waits for the scope of a region. -/
theorem scope_pending (h : Accounts d given made names taken D) {b : Body} (hb : b ∈ D.pending) :
    rootScope < b.scope ∧ b.scope < D.scopes.size := by
  have hbody : b ∈ bodiesFrom 1 (made.filterMap Placed.region?) :=
    h.queue.subset (List.mem_append_right _ hb)
  have hscope := List.mem_map_of_mem (f := Body.scope) hbody
  rw [map_scope_bodiesFrom, List.mem_range'_1] at hscope
  rw [h.size]
  exact ⟨hscope.1, Nat.lt_of_lt_of_eq hscope.2 (Nat.add_comm 1 _)⟩

/-- No two bodies wait for one scope. -/
theorem scope_ne_of_mem_taken {b : Body} {rest : List Body}
    (h : Accounts d given made names taken D) (hpending : D.pending = b :: rest) :
    ∀ c ∈ taken, c.scope ≠ b.scope := by
  have hnodup : ((taken ++ D.pending).map Body.scope).Nodup := by
    rw [(h.queue.map Body.scope).nodup_iff, map_scope_bodiesFrom]
    exact List.nodup_range'
  rw [hpending, List.map_append, List.nodup_append] at hnodup
  intro c hc
  exact hnodup.2.2 c.scope (List.mem_map_of_mem hc) b.scope (by simp)

/-- The items met and those in the bodies still put aside are the items of the root, of the global
list and of the entries compiled. -/
theorem sites_perm (h : Accounts d (d.tops ++ taken.flatMap Body.placed) made names taken D) :
    (made ++ D.pending.flatMap Body.sites).Perm (d.topSites ++ names.flatMap d.entrySites) := by
  have htaken : (taken.flatMap Body.sites ++ D.pending.flatMap Body.sites).Perm
      ((made.filterMap Placed.region?).flatMap RegionSite.bodySites) := by
    rw [← List.flatMap_append, ← flatMap_sites_bodiesFrom 1]
    exact h.queue.flatMap_right _
  have hsites : (taken.flatMap Body.placed).flatMap Placed.sites = taken.flatMap Body.sites :=
    List.flatMap_assoc
  have hbalance := h.balance
  rw [Definition.topSites]
  rw [List.perm_iff_count] at hbalance htaken ⊢
  intro a
  have h₁ := hbalance a
  have h₂ := htaken a
  simp only [List.flatMap_append, hsites, List.count_append] at h₁ h₂ ⊢
  omega

/-- When no body is left, every item of the root, of the global list and of the entries compiled
has been met once. -/
theorem made_perm (h : Accounts d (d.tops ++ taken.flatMap Body.placed) made names taken D)
    (hpending : D.pending = []) :
    made.Perm (d.topSites ++ names.flatMap d.entrySites) := by
  have hsites := h.sites_perm
  rwa [hpending, List.flatMap_nil, List.append_nil] at hsites

/-- When no body is left, the entries compiled are those that are reachable. -/
theorem mem_names_iff (h : Accounts d (d.tops ++ taken.flatMap Body.placed) made names taken D)
    (hpending : D.pending = []) (name : String) : name ∈ names ↔ d.Reachable name := by
  constructor
  · exact h.reachable name
  · intro hname
    have hmade := h.made_perm hpending
    induction hname with
    | top hsite => exact h.included (hmade.symm.subset (List.mem_append_left _ hsite))
    | @entry outer _ _ _ hsite ih =>
      have hsites := List.mem_flatMap.mpr ⟨outer, ih, hsite⟩
      exact h.included (hmade.symm.subset (List.mem_append_right _ hsites))

end Accounts

/-! ## The whole definition -/

namespace Sources

variable {s : Sources} {D D' : Draft}

theorem nodeProperties_spec (nodes : List (String × NodeSource)) (D : Draft) :
    ∃ table, nodeProperties nodes D = .ok ((), { D with nodes := table }) := by
  induction nodes generalizing D with
  | nil => exact ⟨D.nodes, rfl⟩
  | cons first rest ih =>
    obtain ⟨name, node⟩ := first
    rw [nodeProperties]
    cases node.autocomplete with
    | none => exact ih _
    | some tag => exact ih _

/-- Compiles a definition, where `compile` compiles items that stand in no entry and `drain` the
bodies put aside. -/
def wholeWith (s : Sources) (compile : String → List Item → Build (List Alternative))
    (drain : Build Unit) : Build (List Alternative × NodeId) := do
  let root ← compile "root" s.definition.root
  if root.isEmpty then fail (.emptyRules "root")
  else
    changeScope rootScope fun scope => { scope with alternatives := root }
    let global ← compile "global" s.definition.global
    drain
    let fallback ← declare? [] s.definition.fallback .full none
    nodeProperties s.definition.nodes
    pure (global, fallback.getD .error)

theorem whole_eq_wholeWith :
    s.whole = s.wholeWith s.topItems (s.bodies (s.definition.regionCount + 1)) := rfl

/-- The steps of a definition that compiles. -/
theorem whole_steps {global : List Alternative} {fallback : NodeId}
    (h : s.whole D = .ok ((global, fallback), D')) :
    ∃ root D₁ D₂ D₃ node D₄,
      s.topItems "root" s.definition.root D = .ok (root, D₁) ∧
      s.topItems "global" s.definition.global (D₁.fill rootScope root) = .ok (global, D₂) ∧
      s.bodies (s.definition.regionCount + 1) D₂ = .ok ((), D₃) ∧
      declare? [] s.definition.fallback .full none D₃ = .ok (node, D₄) ∧
      nodeProperties s.definition.nodes D₄ = .ok ((), D') := by
  rw [whole, bind_eq_ok] at h
  obtain ⟨root, D₁, hroot, h⟩ := h
  split at h
  · cases h
  · simp only [bind_eq_ok] at h
    obtain ⟨_, D₂, hfill, found, D₃, hglobal, _, D₄, hbodies, node, D₅, hnode, _, D₆, hnodes, h⟩ := h
    obtain ⟨-, rfl⟩ := ok_inj hfill
    obtain ⟨hout, rfl⟩ := ok_inj h
    obtain ⟨rfl, -⟩ := Prod.mk.inj hout
    exact ⟨root, D₁, D₃, D₄, node, D₅, hroot, hglobal, hbodies, hnode, hnodes⟩

theorem whole_ok {global : List Alternative} {fallback : NodeId}
    (h : s.whole D = .ok ((global, fallback), D')) :
    ∃ root D₁ D₂ D₃ nodes,
      s.topItems "root" s.definition.root D = .ok (root, D₁) ∧
      s.topItems "global" s.definition.global (D₁.fill rootScope root) = .ok (global, D₂) ∧
      s.bodies (s.definition.regionCount + 1) D₂ = .ok ((), D₃) ∧ D' = { D₃ with nodes } := by
  obtain ⟨root, D₁, D₂, D₃, node, D₄, hroot, hglobal, hbodies, hnode, hnodes⟩ := whole_steps h
  obtain ⟨node', nodes₁, hnode', -⟩ := declare?_spec [] s.definition.fallback .full none D₃
  obtain ⟨rfl, rfl⟩ := ok_inj (hnode.symm.trans hnode')
  obtain ⟨nodes₂, hnodes'⟩ := nodeProperties_spec s.definition.nodes { D₃ with nodes := nodes₁ }
  obtain ⟨-, rfl⟩ := ok_inj (hnodes.symm.trans hnodes')
  exact ⟨root, D₁, D₂, D₃, nodes₂, hroot, hglobal, hbodies, rfl⟩

/-- Only an empty root makes a definition fail beside what fails in its items. -/
theorem whole_error {e : BuildError} (h : s.whole D = .error e) :
    e = .emptyRules "root" ∨ s.topItems "root" s.definition.root D = .error e ∨
      ∃ root D₁, s.topItems "root" s.definition.root D = .ok (root, D₁) ∧
        (s.topItems "global" s.definition.global (D₁.fill rootScope root) = .error e ∨
          ∃ global D₂,
            s.topItems "global" s.definition.global (D₁.fill rootScope root) = .ok (global, D₂) ∧
            s.bodies (s.definition.regionCount + 1) D₂ = .error e) := by
  rw [whole, bind_eq_error] at h
  rcases h with h | ⟨root, D₁, hroot, h⟩
  · exact .inr (.inl h)
  · split at h
    · exact .inl (Except.error.inj h).symm
    · refine .inr (.inr ⟨root, D₁, hroot, ?_⟩)
      simp only [bind_eq_error] at h
      rcases h with h | ⟨_, D₂, hfill, h⟩
      · cases h
      · obtain ⟨-, rfl⟩ := ok_inj hfill
        rcases h with h | ⟨global, D₂, hglobal, h⟩
        · exact .inl h
        · refine .inr ⟨global, D₂, hglobal, ?_⟩
          rcases h with h | ⟨_, D₃, -, h | ⟨node, D₄, -, h | ⟨_, D₅, -, h⟩⟩⟩
          · exact h
          · obtain ⟨_, _, hok, -⟩ := declare?_spec [] s.definition.fallback .full none D₃
            cases hok.symm.trans h
          · obtain ⟨_, hok⟩ := nodeProperties_spec s.definition.nodes D₄
            cases hok.symm.trans h
          · cases h

theorem owed_initial_le (d : Definition) (declared : List String) :
    (Draft.initial declared).owed d ≤ entryRegionCounts d.repository := by
  have howed : (Draft.initial declared).owed d = 0 + d.unvisited [] := rfl
  rw [howed, Nat.zero_add]
  exact entryRegionCounts_le_of_sublist List.filter_sublist

/-- The regions of a definition are enough for the bodies put aside by the root and the global
list, and by what follows. -/
theorem owed_le_regionCount {declared : List String} {root global : List Alternative}
    {D₁ D₂ : Draft}
    (hroot : s.topItems "root" s.definition.root (.initial declared) = .ok (root, D₁))
    (hglobal : s.topItems "global" s.definition.global (D₁.fill rootScope root) =
      .ok (global, D₂)) : D₂.owed s.definition ≤ s.definition.regionCount := by
  have h₀ := owed_initial_le s.definition declared
  have h₁ := topItems_owed_le hroot
  have h₂ := topItems_owed_le hglobal
  have hfill : (D₁.fill rootScope root).owed s.definition = D₁.owed s.definition := rfl
  rw [Definition.regionCount]
  omega

/-- The accounts when the root and the global list have been compiled. -/
theorem accounts_tops {declared : List String} {root global : List Alternative} {D₁ D₂ : Draft}
    {made₁ made₂ : List Placed} {names₁ names₂ : List String}
    (hroot : s.Run [] (placeFrom "root" 0 s.definition.root) (.initial declared) root made₁ names₁
      D₁)
    (hglobal : s.Run [] (placeFrom "global" 0 s.definition.global) (D₁.fill rootScope root) global
      made₂ names₂ D₂) :
    Accounts s.definition s.definition.tops (made₁ ++ made₂) (names₂ ++ names₁) [] D₂ := by
  have htops : s.definition.Leads s.definition.topSites := fun _ _ hsite => .top hsite
  rw [Definition.topSites, Definition.tops, List.flatMap_append] at htops
  have haccounts := (Accounts.initial s.definition declared).run
    (htops.mono (List.subset_append_left _ _)) hroot
  rw [List.append_nil] at haccounts
  exact (haccounts.fill rootScope root).run (htops.mono (List.subset_append_right _ _)) hglobal

end Sources

/-- What a definition and a host give to build a grammar from. -/
def Host.sources (h : Host) (d : Definition) : Sources :=
  ⟨d, .ofDefinition d, h.functions.map Prod.fst⟩

/-- The grammar in a draft, given the global alternatives and the fallback node. -/
def Grammar.ofDraft (d : Definition) (h : Host) (out : (List Alternative × NodeId) × Draft) :
    Grammar where
  name := d.name
  rules := out.2.rules
  scopes := out.2.scopes
  global := out.1.1
  fallback := out.1.2
  nodes := out.2.nodes
  symbols := (Names.ofDefinition d).symbols
  constants := ⟨h.identity, (Names.ofDefinition d).bind d.constants⟩
  initialContext := (Names.ofDefinition d).bind d.context
  functions := h.functions
  limits := h.limits

theorem Grammar.build_eq (d : Definition) (h : Host) :
    Grammar.build d h = ((h.sources d).whole (.initial h.declared)).map (Grammar.ofDraft d h) := by
  change (h.sources d).whole (.initial h.declared) >>= _ = _
  cases (h.sources d).whole (.initial h.declared) with
  | error e => rfl
  | ok out => rfl

theorem Grammar.build_ok {d : Definition} {h : Host} {g : Grammar}
    (hbuild : Grammar.build d h = .ok g) :
    ∃ out, (h.sources d).whole (.initial h.declared) = .ok out ∧ g = Grammar.ofDraft d h out := by
  rw [build_eq] at hbuild
  cases hwhole : (h.sources d).whole (.initial h.declared) with
  | error e =>
    rw [hwhole] at hbuild
    cases hbuild
  | ok out =>
    rw [hwhole] at hbuild
    exact ⟨out, rfl, (Except.ok.inj hbuild).symm⟩

theorem Grammar.build_error {d : Definition} {h : Host} {e : BuildError}
    (hbuild : Grammar.build d h = .error e) :
    (h.sources d).whole (.initial h.declared) = .error e := by
  rw [build_eq] at hbuild
  cases hwhole : (h.sources d).whole (.initial h.declared) with
  | error e' =>
    rw [hwhole] at hbuild
    exact congrArg _ (Except.error.inj hbuild)
  | ok out =>
    rw [hwhole] at hbuild
    cases hbuild

/-- A rule that matches a text. -/
def RuleSource.ofText (text : String) : RuleSource :=
  ⟨none, .literal text, [], none, none, [], false⟩

/-- Groups in parentheses, which may hold groups. -/
def Definition.parentheses : Definition where
  name := "parentheses"
  ignoreCase := false
  constants := []
  context := []
  fallback := none
  root := [.reference "group"]
  global := []
  repository := [("group", .item (.region none (.reference "open") [.rule (.ofText ")")]
    [.reference "group"] none)), ("open", .item (.rule (.ofText "(")))]
  nodes := []

theorem Grammar.exists_build_parentheses : ∃ g, Grammar.build .parentheses {} = .ok g := by
  have hok : (Grammar.build .parentheses {}).toOption.isSome = true := by decide +kernel
  cases hbuild : Grammar.build .parentheses {} with
  | error e =>
    rw [hbuild] at hok
    cases hok
  | ok g => exact ⟨g, rfl⟩

end RegionTree
