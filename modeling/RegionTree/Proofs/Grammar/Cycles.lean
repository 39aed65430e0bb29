import RegionTree.Proofs.Grammar.Rounds
set_option autoImplicit false

/-!
# Termination and cycles

Building comes to an end by itself.  `Sources.visitTo` follows includes to a depth and then does
something else, and `Sources.drainTo` goes through so many rounds and then does something else; what
they do then makes no difference (`Sources.wholeTo_eq`), because no entry is compiled within itself
and every round leaves less to do.

An include that leads back to an entry being compiled is reported, and it closes a cycle of includes
outside the bodies of regions.  Where building succeeds there is no such cycle, because every entry
is kept behind those that it includes.
-/

namespace RegionTree

open Build

namespace Sources

variable {s : Sources} {resolving : List String} {D : Draft}

/-! ## Termination -/

/-- Follows includes to a depth, where `lost` takes over. -/
def visitTo (s : Sources) (lost : List String → String → String → Build (List Alternative)) :
    Nat → List String → String → String → Build (List Alternative)
  | 0 => lost
  | depth + 1 => s.visitStep (s.visitTo lost depth)

/-- The entries being compiled are different entries of the repository. -/
def Open (s : Sources) (resolving : List String) : Prop :=
  resolving.Nodup ∧ resolving ⊆ s.definition.repository.map Prod.fst

theorem Open.nil : s.Open [] := ⟨List.nodup_nil, List.nil_subset _⟩

theorem Open.cons (h : s.Open resolving) {name : String} (hname : name ∉ resolving) {entry : Entry}
    (hentry : s.definition.entry? name = some entry) : s.Open (name :: resolving) :=
  ⟨List.nodup_cons.mpr ⟨hname, h.1⟩, List.cons_subset.mpr ⟨mem_of_lookup hentry, h.2⟩⟩

theorem Open.length_le (h : s.Open resolving) :
    resolving.length ≤ s.definition.repository.length := by
  have hle := (List.subperm_of_subset h.1 h.2).length_le
  rwa [List.length_map] at hle

/-- The depth is not used up. -/
theorem visitTo_eq {lost lost' : List String → String → String → Build (List Alternative)}
    {depth depth' : Nat} (hopen : s.Open resolving)
    (hdepth : s.definition.repository.length < depth + resolving.length)
    (hdepth' : s.definition.repository.length < depth' + resolving.length) :
    s.visitTo lost depth resolving = s.visitTo lost' depth' resolving := by
  have hlength := hopen.length_le
  induction depth generalizing resolving depth' with
  | zero => omega
  | succ depth ih =>
    cases depth' with
    | zero => omega
    | succ depth' =>
      funext name path D
      rw [visitTo, visitTo, visitStep, visitStep]
      split
      · rfl
      · split
        · rfl
        · next hname =>
          cases hentry : s.definition.entry? name with
          | none => rfl
          | some entry =>
            have hinner := hopen.cons hname hentry
            have hsame : s.visitTo lost depth (name :: resolving) =
                s.visitTo lost' depth' (name :: resolving) := by
              refine ih hinner ?_ ?_ hinner.length_le
              · rw [List.length_cons]
                omega
              · rw [List.length_cons]
                omega
            simp only [hsame]

theorem visitEntry_eq_visitTo (fuel : Nat) :
    s.visitEntry fuel =
      s.visitTo (fun _ name path => fail (.includeCycle path name)) fuel := by
  induction fuel with
  | zero => rfl
  | succ fuel ih => rw [visitEntry_succ, ih, visitTo]

/-- Compiles items that stand in no entry, with includes followed to a depth. -/
def topItemsTo (s : Sources) (lost : List String → String → String → Build (List Alternative))
    (depth : Nat) (path : String) (list : List Item) : Build (List Alternative) :=
  s.items (s.visitTo lost depth []) [] path 0 list

theorem topItemsTo_eq {lost : List String → String → String → Build (List Alternative)}
    {depth : Nat} (hdepth : s.definition.repository.length < depth) :
    s.topItemsTo lost depth = s.topItems := by
  funext path list
  rw [topItemsTo, topItems, visitEntry_eq_visitTo,
    visitTo_eq .nil (by simpa using hdepth) (Nat.lt_succ_self _)]

/-- Compiles the bodies put aside in so many rounds, after which `idle` takes over. -/
def drainTo (compile : String → List Item → Build (List Alternative)) (idle : Build Unit) :
    Nat → Build Unit
  | 0 => idle
  | rounds + 1 => round compile (drainTo compile idle rounds)

theorem bodies_eq_drainTo (fuel : Nat) : s.bodies fuel = drainTo s.topItems (pure ()) fuel := by
  induction fuel with
  | zero => rfl
  | succ fuel ih => rw [bodies_succ, ih, drainTo]

/-- The rounds are not used up. -/
theorem drainTo_eq {idle idle' : Build Unit} {rounds rounds' : Nat}
    (hrounds : D.owed s.definition < rounds) (hrounds' : D.owed s.definition < rounds') :
    drainTo s.topItems idle rounds D = drainTo s.topItems idle' rounds' D := by
  induction rounds generalizing D rounds' with
  | zero => omega
  | succ rounds ih =>
    cases rounds' with
    | zero => omega
    | succ rounds' =>
      rw [drainTo, drainTo, round, round]
      split
      · rfl
      · next b rest hpending =>
        rw [bind_apply, bind_apply]
        cases htop : s.topItems b.path b.items (D.take rest) with
        | error e => rfl
        | ok out =>
          obtain ⟨alternatives, D₁⟩ := out
          have howed := topItems_owed_le htop
          have htake := Draft.owed_take (d := s.definition) hpending
          have hfill : (D₁.fill b.scope alternatives).owed s.definition =
            D₁.owed s.definition := rfl
          exact ih (by omega) (by omega)

/-- Compiles a definition, with includes followed to a depth and bodies compiled in so many
rounds. -/
def wholeTo (s : Sources) (lost : List String → String → String → Build (List Alternative))
    (idle : Build Unit) (depth rounds : Nat) : Build (List Alternative × NodeId) :=
  s.wholeWith (s.topItemsTo lost depth) (drainTo (s.topItemsTo lost depth) idle rounds)

theorem wholeTo_eq {lost : List String → String → String → Build (List Alternative)}
    {idle : Build Unit} {depth rounds : Nat} (declared : List String)
    (hdepth : s.definition.repository.length < depth)
    (hrounds : s.definition.regionCount < rounds) :
    s.wholeTo lost idle depth rounds (.initial declared) = s.whole (.initial declared) := by
  rw [wholeTo, topItemsTo_eq hdepth, whole_eq_wholeWith, bodies_eq_drainTo, wholeWith, wholeWith,
    bind_apply, bind_apply]
  cases hroot : s.topItems "root" s.definition.root (.initial declared) with
  | error e => rfl
  | ok out =>
    obtain ⟨root, D₁⟩ := out
    dsimp only
    split
    · rfl
    · have hfill : changeScope rootScope (fun scope => { scope with alternatives := root }) D₁ =
        .ok ((), D₁.fill rootScope root) := rfl
      simp only [bind_apply, hfill]
      cases hglobal : s.topItems "global" s.definition.global (D₁.fill rootScope root) with
      | error e => rfl
      | ok out =>
        obtain ⟨global, D₂⟩ := out
        have howed := owed_le_regionCount hroot hglobal
        dsimp only
        rw [drainTo_eq (by omega) (Nat.lt_succ_of_le howed)]

end Sources

/-! ## Where cycles are reported -/

/-- Whether an error is a cycle of includes. -/
def BuildError.isCycle : BuildError → Bool
  | .includeCycle _ _ => true
  | _ => false

/-- What does not report a cycle of includes. -/
def NoCycle {α : Type} : Except BuildError α → Prop
  | .ok _ => True
  | .error e => e.isCycle = false

namespace NoCycle

variable {α β : Type}

theorem ok (a : α) : NoCycle (.ok a) := trivial

theorem ne_cycle {x : Except BuildError α} (h : NoCycle x) (path name : String) :
    x ≠ .error (.includeCycle path name) := by
  rintro rfl
  cases h

theorem bind {x : Except BuildError α} {f : α → Except BuildError β} (hx : NoCycle x)
    (hf : ∀ a, NoCycle (f a)) : NoCycle (x >>= f) := by
  cases x with
  | error e => exact hx
  | ok a => exact hf a

theorem map {x : Except BuildError α} (hx : NoCycle x) (f : α → β) : NoCycle (x.map f) := by
  cases x with
  | error e => exact hx
  | ok a => trivial

theorem bindBuild {x : Build α} {f : α → Build β} (hx : ∀ D, NoCycle (x D))
    (hf : ∀ a D, NoCycle (f a D)) (D : Draft) : NoCycle ((x >>= f) D) :=
  (hx D).bind fun p => hf p.1 p.2

theorem lift {x : Except BuildError α} (hx : NoCycle x) (D : Draft) : NoCycle (Build.lift x D) :=
  hx.map _

end NoCycle

namespace Names

variable (n : Names)

theorem noCycle_interpolate (path source : String) : NoCycle (n.interpolate path source) := by
  unfold interpolate
  split <;> trivial

theorem noCycle_compile (path : String) (ignoreCase : Bool) (source : String) :
    NoCycle (compile path ignoreCase source) := by
  unfold compile
  split <;> trivial

theorem noCycle_patternMatcher (path : String) (ignoreCase : Bool) (pieces : List Piece) :
    NoCycle (patternMatcher path ignoreCase pieces) := by
  unfold patternMatcher
  split
  · rfl
  · exact (noCycle_compile ..).map _
  · split <;> trivial

theorem noCycle_words (path : String) (words : List String) : NoCycle (n.words path words) := by
  induction words with
  | nil => exact .ok _
  | cons word rest ih =>
    refine (n.noCycle_interpolate path word).bind ?_
    intro pieces
    split
    · exact ih
    · exact ih.bind fun _ => .ok _
    · rfl

theorem noCycle_matcher (ignoreCase : Bool) (path : String) (source : PatternSource) :
    NoCycle (n.matcher ignoreCase path source) := by
  cases source with
  | regex source => exact (n.noCycle_interpolate ..).bind fun _ => noCycle_patternMatcher ..
  | literal text =>
    refine (n.noCycle_interpolate ..).bind ?_
    intro pieces
    split
    · exact .ok _
    · exact noCycle_patternMatcher ..
  | lookup list =>
    refine (n.noCycle_words ..).bind ?_
    intro words
    split
    · rfl
    · exact .ok _

theorem noCycle_template? (path : String) (source : Option String) :
    NoCycle (n.template? path source) := by
  cases source with
  | none => exact .ok _
  | some source =>
    refine NoCycle.map ?_ _
    simp only [template]
    split <;> trivial

theorem noCycle_setter (path : String) (source : SetterSource) :
    NoCycle (n.setter path source) := by
  unfold setter
  split
  · rfl
  · refine (n.noCycle_template? ..).bind fun _ => .bind ?_ fun _ => .ok _
    cases source.condition with
    | none => exact .ok _
    | some condition =>
      refine (n.noCycle_template? ..).bind fun _ => .bind ?_ fun _ => .ok _
      cases condition.test with
      | nonEmpty => exact .ok _
      | equals text => exact .ok _
      | matchesPattern pattern => exact (noCycle_compile ..).map _

theorem noCycle_setters (path : String) (index : Nat) (sources : List SetterSource) :
    NoCycle (n.setters path index sources) := by
  induction sources generalizing index with
  | nil => exact .ok _
  | cons source rest ih =>
    exact (n.noCycle_setter ..).bind fun _ => (ih _).bind fun _ => .ok _

end Names

namespace Sources

variable {s : Sources} {resolving : List String} {D D' : Draft}

theorem noCycle_declare? (name : Option String) (role : Role) (embedded : Option String)
    (D : Draft) : NoCycle (declare? resolving name role embedded D) := by
  obtain ⟨node, nodes, hok, -⟩ := declare?_spec resolving name role embedded D
  rw [hok]
  exact .ok _

theorem noCycle_captures (path : String) (groups : Nat) (sources : List (Nat × CaptureSource))
    (D : Draft) : NoCycle (s.captures resolving path groups sources D) := by
  induction sources generalizing D with
  | nil => exact .ok _
  | cons first rest ih =>
    obtain ⟨index, source⟩ := first
    rw [captures]
    split
    · rfl
    · refine NoCycle.bindBuild ?_ (fun _ => NoCycle.bindBuild ih fun _ _ => .ok _) D
      intro D
      cases source with
      | node name => exact .ok _
      | function name =>
        rw [capture]
        cases s.functions.findIdx? (· == name) with
        | none =>
          rfl
        | some index => exact .ok _

theorem noCycle_guard? (path : String) (behind : Bool) (source : Option GuardSource) :
    NoCycle (s.guard? path behind source) := by
  cases source with
  | none => exact .ok _
  | some source =>
    refine NoCycle.map ?_ _
    exact (s.names.noCycle_interpolate ..).bind fun _ =>
      (Names.noCycle_patternMatcher ..).bind fun _ => .ok _

/-- A rule is no part of a cycle. -/
theorem noCycle_rule (source : RuleSource) (path : String) (D : Draft) :
    NoCycle (s.rule resolving source path D) := by
  refine NoCycle.bindBuild (noCycle_declare? _ _ _) (fun node => ?_) D
  refine NoCycle.bindBuild (s.names.noCycle_matcher ..).lift fun matcher D => ?_
  split
  · rfl
  · refine NoCycle.bindBuild (noCycle_captures _ _ _) (fun captures => ?_) D
    refine NoCycle.bindBuild (noCycle_guard? ..).lift fun lookbehind => ?_
    refine NoCycle.bindBuild (noCycle_guard? ..).lift fun lookahead => ?_
    exact NoCycle.bindBuild (s.names.noCycle_setters ..).lift fun setters _ => .ok _

theorem noCycle_openingRule (path : String) (alternatives : List Alternative) (D : Draft) :
    NoCycle (openingRule path alternatives D) := by
  unfold openingRule
  split
  · trivial
  · split <;> rfl

theorem noCycle_closingRules (path : String) (alternatives : List Alternative) (D : Draft) :
    NoCycle (closingRules path alternatives D) := by
  induction alternatives generalizing D with
  | nil => exact .ok _
  | cons a rest ih =>
    cases a with
    | rule id => exact NoCycle.bindBuild ih (fun _ _ => .ok _) D
    | region id =>
      rfl

mutual

/-- A cycle reported by an item is reported by something it includes outside the bodies of
regions. -/
theorem item_cycle {visit : String → String → Build (List Alternative)} {at' name : String} :
    (x : Item) → (path : String) → {D : Draft} →
      s.item visit resolving x path D = .error (.includeCycle at' name) →
      ∃ other ∈ x.includes, ∃ place D', visit other place D' = .error (.includeCycle at' name)
  | .reference other, path, D, h => by
    rw [item] at h
    exact ⟨other, by simp [Item.includes], path, D, h⟩
  | .rule source, path, D, h => by
    rw [item, bind_eq_error] at h
    rcases h with h | ⟨_, _, -, h⟩
    · exact absurd h ((noCycle_rule ..).ne_cycle _ _)
    · cases h
  | .region node opening closings body embedded, path, D, h => by
    rw [item] at h
    simp only [bind_eq_error] at h
    rw [Item.includes]
    rcases h with h | ⟨_, _, -, h | ⟨_, _, -, h | ⟨_, _, -, h | ⟨_, _, -, h | ⟨_, _, -, h | h⟩⟩⟩⟩⟩
    · exact absurd h ((noCycle_declare? ..).ne_cycle _ _)
    · cases h
    · obtain ⟨other, hother, hvisit⟩ := item_cycle opening _ h
      exact ⟨other, List.mem_append_left _ hother, hvisit⟩
    · exact absurd h ((noCycle_openingRule ..).ne_cycle _ _)
    · obtain ⟨other, hother, hvisit⟩ := items_cycle closings _ _ h
      exact ⟨other, List.mem_append_right _ hother, hvisit⟩
    · exact absurd h ((noCycle_closingRules ..).ne_cycle _ _)
    · obtain ⟨_, _, -, h | ⟨_, _, -, h | ⟨_, _, -, h⟩⟩⟩ := h
      · cases h
      · cases h
      · cases h

theorem items_cycle {visit : String → String → Build (List Alternative)} {at' name : String} :
    (xs : List Item) → (path : String) → (index : Nat) → {D : Draft} →
      s.items visit resolving path index xs D = .error (.includeCycle at' name) →
      ∃ other ∈ includesAll xs, ∃ place D',
        visit other place D' = .error (.includeCycle at' name)
  | [], path, index, D, h => by
    rw [items] at h
    cases h
  | x :: rest, path, index, D, h => by
    rw [items] at h
    simp only [bind_eq_error] at h
    rw [includesAll]
    rcases h with h | ⟨_, _, -, h | ⟨_, _, -, h⟩⟩
    · obtain ⟨other, hother, hvisit⟩ := item_cycle x _ h
      exact ⟨other, List.mem_append_left _ hother, hvisit⟩
    · obtain ⟨other, hother, hvisit⟩ := items_cycle rest _ _ h
      exact ⟨other, List.mem_append_right _ hother, hvisit⟩
    · cases h

end

theorem entryItems_cycle {visit : String → String → Build (List Alternative)} {entry : Entry}
    {at' last name : String}
    (h : s.entryItems visit resolving name entry D = .error (.includeCycle at' last)) :
    ∃ other ∈ includesAll entry.items, ∃ place D',
      visit other place D' = .error (.includeCycle at' last) := by
  cases entry with
  | item x =>
    obtain ⟨other, hother, hvisit⟩ := item_cycle x _ h
    exact ⟨other, by simpa [Entry.items, includesAll] using hother, hvisit⟩
  | list xs => exact items_cycle xs _ 0 h

/-- An include that reports a cycle leads to one.  The entries being compiled lead to what is
included, so the cycle is closed where one of them is met again. -/
theorem visitEntry_cycle {fuel : Nat} {name path at' last : String} (hopen : s.Open resolving)
    (hfuel : s.definition.repository.length < fuel + resolving.length)
    (hname : s.definition.Reachable name)
    (hchain : ∀ outer ∈ resolving, Relation.TransGen s.definition.Includes outer name)
    (h : s.visitEntry fuel resolving name path D = .error (.includeCycle at' last)) :
    ∃ e, s.definition.Reachable e ∧ Relation.TransGen s.definition.Includes e e := by
  have hlength := hopen.length_le
  induction fuel generalizing resolving name path D with
  | zero => omega
  | succ fuel ih =>
    rw [visitEntry_succ, visitStep] at h
    split at h
    · cases h
    · split at h
      · next hmem => exact ⟨name, hname, hchain name hmem⟩
      · next hmem =>
        cases hentry : s.definition.entry? name with
        | none =>
          rw [hentry] at h
          cases h
        | some entry =>
          rw [hentry] at h
          rcases bind_eq_error.mp h with h | ⟨inner, D₁, -, h⟩
          · obtain ⟨other, hother, place, D₂, h⟩ := entryItems_cycle h
            have hincludes : s.definition.Includes name other := ⟨entry, hentry, hother⟩
            have hinner := hopen.cons hmem hentry
            refine ih hinner (by simp; omega) (hname.of_includes hincludes) ?_ h hinner.length_le
            intro outer houter
            rcases List.mem_cons.mp houter with rfl | houter
            · exact .single hincludes
            · exact (hchain outer houter).tail hincludes
          · rw [keepEntry] at h
            split at h <;> cases h

theorem topItems_cycle {path at' last : String} {items : List Item}
    (hleads : s.definition.Leads ((placeFrom path 0 items).flatMap Placed.sites))
    (h : s.topItems path items D = .error (.includeCycle at' last)) :
    ∃ e, s.definition.Reachable e ∧ Relation.TransGen s.definition.Includes e e := by
  obtain ⟨name, hname, place, D₁, h⟩ := items_cycle items path 0 h
  obtain ⟨site, hsite⟩ := exists_site_of_mem_includesAll items path 0 hname
  rw [sitesFrom_eq_flatMap] at hsite
  exact visitEntry_cycle .nil (by simp) (hleads hsite) (by simp) h

/-- What every round keeps of the accounts. -/
def Accounted (d : Definition) (D : Draft) : Prop :=
  ∃ made names taken, Accounts d (d.tops ++ taken.flatMap Body.placed) made names taken D

theorem Accounted.round {D D₁ : Draft} {b : Body} {rest : List Body}
    {alternatives : List Alternative} {made : List Placed} {names : List String}
    (h : Accounted s.definition D) (hpending : D.pending = b :: rest)
    (hrun : s.Run [] b.placed (D.take rest) alternatives made names D₁) :
    Accounted s.definition (D₁.fill b.scope alternatives) := by
  obtain ⟨made', names', taken, haccounts⟩ := h
  exact ⟨_, _, _, haccounts.round hpending hrun⟩

theorem accounted_tops {declared : List String} {root global : List Alternative} {D₁ D₂ : Draft}
    (hroot : s.topItems "root" s.definition.root (.initial declared) = .ok (root, D₁))
    (hglobal : s.topItems "global" s.definition.global (D₁.fill rootScope root) =
      .ok (global, D₂)) : Accounted s.definition D₂ := by
  obtain ⟨made₁, names₁, hrun₁⟩ := topItems_run hroot
  obtain ⟨made₂, names₂, hrun₂⟩ := topItems_run hglobal
  exact ⟨_, _, [], by simpa using accounts_tops hrun₁ hrun₂⟩

theorem not_cyclic_of_whole {declared : List String} {global : List Alternative}
    {fallback : NodeId} (h : s.whole (.initial declared) = .ok ((global, fallback), D)) :
    ¬ s.definition.Cyclic := by
  obtain ⟨root, D₁, D₂, D₃, nodes, hroot, hglobal, hbodies, -⟩ := whole_ok h
  have howed := owed_le_regionCount hroot hglobal
  obtain ⟨⟨made, names, taken, haccounts⟩, hpending⟩ := bodies_ok Accounted.round
    (Nat.lt_succ_of_le howed) (accounted_tops hroot hglobal) hbodies
  intro hcyclic
  obtain ⟨e, he, hcycle⟩ := Definition.cyclic_iff.mp hcyclic
  exact haccounts.settled.acyclic haccounts.nodup ((haccounts.mem_names_iff hpending e).mpr he)
    hcycle

theorem cyclic_of_whole {declared : List String} {path name : String}
    (h : s.whole (.initial declared) = .error (.includeCycle path name)) :
    s.definition.Cyclic := by
  rw [Definition.cyclic_iff]
  have htops : s.definition.Leads s.definition.topSites := fun _ _ hsite => .top hsite
  rw [Definition.topSites, Definition.tops, List.flatMap_append] at htops
  rcases whole_error h with h | h | ⟨root, D₁, hroot, h | ⟨global, D₂, hglobal, h⟩⟩
  · cases h
  · exact topItems_cycle (htops.mono (List.subset_append_left _ _)) h
  · exact topItems_cycle (htops.mono (List.subset_append_right _ _)) h
  · obtain ⟨D₃, b, rest, ⟨made, names, taken, haccounts⟩, hpending, h⟩ :=
      bodies_error Accounted.round (accounted_tops hroot hglobal) h
    exact topItems_cycle (haccounts.leads_pending (by simp [hpending])) h

end Sources

/-! ## Building -/

/-- Builds a grammar with includes followed to a depth, where `lost` takes over, and with bodies
compiled in so many rounds, after which `idle` takes over. -/
def Grammar.buildTo (lost : List String → String → String → Build (List Alternative)) (idle : Build Unit)
    (depth rounds : Nat) (d : Definition) (h : Host) : Except BuildError Grammar :=
  ((h.sources d).wholeTo lost idle depth rounds (.initial h.declared)).map (.ofDraft d h)

/-- Building comes to an end before it has followed includes deeper than there are entries or gone
through more rounds than there are regions.  A definition that builds is not cyclic, and one that is
refused for a cycle is. -/
theorem Grammar.build_detects_cycles (d : Definition) (h : Host) :
    (∀ lost idle depth rounds, d.repository.length < depth → d.regionCount < rounds →
      Grammar.buildTo lost idle depth rounds d h = Grammar.build d h) ∧
    (∀ g, Grammar.build d h = .ok g → ¬ d.Cyclic) ∧
    (∀ path name, Grammar.build d h = .error (.includeCycle path name) → d.Cyclic) := by
  refine ⟨?_, ?_, ?_⟩
  · intro lost idle depth rounds hdepth hrounds
    have hwhole : (h.sources d).wholeTo lost idle depth rounds (.initial h.declared) =
        (h.sources d).whole (.initial h.declared) :=
      (h.sources d).wholeTo_eq h.declared hdepth hrounds
    rw [buildTo, hwhole, build_eq]
  · intro g hbuild
    obtain ⟨⟨⟨global, fallback⟩, D⟩, hwhole, -⟩ := build_ok hbuild
    exact (h.sources d).not_cyclic_of_whole hwhole
  · intro path name hbuild
    exact (h.sources d).cyclic_of_whole (build_error hbuild)

/-- A region that may hold itself, but that is also needed to open itself. -/
def Definition.selfOpening : Definition :=
  { Definition.parentheses with
    repository := [("group", .item (.region none (.reference "open") [.rule (.ofText ")")]
      [.reference "group"] none)), ("open", .item (.reference "group"))] }

theorem Grammar.build_detects_cycles_selfOpening :
    (∃ g, Grammar.build .parentheses {} = .ok g) ∧ ¬ Definition.parentheses.Cyclic ∧
      Grammar.build .selfOpening {} = .error (.includeCycle "repository.open" "group") ∧
      Definition.selfOpening.Cyclic := by
  obtain ⟨g, hbuild⟩ := exists_build_parentheses
  have hcycle : Grammar.build .selfOpening {} =
    .error (.includeCycle "repository.open" "group") := rfl
  exact ⟨⟨g, hbuild⟩, (build_detects_cycles .parentheses {}).2.1 g hbuild, hcycle,
    (build_detects_cycles .selfOpening {}).2.2 _ _ hcycle⟩

end RegionTree
