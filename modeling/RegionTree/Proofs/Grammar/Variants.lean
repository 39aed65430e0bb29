import RegionTree.Proofs.Grammar.Rounds
import Mathlib.Data.List.Forall2
set_option autoImplicit false

/-!
# Definitions that differ in some rules

Two definitions are variants of each other if they are the same but for some rules, which are
related in some way (`Definition.Variant`).  Building them goes through the same steps.  If a rule
that compiles is related to none that fails but with certain errors, then a definition that builds
has no variant that fails but with such an error (`Definition.Variant.build`).

`Transfers` says this of a single step: where one step succeeds on a draft, another succeeds on a
variant of the draft, with a related result, or fails with such an error.
-/

namespace RegionTree

variable {R : RuleSource → RuleSource → Prop} {E : BuildError → Prop}

mutual

/-- Items that are the same but for some rules, which are related. -/
inductive Item.Variant (R : RuleSource → RuleSource → Prop) : Item → Item → Prop
  | reference (name : String) : Item.Variant R (.reference name) (.reference name)
  | rule {a b : RuleSource} : R a b → Item.Variant R (.rule a) (.rule b)
  | region {opening opening' : Item} {closings closings' body body' : List Item}
      (node embedded : Option String) :
      Item.Variant R opening opening' → ItemsVariant R closings closings' →
      ItemsVariant R body body' →
      Item.Variant R (.region node opening closings body embedded)
        (.region node opening' closings' body' embedded)

/-- Lists of items that are the same but for some rules, which are related. -/
inductive ItemsVariant (R : RuleSource → RuleSource → Prop) : List Item → List Item → Prop
  | nil : ItemsVariant R [] []
  | cons {x y : Item} {xs ys : List Item} :
      Item.Variant R x y → ItemsVariant R xs ys → ItemsVariant R (x :: xs) (y :: ys)

end

/-- Entries that are the same but for some rules, which are related. -/
inductive Entry.Variant (R : RuleSource → RuleSource → Prop) : Entry → Entry → Prop
  | item {x y : Item} : Item.Variant R x y → Entry.Variant R (.item x) (.item y)
  | list {xs ys : List Item} : ItemsVariant R xs ys → Entry.Variant R (.list xs) (.list ys)

/-- Entries of a repository under one name. -/
def EntryPair (R : RuleSource → RuleSource → Prop) (a b : String × Entry) : Prop :=
  a.1 = b.1 ∧ a.2.Variant R b.2

/-- Definitions that are the same but for some rules, which are related. -/
structure Definition.Variant (R : RuleSource → RuleSource → Prop) (d d' : Definition) : Prop where
  ignoreCase : d'.ignoreCase = d.ignoreCase
  constants : d'.constants = d.constants
  context : d'.context = d.context
  fallback : d'.fallback = d.fallback
  root : ItemsVariant R d.root d'.root
  global : ItemsVariant R d.global d'.global
  repository : List.Forall₂ (EntryPair R) d.repository d'.repository
  nodes : d'.nodes = d.nodes

/-- Bodies of one region that are the same but for some rules, which are related. -/
structure Body.Variant (R : RuleSource → RuleSource → Prop) (b b' : Body) : Prop where
  scope : b'.scope = b.scope
  items : ItemsVariant R b.items b'.items
  path : b'.path = b.path

/-- Drafts that are the same but for the rules and for those in the bodies put aside. -/
structure Draft.Variant (R : RuleSource → RuleSource → Prop) (D D' : Draft) : Prop where
  nodes : D'.nodes = D.nodes
  rules : D'.rules.size = D.rules.size
  scopes : D'.scopes = D.scopes
  resolved : D'.resolved = D.resolved
  pending : List.Forall₂ (Body.Variant R) D.pending D'.pending

/-! ## The same definition -/

mutual

theorem Item.Variant.refl (hR : ∀ a, R a a) : (x : Item) → x.Variant R x
  | .reference name => .reference name
  | .rule source => .rule (hR source)
  | .region node opening closings body embedded =>
    .region node embedded (Item.Variant.refl hR opening) (ItemsVariant.refl hR closings)
      (ItemsVariant.refl hR body)

theorem ItemsVariant.refl (hR : ∀ a, R a a) : (xs : List Item) → ItemsVariant R xs xs
  | [] => .nil
  | x :: xs => .cons (Item.Variant.refl hR x) (ItemsVariant.refl hR xs)

end

theorem Entry.Variant.refl (hR : ∀ a, R a a) (e : Entry) : e.Variant R e := by
  cases e with
  | item x => exact .item (.refl hR x)
  | list xs => exact .list (.refl hR xs)

theorem Definition.Variant.refl (hR : ∀ a, R a a) (d : Definition) : d.Variant R d :=
  ⟨rfl, rfl, rfl, rfl, .refl hR _, .refl hR _,
    List.forall₂_same.mpr fun _ _ => ⟨rfl, .refl hR _⟩, rfl⟩

/-- The items of variants of an entry. -/
theorem Entry.Variant.items {e e' : Entry} (h : e.Variant R e') :
    ItemsVariant R e.items e'.items := by
  cases h with
  | item hx => exact .cons hx .nil
  | list hxs => exact hxs

/-! ## Regions -/

mutual

theorem Item.Variant.regionCount_eq : {x y : Item} → x.Variant R y → y.regionCount = x.regionCount
  | _, _, .reference _ => rfl
  | _, _, .rule _ => rfl
  | _, _, .region _ _ hopening hclosings hbody => by
    rw [Item.regionCount, Item.regionCount, hopening.regionCount_eq, hclosings.regionCounts_eq,
      hbody.regionCounts_eq]

theorem ItemsVariant.regionCounts_eq :
    {xs ys : List Item} → ItemsVariant R xs ys → regionCounts ys = regionCounts xs
  | _, _, .nil => rfl
  | _, _, .cons hx hxs => by
    rw [regionCounts, regionCounts, hx.regionCount_eq, hxs.regionCounts_eq]

end

theorem Definition.Variant.regionCount_eq {d d' : Definition} (h : d.Variant R d') :
    d'.regionCount = d.regionCount := by
  have hentries : entryRegionCounts d'.repository = entryRegionCounts d.repository := by
    have hrepository := h.repository
    generalize d.repository = entries, d'.repository = entries' at hrepository
    induction hrepository with
    | nil => rfl
    | cons hentry _ ih =>
      rw [entryRegionCounts, entryRegionCounts, ih, hentry.2.items.regionCounts_eq]
  rw [Definition.regionCount, Definition.regionCount, h.root.regionCounts_eq,
    h.global.regionCounts_eq, hentries]

theorem Definition.Variant.entry? {d d' : Definition} (h : d.Variant R d') (name : String) :
    Option.Rel (Entry.Variant R) (d.entry? name) (d'.entry? name) := by
  rw [Definition.entry?, Definition.entry?]
  have hrepository := h.repository
  generalize d.repository = entries, d'.repository = entries' at hrepository
  induction hrepository with
  | nil => exact .none
  | @cons a b _ _ hentry _ ih =>
    obtain ⟨hname, hentry⟩ := hentry
    rw [List.lookup_cons, List.lookup_cons, ← hname]
    cases name == a.1 with
    | true => exact .some hentry
    | false => exact ih

/-! ## Steps -/

/-- The variant of a draft with other rules and other bodies. -/
theorem Draft.Variant.exists_eq {D D' : Draft} (h : D.Variant R D') :
    ∃ rules pending, rules.size = D.rules.size ∧ List.Forall₂ (Body.Variant R) D.pending pending ∧
      D' = { D with rules, pending } := by
  obtain ⟨nodes, rules, scopes, resolved, pending⟩ := D'
  obtain ⟨hnodes, hrules, hscopes, hresolved, hpending⟩ := h
  dsimp only at hnodes hscopes hresolved
  subst hnodes hscopes hresolved
  exact ⟨rules, pending, hrules, hpending, rfl⟩

/-- Where one step succeeds, another succeeds on a variant of the draft with a related result, or
fails with an error of a certain kind. -/
structure Transfers (R : RuleSource → RuleSource → Prop) (E : BuildError → Prop) {α β : Type}
    (V : α → β → Prop) (m : Build α) (m' : Build β) : Prop where
  run : ∀ {D D' D₁ : Draft} {a : α}, D.Variant R D' → m D = .ok (a, D₁) →
    (∃ b D₁', m' D' = .ok (b, D₁') ∧ V a b ∧ D₁.Variant R D₁') ∨ ∃ e, m' D' = .error e ∧ E e

/-- A result, or an error of a certain kind. -/
def Passes (E : BuildError → Prop) {α : Type} (x : Except BuildError α) : Prop :=
  (∃ a, x = .ok a) ∨ ∃ e, x = .error e ∧ E e

namespace Transfers

open Build

variable {α β γ δ : Type} {V : α → β → Prop}

theorem pure {a : α} {b : β} (h : V a b) : Transfers R E V (pure a) (pure b) where
  run {D D' D₁ a'} hD hok := by
    obtain ⟨rfl, rfl⟩ := ok_inj hok
    exact .inl ⟨b, D', rfl, h, hD⟩

theorem bind {W : γ → δ → Prop} {m : Build α} {m' : Build β} {f : α → Build γ} {g : β → Build δ}
    (h : Transfers R E V m m') (hf : ∀ a b, V a b → Transfers R E W (f a) (g b)) :
    Transfers R E W (m >>= f) (m' >>= g) where
  run {D D' D₂ c} hD hok := by
    obtain ⟨a, D₁, hm, hok⟩ := bind_eq_ok.mp hok
    rw [bind_apply]
    rcases h.run hD hm with ⟨b, D₁', hm', hV, hD₁⟩ | ⟨e, hm', he⟩
    · rw [hm']
      exact (hf a b hV).run hD₁ hok
    · rw [hm']
      exact .inr ⟨e, rfl, he⟩

/-- A step with the same result goes on in the same way. -/
theorem next {W : γ → δ → Prop} {m m' : Build α} {f : α → Build γ} {g : α → Build δ}
    (h : Transfers R E Eq m m') (hf : ∀ a, Transfers R E W (f a) (g a)) :
    Transfers R E W (m >>= f) (m' >>= g) :=
  h.bind fun a _ heq => heq ▸ hf a

/-- Nothing is said of a step that fails. -/
theorem fail (e : BuildError) (m' : Build β) : Transfers R E V (fail e) m' :=
  ⟨fun _ hok => nomatch hok⟩

/-- What does not depend on the draft gives the same result on every draft. -/
theorem lift (x : Except BuildError α) : Transfers R E Eq (lift x) (Build.lift x) where
  run {D D' D₁ a} hD hok := by
    obtain ⟨hx, rfl⟩ := lift_eq_ok.mp hok
    exact .inl ⟨a, D', lift_eq_ok.mpr ⟨hx, rfl⟩, rfl, hD⟩

/-- Two results that what follows does not depend on. -/
theorem lift_both {V : γ → δ → Prop} {x : Except BuildError α} {y : Except BuildError β}
    {x' : Except BuildError α} {y' : Except BuildError β} {f : α → β → Build γ}
    {g : α → β → Build δ}
    (h : (∃ a, x = .ok a) → (∃ b, y = .ok b) → Passes E x' ∧ Passes E y')
    (hfg : ∀ a b a' b', Transfers R E V (f a b) (g a' b')) :
    Transfers R E V (Build.lift x >>= fun a => Build.lift y >>= f a)
      (Build.lift x' >>= fun a => Build.lift y' >>= g a) where
  run {D D' D₁ c} hD hok := by
    obtain ⟨a, D₂, hliftx, hafter⟩ := bind_eq_ok.mp hok
    obtain ⟨b, D₃, hlifty, hlast⟩ := bind_eq_ok.mp hafter
    obtain ⟨hx, rfl⟩ := lift_eq_ok.mp hliftx
    obtain ⟨hy, rfl⟩ := lift_eq_ok.mp hlifty
    obtain ⟨hx', hy'⟩ := h ⟨a, hx⟩ ⟨b, hy⟩
    rcases hx' with ⟨a', rfl⟩ | ⟨e, rfl, he⟩
    · rcases hy' with ⟨b', rfl⟩ | ⟨e, rfl, he⟩
      · exact (hfg a b a' b').run hD hlast
      · exact .inr ⟨e, rfl, he⟩
    · exact .inr ⟨e, rfl, he⟩

theorem ite {p : Prop} [Decidable p] {m n : Build α} {m' n' : Build β} (hm : Transfers R E V m m')
    (hn : Transfers R E V n n') :
    Transfers R E V (if p then m else n) (if p then m' else n') := by
  split
  · exact hm
  · exact hn

/-- A step that changes what variants have in common, or adds to both, does the same on each. -/
theorem step {m : Build α} {m' : Build β}
    (h : ∀ (D : Draft) (rules : Array Rule) (pending : List Body), rules.size = D.rules.size →
      List.Forall₂ (Body.Variant R) D.pending pending →
      ∃ a b D₁ D₁', m D = .ok (a, D₁) ∧ m' { D with rules, pending } = .ok (b, D₁') ∧ V a b ∧
        D₁.Variant R D₁') : Transfers R E V m m' where
  run {D D' D₁ a} hD hok := by
    obtain ⟨rules, pending, hrules, hpending, rfl⟩ := hD.exists_eq
    obtain ⟨a', b, D₂, D₁', hm, hm', hV, hD₁⟩ := h D rules pending hrules hpending
    obtain ⟨rfl, rfl⟩ := ok_inj (hm.symm.trans hok)
    exact .inl ⟨b, D₁', hm', hV, hD₁⟩

theorem declare (resolving : List String) (name : String) (role : Role)
    (embedded : Option String) :
    Transfers R E Eq (declare resolving name role embedded)
      (Build.declare resolving name role embedded) :=
  step fun _ _ _ hrules hpending => ⟨_, _, _, _, rfl, rfl, rfl, rfl, hrules, rfl, rfl, hpending⟩

theorem declare? (resolving : List String) (name : Option String) (role : Role)
    (embedded : Option String) :
    Transfers R E Eq (declare? resolving name role embedded)
      (Build.declare? resolving name role embedded) := by
  cases name with
  | none => exact pure rfl
  | some name =>
    exact (Transfers.declare resolving name role embedded).bind
      fun _ _ h => pure (congrArg some h)

theorem addRule (rule rule' : Rule) : Transfers R E Eq (addRule rule) (Build.addRule rule') :=
  step fun _ _ _ hrules hpending => ⟨_, _, _, _, rfl, rfl, hrules.symm, rfl,
    by rw [Array.size_push, Array.size_push, hrules], rfl, rfl, hpending⟩

theorem addScope (scope : Scope) : Transfers R E Eq (addScope scope) (Build.addScope scope) :=
  step fun _ _ _ hrules hpending => ⟨_, _, _, _, rfl, rfl, rfl, rfl, hrules, rfl, rfl, hpending⟩

theorem changeScope (id : ScopeId) (f : Scope → Scope) :
    Transfers R E Eq (changeScope id f) (Build.changeScope id f) :=
  step fun _ _ _ hrules hpending => ⟨_, _, _, _, rfl, rfl, rfl, rfl, hrules, rfl, rfl, hpending⟩

theorem postpone {body body' : Body} (h : body.Variant R body') :
    Transfers R E Eq (postpone body) (Build.postpone body') :=
  step fun _ _ _ hrules hpending =>
    ⟨_, _, _, _, rfl, rfl, rfl, rfl, hrules, rfl, rfl, .cons h hpending⟩

theorem nextBody : Transfers R E (Option.Rel (Body.Variant R)) nextBody Build.nextBody :=
  step fun D rules pending hrules hpending => by
    cases hlist : D.pending with
    | nil =>
      rw [hlist, List.forall₂_nil_left_iff] at hpending
      subst hpending
      refine
        ⟨none, none, D, _, by rw [Build.nextBody, hlist], rfl, .none, rfl, hrules, rfl, rfl, ?_⟩
      rw [hlist]
      exact .nil
    | cons body rest =>
      rw [hlist, List.forall₂_cons_left_iff] at hpending
      obtain ⟨body', rest', hbody, hrest, rfl⟩ := hpending
      exact ⟨some body, some body', { D with pending := rest }, _, by rw [Build.nextBody, hlist],
        rfl, .some hbody, rfl, hrules, rfl, rfl, hrest⟩

theorem resolved? (name : String) : Transfers R E Eq (resolved? name) (Build.resolved? name) :=
  step fun _ _ _ hrules hpending => ⟨_, _, _, _, rfl, rfl, rfl, rfl, hrules, rfl, rfl, hpending⟩

theorem keepResolved (name : String) (alternatives : List Alternative) :
    Transfers R E Eq (keepResolved name alternatives) (Build.keepResolved name alternatives) :=
  step fun _ _ _ hrules hpending => ⟨_, _, _, _, rfl, rfl, rfl, rfl, hrules, rfl, rfl, hpending⟩

theorem modifyNodes (f : NodeTable → NodeTable) :
    Transfers R E Eq (modify fun draft => { draft with nodes := f draft.nodes })
      (modify fun draft => { draft with nodes := f draft.nodes }) :=
  step fun _ _ _ hrules hpending => ⟨_, _, _, _, rfl, rfl, rfl, rfl, hrules, rfl, rfl, hpending⟩

end Transfers

/-! ## Rules -/

/-- The parts of two sources that rules are made from. -/
structure Sources.Variant (R : RuleSource → RuleSource → Prop) (s s' : Sources) : Prop where
  definition : s.definition.Variant R s'.definition
  names : s'.names = s.names
  functions : s'.functions = s.functions

namespace Sources

open Build

variable {s s' : Sources} {resolving : List String}

theorem captures_transfers (hfunctions : s'.functions = s.functions) (path : String) (groups : Nat)
    (sources : List (Nat × CaptureSource)) :
    Transfers R E Eq (s.captures resolving path groups sources)
      (s'.captures resolving path groups sources) := by
  induction sources with
  | nil => exact .pure rfl
  | cons first rest ih =>
    obtain ⟨index, source⟩ := first
    rw [captures, captures]
    refine .ite (.fail _ _) (.next ?_ fun capture => ih.next fun rest => .pure rfl)
    cases source with
    | node name =>
      exact (Transfers.declare resolving name .full none).bind fun _ _ h => .pure (congrArg _ h)
    | function name =>
      rw [capture, capture, hfunctions]
      cases s.functions.findIdx? (· == name) with
      | none => exact .fail _ _
      | some index => exact .pure rfl

/-- Where the guards of one rule compile, those of another do, or fail with an error of a certain
kind. -/
def GuardsPass (E : BuildError → Prop) (s : Sources) (a b : RuleSource) : Prop :=
  ∀ path, (∃ guard, s.guard? (path ++ ".lookbehind") true a.lookbehind = .ok guard) →
    (∃ guard, s.guard? (path ++ ".lookahead") false a.lookahead = .ok guard) →
      Passes E (s.guard? (path ++ ".lookbehind") true b.lookbehind) ∧
        Passes E (s.guard? (path ++ ".lookahead") false b.lookahead)

theorem GuardsPass.refl (a : RuleSource) : s.GuardsPass E a a :=
  fun _ hbehind hahead => ⟨.inl hbehind, .inl hahead⟩

theorem Variant.guard?_eq (hs : s.Variant R s') : s'.guard? = s.guard? := by
  funext path behind source
  cases source with
  | none => rfl
  | some source => rw [guard?, guard?, guard, guard, hs.names, hs.definition.ignoreCase]

/-- Rules that differ in guards transfer if the guards do. -/
theorem rule_transfers (hs : s.Variant R s') {a b : RuleSource}
    (hsame : { a with lookbehind := b.lookbehind, lookahead := b.lookahead } = b)
    (hguards : s.GuardsPass E a b) (path : String) :
    Transfers R E Eq (s.rule resolving a path) (s'.rule resolving b path) := by
  rw [← hsame] at hguards ⊢
  rw [rule, rule, hs.names, hs.definition.ignoreCase, hs.guard?_eq]
  exact (Transfers.declare? ..).next fun node => (Transfers.lift _).next fun matcher =>
    .ite (.fail _ _) <| (captures_transfers hs.functions ..).next fun captures =>
    .lift_both (hguards path) fun _ _ _ _ => (Transfers.lift _).next fun setters => .addRule _ _

/-! ## Items -/

/-- Following an include transfers. -/
def VisitTransfers (R : RuleSource → RuleSource → Prop) (E : BuildError → Prop)
    (visit visit' : String → String → Build (List Alternative)) : Prop :=
  ∀ name path, Transfers R E Eq (visit name path) (visit' name path)

/-- Compiling rules that are related transfers. -/
def RulesTransfer (R : RuleSource → RuleSource → Prop) (E : BuildError → Prop) (s s' : Sources) :
    Prop :=
  ∀ {a b : RuleSource}, R a b → ∀ resolving path,
    Transfers R E Eq (s.rule resolving a path) (s'.rule resolving b path)

theorem openingRule_transfers (path : String) (alternatives : List Alternative) :
    Transfers R E Eq (openingRule path alternatives) (openingRule path alternatives) := by
  unfold openingRule
  split
  · exact .pure rfl
  · exact .ite (.fail _ _) (.fail _ _)

theorem closingRules_transfers (path : String) (alternatives : List Alternative) :
    Transfers R E Eq (closingRules path alternatives) (closingRules path alternatives) := by
  induction alternatives with
  | nil => exact .pure rfl
  | cons first rest ih =>
    cases first with
    | rule id => exact ih.next fun rest => .pure rfl
    | region id => exact .fail _ _

section

variable {visit visit' : String → String → Build (List Alternative)}

mutual

theorem item_transfers (hrules : RulesTransfer R E s s') (hvisit : VisitTransfers R E visit visit')
    (path : String) : {x y : Item} → x.Variant R y →
      Transfers R E Eq (s.item visit resolving x path) (s'.item visit' resolving y path)
  | _, _, .reference name => hvisit name path
  | _, _, .rule hab => (hrules hab resolving path).next fun id => .pure rfl
  | .region _ _ _ body _, .region _ _ _ body' _,
      .region node embedded hopening hclosings hbody => by
    have hpostpone (id : ScopeId) : Body.Variant R ⟨id, body, path ++ ".patterns"⟩
        ⟨id, body', path ++ ".patterns"⟩ := ⟨rfl, hbody, rfl⟩
    rw [item, item]
    exact (Transfers.declare? ..).next fun node => (Transfers.addScope _).next fun id =>
      (item_transfers hrules hvisit _ hopening).next fun openings =>
      (openingRule_transfers ..).next fun first =>
      (items_transfers hrules hvisit _ 0 hclosings).next fun closers =>
      (closingRules_transfers ..).next fun last => (Transfers.changeScope ..).next fun _ =>
      (Transfers.postpone (hpostpone id)).next fun _ => .pure rfl

theorem items_transfers (hrules : RulesTransfer R E s s')
    (hvisit : VisitTransfers R E visit visit') (path : String) (index : Nat) :
    {xs ys : List Item} → ItemsVariant R xs ys →
      Transfers R E Eq (s.items visit resolving path index xs)
        (s'.items visit' resolving path index ys)
  | _, _, .nil => .pure rfl
  | _, _, .cons hx hxs => by
    rw [items, items]
    exact (item_transfers hrules hvisit _ hx).next fun first =>
      (items_transfers hrules hvisit path (index + 1) hxs).next fun others => .pure rfl

end

end

theorem visitEntry_transfers (hs : s.Variant R s') (hrules : RulesTransfer R E s s') (fuel : Nat)
    (resolving : List String) :
    VisitTransfers R E (s.visitEntry fuel resolving) (s'.visitEntry fuel resolving) := by
  induction fuel generalizing resolving with
  | zero => exact fun name path => .fail _ _
  | succ fuel ih =>
    intro name path
    rw [visitEntry, visitEntry]
    refine (Transfers.resolved? name).next fun known => ?_
    cases known with
    | some alternatives => exact .pure rfl
    | none =>
      refine .ite (.fail _ _) ?_
      have hentry := hs.definition.entry? name
      generalize s.definition.entry? name = entry, s'.definition.entry? name = entry' at hentry
      cases hentry with
      | none => exact .fail _ _
      | some hentry =>
        have hkeep (alternatives : List Alternative) : Transfers R E Eq
            (if alternatives.isEmpty then fail (.emptyRules ("repository." ++ name))
              else do keepResolved name alternatives; pure alternatives)
            (if alternatives.isEmpty then fail (.emptyRules ("repository." ++ name))
              else do keepResolved name alternatives; pure alternatives) :=
          .ite (.fail _ _) ((Transfers.keepResolved ..).next fun _ => .pure rfl)
        cases hentry with
        | item hx => exact (item_transfers hrules (ih _) _ hx).next hkeep
        | list hxs => exact (items_transfers hrules (ih _) _ 0 hxs).next hkeep

theorem topItems_transfers (hs : s.Variant R s') (hrules : RulesTransfer R E s s') (path : String)
    {xs ys : List Item} (h : ItemsVariant R xs ys) :
    Transfers R E Eq (s.topItems path xs) (s'.topItems path ys) := by
  rw [topItems, topItems, hs.definition.repository.length_eq]
  exact items_transfers hrules (visitEntry_transfers hs hrules _ _) path 0 h

theorem bodies_transfers (hs : s.Variant R s') (hrules : RulesTransfer R E s s') (fuel : Nat) :
    Transfers R E Eq (s.bodies fuel) (s'.bodies fuel) := by
  induction fuel with
  | zero => exact .pure rfl
  | succ fuel ih =>
    rw [bodies, bodies]
    refine Transfers.nextBody.bind fun body body' hbody => ?_
    cases hbody with
    | none => exact .pure rfl
    | some hbody =>
      dsimp only
      rw [hbody.path, hbody.scope]
      exact (topItems_transfers hs hrules _ hbody.items).next fun alternatives =>
        (Transfers.changeScope ..).next fun _ => ih

theorem nodeProperties_transfers (nodes : List (String × NodeSource)) :
    Transfers R E Eq (nodeProperties nodes) (nodeProperties nodes) := by
  induction nodes with
  | nil => exact .pure rfl
  | cons first rest ih =>
    obtain ⟨name, node⟩ := first
    rw [nodeProperties]
    refine (Transfers.declare ..).next fun id => ?_
    cases node.autocomplete with
    | none => exact ih
    | some tag =>
      exact (Transfers.modifyNodes fun nodes => nodes.setAutocomplete id tag).next fun _ => ih

theorem whole_transfers (hs : s.Variant R s') (hrules : RulesTransfer R E s s') :
    Transfers R E Eq s.whole s'.whole := by
  rw [whole, whole, hs.definition.regionCount_eq, hs.definition.fallback, hs.definition.nodes]
  exact (topItems_transfers hs hrules _ hs.definition.root).next fun root =>
    .ite (.fail _ _) <| (Transfers.changeScope ..).next fun _ =>
    (topItems_transfers hs hrules _ hs.definition.global).next fun global =>
    (bodies_transfers hs hrules _).next fun _ => (Transfers.declare? ..).next fun fallback =>
    (nodeProperties_transfers _).next fun _ => .pure rfl

end Sources

/-! ## Whole definitions -/

theorem Definition.Variant.sources {d d' : Definition} (h : d.Variant R d') (host : Host) :
    (host.sources d).Variant R (host.sources d') where
  definition := h
  names := by
    change Names.ofDefinition d' = Names.ofDefinition d
    rw [Names.ofDefinition, Names.ofDefinition, h.constants, h.context]
  functions := rfl

/-- A variant of a definition that builds, builds as well or fails with an error of a certain kind,
if its rules do. -/
theorem Definition.Variant.build {d d' : Definition} (h : d.Variant R d') {host : Host}
    (hrules : Sources.RulesTransfer R E (host.sources d) (host.sources d')) {g : Grammar}
    (hbuild : Grammar.build d host = .ok g) :
    (∃ g', Grammar.build d' host = .ok g') ∨ ∃ e, Grammar.build d' host = .error e ∧ E e := by
  obtain ⟨⟨out, D⟩, hwhole, -⟩ := Grammar.build_ok hbuild
  have hinitial : (Draft.initial host.declared).Variant R (.initial host.declared) :=
    ⟨rfl, rfl, rfl, rfl, .nil⟩
  rw [Grammar.build_eq]
  rcases (Sources.whole_transfers (h.sources host) hrules).run hinitial hwhole with
    ⟨out', D', hwhole', -⟩ | ⟨e, hwhole', he⟩
  · exact .inl ⟨_, by rw [hwhole']; rfl⟩
  · exact .inr ⟨e, by rw [hwhole']; rfl, he⟩

end RegionTree
