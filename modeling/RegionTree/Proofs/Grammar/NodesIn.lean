import RegionTree.Proofs.Grammar.RegionStack
set_option autoImplicit false

/-!
# The nodes of tokens

A token gets its nodes from a rule, from the capture of a group, from the region that it opens, or
it is a skipped character.  So what holds of all nodes that a grammar names holds of the nodes of
all tokens of its steps (`Grammar.NodesIn.stepAt`).
-/

namespace RegionTree

variable {Q : NodeId → Prop}

/-- All nodes that a grammar names are of a kind: those of its rules, captures and regions, those
that its capture functions answer, and that of a skipped character. -/
structure Grammar.NodesIn (Q : NodeId → Prop) (g : Grammar) : Prop where
  rules : ∀ r ∈ g.rules, ∀ id ∈ r.node, Q id
  captures : ∀ r ∈ g.rules, ∀ c ∈ r.captures, ∀ id, c.2 = .node id → Q id
  functions : ∀ f ∈ g.functions, ∀ text s id, f.2 text s = .node id → Q id
  scopes : ∀ scope ∈ g.scopes, ∀ id ∈ scope.node, Q id
  fallback : Q g.fallback

/-! ## Tokens of a match -/

/-- The node of a token is of a kind, and so are those that open with it.  Those that close were
opened by another token. -/
structure Token.NodesIn (Q : NodeId → Prop) (t : Token) : Prop where
  node : ∀ id ∈ t.node, Q id
  opens : ∀ id ∈ t.opens, Q id

namespace Token

variable {t : Token} {id : NodeId}

theorem nodesIn_plain {node : Option NodeId} (h : ∀ id ∈ node, Q id) (start stop : Nat) :
    (plain node start stop).NodesIn Q :=
  ⟨h, by simp [plain]⟩

theorem NodesIn.addOpen (h : t.NodesIn Q) (hid : Q id) : (t.addOpen id).NodesIn Q where
  node := h.node
  opens other hother := by
    rcases List.mem_append.mp hother with hother | hother
    · exact h.opens other hother
    · rw [List.mem_singleton.mp hother]
      exact hid

theorem NodesIn.addOuterOpen (h : t.NodesIn Q) (hid : Q id) : (t.addOuterOpen id).NodesIn Q where
  node := h.node
  opens := List.forall_mem_cons.mpr ⟨hid, h.opens⟩

theorem NodesIn.addClose (h : t.NodesIn Q) (id : NodeId) : (t.addClose id).NodesIn Q :=
  ⟨h.node, h.opens⟩

end Token

namespace RuleMatch

/-- The node of a match is of a kind, and so are those of its parts and that of the region that it
opens. -/
structure NodesIn (Q : NodeId → Prop) (m : RuleMatch) : Prop where
  node : ∀ id ∈ m.node, Q id
  parts : ∀ part ∈ m.parts, ∀ id ∈ part.node, Q id
  region : m.role = .opening → ∀ id ∈ m.region, Q id

variable {P : Token → Prop} {f : Token → Token} {ts : List Token}

theorem forall_onFirst (hf : ∀ t, P t → P (f t)) (h : ∀ t ∈ ts, P t) :
    ∀ t ∈ onFirst f ts, P t := by
  cases ts with
  | nil => exact h
  | cons t rest =>
    obtain ⟨ht, hrest⟩ := List.forall_mem_cons.mp h
    exact List.forall_mem_cons.mpr ⟨hf t ht, hrest⟩

theorem forall_onLast (hf : ∀ t, P t → P (f t)) (h : ∀ t ∈ ts, P t) :
    ∀ t ∈ onLast f ts, P t := by
  induction ts with
  | nil => exact h
  | cons t rest ih =>
    obtain ⟨ht, hrest⟩ := List.forall_mem_cons.mp h
    cases rest with
    | nil => exact List.forall_mem_singleton.mpr (hf t ht)
    | cons u more => exact List.forall_mem_cons.mpr ⟨ht, ih hrest⟩

theorem nodesIn_cover {parts : List Part} (h : ∀ part ∈ parts, ∀ id ∈ part.node, Q id)
    (cursor : Nat) : ∀ t ∈ (cover cursor parts).1, t.NodesIn Q := by
  induction parts generalizing cursor with
  | nil => simp [cover]
  | cons part rest ih =>
    obtain ⟨hpart, hrest⟩ := List.forall_mem_cons.mp h
    have hnext : ∀ t ∈ Token.plain part.node part.start part.stop :: (cover part.stop rest).1,
        t.NodesIn Q :=
      List.forall_mem_cons.mpr ⟨Token.nodesIn_plain hpart _ _, ih hrest part.stop⟩
    rw [cover]
    split
    · exact ih hrest cursor
    · dsimp only
      split
      · exact List.forall_mem_cons.mpr ⟨Token.nodesIn_plain (by simp) _ _, hnext⟩
      · exact hnext

theorem NodesIn.innerTokens {m : RuleMatch} (h : m.NodesIn Q) :
    ∀ t ∈ m.innerTokens, t.NodesIn Q := by
  have hparts : ∀ t ∈ m.partTokens, t.NodesIn Q := by
    have hcover := nodesIn_cover h.parts m.start
    rw [partTokens]
    dsimp only
    split
    · refine List.forall_mem_append.mpr ⟨hcover, List.forall_mem_singleton.mpr ?_⟩
      exact Token.nodesIn_plain (by simp) _ _
    · exact hcover
  rw [innerTokens_eq]
  split
  · exact List.forall_mem_singleton.mpr (Token.nodesIn_plain h.node _ _)
  · cases hnode : m.node with
    | none => exact hparts
    | some id =>
      have hid : Q id := h.node id hnode
      exact forall_onLast (fun t ht => ht.addClose id)
        (forall_onFirst (fun t ht => ht.addOpen hid) hparts)

theorem NodesIn.tokens {m : RuleMatch} (h : m.NodesIn Q) : ∀ t ∈ m.tokens, t.NodesIn Q := by
  rw [RuleMatch.tokens]
  split
  · next region hregion hrole =>
    exact forall_onFirst (fun t ht => ht.addOuterOpen (h.region hrole region hregion)) h.innerTokens
  · next region _ _ => exact forall_onLast (fun t ht => ht.addClose region) h.innerTokens
  · exact h.innerTokens

end RuleMatch

/-! ## Matches of a grammar -/

namespace Grammar.NodesIn

variable {g : Grammar} {s s' : State} {place : Text.Place} {m : RuleMatch} (hg : g.NodesIn Q)
include hg

theorem captureParts {pos : Nat} {text : Match} {spans : List (Option Span)}
    {captures : List (Nat × Capture)} (hcaptures : ∀ c ∈ captures, ∀ id, c.2 = .node id → Q id)
    {parts : List Part} (h : Rule.captureParts g s pos text spans captures = some parts) :
    ∀ part ∈ parts, ∀ id ∈ part.node, Q id := by
  induction captures generalizing parts with
  | nil =>
    obtain rfl := Option.some.inj h
    simp
  | cons c rest ih =>
    obtain ⟨index, capture⟩ := c
    obtain ⟨hfirst, hrest⟩ := List.forall_mem_cons.mp hcaptures
    rw [Rule.captureParts] at h
    split at h
    · exact ih hrest h
    · next span _ =>
      have hnew : ∀ id, Q id → (Rule.captureParts g s pos text spans rest).map
          (⟨some id, pos + span.start, span.stop - span.start⟩ :: ·) = some parts →
          ∀ part ∈ parts, ∀ id ∈ part.node, Q id := by
        intro id hid hmap
        obtain ⟨others, hothers, rfl⟩ := Option.map_eq_some_iff.mp hmap
        refine List.forall_mem_cons.mpr ⟨?_, ih hrest hothers⟩
        rintro _ ⟨⟩
        exact hid
      dsimp only at h
      split at h
      · next id => exact hnew id (hfirst id rfl) h
      · next f =>
        cases hverdict : g.verdict f (text.slice span) s with
        | keep =>
          rw [hverdict] at h
          exact ih hrest h
        | veto =>
          rw [hverdict] at h
          cases h
        | node id =>
          rw [hverdict] at h
          refine hnew id ?_ h
          rw [verdict] at hverdict
          split at hverdict
          · next function hf => exact hg.functions _ (List.mem_of_getElem? hf) _ s id hverdict
          · cases hverdict

theorem exec {r : Rule} (hr : r ∈ g.rules) (h : r.exec g s place = (some m, s')) :
    m.NodesIn Q := by
  unfold Rule.exec at h
  split at h
  · simp at h
  dsimp only at h
  split at h
  · simp at h
  next found parts hmatch =>
  have hparts : ∀ part ∈ parts, ∀ id ∈ part.node, Q id := by
    unfold Rule.matchIn at hmatch
    obtain ⟨text, -, hmatch⟩ := Option.bind_eq_some_iff.mp hmatch
    split at hmatch
    · cases hmatch
    split at hmatch
    · cases hmatch
    split at hmatch
    · obtain ⟨-, rfl⟩ := Prod.mk.inj (Option.some.inj hmatch)
      simp
    · obtain ⟨made, hmade, hmatch⟩ := Option.bind_eq_some_iff.mp hmatch
      obtain ⟨-, rfl⟩ := Prod.mk.inj (Option.some.inj hmatch)
      exact hg.captureParts (hg.captures r hr) hmade
  split at h
  · cases h
    exact ⟨by simp [RuleMatch.plain], by simp [RuleMatch.plain], fun hrole => by cases hrole⟩
  · cases h
    refine ⟨hg.rules r hr, fun part hpart => hparts part ?_, fun hrole => by cases hrole⟩
    simpa [RuleMatch.withParts] using hpart

theorem execRule {id : RuleId} (h : g.execRule id s place = (some m, s')) : m.NodesIn Q := by
  rw [Grammar.execRule] at h
  split at h
  · next r hr => exact hg.exec (Array.mem_of_getElem? hr) h
  · cases h

theorem attemptClosings {node : Option NodeId} {closings : List RuleId}
    (h : g.attemptClosings node place closings s = (some m, s')) : m.NodesIn Q := by
  induction closings generalizing s with
  | nil => cases h
  | cons id rest ih =>
    rw [Grammar.attemptClosings] at h
    split at h
    · next found t hexec =>
      cases h
      have hfound := hg.execRule hexec
      exact ⟨hfound.node, hfound.parts, fun hrole => by cases hrole⟩
    · exact ih h

theorem attempt {a : Alternative} (h : g.attempt place a s = (some m, s')) : m.NodesIn Q := by
  cases a with
  | rule id => exact hg.execRule h
  | region id =>
    rw [Grammar.attempt] at h
    split at h
    · cases h
    split at h
    · cases h
    next scope hscope =>
    split at h
    · cases h
    split at h
    · next found t hexec =>
      cases h
      have hfound := hg.execRule hexec
      exact ⟨hfound.node, hfound.parts, fun _ => hg.scopes scope (Array.mem_of_getElem? hscope)⟩
    · cases h

theorem attemptAny {alternatives : List Alternative}
    (h : g.attemptAny place alternatives s = (some m, s')) : m.NodesIn Q := by
  induction alternatives generalizing s with
  | nil => cases h
  | cons a rest ih =>
    rw [Grammar.attemptAny] at h
    split at h
    · next found t hattempt =>
      cases h
      exact hg.attempt hattempt
    · exact ih h

theorem transition (h : g.transition s place = (some m, s')) : m.NodesIn Q := by
  rw [Grammar.transition] at h
  split at h
  · next found t hclosings =>
    cases h
    exact hg.attemptClosings hclosings
  · exact hg.attemptAny h

/-- The tokens of a step have nodes that the grammar names. -/
theorem stepAt {step : MatchStep} (h : g.stepAt s place = some step) :
    ∀ t ∈ step.tokens, t.NodesIn Q := by
  refine (unfolds_follow g place _ s []).mem_tokens_of ?_ ?_ (by simp) h
  · exact fun _ _ _ ht => (hg.transition ht).tokens
  · intro c
    refine Token.nodesIn_plain ?_ _ _
    rintro _ ⟨⟩
    exact hg.fallback

end Grammar.NodesIn

end RegionTree
