import RegionTree.Grammar.Build
set_option autoImplicit false

/-!
# Regions that end

In a grammar file a region has to have closing items, and `Definition.ended_of_ofJson` says that no
region without them gets into a definition that is read from one.  A definition made in any other
way may have such regions; they stay open to the end of the text.
-/

namespace RegionTree

mutual

/-- Every region in an item has closing items. -/
def Item.Ended : Item → Prop
  | .reference _ => True
  | .rule _ => True
  | .region _ opening closings body _ =>
    closings ≠ [] ∧ opening.Ended ∧ itemsEnded closings ∧ itemsEnded body

/-- Every region in some items has closing items. -/
def itemsEnded : List Item → Prop
  | [] => True
  | x :: rest => x.Ended ∧ itemsEnded rest

end

/-- Every region of a definition has closing items. -/
structure Definition.Ended (d : Definition) : Prop where
  root : itemsEnded d.root
  global : itemsEnded d.global
  repository : ∀ e ∈ d.repository, itemsEnded e.2.items

theorem Definition.Ended.entry {d : Definition} (h : d.Ended) {name : String} {entry : Entry}
    (hentry : d.entry? name = some entry) : itemsEnded entry.items := by
  rw [ entry?, List.lookup_eq_some_iff] at hentry
  obtain ⟨before, after, hrepository, -⟩ := hentry
  exact h.repository (name, entry) (by simp [hrepository])

namespace Raw

variable {ε α β : Type}

theorem bind_eq_ok {x : Except ε α} {f : α → Except ε β} {b : β} :
    (x >>= f) = .ok b ↔ ∃ a, x = .ok a ∧ f a = .ok b := by
  cases x with
  | error e => simp [bind, Except.bind]
  | ok a => simp [bind, Except.bind]

theorem map_eq_ok {x : Except ε α} {f : α → β} {b : β} :
    x.map f = .ok b ↔ ∃ a, x = .ok a ∧ f a = b := by
  cases x with
  | error e => simp [Except.map]
  | ok a => simp [Except.map]

mutual

theorem Item.define_ended : (item : Item) → (path : String) → {x : RegionTree.Item} →
    item.define path = .ok x → x.Ended
  | .text s, path, x, h => by
    rw [Item.define] at h
    split at h
    · cases h
      exact trivial
    · cases h
  | .keys rule none closings body embedded, path, x, h => by
    rw [Item.define] at h
    split at h
    · cases h
    · obtain ⟨source, -, rfl⟩ := map_eq_ok.mp h
      exact trivial
  | .keys rule (some opening) closings body embedded, path, x, h => by
    rw [Item.define] at h
    cases hkey : rule.strayKey? with
    | some key =>
      rw [hkey] at h
      cases h
    | none =>
      rw [hkey] at h
      simp only [bind_eq_ok] at h
      obtain ⟨first, hfirst, last, hlast, inner, hinner, h⟩ := h
      cases h
      obtain ⟨hne, hclosings⟩ := defineClosings_ended path closings hlast
      exact ⟨hne, Item.define_ended opening _ hfirst, hclosings,
        (defineItems_ended _ 0 body hinner).2⟩

theorem defineClosings_ended (path : String) : (closings : Option (List Item)) →
    {xs : List RegionTree.Item} → defineClosings path closings = .ok xs → xs ≠ [] ∧ itemsEnded xs
  | none, _, h => by
    rw [defineClosings] at h
    cases h
  | some [], _, h => by
    rw [defineClosings] at h
    cases h
  | some (item :: rest), xs, h => by
    rw [defineClosings] at h
    obtain ⟨hlength, hended⟩ := defineItems_ended _ 0 (item :: rest) h
    exact ⟨List.ne_nil_of_length_eq_add_one hlength, hended⟩

theorem defineItems_ended (path : String) : (index : Nat) → (items : List Item) →
    {xs : List RegionTree.Item} → defineItems path index items = .ok xs →
      xs.length = items.length ∧ itemsEnded xs
  | index, [], _, h => by
    rw [defineItems] at h
    cases h
    exact ⟨rfl, trivial⟩
  | index, item :: rest, _, h => by
    rw [defineItems] at h
    simp only [bind_eq_ok] at h
    obtain ⟨first, hfirst, others, hothers, h⟩ := h
    cases h
    obtain ⟨hlength, hended⟩ := defineItems_ended path (index + 1) rest hothers
    exact ⟨congrArg (· + 1) hlength, Item.define_ended item _ hfirst, hended⟩

end

theorem Entry.define_ended {path : String} {entry : Entry} {out : RegionTree.Entry}
    (h : entry.define path = .ok out) : itemsEnded out.items := by
  cases entry with
  | one item =>
    obtain ⟨x, hx, rfl⟩ := map_eq_ok.mp h
    exact ⟨Item.define_ended item path hx, trivial⟩
  | many items =>
    obtain ⟨xs, hxs, rfl⟩ := map_eq_ok.mp h
    exact (defineItems_ended path 0 items hxs).2

theorem defineRepository_ended {entries : List (String × Entry)}
    {out : List (String × RegionTree.Entry)} (h : defineRepository entries = .ok out) :
    ∀ e ∈ out, itemsEnded e.2.items := by
  induction entries generalizing out with
  | nil =>
    cases h
    simp
  | cons e rest ih =>
    simp only [defineRepository, bind_eq_ok] at h
    obtain ⟨entry, hentry, others, hothers, h⟩ := h
    cases h
    exact List.forall_mem_cons.mpr ⟨Entry.define_ended hentry, ih hothers⟩

end Raw

/-- In a definition that is read from a grammar file every region has closing items. -/
theorem Definition.ended_of_ofJson {text : String} {d : Definition}
    (h : Definition.ofJson text = .ok d) : d.Ended := by
  rw [ofJson] at h
  split at h
  · cases h
  · next raw hraw =>
    split at h
    · cases h
    · next found hdefine =>
      cases h
      simp only [Raw.Grammar.define, Raw.bind_eq_ok] at hdefine
      obtain ⟨root, hroot, global, hglobal, repository, hrepository, hdefine⟩ := hdefine
      cases hdefine
      exact ⟨(Raw.defineItems_ended _ 0 raw.root hroot).2,
        (Raw.defineItems_ended _ 0 raw.global hglobal).2, Raw.defineRepository_ended hrepository⟩

end RegionTree
