import RegionTree.Proofs.Chunk.Batch
import RegionTree.Proofs.Parse.Walk
set_option autoImplicit false

/-!
# Trails

Chunks that a walk left behind do what the strides of the walk do, and each stride is charged to a
chunk that reaches as far as the stride saw (`Covers`).  A chunk with a state says that the walk
came by in that state: chunks between two such places cover the part of the walk between them
(`Trail`).

This is what makes chunks reusable.  A trail can be cut where parsing can go on, extended by a step,
carried over to a document that shares what its strides saw, moved behind an edit, and joined to
another.
-/

namespace RegionTree

open Text (Boundary byteLength)
open Chunk (Revised)
open ChunkSequence (Room StepChunks Batch)

/-- Chunks that a walk from one point to another left behind.  They do what its strides do if that
is `bounded`: positions relative to chunks may be too large otherwise. -/
def Covers (t : Task) (bounded : Prop) (a : Point) (cs : List Chunk) (b : Point) : Prop :=
  ∃ rs, Walk t a rs b ∧ (bounded → rs.flatMap Stride.actions = cs.flatMap Chunk.actions) ∧
    ∀ r ∈ rs, ∃ c ∈ cs, c.isBlank = false ∧ r.seen ≤ c.reach

namespace Covers

variable {t t' : Task} {bounded : Prop} {a b d : Point}

theorem nil (a : Point) : Covers t bounded a [] a := ⟨[], .nil a, fun _ => rfl, by simp⟩

theorem append {cs ds : List Chunk} (h : Covers t bounded a cs b) (h' : Covers t bounded b ds d) :
    Covers t bounded a (cs ++ ds) d := by
  obtain ⟨rs, hwalk, hactions, hcharged⟩ := h
  obtain ⟨qs, hwalk', hactions', hcharged'⟩ := h'
  refine ⟨rs ++ qs, hwalk.append hwalk', ?_, ?_⟩
  · intro hbounded
    rw [List.flatMap_append, List.flatMap_append, hactions hbounded, hactions' hbounded]
  · intro r hr
    rcases List.mem_append.mp hr with hr | hr
    · obtain ⟨c, hc, hkept⟩ := hcharged r hr
      exact ⟨c, by simp [hc], hkept⟩
    · obtain ⟨c, hc, hkept⟩ := hcharged' r hr
      exact ⟨c, by simp [hc], hkept⟩

/-- A blank chunk was left behind by no stride. -/
theorem of_blank {cs : List Chunk} {c : Chunk} (h : Covers t bounded a (cs ++ [c]) b)
    (hc : c.isBlank = true) : Covers t bounded a cs b := by
  obtain ⟨rs, hwalk, hactions, hcharged⟩ := h
  refine ⟨rs, hwalk, ?_, ?_⟩
  · simpa [Chunk.actions_of_isBlank hc] using hactions
  · intro r hr
    obtain ⟨e, he, hkept, hle⟩ := hcharged r hr
    rcases List.mem_append.mp he with he | he
    · exact ⟨e, he, hkept, hle⟩
    · rw [List.mem_singleton.mp he, hc] at hkept
      cases hkept

theorem eq_of_nil (h : Covers t bounded a [] b) : a = b := by
  obtain ⟨rs, hwalk, -, hcharged⟩ := h
  cases hwalk with
  | nil => rfl
  | cons _ _ =>
    obtain ⟨c, hc, -⟩ := hcharged (t.stride a) (by simp)
    cases hc

theorem revised {cs cs' : List Chunk} (h : Covers t bounded a cs b)
    (hrev : List.Forall₂ Revised cs cs') : Covers t bounded a cs' b := by
  obtain ⟨rs, hwalk, hactions, hcharged⟩ := h
  refine ⟨rs, hwalk,
    fun hbounded => (hactions hbounded).trans (ChunkSequence.actions_revised hrev).symm, ?_⟩
  intro r hr
  obtain ⟨c, hc, hkept, hle⟩ := hcharged r hr
  obtain ⟨c', hc', hcc'⟩ := ChunkSequence.exists_revised hrev hc
  exact ⟨c', hc', by rw [hcc'.isBlank_eq, hkept], Nat.le_trans hle hcc'.reach_le⟩

end Covers

/-- Chunks that a walk left behind on its way to a point, after those since the last place where
parsing can go on (`leg`): wherever a chunk has a state, the walk came by in that state. -/
def TrailFrom (t : Task) (bounded : Prop) : Point → List Chunk → List Chunk → Point → Prop
  | a, leg, [], b => Covers t bounded a leg b
  | a, leg, c :: rest, b =>
    match c.state with
    | none => TrailFrom t bounded a (leg ++ [c]) rest b
    | some s => Covers t bounded a leg ⟨c.start, s⟩ ∧ TrailFrom t bounded ⟨c.start, s⟩ [c] rest b

/-- Chunks that a walk from one point to another left behind. -/
def Trail (t : Task) (a : Point) (cs : List Chunk) (b : Point) (bounded : Prop := True) : Prop :=
  TrailFrom t bounded a [] cs b

namespace TrailFrom

variable {t t' : Task} {bounded : Prop}

theorem cons_none {a b : Point} {leg rest : List Chunk} {c : Chunk} (hc : c.state = none) :
    TrailFrom t bounded a leg (c :: rest) b ↔ TrailFrom t bounded a (leg ++ [c]) rest b := by
  rw [TrailFrom, hc]

theorem cons_some {a b : Point} {leg rest : List Chunk} {c : Chunk} {s : State}
    (hc : c.state = some s) : TrailFrom t bounded a leg (c :: rest) b ↔
      Covers t bounded a leg ⟨c.start, s⟩ ∧ TrailFrom t bounded ⟨c.start, s⟩ [c] rest b := by
  rw [TrailFrom, hc]

/-- Cutting a trail where parsing can go on. -/
theorem append_cons {a b : Point} {leg cs rest : List Chunk} {c : Chunk} {s : State}
    (hc : c.state = some s) : TrailFrom t bounded a leg (cs ++ c :: rest) b ↔
      TrailFrom t bounded a leg cs ⟨c.start, s⟩ ∧ TrailFrom t bounded ⟨c.start, s⟩ [c] rest b := by
  induction cs generalizing a leg with
  | nil => exact cons_some hc
  | cons e cs ih =>
    rw [List.cons_append]
    cases he : e.state with
    | none => rw [cons_none he, cons_none he, ih]
    | some u => rw [cons_some he, cons_some he, ih, and_assoc]

/-- Without states the chunks cover one part of the walk. -/
theorem iff_covers {a b : Point} {leg cs : List Chunk} (h : ∀ c ∈ cs, c.state = none) :
    TrailFrom t bounded a leg cs b ↔ Covers t bounded a (leg ++ cs) b := by
  induction cs generalizing leg with
  | nil => rw [List.append_nil, TrailFrom]
  | cons c rest ih =>
    rw [cons_none (h c (by simp)), ih fun e he => h e (by simp [he]), List.append_assoc,
      List.singleton_append]

theorem append_covers {a b d : Point} {leg cs more : List Chunk}
    (h : TrailFrom t bounded a leg cs b)
    (hmore : ∀ c ∈ more, c.state = none) (hcovers : Covers t bounded b more d) :
    TrailFrom t bounded a leg (cs ++ more) d := by
  induction cs generalizing a leg with
  | nil => exact (iff_covers hmore).mpr (Covers.append h hcovers)
  | cons c rest ih =>
    rw [List.cons_append]
    cases hc : c.state with
    | none =>
      rw [cons_none hc] at h ⊢
      exact ih h
    | some s =>
      rw [cons_some hc] at h ⊢
      exact ⟨h.1, ih h.2⟩

/-- A blank chunk at the end can be left out. -/
theorem of_blank {a b : Point} {leg cs : List Chunk} {c : Chunk}
    (h : TrailFrom t bounded a leg (cs ++ [c]) b) (hc : c.isBlank = true) :
    TrailFrom t bounded a leg cs b := by
  induction cs generalizing a leg with
  | nil =>
    rw [List.nil_append] at h
    cases hs : c.state with
    | none =>
      rw [cons_none hs] at h
      exact Covers.of_blank h hc
    | some s =>
      rw [cons_some hs] at h
      have hsame : Covers t bounded ⟨c.start, s⟩ [] b := by
        have hcut : Covers t bounded ⟨c.start, s⟩ ([] ++ [c]) b := h.2
        exact hcut.of_blank hc
      rw [hsame.eq_of_nil] at h
      exact h.1
  | cons e cs ih =>
    rw [List.cons_append] at h
    cases he : e.state with
    | none =>
      rw [cons_none he] at h ⊢
      exact ih h
    | some u =>
      rw [cons_some he] at h ⊢
      exact ⟨h.1, ih h.2⟩

theorem revised {a b : Point} {leg leg' cs cs' : List Chunk} (h : TrailFrom t bounded a leg cs b)
    (hleg : List.Forall₂ Revised leg leg') (hcs : List.Forall₂ Revised cs cs') :
    TrailFrom t bounded a leg' cs' b := by
  induction hcs generalizing a leg leg' with
  | nil => exact Covers.revised h hleg
  | @cons c c' rest rest' hc hrest ih =>
    cases hs : c.state with
    | none =>
      rw [cons_none hs] at h
      rw [cons_none (hc.state_eq.trans hs)]
      exact ih h (List.rel_append hleg (.cons hc .nil))
    | some s =>
      rw [cons_some hs] at h
      rw [cons_some (hc.state_eq.trans hs), hc.start_eq]
      exact ⟨h.1.revised hleg, ih h.2 (.cons hc .nil)⟩

/-- Replacing the last chunk by some that cover more: the walk goes on in the last leg. -/
theorem replace_last {a b d : Point} {leg cs more : List Chunk} {last head : Chunk}
    (h : TrailFrom t bounded a leg (cs ++ [last]) b)
    (hcovers : ∀ x front, Covers t bounded x (front ++ [last]) b →
      Covers t bounded x (front ++ head :: more) d)
    (hstate : head.state = last.state) (hstart : head.start = last.start)
    (hmore : ∀ c ∈ more, c.state = none) : TrailFrom t bounded a leg (cs ++ head :: more) d := by
  induction cs generalizing a leg with
  | nil =>
    rw [List.nil_append] at h ⊢
    cases hs : last.state with
    | none =>
      rw [cons_none hs] at h
      rw [cons_none (hstate.trans hs), iff_covers hmore, List.append_assoc]
      exact hcovers a leg h
    | some s =>
      rw [cons_some hs] at h
      rw [cons_some (hstate.trans hs), hstart, iff_covers hmore]
      exact ⟨h.1, hcovers _ [] h.2⟩
  | cons e cs ih =>
    rw [List.cons_append] at h ⊢
    cases he : e.state with
    | none =>
      rw [cons_none he] at h ⊢
      exact ih h
    | some u =>
      rw [cons_some he] at h ⊢
      exact ⟨h.1, ih h.2⟩

/-- The chunks do what the strides of the walk do. -/
theorem covers {a b : Point} {leg cs : List Chunk} (h : TrailFrom t bounded a leg cs b) :
    Covers t bounded a (leg ++ cs) b := by
  induction cs generalizing a leg with
  | nil =>
    rw [List.append_nil]
    exact h
  | cons c rest ih =>
    cases hc : c.state with
    | none =>
      rw [cons_none hc] at h
      have hrest := ih h
      rwa [List.append_assoc, List.singleton_append] at hrest
    | some s =>
      rw [cons_some hc] at h
      exact h.1.append (ih h.2)

/-- A trail depends only on the strides and on where the document ends. -/
theorem congr (hstride : ∀ a, t'.stride a = t.stride a) (hdocument : t'.document = t.document)
    {a b : Point} {leg cs : List Chunk} (h : TrailFrom t bounded a leg cs b) :
    TrailFrom t' bounded a leg cs b := by
  have hcovers : ∀ {x y : Point} {part : List Chunk}, Covers t bounded x part y →
      Covers t' bounded x part y := by
    rintro x y part ⟨rs, hwalk, hrest⟩
    exact ⟨rs, hwalk.congr hstride hdocument, hrest⟩
  induction cs generalizing a leg with
  | nil => exact hcovers h
  | cons c rest ih =>
    cases hc : c.state with
    | none =>
      rw [cons_none hc] at h ⊢
      exact ih h
    | some s =>
      rw [cons_some hc] at h ⊢
      exact ⟨hcovers h.1, ih h.2⟩

/-- A trail whose chunks reach only into what two documents share is one in both. -/
theorem shared (h : Task.Alike t t') {common back back' : List Char}
    (hs : t.document.toList = common ++ back) (hs' : t'.document.toList = common ++ back')
    {a b : Point} {leg cs : List Chunk} (htrail : TrailFrom t bounded a leg cs b)
    (ha : Boundary t.document.toList a.pos)
    (hreach : ∀ c ∈ leg ++ cs, c.reach < byteLength common) : TrailFrom t' bounded a leg cs b := by
  have hcovers : ∀ {x y : Point} {part : List Chunk}, Boundary t.document.toList x.pos →
      (∀ c ∈ part, c.reach < byteLength common) → Covers t bounded x part y →
      Covers t' bounded x part y ∧ Boundary t.document.toList y.pos := by
    rintro x y part hx hpart ⟨rs, hwalk, hactions, hcharged⟩
    have hseen : ∀ r ∈ rs, r.seen < byteLength common := by
      intro r hr
      obtain ⟨c, hc, -, hle⟩ := hcharged r hr
      exact Nat.lt_of_le_of_lt hle (hpart c hc)
    exact ⟨⟨rs, hwalk.shared h hs hs' hx hseen, hactions, hcharged⟩, hwalk.boundary h.whole hx⟩
  induction cs generalizing a leg with
  | nil => exact (hcovers ha (fun c hc => hreach c (by simp [hc])) htrail).1
  | cons c rest ih =>
    cases hc : c.state with
    | none =>
      rw [cons_none hc] at htrail ⊢
      exact ih htrail ha fun e he => hreach e (by simpa using he)
    | some s =>
      rw [cons_some hc] at htrail ⊢
      obtain ⟨hleg, hnext⟩ := hcovers ha (fun c hc => hreach c (by simp [hc])) htrail.1
      exact ⟨hleg, ih htrail.2 hnext fun e he => hreach e (List.mem_append_right _ he)⟩

end TrailFrom

/-! ## Moving chunks -/

namespace TrailFrom

variable {t t' : Task} {bounded : Prop} {offset : Int}

/-- What a walk left behind that is found again in another document, is found there again. -/
theorem covers_moved (h : Task.Alike t t')
    (hlength : Document.length t'.document ≤ maxPosition) {a a' b : Point} {cs : List Chunk}
    (hbehind : Walk.Behind t t' offset a a') (hcs : ∀ c ∈ cs, c.CanMove offset)
    (hcovers : Covers t bounded a cs b) :
    ∃ b', Covers t' bounded a' (cs.map fun c => c.shift offset) b' ∧
      Walk.Behind t t' offset b b' := by
  obtain ⟨rs, hwalk, hactions, hcharged⟩ := hcovers
  obtain ⟨rs', b', hwalk', hb', hmoved, hall⟩ := hwalk.moved h hbehind
  have ha' : Boundary t'.document.toList a'.pos := by
    obtain ⟨-, front', back, -, hs', -, hfront', -⟩ := hbehind.text
    exact ⟨front', back, hs', hfront'⟩
  refine ⟨b', ⟨rs', hwalk', ?_, ?_⟩, hb'⟩
  · intro hbounded
    rw [hmoved, hactions hbounded, List.map_flatMap, List.flatMap_map]
    exact List.flatMap_congr fun c hc => (Chunk.actions_shift (hcs c hc)).symm
  · intro r' hr'
    obtain ⟨r, hr, hseen⟩ := hall r' hr'
    obtain ⟨c, hc, hkept, hle⟩ := hcharged r hr
    have hmax := hwalk'.seen_le h.whole' ha' r' hr'
    rw [hseen] at hmax ⊢
    exact ⟨c.shift offset, List.mem_map_of_mem hc, hkept,
      Chunk.reach_shift (hcs c hc) hle (Nat.le_trans hmax hlength)⟩

/-- A trail behind what differs is one in the other document, moved to its place there. -/
theorem moved (h : Task.Alike t t') (hlength : Document.length t'.document ≤ maxPosition)
    {a a' b : Point} {leg cs : List Chunk} (hbehind : Walk.Behind t t' offset a a')
    (hcs : ∀ c ∈ leg ++ cs, c.CanMove offset) (htrail : TrailFrom t bounded a leg cs b) :
    ∃ b', TrailFrom t' bounded a' (leg.map fun c => c.shift offset)
        (cs.map fun c => c.shift offset) b' ∧
      Walk.Behind t t' offset b b' := by
  induction cs generalizing a a' leg with
  | nil => exact covers_moved h hlength hbehind (fun c hc => hcs c (by simp [hc])) htrail
  | cons c rest ih =>
    rw [List.map_cons]
    cases hc : c.state with
    | none =>
      rw [cons_none hc] at htrail
      have hstate : (c.shift offset).state = none := hc
      obtain ⟨b', hrest, hb'⟩ := ih hbehind (fun e he => hcs e (by simpa using he)) htrail
      rw [List.map_append, List.map_singleton] at hrest
      exact ⟨b', (cons_none hstate).mpr hrest, hb'⟩
    | some s =>
      rw [cons_some hc] at htrail
      have hstate : (c.shift offset).state = some s := hc
      obtain ⟨d, hleg, hd⟩ := covers_moved h hlength hbehind
        (fun e he => hcs e (by simp [he])) htrail.1
      obtain ⟨b', hrest, hb'⟩ := ih hd (fun e he => hcs e (List.mem_append_right _ he)) htrail.2
      have hpoint : d = ⟨(c.shift offset).start, s⟩ := by
        rw [hd.eq_moved, Chunk.start_shift (hcs c (by simp))]
      rw [hpoint] at hleg hrest
      exact ⟨b', (cons_some hstate).mpr ⟨hleg, hrest⟩, hb'⟩

end TrailFrom

namespace Trail

variable {t t' : Task} {bounded : Prop}

/-- A trail is cut in two where parsing can go on. -/
theorem append_cons {a b : Point} {cs rest : List Chunk} {c : Chunk} {s : State}
    (hc : c.state = some s) : Trail t a (cs ++ c :: rest) b bounded ↔
      Trail t a cs ⟨c.start, s⟩ bounded ∧ Trail t ⟨c.start, s⟩ (c :: rest) b bounded := by
  have hhead : Trail t ⟨c.start, s⟩ (c :: rest) b bounded ↔
      TrailFrom t bounded ⟨c.start, s⟩ [c] rest b := by
    rw [Trail, TrailFrom.cons_some hc]
    exact and_iff_right (.nil _)
  rw [hhead]
  exact TrailFrom.append_cons hc

/-- A trail goes on with another one that starts where parsing can go on. -/
theorem append {a b d : Point} {cs rest : List Chunk} {c : Chunk} {s : State}
    (h : Trail t a cs b bounded) (h' : Trail t b (c :: rest) d bounded) (hc : c.state = some s)
    (hb : b = ⟨c.start, s⟩) : Trail t a (cs ++ c :: rest) d bounded := by
  subst hb
  exact (append_cons hc).mpr ⟨h, h'⟩

theorem trim {a b : Point} {cs : List Chunk} (h : Trail t a cs b bounded) :
    Trail t a (ChunkSequence.trim cs) b bounded := by
  rcases ChunkSequence.trim_cases cs with ⟨hsame, -⟩ | ⟨last, hblank, hcs⟩
  · rw [hsame]
    exact h
  · rw [hcs] at h
    exact TrailFrom.of_blank h hblank

/-- The point where a trail is cut is noted by a blank chunk. -/
theorem append_strip {a : Point} {cs : List Chunk} {c : Chunk} {s : State} (hc : c.state = some s)
    (h : Trail t a cs ⟨c.start, s⟩ bounded) :
    Trail t a (cs ++ [c.strip]) ⟨c.start, s⟩ bounded := by
  have hstrip : c.strip.state = some s := hc
  refine (append_cons hstrip).mpr ⟨h, ?_⟩
  rw [Trail, TrailFrom.cons_some hstrip]
  refine ⟨.nil _, [], .nil _, ?_, by simp⟩
  have hblank : c.strip.isBlank = true := Chunk.isBlank_empty ..
  simp [Chunk.actions_of_isBlank hblank]

/-- A step of matching extends a trail by its stride.  The cases are where the first token of the
step goes: into a chunk of its own, which starts a new leg unless the state was lost, or into the
last chunk, whose leg goes on. -/
theorem step {a p : Point} {capacity : Nat} {first : Token} {cs init init' w : List Chunk}
    {c : Chunk} (h : Trail t a cs p bounded) (hlt : p.pos < Document.length t.document)
    (hfirst : first.start = p.pos) (hroom : Room capacity (some p.state) first cs init c)
    (hinit : List.Forall₂ Revised init init')
    (hw : StepChunks c w (t.stride p).actions (t.stride p).next.pos (t.stride p).seen)
    (hbound : bounded → (t.stride p).next.pos < offsetBound) :
    Trail t a (init' ++ w) (t.stride p).next bounded := by
  obtain ⟨head, more, rfl, hhead, hmore⟩ := hw.batch
  have hactions := fun hbounded => hw.actions (hbound hbounded)
  have hnew : Trail t a init p bounded → c.isBlank = true → c.start = p.pos →
      c.state = some p.state → Trail t a (init' ++ head :: more) (t.stride p).next bounded := by
    intro hbefore hblank hstart hstate
    have htrail : Trail t a init' p bounded := hbefore.revised .nil hinit
    rw [Chunk.actions_of_isBlank hblank, List.nil_append] at hactions
    have hcovers : Covers t bounded p (head :: more) (t.stride p).next := by
      refine ⟨_, .single hlt, ?_, ?_⟩
      · intro hbounded
        rw [List.flatMap_cons, List.flatMap_nil, List.append_nil, hactions hbounded]
      · intro r hr
        obtain rfl := List.mem_singleton.mp hr
        exact hw.reached
    rcases hhead.state with hnone | ⟨hkept, hplace⟩
    · refine htrail.append_covers (fun e he => ?_) hcovers
      rcases List.mem_cons.mp he with rfl | he
      · exact hnone
      · exact hmore e he
    · have hpoint : (⟨head.start, p.state⟩ : Point) = p := by rw [hplace, hstart]
      apply (TrailFrom.append_cons (hkept.trans hstate)).mpr
      rw [hpoint]
      exact ⟨htrail, (TrailFrom.iff_covers hmore).mpr hcovers⟩
  cases hroom with
  | first => exact hnew h rfl hfirst rfl
  | fresh _ => exact hnew h rfl hfirst rfl
  | taken hblank => exact hnew (TrailFrom.of_blank h hblank) hblank hfirst rfl
  | @joined front last hblank _ _ =>
    obtain ⟨hkept, hstate, hstart, hreach⟩ := hhead.kept hblank
    have htrail : Trail t a (init' ++ [c]) p bounded :=
      TrailFrom.revised h .nil (List.rel_append hinit (.cons (.refl c) .nil))
    refine TrailFrom.replace_last htrail (fun x front hcovers => ?_) hstate hstart hmore
    obtain ⟨rs, hwalk, hold, hcharged⟩ := hcovers
    refine ⟨_, hwalk.append (.single hlt), ?_, ?_⟩
    · intro hbounded
      rw [List.flatMap_append, hold hbounded, List.flatMap_append, List.flatMap_append,
        hactions hbounded]
      simp
    · intro r hr
      rcases List.mem_append.mp hr with hr | hr
      · obtain ⟨e, he, hnot, hle⟩ := hcharged r hr
        rcases List.mem_append.mp he with he | he
        · exact ⟨e, by simp [he], hnot, hle⟩
        · rw [List.mem_singleton.mp he] at hle
          exact ⟨head, by simp, hkept, Nat.le_trans hle hreach⟩
      · obtain rfl := List.mem_singleton.mp hr
        obtain ⟨e, he, hheld⟩ := hw.reached
        exact ⟨e, List.mem_append_right _ he, hheld⟩

end Trail

end RegionTree
