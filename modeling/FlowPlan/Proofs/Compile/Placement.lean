import FlowPlan.Proofs.Compile.Emission
import FlowPlan.Proofs.Graph.Merging

/-!
# Where the places of a plan lie

`Placed` says what holds of every place that an unfolding comes to: it lies behind the nodes of the path and behind the outermost
open branch start, and the node to stop before is the merge node of a branch start behind which it lies. Each rule of `Unfolds`
keeps this. What is unfolded at a place comes after it (`Unfolds.emits_leads`). So in a graph without loops no place is on its
own path (`Placed.not_mem_path`).
-/

namespace FlowPlan

open FlowPlan.Graph

/-- A place lies behind a node. -/
def Place.Beyond (g : Graph) : Place g.size → Fin g.size → Prop
  | .into v, x => g.Leads x v
  | .after v, x => x = v ∨ g.Leads x v
  | .behind v, x => x = v ∨ g.Leads x v

/-- What holds of a place, of the outermost open branch start, of the node to stop before and of the path there. -/
structure Placed (g : Graph) (place : Place g.size) (first stop : Option (Fin g.size)) (path : List (Fin g.size)) : Prop where
  path : ∀ x ∈ path, place.Beyond g x
  first : ∀ f, first = some f → place.Beyond g f
  stop : ∀ m, stop = some m → ∃ s, g.pairing.mergeOf.get s = some m ∧ place.Beyond g s
  /-- a choice, and not a sequence, follows a conditional node -/
  single : ∀ v, place = .after v → (g.node v).isConditional = false

variable {g : Graph} {first stop : Option (Fin g.size)} {path : List (Fin g.size)}

/-- The entry has nothing in front of it. -/
theorem Placed.entry (v : Fin g.size) : Placed g (.into v) none none [] :=
  ⟨nofun, nofun, nofun, nofun⟩

/-- Of the outermost open branch start, once a node is opened. -/
theorem eq_of_or_some {v f : Fin g.size} (h : first.or (some v) = some f) : first = some f ∨ first = none ∧ v = f := by
  cases first with
  | none => exact Or.inr ⟨rfl, Option.some.inj h⟩
  | some x => exact Or.inl h

/-- Once a node is opened, there is an outermost open branch start. -/
theorem or_some_ne_none {n : Nat} (first : Option (Fin n)) (v : Fin n) : first.or (some v) ≠ none := by
  cases first <;> simp

namespace Placed

variable {v w : Fin g.size}

/-- What follows a plain node. -/
theorem step (h : Placed g (.into v) first stop path) (hk : (g.node v).kind = .plain) :
    Placed g (.after v) first stop (v :: path) where
  path := by
    intro x hx
    rcases List.mem_cons.1 hx with rfl | hx
    · exact Or.inl rfl
    · exact Or.inr (h.path x hx)
  first := fun f hf => Or.inr (h.first f hf)
  stop := by
    intro m hm
    obtain ⟨s, hs, hb⟩ := h.stop m hm
    exact ⟨s, hs, Or.inr hb⟩
  single := by
    rintro _ ⟨⟩
    exact not_isConditional_of_plain hk

/-- A body of a choice. -/
theorem arm (h : Placed g (.into v) first stop path) {parent : String} {condition : Option String}
    (hk : (g.node w).kind = .branch parent condition) (hw : w ∈ g.successorsAt v) :
    Placed g (.after w) (first.or (some v)) (g.pairing.mergeOf.get v) (v :: path) where
  path := by
    intro x hx
    rcases List.mem_cons.1 hx with rfl | hx
    · exact Or.inr (.of_mem hw)
    · exact Or.inr ((h.path x hx).trans (.of_mem hw))
  first := by
    intro f hf
    rcases eq_of_or_some hf with hf | ⟨-, rfl⟩
    · exact Or.inr ((h.first f hf).trans (.of_mem hw))
    · exact Or.inr (.of_mem hw)
  stop := fun m hm => ⟨v, hm, Or.inr (.of_mem hw)⟩
  single := by
    rintro _ ⟨⟩
    exact not_isConditional_of_branch hk

/-- What continues a choice. -/
theorem behindChoice (h : Placed g (.into v) first stop path) :
    Placed g (.behind v) (first.or (some v)) stop (v :: path) where
  path := by
    intro x hx
    rcases List.mem_cons.1 hx with rfl | hx
    · exact Or.inl rfl
    · exact Or.inr (h.path x hx)
  first := by
    intro f hf
    rcases eq_of_or_some hf with hf | ⟨-, rfl⟩
    · exact Or.inr (h.first f hf)
    · exact Or.inl rfl
  stop := by
    intro m hm
    obtain ⟨s, hs, hb⟩ := h.stop m hm
    exact ⟨s, hs, Or.inr hb⟩
  single := nofun

/-- A link from a place behind `v` leads to a place that lies behind the same nodes. -/
theorem beyond_of_leads {x : Fin g.size} (h : x = v ∨ g.Leads x v) (hw : g.Leads v w) : g.Leads x w := by
  rcases h with rfl | h
  · exact hw
  · exact h.trans hw

/-- What the only link leads to. -/
theorem follows (h : Placed g (.after v) first stop path) (hw : w ∈ g.successorsAt v) : Placed g (.into w) first stop path where
  path := fun x hx => beyond_of_leads (h.path x hx) (.of_mem hw)
  first := fun f hf => beyond_of_leads (h.first f hf) (.of_mem hw)
  stop := by
    intro m hm
    obtain ⟨s, hs, hb⟩ := h.stop m hm
    exact ⟨s, hs, beyond_of_leads hb (.of_mem hw)⟩
  single := nofun

/-- A lane of a parallel element. -/
theorem lane (h : Placed g (.after v) first stop path) (hw : w ∈ g.successorsAt v) :
    Placed g (.into w) (first.or (some v)) (g.pairing.mergeOf.get v) path where
  path := fun x hx => beyond_of_leads (h.path x hx) (.of_mem hw)
  first := by
    intro f hf
    rcases eq_of_or_some hf with hf | ⟨-, rfl⟩
    · exact beyond_of_leads (h.first f hf) (.of_mem hw)
    · exact .of_mem hw
  stop := fun m hm => ⟨v, hm, .of_mem hw⟩
  single := nofun

/-- What continues a parallel element. -/
theorem behindFork (h : Placed g (.after v) first stop path) : Placed g (.behind v) (first.or (some v)) stop path where
  path := h.path
  first := by
    intro f hf
    rcases eq_of_or_some hf with hf | ⟨-, rfl⟩
    · exact h.first f hf
    · exact Or.inl rfl
  stop := h.stop
  single := nofun

/-- The merge node behind a choice or parallel element. -/
theorem resumes (h : Placed g (.behind v) first stop path) (hm : g.pairing.mergeOf.get v = some w) :
    Placed g (.into w) first stop path where
  path := fun x hx => beyond_of_leads (h.path x hx) (mergeOf_eq_some_iff.1 hm).leads
  first := fun f hf => beyond_of_leads (h.first f hf) (mergeOf_eq_some_iff.1 hm).leads
  stop := by
    intro m hs
    obtain ⟨s, hs, hb⟩ := h.stop m hs
    exact ⟨s, hs, beyond_of_leads hb (mergeOf_eq_some_iff.1 hm).leads⟩
  single := nofun

/-- Without loops, what a link leads to is not on the path. -/
theorem not_mem_path (h : Placed g (.into v) first stop path) (hacyclic : g.Acyclic) : v ∉ path :=
  fun hv => hacyclic v (h.path v hv)

end Placed

/-! ## What comes after a place -/

/-- A node is at a place or comes after it. -/
def Place.LeadsTo (g : Graph) : Place g.size → Fin g.size → Prop
  | .into v, u => u = v ∨ g.Leads v u
  | .after v, u => g.Leads v u
  | .behind v, u => g.Leads v u

/-- What is unfolded at a place comes after it. -/
theorem Unfolds.emits_leads {catalog : NodeCatalog} {nodes : List Flow.Node} {edges : List Flow.Edge}
    (hg : Indexes catalog nodes edges g) {place : Place g.size} {es : List Element} (h : Unfolds g place first stop path es)
    {u : Fin g.size} (hu : Emits g es u) : place.LeadsTo g u := by
  induction h with
  | halted => exact absurd hu emits_nil
  | looped _ => exact absurd hu emits_nil
  | step _ _ _ _ ih =>
    rcases hg.emits_step.1 hu with rfl | hu
    · exact Or.inl rfl
    · exact Or.inr (ih hu)
  | choice _ _ hk _ hbranches hkinds _ _ ihbodies ihrest =>
    rcases (hg.emits_choice hk hbranches hkinds).1 hu with rfl | ⟨b, hb, hu⟩ | hu
    · exact Or.inl rfl
    · exact Or.inr (.trans (.of_mem (hbranches ▸ List.mem_map_of_mem hb)) (ihbodies b hb hu))
    · exact Or.inr (ihrest hu)
  | ends _ => exact absurd hu emits_nil
  | @follows v w _ _ _ _ hs _ ih =>
    have hw : g.Leads v w := .of_mem (hs ▸ List.mem_singleton_self w)
    rcases ih hu with rfl | hl
    · exact hw
    · exact hw.trans hl
  | @fork v _ _ _ _ _ _ _ hsuccessors _ _ ihlanes ihrest =>
    rcases emits_parallel.1 hu with ⟨l, hl, hu⟩ | hu
    · have hw : g.Leads v l.successor := .of_mem (hsuccessors ▸ List.mem_map_of_mem hl)
      rcases ihlanes l hl hu with rfl | hlead
      · exact hw
      · exact hw.trans hlead
    · exact ihrest hu
  | apart _ => exact absurd hu emits_nil
  | left _ _ _ => exact absurd hu emits_nil
  | resumes hm _ _ ih =>
    have hl := (mergeOf_eq_some_iff.1 hm).leads
    rcases ih hu with rfl | hlead
    · exact hl
    · exact hl.trans hlead

end FlowPlan
