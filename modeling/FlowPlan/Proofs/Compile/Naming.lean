import FlowPlan.Proofs.Compile.Frames
import FlowPlan.Proofs.Compile.Spines
import Mathlib.Data.List.Perm.Basic
import Mathlib.Data.List.Intervals

/-!
# Generated ids

A choice or parallel element has an id made of the id of the flow, a word for its kind and a number; a lane of a parallel element
has that id with its index behind it. The id of a flow may be any text, one that looks like a generated id too. Still a generated id
tells what it was made of (`Mark.id_inj`): it ends with a number, which has no hyphen in it, and the two words end in different
letters. In a compilation every choice and parallel element gets a number of its own, from zero on without gaps
(`Setting.unfold_numbers`).
-/

namespace FlowPlan

open FlowPlan.Graph

/-! ## What an id tells -/

/-- What a generated id tells besides the id of the flow. -/
inductive Mark
  | choice (number : Nat)
  | parallel (number : Nat)
  | lane (number index : Nat)
  deriving DecidableEq, Repr

/-- The number in a generated id. -/
def Mark.number : Mark → Nat
  | .choice number => number
  | .parallel number => number
  | .lane number _ => number

/-- The text of a generated id. -/
def Mark.id (flowId : String) : Mark → String
  | .choice number => flowId ++ "-" ++ "choice" ++ "-" ++ toString number
  | .parallel number => flowId ++ "-" ++ "parallel" ++ "-" ++ toString number
  | .lane number index => flowId ++ "-" ++ "parallel" ++ "-" ++ toString number ++ "-" ++ toString index

namespace NamingAux

theorem toList_toString (n : Nat) : (toString n).toList = Nat.toDigits 10 n := by
  rw [Nat.toString_eq_repr, Nat.toList_repr]

theorem isDigit_of_mem_toString {n : Nat} {c : Char} (h : c ∈ (toString n).toList) : c.isDigit = true := by
  rw [toList_toString] at h
  exact Nat.isDigit_of_mem_toDigits (by decide) (by decide) h

/-- The separator of ids does not occur in a number. -/
theorem hyphen_notMem_toString (n : Nat) : '-' ∉ (toString n).toList :=
  fun h => absurd (isDigit_of_mem_toString h) (by decide)

/-- What stands behind the last separator of a list, and what stands in front of it. -/
theorem eq_of_append_cons_eq {α : Type} {sep : α} {a b d e : List α} (hd : sep ∉ d) (he : sep ∉ e)
    (h : a ++ sep :: d = b ++ sep :: e) : a = b ∧ d = e := by
  rcases List.append_eq_append_iff.1 h with ⟨between, rfl, hrest⟩ | ⟨between, rfl, hrest⟩
  all_goals
    cases between with
    | nil =>
      cases hrest
      exact ⟨by simp, rfl⟩
    | cons c between =>
      injection hrest with _ hrest
      simp [hrest] at hd he

/-- A number behind a hyphen is told apart from what stands in front. -/
theorem numbered_inj {a b : String} {n m : Nat} (h : a ++ "-" ++ toString n = b ++ "-" ++ toString m) : a = b ∧ n = m := by
  have hlist := congrArg String.toList h
  simp only [String.toList_append, List.append_assoc] at hlist
  obtain ⟨hfront, hdigits⟩ := eq_of_append_cons_eq (hyphen_notMem_toString n) (hyphen_notMem_toString m) hlist
  refine ⟨String.toList_inj.1 hfront, ?_⟩
  rw [toList_toString, toList_toString] at hdigits
  have hvalue := congrArg (Nat.ofDigitChars 10 · 0) hdigits
  simpa only [Nat.ofDigitChars_ten_toDigits] using hvalue

/-- The last character of a text does not depend on what stands in front. -/
theorem getLast?_append {a b : String} {c : Char} (h : b.toList.getLast? = some c) : (a ++ b).toList.getLast? = some c := by
  rw [String.toList_append, List.getLast?_append, h]
  rfl

/-- A text that ends in a number is not one that ends in a word. -/
theorem numbered_ne_word {a b word : String} {n : Nat} {c : Char} (hc : word.toList.getLast? = some c)
    (hd : c.isDigit = false) : a ++ toString n ≠ b ++ word := by
  intro h
  have hne : (toString n).toList ≠ [] := toList_toString n ▸ Nat.toDigits_ne_nil
  have hlast := getLast?_append (a := a) (List.getLast?_eq_some_getLast hne)
  rw [h, getLast?_append hc] at hlast
  have hdigit := isDigit_of_mem_toString (List.getLast_mem hne)
  rw [← Option.some.inj hlast, hd] at hdigit
  cases hdigit

/-- The two words for what is numbered end in different letters. -/
theorem choice_ne_parallel (a b : String) : a ++ "choice" ≠ b ++ "parallel" := by
  intro h
  have hlast := getLast?_append (a := a) (b := "choice") (c := 'e') rfl
  rw [h, getLast?_append (c := 'l') rfl] at hlast
  cases hlast

end NamingAux

/-- Generated ids are the same for the same flow, kind, number and index only. -/
theorem Mark.id_inj {f f' : String} {m m' : Mark} (h : m.id f = m'.id f') : f = f' ∧ m = m' := by
  have front {a b word : String} (h : a ++ "-" ++ word = b ++ "-" ++ word) : a = b :=
    (String.append_left_inj _).1 ((String.append_left_inj _).1 h)
  cases m with
  | choice n =>
    cases m' with
    | choice n' =>
      obtain ⟨hflow, rfl⟩ := NamingAux.numbered_inj h
      exact ⟨front hflow, rfl⟩
    | parallel n' => exact absurd (NamingAux.numbered_inj h).1 (NamingAux.choice_ne_parallel _ _)
    | lane n' i' => exact absurd (NamingAux.numbered_inj h).1.symm (NamingAux.numbered_ne_word rfl rfl)
  | parallel n =>
    cases m' with
    | choice n' => exact absurd (NamingAux.numbered_inj h).1.symm (NamingAux.choice_ne_parallel _ _)
    | parallel n' =>
      obtain ⟨hflow, rfl⟩ := NamingAux.numbered_inj h
      exact ⟨front hflow, rfl⟩
    | lane n' i' => exact absurd (NamingAux.numbered_inj h).1.symm (NamingAux.numbered_ne_word rfl rfl)
  | lane n i =>
    cases m' with
    | choice n' => exact absurd (NamingAux.numbered_inj h).1 (NamingAux.numbered_ne_word rfl rfl)
    | parallel n' => exact absurd (NamingAux.numbered_inj h).1 (NamingAux.numbered_ne_word rfl rfl)
    | lane n' i' =>
      obtain ⟨hparallel, rfl⟩ := NamingAux.numbered_inj h
      obtain ⟨hflow, rfl⟩ := NamingAux.numbered_inj hparallel
      exact ⟨front hflow, rfl⟩

namespace Element

/-- The generated ids of an element: its own, and behind it those of its lanes in order. -/
def generatedIds : Element → List String
  | .sequential _ => []
  | .leaf _ => []
  | .choice id .. => [id]
  | .parallel id lanes => id :: lanes.map (·.id)

/-- What the generated ids of an element tell, when it has the given number. -/
def marks (number : Nat) : Element → List Mark
  | .sequential _ => []
  | .leaf _ => []
  | .choice .. => [.choice number]
  | .parallel _ lanes => .parallel number :: (List.range lanes.length).map (.lane number)

/-- Whether an element is a choice or a parallel element. -/
def isNumbered : Element → Bool
  | .sequential _ => false
  | .leaf _ => false
  | .choice .. => true
  | .parallel .. => true

/-- The choices and parallel elements of a sequence and of all its bodies. -/
def numberedParts (es : List Element) : List Element :=
  (partsOfBody es).filter isNumbered

/-- The parts of a sequence are those of its front and those of its rest. -/
theorem numberedParts_append (es ds : List Element) : numberedParts (es ++ ds) = numberedParts es ++ numberedParts ds := by
  rw [numberedParts, partsOfBody_append, List.filter_append]
  rfl

/-- A choice or parallel element in front of a sequence. -/
theorem numberedParts_cons {element : Element} (h : element.isNumbered = true) (rest : List Element) :
    numberedParts (element :: rest) = element :: (element.bodies.flatMap numberedParts ++ numberedParts rest) := by
  rw [numberedParts, partsOfBody_cons, List.filter_cons_of_pos h, List.filter_append, List.filter_flatMap]
  rfl

/-- All that an element with a number tells has this number in it. -/
theorem number_of_mem_marks {element : Element} {number : Nat} {m : Mark} (h : m ∈ element.marks number) :
    m.number = number := by
  cases element with
  | sequential node => cases h
  | leaf node => cases h
  | choice id node arms otherwise => rw [List.mem_singleton.1 h, Mark.number]
  | parallel id lanes =>
    rcases List.mem_cons.1 h with rfl | h
    · rfl
    · obtain ⟨index, -, rfl⟩ := List.mem_map.1 h
      rfl

/-- An element with a number tells no two things alike, as its lanes have different indices. -/
theorem nodup_marks (element : Element) (number : Nat) : (element.marks number).Nodup := by
  cases element with
  | sequential node => exact List.nodup_nil
  | leaf node => exact List.nodup_nil
  | choice id node arms otherwise => exact List.nodup_singleton _
  | parallel id lanes =>
    refine List.nodup_cons.2 ⟨?_, List.nodup_range.map fun i j h => (Mark.lane.inj h).2⟩
    intro h
    obtain ⟨index, -, h⟩ := List.mem_map.1 h
    cases h

end Element

/-! ## Numbers in a row -/

/-- Elements have the numbers from `low` up to `high`, each number once, and their generated ids tell them. -/
structure Numbering (flowId : String) (low high : Nat) (elements : List Element) (numbered : List (Element × Nat)) : Prop where
  elements : (numbered.map (·.1)).Perm elements
  numbers : (numbered.map (·.2)).Perm (List.Ico low high)
  ids : ∀ p ∈ numbered, p.1.generatedIds = (p.1.marks p.2).map (Mark.id flowId)

/-- The numbers from `low` up to `high` went to these elements. -/
def TakesNumbers (flowId : String) (low high : Nat) (elements : List Element) : Prop :=
  low ≤ high ∧ ∃ numbered, Numbering flowId low high elements numbered

section TakesNumbers

variable {f : String} {low mid high : Nat} {es ds : List Element}

theorem takesNumbers_nil (h : high = low) : TakesNumbers f low high [] := by
  subst h
  refine ⟨Nat.le_refl high, [], .refl _, ?_, nofun⟩
  rw [List.Ico.self_empty]
  exact .refl _

/-- Numbers that follow one another, for elements that are put together. -/
theorem TakesNumbers.append (h : TakesNumbers f low mid es) (h' : TakesNumbers f mid high ds) :
    TakesNumbers f low high (es ++ ds) := by
  obtain ⟨hle, numbered, hes, hnumbers, hids⟩ := h
  obtain ⟨hle', numbered', hds, hnumbers', hids'⟩ := h'
  refine ⟨Nat.le_trans hle hle', numbered ++ numbered', ?_, ?_, List.forall_mem_append.2 ⟨hids, hids'⟩⟩
  · rw [List.map_append]
    exact hes.append hds
  · rw [List.map_append, ← List.Ico.append_consecutive hle hle']
    exact hnumbers.append hnumbers'

/-- The order of the elements is of no account. -/
theorem TakesNumbers.perm (h : TakesNumbers f low high es) (hperm : es.Perm ds) : TakesNumbers f low high ds := by
  obtain ⟨hle, numbered, hes, hnumbers, hids⟩ := h
  exact ⟨hle, numbered, hes.trans hperm, hnumbers, hids⟩

theorem takesNumbers_singleton {e : Element} (h : e.generatedIds = (e.marks low).map (Mark.id f)) :
    TakesNumbers f low (low + 1) [e] := by
  refine ⟨Nat.le_succ low, [(e, low)], .refl _, ?_, List.forall_mem_singleton.2 h⟩
  rw [List.Ico.succ_singleton]
  exact .refl _

/-- A choice or parallel element with its bodies and what follows it. -/
theorem TakesNumbers.cons {e : Element} {rest : List Element} {bodies : List (List Element)} (hnumbered : e.isNumbered = true)
    (hids : e.generatedIds = (e.marks low).map (Mark.id f)) (hperm : bodies.Perm e.bodies)
    (hbodies : TakesNumbers f (low + 1) mid (bodies.flatMap Element.numberedParts))
    (hrest : TakesNumbers f mid high (Element.numberedParts rest)) :
    TakesNumbers f low high (Element.numberedParts (e :: rest)) := by
  rw [Element.numberedParts_cons hnumbered]
  exact (takesNumbers_singleton hids).append ((hbodies.perm (hperm.flatMap_right _)).append hrest)

end TakesNumbers

/-! ## Parts of a compilation that give no number -/

namespace Build

/-- A part gives no number. -/
def Keeps {α : Type} (m : Build α) : Prop :=
  ∀ p a q, m.Returns p a q → q.nextId = p.nextId

variable {α β : Type}

theorem keeps_pure (a : α) : (pure a : Build α).Keeps :=
  fun _ _ _ h => congrArg Progress.nextId (returns_pure.1 h).2

theorem keeps_tell (event : Event) : (tell event).Keeps := by
  intro p a q h
  cases h
  rfl

theorem keeps_count (limit : Nat) (node : String) : (count limit node).Keeps := by
  intro p a q h
  have hq := congrArg (·.2.nextId) h
  rw [run_count] at hq
  exact hq.symm

/-- Two parts that give no number. -/
theorem Keeps.bind {m : Build α} {k : α → Build β} (hm : m.Keeps) (hk : ∀ a, (k a).Keeps) : (m >>= k).Keeps := by
  intro p b q h
  obtain ⟨a, r, ha, hb⟩ := returns_bind.1 h
  exact (hk a r b q hb).trans (hm p a r ha)

/-- The number that is given is the counter, which goes up by one. -/
theorem nextNumber_returns {p q : Progress} {n : Nat} (h : nextNumber.Returns p n q) :
    n = p.nextId ∧ q.nextId = p.nextId + 1 := by
  cases h
  exact ⟨rfl, rfl⟩

end Build

namespace Setting

variable {g : Graph} {s : Setting g}

/-- What is submitted to the interceptors has its number already. -/
theorem submit_keeps (element : Element) : (submit s element).Keeps :=
  (Build.keeps_tell _).bind fun _ => Build.keeps_pure _

/-- A step has no number. -/
theorem step_keeps (v : Fin g.size) : (s.step v).Keeps :=
  (Build.keeps_count _ _).bind fun _ => submit_keeps _

theorem steps_keeps (vs : List (Fin g.size)) : (s.steps vs).Keeps := by
  induction vs with
  | nil => exact Build.keeps_pure _
  | cons v rest ih => exact (step_keeps v).bind fun _ => ih.bind fun _ => Build.keeps_pure _

/-- An id that is announced has the next number. -/
theorem announce_returns {kind id : String} {v : Fin g.size} {p q : Progress} (h : (s.announce kind v).Returns p id q) :
    id = s.flowId ++ "-" ++ kind ++ "-" ++ toString p.nextId ∧ q.nextId = p.nextId + 1 := by
  obtain ⟨id', r, hid, h⟩ := Build.returns_bind.1 h
  obtain ⟨_, r', htold, h⟩ := Build.returns_bind.1 h
  obtain ⟨rfl, rfl⟩ := Build.returns_pure.1 h
  obtain ⟨n, r'', hn, hid⟩ := Build.returns_bind.1 hid
  obtain ⟨rfl, rfl⟩ := Build.returns_pure.1 hid
  obtain ⟨rfl, hnext⟩ := Build.nextNumber_returns hn
  exact ⟨rfl, (Build.keeps_tell _ _ _ _ htold).trans hnext⟩

/-! ## Numbers of what is unfolded -/

/-- A step has no number. -/
theorem numberedParts_stepOn (v : Fin g.size) (rest : List Element) :
    Element.numberedParts (g.stepOn v :: rest) = Element.numberedParts rest := by
  unfold Graph.stepOn
  split <;> rfl

/-- A row of steps has no choices and no parallel elements. -/
theorem numberedParts_map_stepOn (vs : List (Fin g.size)) : Element.numberedParts (vs.map g.stepOn) = [] := by
  induction vs with
  | nil => rfl
  | cons v rest ih => rw [List.map_cons, numberedParts_stepOn, ih]

/-- The numbers that a part gives go to the choices and parallel elements of what it returns. -/
def Numbers (flowId : String) (m : Build (List Element)) : Prop :=
  ∀ p es q, m.Returns p es q → TakesNumbers flowId p.nextId q.nextId (Element.numberedParts es)

/-- The same of whatever an unfolder is called for. -/
def NumbersAll (flowId : String) (deeper : Unfolder g) : Prop :=
  ∀ segment stop scope, Numbers flowId (deeper segment stop scope)

/-- Nothing is asked of a part that fails. -/
theorem numbers_throw {f : String} (e : CompileError) : Numbers f (throw e) :=
  fun _ _ _ h => absurd h Build.not_returns_throw

theorem numbers_nil {f : String} : Numbers f (pure []) := by
  intro p es q h
  obtain ⟨rfl, rfl⟩ := Build.returns_pure.1 h
  exact takesNumbers_nil rfl

/-- Nothing is unfolded after an event. -/
theorem numbers_told {f : String} (event : Event) : Numbers f (do Build.tell event; return []) := by
  intro p es q h
  have hkeeps := (Build.keeps_tell event).bind (fun _ => Build.keeps_pure ([] : List Element)) p es q h
  obtain ⟨_, r, -, h⟩ := Build.returns_bind.1 h
  rw [(Build.returns_pure.1 h).1]
  exact takesNumbers_nil hkeeps

/-- Steps in front of what is unfolded. -/
theorem numbers_steps (hc : s.chain = []) {vs : List (Fin g.size)} {m : Build (List Element)} (h : Numbers s.flowId m) :
    Numbers s.flowId (do let first ← s.steps vs; let rest ← m; return first ++ rest) := by
  intro p es q hr
  obtain ⟨first, r, hfirst, hr⟩ := Build.returns_bind.1 hr
  obtain ⟨rest, r', hrest, hr⟩ := Build.returns_bind.1 hr
  obtain ⟨rfl, rfl⟩ := Build.returns_pure.1 hr
  rw [Element.numberedParts_append, steps_returns hc hfirst, numberedParts_map_stepOn, ← steps_keeps vs p first r hfirst]
  exact h r rest q hrest

/-- A step in front of what is unfolded. -/
theorem numbers_step (hc : s.chain = []) {v : Fin g.size} {m : Build (List Element)} (h : Numbers s.flowId m) :
    Numbers s.flowId (do let first ← s.step v; let rest ← m; return first :: rest) := by
  intro p es q hr
  obtain ⟨first, r, hfirst, hr⟩ := Build.returns_bind.1 hr
  obtain ⟨rest, r', hrest, hr⟩ := Build.returns_bind.1 hr
  obtain ⟨rfl, rfl⟩ := Build.returns_pure.1 hr
  rw [step_returns hc hfirst, numberedParts_stepOn, ← step_keeps v p first r hfirst]
  exact h r rest q hrest

variable {deeper : Unfolder g}

/-- What begins at a node takes the numbers of what is unfolded one level deeper, or none. -/
theorem unfoldFrom_numbers (hc : s.chain = []) (hd : NumbersAll s.flowId deeper) (stray : String → Obstacle)
    (stop : Option (Fin g.size)) (scope : Scope g.size) (v : Fin g.size) :
    Numbers s.flowId (s.unfoldFrom deeper stray stop scope v) := by
  unfold unfoldFrom
  split
  · exact numbers_step hc (hd _ _ _)
  · exact hd _ _ _
  · exact numbers_throw _
  · exact numbers_throw _

/-- A sequence takes the numbers of what stands at the end of its run. -/
theorem sequence_numbers (hc : s.chain = []) (hd : NumbersAll s.flowId deeper) (v : Fin g.size) (stop : Option (Fin g.size))
    (scope : Scope g.size) : Numbers s.flowId (s.sequence deeper v stop scope) := by
  rw [sequence_eq]
  refine numbers_steps hc ?_
  cases (g.run stop scope.path v).2 with
  | done => exact numbers_nil
  | fork start => exact hd _ _ _
  | loop source target => exact numbers_told _
  | conditional next => exact hd _ _ _
  | stray next parent => exact numbers_throw _
  | unrecognized next => exact numbers_throw _

/-- What continues a structure takes the numbers of what begins at the merge node, or none. -/
theorem continuation_numbers (hc : s.chain = []) (hd : NumbersAll s.flowId deeper) (start : Fin g.size)
    (stop : Option (Fin g.size)) (scope : Scope g.size) : Numbers s.flowId (s.continuation deeper start stop scope) := by
  unfold continuation
  cases s.pairing.mergeOf.get start with
  | none => exact numbers_nil
  | some merge =>
    simp only
    split
    · exact numbers_told _
    · split
      · exact numbers_nil
      · split
        · exact numbers_told _
        · exact unfoldFrom_numbers hc hd _ _ _ _

/-- A lane takes the numbers of its body. -/
theorem laneBody_numbers (hc : s.chain = []) (hd : NumbersAll s.flowId deeper) (start : Fin g.size) (scope : Scope g.size)
    (v : Fin g.size) : Numbers s.flowId (s.laneBody deeper start scope v) := by
  unfold laneBody
  simp only
  split
  · exact numbers_nil
  · split
    · exact numbers_told _
    · exact unfoldFrom_numbers hc hd _ _ _ _

/-- The bodies of a choice take numbers one after the other, in the order of the branches. -/
theorem armBodies_numbers (hd : NumbersAll s.flowId deeper) {conditional : Fin g.size} {scope : Scope g.size}
    {branches : List (Fin g.size)} {named : List (String × Option String × List Element)} {p q : Progress}
    (h : (s.armBodies deeper conditional scope branches).Returns p named q) :
    TakesNumbers s.flowId p.nextId q.nextId ((named.map (·.2.2)).flatMap Element.numberedParts) := by
  induction branches generalizing named p q with
  | nil =>
    obtain ⟨rfl, rfl⟩ := Build.returns_pure.1 h
    exact takesNumbers_nil rfl
  | cons branch rest ih =>
    unfold armBodies at h
    split at h
    · obtain ⟨body, r, hbody, h⟩ := Build.returns_bind.1 h
      obtain ⟨others, r', hothers, h⟩ := Build.returns_bind.1 h
      obtain ⟨rfl, rfl⟩ := Build.returns_pure.1 h
      exact (hd _ _ _ p body r hbody).append (ih hothers)
    · exact absurd h Build.not_returns_throw

/-- The bodies of the lanes take numbers one after the other, and the ids of the lanes end in their indices. -/
theorem lanes_numbers (hc : s.chain = []) (hd : NumbersAll s.flowId deeper) {id : String} {start : Fin g.size}
    {scope : Scope g.size} {index : Nat} {successors : List (Fin g.size)} {lanes : List (Lane Element)} {p q : Progress}
    (h : (s.lanes deeper id start scope index successors).Returns p lanes q) :
    lanes.map (·.id) = (List.range' index lanes.length).map (fun i => id ++ "-" ++ toString i) ∧
      TakesNumbers s.flowId p.nextId q.nextId ((lanes.map (·.body)).flatMap Element.numberedParts) := by
  induction successors generalizing index lanes p q with
  | nil =>
    obtain ⟨rfl, rfl⟩ := Build.returns_pure.1 h
    exact ⟨rfl, takesNumbers_nil rfl⟩
  | cons v rest ih =>
    obtain ⟨body, r, hbody, h⟩ := Build.returns_bind.1 h
    obtain ⟨others, r', hothers, h⟩ := Build.returns_bind.1 h
    obtain ⟨rfl, rfl⟩ := Build.returns_pure.1 h
    obtain ⟨hids, hnumbers⟩ := ih hothers
    refine ⟨?_, (laneBody_numbers hc hd start scope v p body r hbody).append hnumbers⟩
    rw [List.map_cons, hids, List.length_cons, List.range'_succ, List.map_cons]

/-- A choice has the first number, its bodies the next ones, and what follows it the rest. -/
theorem choice_numbers {catalog : NodeCatalog} {nodes : List Flow.Node} {edges : List Flow.Edge}
    (hg : Indexes catalog nodes edges g) (hc : s.chain = []) (hsound : Sound deeper)
    (hd : NumbersAll s.flowId deeper) (v : Fin g.size) (stop : Option (Fin g.size)) (scope : Scope g.size) :
    Numbers s.flowId (s.choice deeper v stop scope) := by
  intro p es q h
  obtain ⟨id, r₁, hid, h⟩ := Build.returns_bind.1 h
  obtain ⟨named, r₂, hnamed, h⟩ := Build.returns_bind.1 h
  obtain ⟨_, r₃, hcount, h⟩ := Build.returns_bind.1 h
  obtain ⟨element, r₄, helement, h⟩ := Build.returns_bind.1 h
  obtain ⟨rest, r₅, hrest, h⟩ := Build.returns_bind.1 h
  obtain ⟨rfl, rfl⟩ := Build.returns_pure.1 h
  obtain ⟨rfl, hnext⟩ := announce_returns hid
  have hinside := armBodies_numbers hd hnamed
  have hbehind := continuation_numbers hc hd _ _ _ _ _ _ hrest
  rw [hnext, ← Build.keeps_count _ _ _ _ _ hcount, ← submit_keeps _ _ _ _ helement] at hinside
  obtain ⟨bodies, hbranches, rfl, hbodies⟩ := armBodies_returns hsound hnamed
  have hone := hg.length_unconditional_of_kinds hbranches fun b hb => (hbodies b hb).1
  rw [submit_returns hc helement]
  exact hinside.cons rfl rfl (bodies_perm hone).symm hbehind

/-- A parallel element has the first number, its lanes the next ones, and what follows it the rest. -/
theorem fork_numbers (hc : s.chain = []) (hd : NumbersAll s.flowId deeper) (v : Fin g.size) (stop : Option (Fin g.size))
    (scope : Scope g.size) : Numbers s.flowId (s.fork deeper v stop scope) := by
  intro p es q h
  obtain ⟨id, r₁, hid, h⟩ := Build.returns_bind.1 h
  obtain ⟨lanes, r₂, hlanes, h⟩ := Build.returns_bind.1 h
  obtain ⟨_, r₃, hcount, h⟩ := Build.returns_bind.1 h
  obtain ⟨element, r₄, helement, h⟩ := Build.returns_bind.1 h
  obtain ⟨rest, r₅, hrest, h⟩ := Build.returns_bind.1 h
  obtain ⟨rfl, rfl⟩ := Build.returns_pure.1 h
  obtain ⟨rfl, hnext⟩ := announce_returns hid
  obtain ⟨hids, hinside⟩ := lanes_numbers hc hd hlanes
  have hbehind := continuation_numbers hc hd _ _ _ _ _ _ hrest
  rw [hnext, ← Build.keeps_count _ _ _ _ _ hcount, ← submit_keeps _ _ _ _ helement] at hinside
  rw [submit_returns hc helement]
  refine hinside.cons rfl ?_ (.refl _) hbehind
  rw [Element.generatedIds, Element.marks, hids, ← List.range_eq_range', List.map_cons, List.map_map]
  rfl

/-- The numbers given in a compilation without interceptors are those of the choices and parallel elements. -/
theorem unfold_numbers {catalog : NodeCatalog} {nodes : List Flow.Node} {edges : List Flow.Edge}
    (hg : Indexes catalog nodes edges g) (hc : s.chain = []) (depth : Nat) :
    NumbersAll s.flowId (s.unfold depth) := by
  induction depth with
  | zero =>
    intro segment stop scope
    unfold unfold
    split
    · exact numbers_throw _
    · exact numbers_throw _
  | succ depth ih =>
    intro segment stop scope
    unfold unfold
    split
    · exact numbers_throw _
    · cases segment with
      | after v => exact sequence_numbers hc ih v stop scope
      | choice v => exact choice_numbers hg hc (unfold_unfolds hc depth) ih v stop scope
      | fork v => exact fork_numbers hc ih v stop scope

/-- A whole plan takes the numbers that its compilation gives. -/
theorem unfoldEntry_numbers {catalog : NodeCatalog} {nodes : List Flow.Node} {edges : List Flow.Edge}
    (hg : Indexes catalog nodes edges g) (hc : s.chain = []) (entry : Fin g.size) :
    Numbers s.flowId (s.unfoldEntry entry) := by
  have hd : NumbersAll s.flowId (s.unfold s.maxDepth) := unfold_numbers hg hc s.maxDepth
  unfold unfoldEntry
  split
  · exact hd _ _ _
  · exact numbers_step hc (hd _ _ _)
  · exact numbers_throw _

end Setting

/-! ## The ids of a plan -/

namespace Route

/-- The choices and parallel elements of a plan. -/
def numberedParts (r : Route) : List Element :=
  Element.numberedParts r.steps

/-- The ids of the choices and parallel elements of a plan, and of the lanes of the latter. -/
def generatedIds (r : Route) : List String :=
  r.numberedParts.flatMap Element.generatedIds

end Route

/-- Each generated id with its kind, number and index, for elements with their numbers. -/
def Numbering.tags (numbered : List (Element × Nat)) : List (String × Mark) :=
  numbered.flatMap fun p => p.1.generatedIds.zip (p.1.marks p.2)

namespace Numbering

variable {f : String} {low high : Nat} {elements : List Element} {numbered : List (Element × Nat)}

/-- The tags of a numbering are the marks of its elements with their texts. -/
theorem tags_eq (h : Numbering f low high elements numbered) :
    tags numbered = (numbered.flatMap fun p => p.1.marks p.2).map fun m => (m.id f, m) := by
  rw [tags, List.map_flatMap]
  refine List.flatMap_congr fun p hp => ?_
  have hzip := List.zip_map' (f := Mark.id f) (g := id) (l := p.1.marks p.2)
  rw [List.map_id] at hzip
  rw [h.ids p hp, hzip]
  rfl

/-- Elements with different numbers tell different things. -/
theorem nodup_flatMap_marks (h : Numbering f low high elements numbered) :
    (numbered.flatMap fun p => p.1.marks p.2).Nodup := by
  have hnumbers : (numbered.map (·.2)).Nodup := h.numbers.nodup_iff.2 (List.Ico.nodup low high)
  refine List.nodup_flatMap.2 ⟨fun p _ => p.1.nodup_marks p.2, ?_⟩
  refine (List.pairwise_map.1 hnumbers).imp fun {p p'} hne m hm hm' => hne ?_
  rw [← Element.number_of_mem_marks hm, Element.number_of_mem_marks hm']

/-- The generated ids are those that the kinds, numbers and indexes make. -/
theorem map_id_marks (h : Numbering f low high elements numbered) :
    ((numbered.flatMap fun p => p.1.marks p.2).map (Mark.id f)).Perm (elements.flatMap Element.generatedIds) := by
  have hids : (numbered.map (·.1)).flatMap Element.generatedIds = (numbered.flatMap fun p => p.1.marks p.2).map (Mark.id f) := by
    rw [List.flatMap_map, List.map_flatMap]
    exact List.flatMap_congr h.ids
  exact hids ▸ h.elements.flatMap_right _

/-- Every generated id is told. -/
theorem map_tags (h : Numbering f low high elements numbered) :
    ((tags numbered).map (·.1)).Perm (elements.flatMap Element.generatedIds) := by
  rw [h.tags_eq, List.map_map]
  exact h.map_id_marks

/-- No two of the ids are the same. -/
theorem nodup_ids (h : Numbering f low high elements numbered) : (elements.flatMap Element.generatedIds).Nodup := by
  rw [← h.map_id_marks.nodup_iff]
  exact h.nodup_flatMap_marks.map fun m m' heq => (Mark.id_inj heq).2

/-- Two generated ids are the same only if they tell the same, of the same flow. -/
theorem eq_of_tags (h : Numbering f low high elements numbered) {f' : String} {low' high' : Nat} {elements' : List Element}
    {numbered' : List (Element × Nat)} (h' : Numbering f' low' high' elements' numbered') {t t' : String × Mark}
    (ht : t ∈ tags numbered) (ht' : t' ∈ tags numbered') (heq : t.1 = t'.1) : f = f' ∧ t.2 = t'.2 := by
  rw [h.tags_eq] at ht
  rw [h'.tags_eq] at ht'
  obtain ⟨m, -, rfl⟩ := List.mem_map.1 ht
  obtain ⟨m', -, rfl⟩ := List.mem_map.1 ht'
  exact Mark.id_inj heq

end Numbering

/-- The choices and parallel elements of a plan that is compiled without interceptors have the numbers from zero on. -/
theorem Compiler.numbering_of_compileGraph {catalog : NodeCatalog} {nodes : List Flow.Node} {edges : List Flow.Edge} {g : Graph}
    (hg : Graph.build catalog nodes edges = .ok g) {c : Compiler} (hc : c.chain = []) {flowId : String} {route : Route}
    (hr : c.compileGraph flowId g = .ok route) :
    ∃ numbered, Numbering flowId 0 route.numberedParts.length route.numberedParts numbered := by
  obtain ⟨entry, p, q, -, hp, hsteps⟩ := c.returns_of_compileGraph hc hr
  have hnumbers := Setting.unfoldEntry_numbers (indexes_of_build hg) (s := c.setting flowId g) hc entry p _ q hsteps
  rw [hp] at hnumbers
  obtain ⟨-, numbered, helements, hnumbers, hids⟩ := hnumbers
  have hlength : route.numberedParts.length = q.nextId := by
    rw [Route.numberedParts, ← helements.length_eq, List.length_map, ← numbered.length_map (·.2), hnumbers.length_eq,
      List.Ico.length, Nat.sub_zero]
  exact ⟨numbered, helements, hlength ▸ hnumbers, hids⟩

/-- Generated ids never collide, in the plan of one graph or in those of two, compiled without interceptors and whatever the ids of
the flows are. The choices and parallel elements of a plan have the numbers from zero on, each number once. Two generated ids are
the same only if the flows have the same id, and kind, number and index are the same. So no two generated ids of a plan are the
same. -/
theorem generatedIds_apart {catalog catalog' : NodeCatalog} {nodes nodes' : List Flow.Node} {edges edges' : List Flow.Edge}
    {g g' : Graph} (hg : Graph.build catalog nodes edges = .ok g) (hg' : Graph.build catalog' nodes' edges' = .ok g')
    {c c' : Compiler} (hc : c.chain = []) (hc' : c'.chain = []) {f f' : String} {r r' : Route}
    (hr : c.compileGraph f g = .ok r) (hr' : c'.compileGraph f' g' = .ok r') :
    ∃ numbered numbered', Numbering f 0 r.numberedParts.length r.numberedParts numbered ∧
      Numbering f' 0 r'.numberedParts.length r'.numberedParts numbered' ∧
      ((Numbering.tags numbered).map (·.1)).Perm r.generatedIds ∧
      ((Numbering.tags numbered').map (·.1)).Perm r'.generatedIds ∧
      (∀ t ∈ Numbering.tags numbered, ∀ t' ∈ Numbering.tags numbered', t.1 = t'.1 → f = f' ∧ t.2 = t'.2) ∧
      r.generatedIds.Nodup := by
  obtain ⟨numbered, h⟩ := Compiler.numbering_of_compileGraph hg hc hr
  obtain ⟨numbered', h'⟩ := Compiler.numbering_of_compileGraph hg' hc' hr'
  exact ⟨numbered, numbered', h, h', h.map_tags, h'.map_tags, fun t ht t' ht' => h.eq_of_tags h' ht ht', h.nodup_ids⟩

/-- The plans of `Flow.retry` for two flows, the second of which has the id that the parallel element has in the first. -/
theorem generatedIds_apart_retry : ∃ g r r', Graph.build .standard Flow.retry.nodes Flow.retry.edges = .ok g ∧
    Compiler.compileGraph {} "retry" g = .ok r ∧ Compiler.compileGraph {} "retry-parallel-1" g = .ok r' ∧
      r.generatedIds = ["retry-choice-0", "retry-parallel-1", "retry-parallel-1-0", "retry-parallel-1-1"] ∧
      ∃ numbered numbered', Numbering "retry" 0 r.numberedParts.length r.numberedParts numbered ∧
        Numbering "retry-parallel-1" 0 r'.numberedParts.length r'.numberedParts numbered' ∧
        ((Numbering.tags numbered).map (·.1)).Perm r.generatedIds ∧
        ((Numbering.tags numbered').map (·.1)).Perm r'.generatedIds ∧
        (∀ t ∈ Numbering.tags numbered, ∀ t' ∈ Numbering.tags numbered', t.1 = t'.1 →
          "retry" = "retry-parallel-1" ∧ t.2 = t'.2) ∧
        r.generatedIds.Nodup := by
  obtain ⟨g, hg, ⟨r, hr, hids⟩, r', hr'⟩ : ∃ g, Graph.build .standard Flow.retry.nodes Flow.retry.edges = .ok g ∧
      (∃ r, Compiler.compileGraph {} "retry" g = .ok r ∧
        r.generatedIds = ["retry-choice-0", "retry-parallel-1", "retry-parallel-1-0", "retry-parallel-1-1"]) ∧
      ∃ r', Compiler.compileGraph {} "retry-parallel-1" g = .ok r' := by
    decide +kernel
  exact ⟨g, r, r', hg, hr, hr', hids, generatedIds_apart hg hg rfl rfl hr hr'⟩

end FlowPlan
