import FlowPlan.Proofs.Plan

/-!
# How far a plan is nested

A sequence can be read from its end on, with what its bodies come to (`Fold`). Three readings: how many choices and parallel
elements lie inside one another (`nesting`), how many stand in one sequence (`Row`), and how many levels the recursion takes that
unfolds a plan (`Descent`). What continues a choice or parallel element is unfolded below it, so a row of them takes depth as
nesting does: nested `n` deep with at most `k` in one sequence, a plan takes at most `2 * k * n + 1` levels (`Route.depth_le`).
-/

namespace FlowPlan

/-- The largest of some numbers. -/
def most (l : List Nat) : Nat :=
  l.foldr max 0

/-- The largest number of a list has a bound just when all of them have. -/
theorem most_le_iff {l : List Nat} {m : Nat} : most l ≤ m ↔ ∀ n ∈ l, n ≤ m := by
  induction l with
  | nil => simp [most]
  | cons a rest ih => rw [List.forall_mem_cons, ← ih, ← Nat.max_le]; rfl

namespace Element

/-! ## Readings of a sequence -/

/-- What a sequence comes to: without elements, with a step in front, and with a choice or parallel element in front. -/
structure Fold (α : Type) where
  nil : α
  step : α → α
  choice : (bodies : List α) → α → α
  parallel : (bodies : List α) → α → α

namespace Fold

variable {α : Type} (f : Fold α)

mutual

def ofBody : List Element → α
  | [] => f.nil
  | element :: rest => ofElement element (ofBody rest)

/-- An element in front of what the rest comes to. -/
def ofElement : Element → α → α
  | .sequential _, rest => f.step rest
  | .leaf _, rest => f.step rest
  | .choice _ _ arms otherwise, rest => f.choice (ofArms arms ++ ofOtherwise otherwise) rest
  | .parallel _ lanes, rest => f.parallel (ofLanes lanes) rest

def ofArms : List (Arm Element) → List α
  | [] => []
  | ⟨_, _, body⟩ :: rest => ofBody body :: ofArms rest

def ofLanes : List (Lane Element) → List α
  | [] => []
  | ⟨_, body⟩ :: rest => ofBody body :: ofLanes rest

def ofOtherwise : Option (List Element) → List α
  | none => []
  | some body => [ofBody body]

end

/-- A choice is folded over its bodies, the otherwise branch among them, and over what follows. -/
@[simp] theorem ofBody_choice (id : String) (node : Step) (arms : List (Arm Element)) (otherwise : Option (List Element))
    (rest : List Element) : f.ofBody (.choice id node arms otherwise :: rest) =
      f.choice ((bodiesOf arms otherwise).map f.ofBody) (f.ofBody rest) := by
  have hbodies : f.ofArms arms ++ f.ofOtherwise otherwise = (bodiesOf arms otherwise).map f.ofBody := by
    rw [List.map_eq_flatMap]
    exact eq_flatMap_bodiesOf rfl (fun _ _ => rfl) rfl (fun _ => rfl) arms otherwise
  rw [ofBody, ofElement, hbodies]

/-- A parallel element is folded over its lanes and over what follows. -/
@[simp] theorem ofBody_parallel (id : String) (lanes : List (Lane Element)) (rest : List Element) :
    f.ofBody (.parallel id lanes :: rest) = f.parallel (lanes.map fun l => f.ofBody l.body) (f.ofBody rest) := by
  have hlanes : f.ofLanes lanes = lanes.map fun l => f.ofBody l.body := by
    rw [List.map_eq_flatMap]
    exact eq_flatMap rfl (fun _ _ => rfl) lanes
  rw [ofBody, ofElement, hlanes]

end Fold

/-- A body is smaller than its element, by which recursion over plans ends. -/
theorem sizeOf_lt_of_mem_bodies {element : Element} {body : List Element} (h : body ∈ element.bodies) :
    sizeOf body < sizeOf element := by
  cases element with
  | sequential node => cases h
  | leaf node => cases h
  | choice id node arms otherwise =>
    rw [choice.sizeOf_spec]
    rcases List.mem_append.1 h with h | h
    · obtain ⟨⟨_, _, inner⟩, ha, rfl⟩ := List.mem_map.1 h
      have := List.sizeOf_lt_of_mem ha
      rw [Arm.mk.sizeOf_spec] at this
      change sizeOf inner < _
      omega
    · obtain rfl := Option.mem_toList.1 h
      rw [Option.some.sizeOf_spec]
      omega
  | parallel id lanes =>
    rw [parallel.sizeOf_spec]
    obtain ⟨⟨_, inner⟩, hl, rfl⟩ := List.mem_map.1 h
    have := List.sizeOf_lt_of_mem hl
    rw [Lane.mk.sizeOf_spec] at this
    change sizeOf inner < _
    omega

/-- What passes to a sequence from the bodies of its first element and from the rest holds of every sequence. -/
theorem body_induction {P : List Element → Prop} (nil : P [])
    (cons : ∀ element rest, (∀ body ∈ element.bodies, P body) → P rest → P (element :: rest)) : ∀ es, P es
  | [] => nil
  | element :: rest => cons element rest (fun body _ => body_induction nil cons body) (body_induction nil cons rest)
termination_by es => sizeOf es
decreasing_by
  · rename_i hb
    have := sizeOf_lt_of_mem_bodies hb
    rw [List.cons.sizeOf_spec]
    omega
  · rw [List.cons.sizeOf_spec]
    omega

/-! ## Nesting -/

/-- How many choices and parallel elements lie inside one another. -/
def nesting : Fold Nat where
  nil := 0
  step rest := rest
  choice bodies rest := max (1 + most bodies) rest
  parallel bodies rest := max (1 + most bodies) rest

/-- How many choices and parallel elements stand in one sequence. -/
structure Row where
  /-- in the sequence itself -/
  own : Nat
  /-- in a sequence of the plan at most -/
  longest : Nat

/-- A choice or parallel element in front of a sequence, with its bodies. -/
def Row.push (bodies : List Row) (rest : Row) : Row where
  own := rest.own + 1
  longest := max (max (rest.own + 1) rest.longest) (most (bodies.map Row.longest))

/-- No row is longer than a bound: not the one with the new structure in front, none behind it, none in its bodies. -/
theorem Row.longest_push_le_iff {bodies : List Row} {rest : Row} {k : Nat} : (Row.push bodies rest).longest ≤ k ↔
    rest.own + 1 ≤ k ∧ rest.longest ≤ k ∧ ∀ r ∈ bodies, r.longest ≤ k := by
  rw [Row.push, Nat.max_le, Nat.max_le, most_le_iff, List.forall_mem_map, and_assoc]

def row : Fold Row where
  nil := ⟨0, 0⟩
  step rest := rest
  choice := Row.push
  parallel := Row.push

/-! ## Levels of the recursion -/

/-- How many levels the recursion takes that unfolds a sequence. -/
structure Descent where
  /-- one if the sequence begins with a step: what follows it is one level deeper -/
  lead : Nat
  /-- below the level at which the steps at its beginning stand -/
  below : Nat

namespace Descent

def total (d : Descent) : Nat :=
  d.lead + d.below

/-- A choice or parallel element takes a level, its bodies and what continues it stand below. -/
def push (bodies : List Nat) (rest : Descent) : Descent where
  lead := 0
  below := 1 + max (most bodies) rest.total

end Descent

/-- What stands under a branch is one level deeper than its choice, what stands in a lane begins right below. -/
def descent : Fold Descent where
  nil := ⟨0, 0⟩
  step rest := ⟨1, rest.below⟩
  choice bodies rest := .push (bodies.map fun d => 1 + d.below) rest
  parallel bodies rest := .push (bodies.map Descent.total) rest

/-- A sequence begins with one step or with none, as far as levels go. -/
theorem lead_le_one (es : List Element) : (descent.ofBody es).lead ≤ 1 := by
  rcases es with _ | ⟨e | e | _ | _, rest⟩
  · exact Nat.zero_le 1
  · exact Nat.le_refl 1
  · exact Nat.le_refl 1
  · rw [Fold.ofBody_choice]
    exact Nat.zero_le 1
  · rw [Fold.ofBody_parallel]
    exact Nat.zero_le 1

/-! ## Levels from nesting and rows -/

/-- An element in front of a sequence is a step, or a choice or parallel element. -/
theorem ofBody_cons (element : Element) (rest : List Element) :
    (nesting.ofBody (element :: rest) = nesting.ofBody rest ∧ row.ofBody (element :: rest) = row.ofBody rest ∧
        (descent.ofBody (element :: rest)).below = (descent.ofBody rest).below) ∨
      (nesting.ofBody (element :: rest) = max (1 + most (element.bodies.map nesting.ofBody)) (nesting.ofBody rest) ∧
        row.ofBody (element :: rest) = .push (element.bodies.map row.ofBody) (row.ofBody rest) ∧
          ∃ levels, (∀ n ∈ levels, ∃ body ∈ element.bodies, n ≤ 1 + (descent.ofBody body).below) ∧
            descent.ofBody (element :: rest) = .push levels (descent.ofBody rest)) := by
  cases element with
  | sequential node => exact Or.inl ⟨rfl, rfl, rfl⟩
  | leaf node => exact Or.inl ⟨rfl, rfl, rfl⟩
  | choice id node arms otherwise =>
    simp only [Fold.ofBody_choice]
    refine Or.inr ⟨rfl, rfl, _, fun n hn => ?_, rfl⟩
    rw [List.map_map] at hn
    obtain ⟨body, hb, rfl⟩ := List.mem_map.1 hn
    exact ⟨body, hb, Nat.le_refl _⟩
  | parallel id lanes =>
    simp only [Fold.ofBody_parallel, bodies, List.map_map]
    refine Or.inr ⟨rfl, rfl, _, fun n hn => ?_, rfl⟩
    rw [List.map_map] at hn
    obtain ⟨l, hl, rfl⟩ := List.mem_map.1 hn
    exact ⟨l.body, List.mem_map_of_mem hl, Nat.add_le_add_right (lead_le_one l.body) _⟩

theorem own_le_longest (es : List Element) : (row.ofBody es).own ≤ (row.ofBody es).longest := by
  induction es with
  | nil => exact Nat.le_refl 0
  | cons element rest ih =>
    rcases ofBody_cons element rest with ⟨-, hrow, -⟩ | ⟨-, hrow, -⟩
    · rw [hrow]
      exact ih
    · rw [hrow]
      exact Nat.le_trans (Nat.le_max_left ..) (Nat.le_max_left ..)

/-- Each choice or parallel element of a sequence costs two levels, and so does each one of the sequences that it lies in. -/
theorem below_le {k : Nat} (es : List Element) : ∀ n, nesting.ofBody es ≤ n → (row.ofBody es).longest ≤ k →
    (descent.ofBody es).below = 0 ∨ (descent.ofBody es).below + 2 * k ≤ 2 * (row.ofBody es).own + 2 * (k * n) := by
  induction es using body_induction with
  | nil => exact fun _ _ _ => Or.inl rfl
  | cons element rest ihbodies ihrest =>
    intro n hn hk
    rcases ofBody_cons element rest with ⟨hnesting, hrow, hbelow⟩ | ⟨hnesting, hrow, levels, hlevels, hdescent⟩
    · rw [hnesting] at hn
      rw [hrow] at hk ⊢
      rw [hbelow]
      exact ihrest n hn hk
    · rw [hnesting, Nat.max_le] at hn
      rw [hrow, Row.longest_push_le_iff] at hk
      -- the bodies are nested less deep by one, which leaves `2 * k` levels for the sequence that they lie in
      obtain ⟨m, rfl⟩ : ∃ m, n = m + 1 := ⟨n - 1, by omega⟩
      have hinner : ∀ body ∈ element.bodies, (descent.ofBody body).below ≤ 2 * (k * m) := by
        intro body hb
        have hm : nesting.ofBody body ≤ m := most_le_iff.1 (by omega) _ (List.mem_map_of_mem hb)
        have hlongest := hk.2.2 _ (List.mem_map_of_mem hb)
        have hown := own_le_longest body
        rcases ihbodies body hb m hm hlongest with h | h <;> omega
      have hlevels : most levels ≤ 1 + 2 * (k * m) := by
        refine most_le_iff.2 fun l hl => ?_
        obtain ⟨body, hb, hle⟩ := hlevels l hl
        exact Nat.le_trans hle (Nat.add_le_add_left (hinner body hb) 1)
      have hlead := lead_le_one rest
      rw [hdescent, hrow]
      refine Or.inr ?_
      simp only [Descent.push, Descent.total, Row.push, Nat.mul_succ]
      rcases ihrest (m + 1) hn.2 hk.2.1 with h | h
      · omega
      · rw [Nat.mul_succ] at h
        omega

end Element

namespace Route

/-- How many choices and parallel elements of a plan lie inside one another. -/
def nesting (r : Route) : Nat :=
  Element.nesting.ofBody r.steps

/-- How many choices and parallel elements stand in one sequence of a plan at most. -/
def row (r : Route) : Nat :=
  (Element.row.ofBody r.steps).longest

/-- How many levels the recursion takes that unfolds a plan. -/
def depth (r : Route) : Nat :=
  (Element.descent.ofBody r.steps).total

/-- Nested `n` deep, with at most `k` choices and parallel elements in one sequence. -/
theorem depth_le {r : Route} {k n : Nat} (hn : r.nesting ≤ n) (hk : r.row ≤ k) : r.depth ≤ 2 * (k * n) + 1 := by
  have hlead := Element.lead_le_one r.steps
  have hown := Nat.le_trans (Element.own_le_longest r.steps) hk
  rw [depth, Element.Descent.total]
  rcases Element.below_le r.steps n hn hk with h | h <;> omega

end Route

end FlowPlan
