import FlowPlan.Plan.Basic

/-!
# Plans by their bodies

Much of what is said of a plan goes along its sequences and appends what it finds (`eq_flatMap`): nodes, spines, bytes. What is
found inside a choice is what is found in its bodies, one after the other (`Element.eq_flatMap_bodiesOf`). `Route.parts` lists the
elements of a plan at whatever depth.
-/

namespace FlowPlan

/-- What goes along a list and appends what it finds at each item. -/
theorem eq_flatMap {α β : Type} {along : List α → List β} {each : α → List β} (hnil : along [] = [])
    (hcons : ∀ a rest, along (a :: rest) = each a ++ along rest) (items : List α) : along items = items.flatMap each := by
  induction items with
  | nil => exact hnil
  | cons a rest ih => rw [hcons, ih, List.flatMap_cons]

namespace Element

/-- The bodies of a choice. -/
def bodiesOf (arms : List (Arm Element)) (otherwise : Option (List Element)) : List (List Element) :=
  arms.map (·.body) ++ otherwise.toList

/-- The bodies of an element. -/
def bodies : Element → List (List Element)
  | .sequential _ => []
  | .leaf _ => []
  | .choice _ _ arms otherwise => bodiesOf arms otherwise
  | .parallel _ lanes => lanes.map (·.body)

/-- What is found in the arms of a choice and then in its other body. -/
theorem eq_flatMap_bodiesOf {α : Type} {ofBody : List Element → List α} {ofArms : List (Arm Element) → List α}
    {ofOtherwise : Option (List Element) → List α} (hnil : ofArms [] = [])
    (hcons : ∀ a rest, ofArms (a :: rest) = ofBody a.body ++ ofArms rest) (hnone : ofOtherwise none = [])
    (hsome : ∀ body, ofOtherwise (some body) = ofBody body) (arms : List (Arm Element)) (otherwise : Option (List Element)) :
    ofArms arms ++ ofOtherwise otherwise = (bodiesOf arms otherwise).flatMap ofBody := by
  have other : ofOtherwise otherwise = otherwise.toList.flatMap ofBody := by
    cases otherwise with
    | none => exact hnone
    | some body => exact (hsome body).trans (List.flatMap_singleton ofBody body).symm
  rw [bodiesOf, List.flatMap_append, List.flatMap_map, eq_flatMap hnil hcons, other]

mutual

/-- An element, and behind it the elements of its bodies. -/
def parts : Element → List Element
  | .sequential node => [.sequential node]
  | .leaf node => [.leaf node]
  | .choice id node arms otherwise => .choice id node arms otherwise :: (partsOfArms arms ++ partsOfOtherwise otherwise)
  | .parallel id lanes => .parallel id lanes :: partsOfLanes lanes

/-- The elements of a sequence and of all its bodies. -/
def partsOfBody : List Element → List Element
  | [] => []
  | element :: rest => parts element ++ partsOfBody rest

def partsOfArms : List (Arm Element) → List Element
  | [] => []
  | ⟨_, _, body⟩ :: rest => partsOfBody body ++ partsOfArms rest

def partsOfLanes : List (Lane Element) → List Element
  | [] => []
  | ⟨_, body⟩ :: rest => partsOfBody body ++ partsOfLanes rest

def partsOfOtherwise : Option (List Element) → List Element
  | none => []
  | some body => partsOfBody body

end

/-- The parts of an element are itself and those of its bodies. -/
theorem parts_eq (element : Element) : element.parts = element :: element.bodies.flatMap partsOfBody := by
  cases element with
  | sequential node => rfl
  | leaf node => rfl
  | choice id node arms otherwise =>
    rw [parts, bodies]
    exact congrArg (_ :: ·) (eq_flatMap_bodiesOf rfl (fun _ _ => rfl) rfl (fun _ => rfl) arms otherwise)
  | parallel id lanes =>
    have hlanes : partsOfLanes lanes = lanes.flatMap fun l => partsOfBody l.body := eq_flatMap rfl (fun _ _ => rfl) lanes
    rw [parts, bodies, List.flatMap_map, hlanes]

@[simp] theorem partsOfBody_cons (element : Element) (rest : List Element) :
    partsOfBody (element :: rest) = element :: (element.bodies.flatMap partsOfBody ++ partsOfBody rest) := by
  rw [partsOfBody, parts_eq, List.cons_append]

/-- Parts of sequences stay in order. -/
theorem partsOfBody_append (es ds : List Element) : partsOfBody (es ++ ds) = partsOfBody es ++ partsOfBody ds := by
  have along : ∀ items, partsOfBody items = items.flatMap parts := eq_flatMap rfl fun _ _ => rfl
  rw [along, along, along, List.flatMap_append]

end Element

/-- The elements of a plan, at whatever depth. -/
def Route.parts (r : Route) : List Element :=
  Element.partsOfBody r.steps

end FlowPlan
