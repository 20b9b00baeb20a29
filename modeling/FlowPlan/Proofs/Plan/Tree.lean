import FlowPlan.Plan.Tree
import FlowPlan.Proofs.Nesting

/-!
# What a drawn plan tells

A plan that is drawn as a tree shows its shape (`Route.shape_of_tree`), whatever stands in its texts, as long as each of them
stands on one line. The lines of a body go on as long as they begin with its indentation: below an item stands a column, where
its next sibling has a mark, and no column begins like a mark. So of two drawings that begin alike, with anything behind them
that is not indented so far, the bodies have the same shape and what stands behind them is the same (`Element.Told`).
-/

namespace FlowPlan

/-- A text that stands on one line. -/
def OneLine (text : String) : Prop :=
  '\n' ∉ text.toList

instance (text : String) : Decidable (OneLine text) :=
  inferInstanceAs (Decidable ('\n' ∉ text.toList))

/-- A text on one line is made of texts on one line. -/
theorem oneLine_append {s t : String} : OneLine (s ++ t) ↔ OneLine s ∧ OneLine t := by
  rw [OneLine, String.toList_append, List.mem_append, not_or]
  rfl

namespace Element

/-- What is left of an element without its texts: of which kind it is, and what its bodies come to. -/
inductive Shape
  | sequential
  | leaf
  | choice (arms : List (List Shape)) (otherwise : Option (List Shape))
  | parallel (lanes : List (List Shape))
  deriving Repr

mutual

def shape : Element → Shape
  | .sequential _ => .sequential
  | .leaf _ => .leaf
  | .choice _ _ arms otherwise => .choice (shapesOfArms arms) (shapesOfOtherwise otherwise)
  | .parallel _ lanes => .parallel (shapesOfLanes lanes)

/-- The shapes of the elements of a body, in order. -/
def shapesOfBody : List Element → List Shape
  | [] => []
  | element :: rest => shape element :: shapesOfBody rest

def shapesOfArms : List (Arm Element) → List (List Shape)
  | [] => []
  | ⟨_, _, body⟩ :: rest => shapesOfBody body :: shapesOfArms rest

def shapesOfLanes : List (Lane Element) → List (List Shape)
  | [] => []
  | ⟨_, body⟩ :: rest => shapesOfBody body :: shapesOfLanes rest

def shapesOfOtherwise : Option (List Element) → Option (List Shape)
  | none => none
  | some body => some (shapesOfBody body)

end

theorem shapesOfArms_eq (arms : List (Arm Element)) : shapesOfArms arms = arms.map fun a => shapesOfBody a.body := by
  induction arms with
  | nil => rfl
  | cons a rest ih => rw [shapesOfArms, ih, List.map_cons]

theorem shapesOfLanes_eq (lanes : List (Lane Element)) : shapesOfLanes lanes = lanes.map fun l => shapesOfBody l.body := by
  induction lanes with
  | nil => rfl
  | cons l rest ih => rw [shapesOfLanes, ih, List.map_cons]

/-- The texts of an element itself, and of its branches. -/
def texts : Element → List String
  | .sequential node => [node.id, node.component]
  | .leaf node => [node.id, node.component]
  | .choice id node arms _ => id :: node.id :: node.component :: arms.flatMap fun a => [a.id, a.condition]
  | .parallel id lanes => id :: lanes.map (·.id)

/-! ## One way to draw all elements -/

/-- What stands behind the mark of an element. -/
def label : Element → String
  | .sequential node => "Sequential: " ++ (node.id ++ (" (" ++ (node.component ++ ")")))
  | .leaf node => "Leaf: " ++ (node.id ++ (" (" ++ (node.component ++ ")")))
  | .choice id node _ _ => "Choice: " ++ (id ++ (" [" ++ (node.id ++ "]")))
  | .parallel id _ => "Parallel: " ++ id

/-- What stands behind the mark of an arm. -/
def armLabel (a : Arm Element) : String :=
  "When " ++ (a.id ++ (" (" ++ (a.condition ++ ")")))

/-- The branches of a choice, each with what stands behind its mark. -/
def branchesOf (arms : List (Arm Element)) (otherwise : Option (List Element)) : List (String × List Element) :=
  arms.map (fun a => (armLabel a, a.body)) ++ otherwise.toList.map fun body => ("Otherwise", body)

/-- The branches that are drawn below an element, each with what stands behind its mark. -/
def branches : Element → List (String × List Element)
  | .sequential _ => []
  | .leaf _ => []
  | .choice _ _ arms otherwise => branchesOf arms otherwise
  | .parallel _ lanes => lanes.map fun l => ("Branch " ++ l.id, l.body)

/-- The lines of branches. -/
def treeOfBranches (indent : String) : List (String × List Element) → List String
  | [] => []
  | (label, body) :: rest =>
    (indent ++ (branchMark rest.isEmpty ++ label))
      :: (treeOfBody (indent ++ columnUnder rest.isEmpty) body ++ treeOfBranches indent rest)

/-- An element is drawn as its label and, under it, its branches. -/
theorem tree_eq (indent : String) (last : Bool) (e : Element) : tree indent last e =
    (indent ++ (branchMark last ++ e.label)) :: treeOfBranches (indent ++ columnUnder last) e.branches := by
  have arms_eq (inner : String) (arms : List (Arm Element)) (otherwise : Option (List Element)) :
      treeOfArms inner otherwise.isNone arms ++ treeOfOtherwise inner otherwise =
        treeOfBranches inner (branchesOf arms otherwise) := by
    induction arms with
    | nil =>
      cases otherwise with
      | none => rfl
      | some body => simp [treeOfArms, treeOfOtherwise, branchesOf, treeOfBranches, String.append_assoc]
    | cons a rest ih =>
      have hlast : (otherwise.isNone && rest.isEmpty) = (branchesOf rest otherwise).isEmpty := by
        cases otherwise <;> cases rest <;> rfl
      rw [treeOfArms, hlast, List.cons_append, List.append_assoc, ih]
      change _ = treeOfBranches inner ((armLabel a, a.body) :: branchesOf rest otherwise)
      rw [treeOfBranches, armLabel]
      simp only [String.append_assoc]
  have lanes_eq (inner : String) (lanes : List (Lane Element)) :
      treeOfLanes inner lanes = treeOfBranches inner (lanes.map fun l => ("Branch " ++ l.id, l.body)) := by
    induction lanes with
    | nil => rfl
    | cons l rest ih =>
      rw [treeOfLanes, ih, List.map_cons, treeOfBranches, List.isEmpty_map]
      simp only [String.append_assoc]
  cases e with
  | sequential node => simp only [tree, label, branches, treeOfBranches, String.append_assoc]
  | leaf node => simp only [tree, label, branches, treeOfBranches, String.append_assoc]
  | choice id node arms otherwise =>
    rw [tree, arms_eq, label, branches]
    simp only [String.append_assoc]
  | parallel id lanes =>
    rw [tree, lanes_eq, label, branches]
    simp only [String.append_assoc]

/-- The branches have the bodies of the element. -/
theorem map_body_branches (e : Element) : e.branches.map (·.2) = e.bodies := by
  cases e with
  | sequential node => rfl
  | leaf node => rfl
  | choice id node arms otherwise =>
    simp only [branches, branchesOf, bodies, bodiesOf, List.map_append, List.map_map, Function.comp_def, List.map_id']
  | parallel id lanes =>
    simp only [branches, bodies, List.map_map, Function.comp_def]

/-- A body that has elements begins with the line of the first one. -/
@[simp] theorem treeOfBody_cons (indent : String) (e : Element) (others : List Element) : treeOfBody indent (e :: others) =
    (indent ++ (branchMark others.isEmpty ++ e.label))
      :: (treeOfBranches (indent ++ columnUnder others.isEmpty) e.branches ++ treeOfRest indent others) := by
  rw [treeOfBody, tree_eq, List.cons_append]

@[simp] theorem treeOfBody_nil (indent : String) : treeOfBody indent [] = [indent ++ (branchMark true ++ "<pass-through>")] := by
  rw [treeOfBody]
  rfl

@[simp] theorem treeOfRest_cons (indent : String) (e : Element) (others : List Element) :
    treeOfRest indent (e :: others) = treeOfBody indent (e :: others) := by
  rw [treeOfRest, treeOfBody]

/-! ## Lines that are not indented so far -/

/-- The first of the lines, if there is one, does not begin with the indentation. -/
def Outside (indent : String) (lines : List String) : Prop :=
  ∀ line ∈ lines.head?, ∀ text, line ≠ indent ++ text

/-- What is outside of an indent is outside of a deeper one. -/
theorem Outside.deeper {indent : String} {lines : List String} (h : Outside indent lines) (column : String) :
    Outside (indent ++ column) lines := by
  intro line hline text
  rw [String.append_assoc]
  exact h line hline (column ++ text)

/-- The mark in front of a label tells whether it is the last one, and leaves the label. -/
theorem branchMark_append_inj {b b' : Bool} {s s' : String} : branchMark b ++ s = branchMark b' ++ s' ↔ b = b' ∧ s = s' := by
  constructor
  · intro h
    have hchars := congrArg String.toList h
    rw [String.toList_append, String.toList_append] at hchars
    cases b <;> cases b' <;> simp_all [branchMark]
  · rintro ⟨rfl, rfl⟩
    rfl

/-- A line with a mark is outside of what is below a sibling. -/
theorem outside_mark (indent label : String) (b b' : Bool) (lines : List String) :
    Outside (indent ++ columnUnder b) ((indent ++ (branchMark b' ++ label)) :: lines) := by
  rintro line hline text rfl
  have h := Option.some.inj hline
  rw [String.append_assoc, String.append_right_inj] at h
  have hchars := congrArg String.toList h
  rw [String.toList_append, String.toList_append] at hchars
  cases b <;> cases b' <;> simp [branchMark, columnUnder] at hchars

/-- Lines that begin with a mark, if there are any: those of siblings. -/
def Marked (indent : String) (lines : List String) : Prop :=
  lines = [] ∨ ∃ b label others, lines = (indent ++ (branchMark b ++ label)) :: others

theorem marked_treeOfBranches (indent : String) (branches : List (String × List Element)) :
    Marked indent (treeOfBranches indent branches) := by
  cases branches with
  | nil => exact .inl rfl
  | cons b others => exact .inr ⟨_, _, _, rfl⟩

theorem marked_treeOfRest (indent : String) (others : List Element) : Marked indent (treeOfRest indent others) := by
  cases others with
  | nil => exact .inl rfl
  | cons e others => exact .inr ⟨_, _, _, by rw [treeOfRest_cons, treeOfBody_cons]⟩

/-- What is drawn behind an element or branch, its siblings and what follows them, is outside of what is below it. -/
theorem Marked.outside {indent : String} {lines rest : List String} (h : Marked indent lines) (hrest : Outside indent rest)
    (b : Bool) : Outside (indent ++ columnUnder b) (lines ++ rest) := by
  rcases h with rfl | ⟨b', label, others, rfl⟩
  · exact hrest.deeper _
  · exact outside_mark indent label b b' _

/-! ## Shapes from lines -/

/-- No element is drawn as a pass-through. -/
theorem label_ne_passThrough (e : Element) : e.label ≠ "<pass-through>" := by
  intro h
  have hchars := congrArg String.toList h
  cases e <;> simp [label] at hchars

/-- No label of an arm is that of the otherwise branch, whatever the condition. -/
theorem armLabel_ne_otherwise (a : Arm Element) : armLabel a ≠ "Otherwise" := by
  intro h
  have hchars := congrArg String.toList h
  simp [armLabel] at hchars

/-- Arms that are labelled and shaped alike, with other bodies that are. -/
theorem shapes_of_branchesOf {arms arms' : List (Arm Element)} {otherwise otherwise' : Option (List Element)}
    (hlabels : (branchesOf arms otherwise).map (·.1) = (branchesOf arms' otherwise').map (·.1))
    (hshapes : (branchesOf arms otherwise).map (fun b => shapesOfBody b.2) =
      (branchesOf arms' otherwise').map fun b => shapesOfBody b.2) :
    shapesOfArms arms = shapesOfArms arms' ∧ shapesOfOtherwise otherwise = shapesOfOtherwise otherwise' := by
  have single (arms : List (Arm Element)) : "Otherwise" ∉ arms.map armLabel := by
    intro h
    obtain ⟨a, -, ha⟩ := List.mem_map.1 h
    exact armLabel_ne_otherwise a ha
  rw [shapesOfArms_eq, shapesOfArms_eq]
  simp only [branchesOf, List.map_append, List.map_map, Function.comp_def] at hlabels hshapes
  cases otherwise with
  | none =>
    cases otherwise' with
    | none => exact ⟨by simpa using hshapes, rfl⟩
    | some body' =>
      rw [Option.toList_none, List.map_nil, List.append_nil] at hlabels
      exact absurd (hlabels ▸ List.mem_append_right _ (List.mem_singleton_self _)) (single arms)
  | some body =>
    cases otherwise' with
    | none =>
      rw [Option.toList_none, List.map_nil, List.append_nil] at hlabels
      exact absurd (hlabels ▸ List.mem_append_right _ (List.mem_singleton_self _)) (single arms')
    | some body' =>
      obtain ⟨harms, hbody⟩ := List.append_inj' hshapes rfl
      exact ⟨harms, congrArg some (List.cons.inj hbody).1⟩

/-- An element's shape is told by its label and by its branches. -/
theorem shape_of_label {e e' : Element} (hlabel : e.label = e'.label) (hlabels : e.branches.map (·.1) = e'.branches.map (·.1))
    (hshapes : e.branches.map (fun b => shapesOfBody b.2) = e'.branches.map fun b => shapesOfBody b.2) : e.shape = e'.shape := by
  have hchars := congrArg (fun s => s.toList.head?) hlabel
  cases e <;> cases e' <;> simp [label] at hchars
  case sequential => rfl
  case leaf => rfl
  case choice arms otherwise _ _ arms' otherwise' =>
    obtain ⟨harms, hother⟩ := shapes_of_branchesOf hlabels hshapes
    rw [shape, shape, harms, hother]
  case parallel lanes _ lanes' =>
    simp only [branches, List.map_map, Function.comp_def] at hshapes
    rw [shape, shape, shapesOfLanes_eq, shapesOfLanes_eq, hshapes]

/-- What is drawn of a body tells its shape, and where it ends, when what follows is not indented so far. -/
def Told (es : List Element) : Prop :=
  ∀ indent es' rest rest', Outside indent rest → Outside indent rest' →
    treeOfBody indent es ++ rest = treeOfBody indent es' ++ rest' → shapesOfBody es = shapesOfBody es' ∧ rest = rest'

/-- So do branches with such bodies. -/
theorem told_branches {branches : List (String × List Element)} (h : ∀ b ∈ branches, Told b.2) (indent : String)
    (branches' : List (String × List Element)) (rest rest' : List String) (hrest : Outside indent rest)
    (hrest' : Outside indent rest') (heq : treeOfBranches indent branches ++ rest = treeOfBranches indent branches' ++ rest') :
    branches.map (·.1) = branches'.map (·.1) ∧
      branches.map (fun b => shapesOfBody b.2) = branches'.map (fun b => shapesOfBody b.2) ∧ rest = rest' := by
  induction branches generalizing branches' with
  | nil =>
    cases branches' with
    | nil => exact ⟨rfl, rfl, heq⟩
    | cons b' others' =>
      obtain rfl : rest = _ := heq
      exact absurd rfl (hrest _ rfl _)
  | cons b others ih =>
    cases branches' with
    | nil =>
      obtain rfl : _ = rest' := heq
      exact absurd rfl (hrest' _ rfl _)
    | cons b' others' =>
      obtain ⟨hbody, hothers⟩ := List.forall_mem_cons.1 h
      rw [treeOfBranches, treeOfBranches, List.cons_append, List.cons_append, List.append_assoc, List.append_assoc,
        List.cons.injEq, String.append_right_inj, branchMark_append_inj] at heq
      obtain ⟨⟨hlast, hlabel⟩, hlines⟩ := heq
      have hout := (marked_treeOfBranches indent others).outside hrest others.isEmpty
      have hout' := (marked_treeOfBranches indent others').outside hrest' others.isEmpty
      rw [← hlast] at hlines
      obtain ⟨hshape, hlines⟩ := hbody _ _ _ _ hout hout' hlines
      obtain ⟨hlabels, hshapes, hrests⟩ := ih hothers others' hlines
      exact ⟨List.cons_eq_cons.2 ⟨hlabel, hlabels⟩, List.cons_eq_cons.2 ⟨hshape, hshapes⟩, hrests⟩

/-- What is drawn of a body tells its shape. -/
theorem told (es : List Element) : Told es := by
  induction es using body_induction with
  | nil =>
    intro indent es' rest rest' _ _ heq
    cases es' with
    | nil => exact ⟨rfl, (List.cons.inj heq).2⟩
    | cons e' others' =>
      rw [treeOfBody_nil, treeOfBody_cons, List.singleton_append, List.cons_append, List.cons.injEq, String.append_right_inj,
        branchMark_append_inj] at heq
      exact absurd heq.1.2.symm (label_ne_passThrough e')
  | cons e others ihbodies ihothers =>
    intro indent es' rest rest' hrest hrest' heq
    cases es' with
    | nil =>
      rw [treeOfBody_nil, treeOfBody_cons, List.singleton_append, List.cons_append, List.cons.injEq, String.append_right_inj,
        branchMark_append_inj] at heq
      exact absurd heq.1.2 (label_ne_passThrough e)
    | cons e' others' =>
      have told : ∀ b ∈ e.branches, Told b.2 := fun b hb => ihbodies b.2 (map_body_branches e ▸ List.mem_map_of_mem hb)
      rw [treeOfBody_cons, treeOfBody_cons, List.cons_append, List.cons_append, List.append_assoc, List.append_assoc,
        List.cons.injEq, String.append_right_inj, branchMark_append_inj] at heq
      obtain ⟨⟨hlast, hlabel⟩, hlines⟩ := heq
      have hout := (marked_treeOfRest indent others).outside hrest others.isEmpty
      have hout' := (marked_treeOfRest indent others').outside hrest' others.isEmpty
      rw [← hlast] at hlines
      obtain ⟨hlabels, hshapes, hlines⟩ := told_branches told _ _ _ _ hout hout' hlines
      have hshape := shape_of_label hlabel hlabels hshapes
      cases others with
      | nil =>
        obtain rfl := List.isEmpty_iff.1 hlast.symm
        exact ⟨List.cons_eq_cons.2 ⟨hshape, rfl⟩, hlines⟩
      | cons d ds =>
        cases others' with
        | nil => cases hlast
        | cons d' ds' =>
          rw [treeOfRest_cons, treeOfRest_cons] at hlines
          obtain ⟨hothers, hrests⟩ := ihothers indent (d' :: ds') rest rest' hrest hrest' hlines
          exact ⟨List.cons_eq_cons.2 ⟨hshape, hothers⟩, hrests⟩

/-! ## Texts on one line -/

/-- The label of an element is on one line if its texts are. -/
theorem oneLine_label {e : Element} (h : ∀ t ∈ e.texts, OneLine t) : OneLine e.label := by
  cases e <;> simp only [texts, List.forall_mem_cons] at h <;> simp only [label, oneLine_append]
  case sequential => exact ⟨by decide, h.1, by decide, h.2.1, by decide⟩
  case leaf => exact ⟨by decide, h.1, by decide, h.2.1, by decide⟩
  case choice => exact ⟨by decide, h.1, by decide, h.2.1, by decide⟩
  case parallel => exact ⟨by decide, h.1⟩

theorem oneLine_label_of_branch {e : Element} (h : ∀ t ∈ e.texts, OneLine t) {b : String × List Element} (hb : b ∈ e.branches) :
    OneLine b.1 := by
  cases e with
  | sequential node => cases hb
  | leaf node => cases hb
  | choice id node arms otherwise =>
    rcases List.mem_append.1 hb with hb | hb
    · obtain ⟨a, ha, rfl⟩ := List.mem_map.1 hb
      simp only [texts, List.forall_mem_cons] at h
      have harm := fun t ht => h.2.2.2 t (List.mem_flatMap_of_mem ha ht)
      rw [List.forall_mem_cons, List.forall_mem_singleton] at harm
      simp only [armLabel, oneLine_append]
      exact ⟨by decide, harm.1, by decide, harm.2, by decide⟩
    · obtain ⟨body, -, rfl⟩ := List.mem_map.1 hb
      exact (by decide : OneLine "Otherwise")
  | parallel id lanes =>
    obtain ⟨l, hl, rfl⟩ := List.mem_map.1 hb
    exact oneLine_append.2 ⟨by decide, h l.id (List.mem_cons_of_mem _ (List.mem_map_of_mem hl))⟩

theorem oneLine_branchMark (last : Bool) : OneLine (branchMark last) := by
  cases last <;> decide

theorem oneLine_columnUnder (last : Bool) : OneLine (columnUnder last) := by
  cases last <;> decide

/-- What is drawn of branches stands line by line if it does of their bodies. -/
theorem oneLine_treeOfBranches {branches : List (String × List Element)} (hlabels : ∀ b ∈ branches, OneLine b.1)
    (hbodies : ∀ b ∈ branches, ∀ indent, OneLine indent → ∀ line ∈ treeOfBody indent b.2, OneLine line) {indent : String}
    (hindent : OneLine indent) : ∀ line ∈ treeOfBranches indent branches, OneLine line := by
  induction branches with
  | nil => exact fun _ hline => nomatch hline
  | cons b others ih =>
    rw [List.forall_mem_cons] at hlabels hbodies
    rw [treeOfBranches, List.forall_mem_cons, List.forall_mem_append]
    exact ⟨oneLine_append.2 ⟨hindent, oneLine_append.2 ⟨oneLine_branchMark _, hlabels.1⟩⟩,
      hbodies.1 _ (oneLine_append.2 ⟨hindent, oneLine_columnUnder _⟩), ih hlabels.2 hbodies.2⟩

/-- A body whose texts stand on one line each is drawn line by line. -/
theorem oneLine_treeOfBody {es : List Element} (h : ∀ e ∈ partsOfBody es, ∀ t ∈ e.texts, OneLine t) :
    ∀ indent, OneLine indent → ∀ line ∈ treeOfBody indent es, OneLine line := by
  induction es using body_induction with
  | nil =>
    intro indent hindent
    rw [treeOfBody_nil, List.forall_mem_singleton]
    exact oneLine_append.2 ⟨hindent, by decide⟩
  | cons e others ihbodies ihothers =>
    intro indent hindent
    rw [partsOfBody_cons, List.forall_mem_cons, List.forall_mem_append] at h
    obtain ⟨hown, hbodies, hothers⟩ := h
    rw [treeOfBody_cons, List.forall_mem_cons, List.forall_mem_append]
    refine ⟨oneLine_append.2 ⟨hindent, oneLine_append.2 ⟨oneLine_branchMark _, oneLine_label hown⟩⟩, ?_, ?_⟩
    · refine oneLine_treeOfBranches (fun b hb => oneLine_label_of_branch hown hb) (fun b hb => ?_)
        (oneLine_append.2 ⟨hindent, oneLine_columnUnder _⟩)
      have hb : b.2 ∈ e.bodies := map_body_branches e ▸ List.mem_map_of_mem hb
      exact ihbodies b.2 hb fun d hd => hbodies d (List.mem_flatMap.2 ⟨b.2, hb, hd⟩)
    · cases others with
      | nil => exact fun _ hline => nomatch hline
      | cons d ds =>
        rw [treeOfRest_cons]
        exact ihothers hothers indent hindent

end Element

/-- Texts that stand on one line each are told apart by the text that has them as its lines. -/
theorem join_lines_inj {lines lines' : List String} (h : ∀ line ∈ lines, OneLine line) (h' : ∀ line ∈ lines', OneLine line)
    (heq : String.join (lines.map (· ++ "\n")) = String.join (lines'.map (· ++ "\n"))) : lines = lines' := by
  -- behind the last line feed stands an empty text
  have chars (lines : List String) : (String.join (lines.map (· ++ "\n"))).toList =
      ['\n'].intercalate (lines.map String.toList ++ [[]]) := by
    rw [String.toList_join, List.flatMap_map]
    induction lines with
    | nil => rfl
    | cons line rest ih =>
      obtain ⟨l, ls, hrest⟩ := List.exists_cons_of_ne_nil (List.concat_ne_nil [] (rest.map String.toList))
      rw [List.flatMap_cons, ih, List.map_cons, List.cons_append, hrest, List.intercalate_cons_cons, String.toList_append]
      rfl
  have split {lines : List String} (h : ∀ line ∈ lines, OneLine line) :
      (String.join (lines.map (· ++ "\n"))).toList.splitOn '\n' = lines.map String.toList ++ [[]] := by
    rw [chars]
    refine List.splitOn_intercalate '\n' ?_ (List.append_ne_nil_of_right_ne_nil _ (List.cons_ne_nil [] []))
    rw [List.forall_mem_append, List.forall_mem_map]
    exact ⟨h, List.forall_mem_singleton.2 List.not_mem_nil⟩
  have hlines := split h
  rw [heq, split h'] at hlines
  exact (List.map_inj_right fun _ _ => String.toList_injective).1 (List.append_cancel_right hlines).symm

namespace Route

/-- What is left of a plan without its texts. -/
def shape (r : Route) : List Element.Shape :=
  Element.shapesOfBody r.steps

/-- All texts that are drawn of a plan stand on one line each. -/
def OneLined (r : Route) : Prop :=
  OneLine r.flowId ∧ ∀ e ∈ r.parts, ∀ t ∈ e.texts, OneLine t

instance (r : Route) : Decidable r.OneLined :=
  inferInstanceAs (Decidable (OneLine r.flowId ∧ ∀ e ∈ r.parts, ∀ t ∈ e.texts, OneLine t))

/-- A drawing has no line with a line break in it. -/
theorem OneLined.treeLines {r : Route} (h : r.OneLined) : ∀ line ∈ r.treeLines, OneLine line := by
  rw [Route.treeLines, List.forall_mem_cons]
  exact ⟨oneLine_append.2 ⟨by decide, h.1⟩, Element.oneLine_treeOfBody h.2 "" (by decide)⟩

/-- Plans that are drawn alike are plans of one flow and have one shape, whatever else stands in their texts. -/
theorem shape_of_tree {r s : Route} (hr : r.OneLined) (hs : s.OneLined) (h : r.tree = s.tree) :
    r.flowId = s.flowId ∧ r.shape = s.shape := by
  have hlines : r.treeLines = s.treeLines := join_lines_inj hr.treeLines hs.treeLines h
  rw [treeLines, treeLines, List.cons.injEq, String.append_right_inj] at hlines
  refine ⟨hlines.1, (Element.told r.steps "" s.steps [] [] ?_ ?_ ?_).1⟩
  · exact fun _ hline => nomatch hline
  · exact fun _ hline => nomatch hline
  · rw [List.append_nil, List.append_nil]
    exact hlines.2

/-- A choice under which one arm ends at once and the other takes a step that looks like a mark, its node with parameters. -/
def boxed (parameters : Dict Value) : Route where
  flowId := "f"
  steps :=
    [.choice "choice-1" { id := "└── c", component := "choice", parameters := parameters }
        [⟨"a", "│   ", []⟩, ⟨"b", "x)", [.leaf { id := "├── s (", component := "plain" }]⟩] (some []),
      .parallel "parallel-1" []]

/-- The parameters of a node are not drawn. -/
theorem shape_of_tree_boxed : (boxed ∅).OneLined ∧ (boxed (.single "k" (.bool true))).OneLined ∧
    (boxed ∅).tree = (boxed (.single "k" (.bool true))).tree ∧ (boxed ∅).shape = (boxed (.single "k" (.bool true))).shape :=
  ⟨by decide, by decide, rfl, (shape_of_tree (by decide) (by decide) rfl).2⟩

end Route

end FlowPlan
