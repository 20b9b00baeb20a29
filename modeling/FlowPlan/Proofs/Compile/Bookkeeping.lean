import FlowPlan.Proofs.Compile.Termination

/-!
# Compiling with books

`Setting.unfold` is told the depth that is left and the scope of every segment. The same compilation can be done by a clerk who
keeps books instead: how many levels deep the work is, which branch starts are open and which nodes are on the path. Each part of
the work writes into the books as it begins and takes back what it wrote before it ends; after an error nothing is taken back.
`Clerk.plan` is the compilation done this way. Every call that ends well is recorded with the books and the counters that it found
and left (`Ledger.entries`), so that statements can speak of all calls of a compilation.
-/

namespace FlowPlan

open FlowPlan.Graph

/-! ## Straight runs, node by node -/

namespace Graph

variable {g : Graph} {stop : Option (Fin g.size)} {v w : Fin g.size}

variable (g) in
/-- What comes behind a node on a straight run: the end of the run, or one more plain node. -/
def next (stop : Option (Fin g.size)) (onPath : Fin g.size → Bool) (v : Fin g.size) : RunEnd g.size ⊕ Fin g.size :=
  match g.successorsAt v with
  | [] => .inl .done
  | [w] =>
    if stop = some w then .inl .done
    else if onPath w then .inl (.loop v w)
    else
      match (g.node w).kind with
      | .plain => .inr w
      | .conditional _ => .inl (.conditional w)
      | .branch parent _ => .inl (.stray w parent)
      | .unrecognized => .inl (.unrecognized w)
  | _ => .inl (.fork v)

/-- A run goes on to nodes that are not on the path. -/
theorem not_onPath_of_next {onPath : Fin g.size → Bool} (h : g.next stop onPath v = .inr w) : onPath w = false := by
  unfold next at h
  split at h
  · cases h
  · split at h
    · cases h
    · split at h
      · cases h
      · rename_i hpath
        split at h <;> cases h
        exact Bool.eq_false_iff.2 hpath
  · cases h

/-- A run by its first step: it ends at once, or takes a plain node and goes on behind it. -/
theorem run_eq_next (path : List (Fin g.size)) : g.run stop path v =
    match g.next stop path.contains v with
    | .inl ending => ([], ending)
    | .inr w => (w :: (g.run stop (w :: path) w).1, (g.run stop (w :: path) w).2) := by
  rw [run, next]
  rcases g.successorsAt v with _ | ⟨w, _ | ⟨x, rest⟩⟩
  · rfl
  · by_cases hstop : stop = some w
    · simp only [if_pos hstop]
    · by_cases hpath : path.contains w = true
      · simp only [if_neg hstop, if_pos hpath]
      · simp only [if_neg hstop, if_neg hpath]
        cases (g.node w).kind <;> rfl
  · rfl

/-- The nodes of a run are not on the path. -/
theorem not_mem_of_mem_run {path : List (Fin g.size)} (h : w ∈ (g.run stop path v).1) : w ∉ path := by
  fun_induction Graph.run g stop path v with
  | case4 path v x hs hstop hpath hk others ending hrun ih =>
    rw [hrun] at ih
    rcases List.mem_cons.1 h with rfl | h
    · exact fun hm => hpath (List.contains_iff_mem.2 hm)
    · exact fun hm => ih h (List.mem_cons_of_mem _ hm)
  | _ => cases h

end Graph

/-! ## Books -/

/-- Where the work on a plan stands. -/
structure Books (n : Nat) where
  /-- how many levels deep -/
  depth : Nat := 0
  /-- the branch starts that are open, the outermost one first -/
  opened : List (Fin n) := []
  /-- the nodes on the way from the entry -/
  path : Finset (Fin n) := ∅
  deriving DecidableEq

namespace Books

variable {n : Nat} (b : Books n)

def descend : Books n :=
  { b with depth := b.depth + 1 }

def ascend : Books n :=
  { b with depth := b.depth - 1 }

def openAt (v : Fin n) : Books n :=
  { b with opened := b.opened ++ [v] }

/-- Takes the innermost open branch start back. -/
def close : Books n :=
  { b with opened := b.opened.dropLast }

def enter (v : Fin n) : Books n :=
  { b with path := insert v b.path }

/-- Takes a node off the path, whoever entered it. -/
def leave (v : Fin n) : Books n :=
  { b with path := b.path.erase v }

def leaveAll (vs : List (Fin n)) : Books n :=
  vs.foldl leave b

end Books

/-! ## Calls -/

/-- What a clerk is called for. -/
inductive Call (n : Nat)
  | segment (segment : Segment n) (stop : Option (Fin n))
  /-- the body of the lane for a successor of a fan-out -/
  | lane (start successor : Fin n)
  /-- what follows a choice or parallel element -/
  | continuation (start : Fin n) (stop : Option (Fin n))
  deriving DecidableEq

/-- The books and the progress at some point of the work. -/
structure Standing (n : Nat) where
  books : Books n := {}
  progress : Progress := {}

/-- A call that has ended well. -/
structure Ledger.Entry (n : Nat) where
  call : Call n
  found : Standing n
  left : Standing n

/-- All that changes while a clerk works; the call that ended last stands first. -/
structure Ledger (n : Nat) extends Standing n where
  entries : List (Ledger.Entry n) := []

/-- A part of a clerk's work: it goes on from some ledger, and may fail. -/
abbrev Clerk (n : Nat) := ExceptT CompileError (StateM (Ledger n))

/-- How a called part of a plan one level deeper is done. -/
abbrev Assistant (g : Graph) := Segment g.size → (stop : Option (Fin g.size)) → Clerk g.size (List Element)

namespace Clerk

variable {n : Nat}

/-- A part of the work that leaves the books alone. -/
def lift {α : Type} (m : Build α) : Clerk n α := ExceptT.mk fun l =>
  let (outcome, progress) := m.run.run l.progress
  (outcome, { l with progress := progress })

/-- Changes the books. -/
def change (f : Books n → Books n) : Clerk n Unit :=
  modify fun l => { l with books := f l.books }

/-- Looks into the books. -/
def look : Clerk n (Books n) := do
  let l ← get
  return l.books

/-- Does the work of a call and records it, if it ends well. -/
def recorded {α : Type} (call : Call n) (work : Clerk n α) : Clerk n α := do
  let before ← get
  let a ← work
  modify fun l => { l with entries := ⟨call, before.toStanding, l.toStanding⟩ :: l.entries }
  return a

variable {g : Graph} (s : Setting g)

/-- Goes one level deeper, if there is one. -/
def descend (v : Fin g.size) : Clerk g.size Unit := do
  change .descend
  let books ← look
  if s.maxDepth < books.depth then throw (.graphTooDeep (g.idAt v) s.maxDepth)

/-! ## Sequences -/

/-- Steps from one plain node to the next and enters each one, up to where the run ends. Gives the steps, the nodes that were
entered, and the end. -/
def walk (stop : Option (Fin g.size)) (v : Fin g.size) (l : Ledger g.size) :
    Except CompileError (List Element × List (Fin g.size) × RunEnd g.size) × Ledger g.size :=
  match _ : g.next stop (fun w => w ∈ l.books.path) v with
  | .inl ending => (.ok ([], [], ending), l)
  | .inr w =>
    match (s.step w).run.run l.progress with
    | (.error e, progress) => (.error e, { l with progress := progress })
    | (.ok first, progress) =>
      match walk stop w { l with progress := progress, books := l.books.enter w } with
      | (.error e, l) => (.error e, l)
      | (.ok (rest, entered, ending), l) => (.ok (first :: rest, w :: entered, ending), l)
termination_by (l.books.path)ᶜ.card
decreasing_by
  have hpath : w ∉ l.books.path := of_decide_eq_false (Graph.not_onPath_of_next ‹_›)
  exact Finset.card_lt_card (Finset.compl_ssubset_compl.2 (Finset.ssubset_insert hpath))

variable (deeper : Assistant g)

/-- What is left where a run ends. -/
def atEnd (stop : Option (Fin g.size)) : RunEnd g.size → Clerk g.size (List Element)
  | .done => return []
  | .fork start => deeper (.fork start) stop
  | .loop source target => do
    lift (Build.tell (.loopEndsSequence (g.idAt source) (g.idAt target)))
    return []
  | .conditional next => deeper (.choice next) stop
  | .stray next parent => throw (Setting.unsupported next (.strayBranch parent))
  | .unrecognized next => throw (Setting.unsupported next (.unrecognized (g.node next).component))

/-- What follows a node up to the end of the flow or the node to stop before. -/
def sequence (v : Fin g.size) (stop : Option (Fin g.size)) : Clerk g.size (List Element) := do
  let (first, entered, ending) ← (ExceptT.mk (walk s stop v) : Clerk g.size _)
  let rest ← atEnd deeper stop ending
  change (·.leaveAll entered)
  return first ++ rest

/-! ## Choices and parallel elements -/

/-- Goes on at a node that has not been emitted; `stray` is what a branch of a conditional node is refused for. -/
def goOnAt (stray : String → Obstacle) (stop : Option (Fin g.size)) (v : Fin g.size) : Clerk g.size (List Element) :=
  match (g.node v).kind with
  | .plain => do
    let first ← lift (s.step v)
    change (·.enter v)
    let rest ← deeper (.after v) stop
    change (·.leave v)
    return first :: rest
  | .conditional _ => deeper (.choice v) stop
  | .branch parent _ => throw (Setting.unsupported v (stray parent))
  | .unrecognized => throw (Setting.unsupported v (.unrecognized (g.node v).component))

/-- What follows a choice or parallel element. -/
def continuation (start : Fin g.size) (stop : Option (Fin g.size)) : Clerk g.size (List Element) :=
  recorded (.continuation start stop) do
    let books ← look
    match s.pairing.mergeOf.get start with
    | none => return []
    | some merge =>
      let sharers := s.pairing.startsOf.get merge
      if 1 < sharers.length && books.opened.head? != some start then do
        lift (Build.tell (.mergeLeftToOutermost (g.idAt merge) (sharers.map g.idAt) (g.idAt start)))
        return []
      else if stop = some merge then return []
      else if merge ∈ books.path then do
        lift (Build.tell (.loopEndsContinuation (g.idAt merge)))
        return []
      else goOnAt s deeper (fun _ => .mergeIsBranch) stop merge

/-- The bodies of a choice, in the order of the branches: each with its branch and its condition. -/
def armBodies (conditional : Fin g.size) : List (Fin g.size) → Clerk g.size (List (String × Option String × List Element))
  | [] => return []
  | branch :: rest =>
    match (g.node branch).kind with
    | .branch _ condition => do
      let body ← deeper (.after branch) (s.pairing.mergeOf.get conditional)
      let others ← armBodies conditional rest
      return (g.idAt branch, condition, body) :: others
    | _ => throw (Setting.unsupported conditional (.foreignSuccessor (g.idAt branch)))

/-- The choice on a conditional node, and what continues it. -/
def choice (v : Fin g.size) (stop : Option (Fin g.size)) : Clerk g.size (List Element) := do
  change (·.openAt v)
  change (·.enter v)
  let id ← lift (s.announce "choice" v)
  let bodies ← armBodies s deeper v (g.successorsAt v)
  lift (s.count v)
  let element ← lift (s.submit (.choice id (g.node v).toStep (Setting.armsOf bodies) (Setting.otherwiseOf bodies)))
  let rest ← continuation s deeper v stop
  change (·.leave v)
  change .close
  return element :: rest

/-- The body of a lane. A lane that leads straight to the merge node passes through. -/
def laneBody (start v : Fin g.size) : Clerk g.size (List Element) :=
  recorded (.lane start v) do
    let books ← look
    let merge := s.pairing.mergeOf.get start
    if merge = some v then return []
    else if v ∈ books.path then do
      lift (Build.tell (.loopEmptiesBranch (g.idAt v)))
      return []
    else goOnAt s deeper .strayBranch merge v

/-- The lanes of a parallel element from the given index on. -/
def lanes (id : String) (start : Fin g.size) : (index : Nat) → List (Fin g.size) → Clerk g.size (List (Lane Element))
  | _, [] => return []
  | index, v :: rest => do
    let body ← laneBody s deeper start v
    let others ← lanes id start (index + 1) rest
    return ⟨id ++ "-" ++ toString index, body⟩ :: others

/-- The parallel element on a fan-out, and what continues it. -/
def fork (v : Fin g.size) (stop : Option (Fin g.size)) : Clerk g.size (List Element) := do
  change (·.openAt v)
  let id ← lift (s.announce "parallel" v)
  let lanes ← lanes s deeper id v 0 (g.successorsAt v)
  lift (s.count v)
  let element ← lift (s.submit (.parallel id lanes))
  let rest ← continuation s deeper v stop
  change .close
  return element :: rest

/-! ## Whole compilations -/

/-- The elements of a segment. -/
def elements (stop : Option (Fin g.size)) : Segment g.size → Clerk g.size (List Element)
  | .after v => sequence s deeper v stop
  | .choice v => choice s deeper v stop
  | .fork v => fork s deeper v stop

/-- A segment, when its parts one level deeper are left to an assistant. -/
def segmentBy (segment : Segment g.size) (stop : Option (Fin g.size)) : Clerk g.size (List Element) :=
  recorded (.segment segment stop) do
    if Setting.isBareChoice segment then throw (Setting.unsupported segment.node .noBranches)
    else
      descend s segment.node
      let es ← elements s deeper stop segment
      change .ascend
      return es

/-- A segment, with so many levels left. Without any, the books say so before an assistant is needed. -/
def segment : (levels : Nat) → Assistant g
  | 0 => segmentBy s fun segment _ => throw (.graphTooDeep (g.idAt segment.node) s.maxDepth)
  | levels + 1 => segmentBy s (segment levels)

/-- The elements of the whole plan, from the entry on. -/
def elementsFrom (entry : Fin g.size) : Clerk g.size (List Element) :=
  match (g.node entry).kind with
  | .conditional _ => segment s s.maxDepth (.choice entry) none
  | .plain => do
    let first ← lift (s.step entry)
    change (·.enter entry)
    let rest ← segment s s.maxDepth (.after entry) none
    return first :: rest
  | _ => throw (Setting.unsupported entry .entryNotRunnable)

/-- The plan of the graph. -/
def plan : Clerk g.size Route := do
  let entry ← lift g.entry
  lift (Build.tell (.entered (g.idAt entry)))
  let steps ← elementsFrom s entry
  let route : Route := ⟨s.flowId, steps⟩
  lift (Build.tell (.finished route))
  return s.chain.onRoute s.flowId route

end Clerk

/-- The compilation of a graph by a clerk, from empty books. -/
def Compiler.booked (c : Compiler) (flowId : String) (g : Graph) : Except CompileError Route × Ledger g.size :=
  (Clerk.plan (c.setting flowId g)).run.run {}

end FlowPlan
