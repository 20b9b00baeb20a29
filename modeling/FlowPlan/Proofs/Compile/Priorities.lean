import FlowPlan.Compile.Compiler
import FlowPlan.Compile.Hooks
import Mathlib.Data.List.Induction
import Mathlib.Data.List.Nodup
import Mathlib.Data.List.Perm.Basic

/-!
# The order of interceptors

An interceptor is added at the point that a search by halves finds. The search is right when the chain is sorted by priority
(`partitionPoint_eq`), the chain is sorted again with the interceptor in that place (`Chain.sorted_push`), and those of one
priority stay in the order in which they were added (`Chain.filter_push`). Both together leave one chain only
(`Chain.eq_of_filter`): the stable sort of what was added (`Chain.ofList_eq_mergeSort`).
-/

namespace FlowPlan

/-! ## The search -/

/-- When `holds` holds of the items in front of a point and of no others, the search finds the point. -/
theorem partitionPoint_eq {α : Type} {holds : α → Bool} {l : List α} {low size point : Nat}
    (h : ∀ i, l[i]?.any holds = decide (i < point)) (hlow : low ≤ point) (hhigh : point ≤ low + size) :
    partitionPoint holds l low size = point := by
  fun_induction partitionPoint holds l low size with
  | case1 low size hsize hany =>
    have hlt := of_decide_eq_true ((h low).symm.trans hany)
    omega
  | case2 low size hsize hany =>
    have hle := of_decide_eq_false ((h low).symm.trans (Bool.eq_false_iff.2 hany))
    omega
  | case3 low size hsize half hany ih =>
    have hlt := of_decide_eq_true ((h (low + half)).symm.trans hany)
    exact ih (Nat.le_of_lt hlt) (by omega)
  | case4 low size hsize half hany ih =>
    have hle := of_decide_eq_false ((h (low + half)).symm.trans (Bool.eq_false_iff.2 hany))
    exact ih hlow (by omega)

namespace Chain

/-! ## Sorted chains -/

/-- The priorities ascend. -/
def Sorted (chain : Chain) : Prop :=
  chain.Pairwise (·.priority ≤ ·.priority)

variable {chain chain' : Chain}

/-- A sorted chain has those up to a priority in front. -/
theorem Sorted.filter_append (h : Sorted chain) (p : Int) :
    chain.filter (·.priority ≤ p) ++ chain.filter (p < ·.priority) = chain := by
  induction h with
  | nil => rfl
  | @cons i rest hi _ ih =>
    by_cases hp : i.priority ≤ p
    · rw [List.filter_cons_of_pos (by simpa using hp), List.filter_cons_of_neg (by simpa using hp), List.cons_append, ih]
    · have hnone : rest.filter (·.priority ≤ p) = [] := by
        refine List.filter_eq_nil_iff.2 fun j hj => ?_
        have := hi j hj
        simp only [decide_eq_true_eq]
        omega
      rw [hnone] at ih
      rw [List.filter_cons_of_neg (by simpa using hp), List.filter_cons_of_pos (by simpa using hp), hnone, List.nil_append]
      exact congrArg (i :: ·) ih

/-- To insert behind the first part of a list is to put between its two parts. -/
theorem insertIdx_length_append {α : Type} (xs ys : List α) (a : α) : (xs ++ ys).insertIdx xs.length a = xs ++ a :: ys := by
  induction xs with
  | nil => rfl
  | cons x rest ih => exact congrArg (x :: ·) ih

/-- An interceptor is added behind those up to its priority and in front of those above. -/
theorem push_append {low high : Chain} {added : Interceptor} (hlow : ∀ i ∈ low, i.priority ≤ added.priority)
    (hhigh : ∀ i ∈ high, added.priority < i.priority) : push (low ++ high) added = low ++ added :: high := by
  have hpoint : partitionPoint (·.priority ≤ added.priority) (low ++ high) 0 (low ++ high).length = low.length := by
    refine partitionPoint_eq (fun i => ?_) (Nat.zero_le _) (by rw [List.length_append]; omega)
    by_cases hi : i < low.length
    · rw [List.getElem?_append_left hi, decide_eq_true hi, List.getElem?_eq_getElem hi]
      exact decide_eq_true (hlow _ (List.getElem_mem hi))
    · rw [List.getElem?_append_right (Nat.le_of_not_lt hi), decide_eq_false hi, Option.any_eq_false]
      intro j hj
      have := hhigh j (List.mem_of_getElem? hj)
      exact decide_eq_false (by omega)
  rw [push, hpoint]
  exact insertIdx_length_append low high added

/-- In a sorted chain these are the interceptors up to the priority and those above. -/
theorem Sorted.push_eq (h : Sorted chain) (added : Interceptor) :
    chain.push added = chain.filter (·.priority ≤ added.priority) ++ added :: chain.filter (added.priority < ·.priority) := by
  conv_lhs => rw [← h.filter_append added.priority]
  refine push_append (fun i hi => ?_) fun i hi => ?_
  · exact of_decide_eq_true (List.mem_filter.1 hi).2
  · exact of_decide_eq_true (List.mem_filter.1 hi).2

/-- A chain whose priorities ascend is one also after an interceptor has been added: all in front of it have at most its priority,
all behind it more. -/
theorem sorted_push (h : Sorted chain) (added : Interceptor) : Sorted (chain.push added) := by
  rw [h.push_eq, Sorted, List.pairwise_append, List.pairwise_cons]
  refine ⟨h.filter _, ⟨fun j hj => ?_, h.filter _⟩, fun i hi j hj => ?_⟩
  · exact Int.le_of_lt (of_decide_eq_true (List.mem_filter.1 hj).2)
  · have hip := of_decide_eq_true (List.mem_filter.1 hi).2
    rcases List.mem_cons.1 hj with rfl | hj
    · exact hip
    · have := of_decide_eq_true (List.mem_filter.1 hj).2
      omega

/-- Among those of its priority an interceptor is added last. -/
theorem filter_push (h : Sorted chain) (added : Interceptor) (p : Int) :
    (chain.push added).filter (·.priority = p) = (chain ++ [added]).filter (·.priority = p) := by
  have hchain := congrArg (List.filter (·.priority = p)) (h.filter_append added.priority)
  rw [List.filter_append] at hchain
  rw [h.push_eq, List.filter_append, List.filter_append, ← hchain]
  by_cases hp : added.priority = p
  · have hnone : (chain.filter (added.priority < ·.priority)).filter (·.priority = p) = [] := by
      refine List.filter_eq_nil_iff.2 fun j hj => ?_
      have := of_decide_eq_true (List.mem_filter.1 hj).2
      rw [decide_eq_true_eq]
      omega
    rw [List.filter_cons_of_pos (by simpa using hp), List.filter_cons_of_pos (by simpa using hp), hnone, List.append_nil]
    rfl
  · rw [List.filter_cons_of_neg (by simpa using hp), List.filter_cons_of_neg (by simpa using hp), List.filter_nil,
      List.append_nil]

/-! ## Chains built by adding -/

/-- What is added last is pushed onto the chain of the others. -/
theorem ofList_concat (added : List Interceptor) (i : Interceptor) : ofList (added ++ [i]) = (ofList added).push i := by
  rw [ofList, List.foldl_append]
  rfl

/-- However interceptors are added, their priorities ascend in the chain. -/
theorem sorted_ofList (added : List Interceptor) : Sorted (ofList added) := by
  induction added using List.reverseRecOn with
  | nil => exact List.Pairwise.nil
  | append_singleton added i ih =>
    rw [ofList_concat]
    exact sorted_push ih i

/-- Interceptors of one priority stand in the order in which they were added. -/
theorem filter_ofList (added : List Interceptor) (p : Int) :
    (ofList added).filter (·.priority = p) = added.filter (·.priority = p) := by
  induction added using List.reverseRecOn with
  | nil => rfl
  | append_singleton added i ih => rw [ofList_concat, filter_push (sorted_ofList added), List.filter_append, ih, List.filter_append]

/-- A sorted chain is determined by its interceptors of each priority. -/
theorem eq_of_filter (h : Sorted chain) (h' : Sorted chain')
    (hfilter : ∀ p : Int, chain.filter (·.priority = p) = chain'.filter (·.priority = p)) : chain = chain' := by
  have transfer {l l' : Chain} (hl : ∀ p : Int, l.filter (·.priority = p) = l'.filter (·.priority = p)) {i : Interceptor}
      (hi : i ∈ l) : i ∈ l' := by
    have hm : i ∈ l.filter (·.priority = i.priority) := List.mem_filter.2 ⟨hi, decide_eq_true rfl⟩
    exact (List.mem_filter.1 (hl i.priority ▸ hm)).1
  induction h generalizing chain' with
  | nil =>
    cases chain' with
    | nil => rfl
    | cons j rest' => exact absurd (transfer (fun p => (hfilter p).symm) (List.mem_cons_self ..)) List.not_mem_nil
  | @cons i rest hi _ ih =>
    cases h' with
    | nil => exact absurd (transfer hfilter (List.mem_cons_self ..)) List.not_mem_nil
    | @cons j rest' hj h' =>
      -- the first of either chain is in the other one too, so both have the lowest priority
      have hij : i.priority ≤ j.priority := by
        rcases List.mem_cons.1 (transfer (fun p => (hfilter p).symm) (List.mem_cons_self (a := j))) with rfl | h
        · exact Int.le_refl _
        · exact hi j h
      have hji : j.priority ≤ i.priority := by
        rcases List.mem_cons.1 (transfer hfilter (List.mem_cons_self (a := i))) with rfl | h
        · exact Int.le_refl _
        · exact hj i h
      have hsame : i.priority = j.priority := Int.le_antisymm hij hji
      have hheads := hfilter i.priority
      rw [List.filter_cons_of_pos (by simp), List.filter_cons_of_pos (by simp [hsame])] at hheads
      obtain ⟨rfl, -⟩ := List.cons.inj hheads
      refine congrArg (i :: ·) (ih h' fun p => ?_)
      have htails := hfilter p
      rw [List.filter_cons, List.filter_cons] at htails
      split at htails
      · exact (List.cons.inj htails).2
      · exact htails

/-- A chain is the stable sort of what was added, by priority. -/
theorem ofList_eq_mergeSort (added : List Interceptor) :
    ofList added = added.mergeSort (fun i j => decide (i.priority ≤ j.priority)) := by
  have trans : ∀ i j k : Interceptor, decide (i.priority ≤ j.priority) = true → decide (j.priority ≤ k.priority) = true →
      decide (i.priority ≤ k.priority) = true := by
    intro i j k hij hjk
    exact decide_eq_true (Int.le_trans (of_decide_eq_true hij) (of_decide_eq_true hjk))
  have total : ∀ i j : Interceptor, (decide (i.priority ≤ j.priority) || decide (j.priority ≤ i.priority)) = true := by
    intro i j
    rw [Bool.or_eq_true, decide_eq_true_eq, decide_eq_true_eq]
    exact Int.le_total ..
  have hperm := added.mergeSort_perm fun i j => decide (i.priority ≤ j.priority)
  refine eq_of_filter (sorted_ofList added) ((List.pairwise_mergeSort trans total added).imp of_decide_eq_true) fun p => ?_
  -- those of one priority are sorted as they are, so they stay in order among the others
  have hsub : (added.filter (·.priority = p)).Sublist (added.mergeSort fun i j => decide (i.priority ≤ j.priority)) := by
    refine List.sublist_mergeSort trans total (List.pairwise_of_forall_mem_list fun i hi j hj => ?_) List.filter_sublist
    have hip := of_decide_eq_true (List.mem_filter.1 hi).2
    have hjp := of_decide_eq_true (List.mem_filter.1 hj).2
    exact decide_eq_true (Int.le_of_eq (hip.trans hjp.symm))
  have hfiltered := hsub.filter (·.priority = p)
  rw [List.filter_filter] at hfiltered
  simp only [Bool.and_self] at hfiltered
  rw [filter_ofList]
  exact hfiltered.eq_of_length (hperm.filter _).length_eq.symm

/-- No interceptor is lost and none comes twice. -/
theorem perm_ofList (added : List Interceptor) : (ofList added).Perm added := by
  rw [ofList_eq_mergeSort]
  exact List.mergeSort_perm ..

/-- Interceptors of different priorities come to the same chain in whatever order they are added. -/
theorem ofList_eq_of_perm {added added' : List Interceptor} (hperm : added.Perm added') (hne : (added.map (·.priority)).Nodup) :
    ofList added = ofList added' := by
  refine List.Perm.eq_of_pairwise ?_ (sorted_ofList added) (sorted_ofList added')
    ((perm_ofList added).trans (hperm.trans (perm_ofList added').symm))
  intro i j hi hj hij hji
  have hj : j ∈ added := hperm.mem_iff.2 ((perm_ofList added').mem_iff.1 hj)
  exact List.inj_on_of_nodup_map hne ((perm_ofList added).mem_iff.1 hi) hj (Int.le_antisymm hij hji)

/-- The composition of hooks, the first one innermost. -/
def composed {α : Type} (hooks : List (α → α)) : α → α :=
  hooks.foldl (fun done hook => hook ∘ done) id

/-- To run hooks one after the other is to run their composition. -/
theorem foldl_eq_composed {α : Type} (hook : Interceptor → α → α) (chain : Chain) (a : α) :
    chain.foldl (fun a i => hook i a) a = composed (chain.map hook) a := by
  have along : ∀ (done : α → α), chain.foldl (fun a i => hook i a) (done a) =
      (chain.map hook).foldl (fun done hook => hook ∘ done) done a := by
    induction chain with
    | nil => exact fun _ => rfl
    | cons i rest ih => exact fun done => ih (hook i ∘ done)
  exact along id

/-- What a chain does to an element, as a composition. -/
theorem onStep_eq_composed (chain : Chain) (flowId : String) :
    chain.onStep flowId = composed (chain.map fun i => i.onStep flowId) :=
  funext fun element => foldl_eq_composed (fun i => i.onStep flowId) chain element

/-- What a chain does to a plan, as a composition. -/
theorem onRoute_eq_composed (chain : Chain) (flowId : String) :
    chain.onRoute flowId = composed (chain.map fun i => i.onRoute flowId) :=
  funext fun route => foldl_eq_composed (fun i => i.onRoute flowId) chain route

end Chain

/-- A compiler collects interceptors in its chain. -/
theorem Compiler.chain_withInterceptor (c : Compiler) (added : List Interceptor) :
    (added.foldl Compiler.withInterceptor c).chain = added.foldl Chain.push c.chain := by
  induction added generalizing c with
  | nil => rfl
  | cons i rest ih => exact ih (c.withInterceptor i)

/-- Interceptors run in the stable order of their priorities, whatever is added one after the other to the empty chain or to a
compiler without interceptors. The chain has just what was added, by ascending priority, and those of one priority in the order in
which they were added. What it does to elements and plans is the composition of their hooks in this order. Interceptors of different
priorities do the same in whatever order they are added. -/
theorem interceptors_in_stable_order (added : List Interceptor) :
    (Chain.ofList added = added.mergeSort (fun i j => decide (i.priority ≤ j.priority)) ∧
      (Chain.ofList added).Perm added ∧ (Chain.ofList added).Sorted ∧
      ∀ p : Int, (Chain.ofList added).filter (·.priority = p) = added.filter (·.priority = p)) ∧
    (∀ c : Compiler, c.chain = [] → (added.foldl Compiler.withInterceptor c).chain = Chain.ofList added) ∧
    (∀ flowId, (Chain.ofList added).onStep flowId = Chain.composed ((Chain.ofList added).map fun i => i.onStep flowId) ∧
      (Chain.ofList added).onRoute flowId = Chain.composed ((Chain.ofList added).map fun i => i.onRoute flowId)) ∧
    ∀ added' : List Interceptor, added'.Perm added → (added.map (·.priority)).Nodup →
      (Chain.ofList added').onStep = (Chain.ofList added).onStep ∧
      (Chain.ofList added').onRoute = (Chain.ofList added).onRoute := by
  refine ⟨⟨Chain.ofList_eq_mergeSort added, Chain.perm_ofList added, Chain.sorted_ofList added, ?_⟩, ?_, ?_, ?_⟩
  · exact Chain.filter_ofList added
  · intro c hc
    rw [c.chain_withInterceptor, hc]
    rfl
  · exact fun flowId => ⟨Chain.onStep_eq_composed _ flowId, Chain.onRoute_eq_composed _ flowId⟩
  · intro added' hperm hne
    rw [Chain.ofList_eq_of_perm hperm.symm hne]
    exact ⟨rfl, rfl⟩

/-- Three interceptors in two orders. -/
theorem interceptors_in_stable_order_three : ∃ added added' : List Interceptor,
    added = [.audit "a" 10, .rename "r" (-5), .wrap "w" 3] ∧ added' = [.wrap "w" 3, .audit "a" 10, .rename "r" (-5)] ∧
      (Chain.ofList added).map (·.name) = [some "r", some "w", some "a"] ∧
      (added'.foldl Compiler.withInterceptor {}).chain = Chain.ofList added' ∧
      (Chain.ofList added').onStep = (Chain.ofList added).onStep ∧
      (Chain.ofList added').onRoute = (Chain.ofList added).onRoute := by
  refine ⟨_, _, rfl, rfl, by decide +kernel, (interceptors_in_stable_order _).2.1 {} rfl, ?_⟩
  exact (interceptors_in_stable_order _).2.2.2 _ ((List.Perm.swap ..).trans (.cons _ (.swap ..))) (by decide +kernel)

end FlowPlan
