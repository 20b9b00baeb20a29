import FlowPlan.Compile.Hooks
import FlowPlan.Proofs.Compile.Frames
import FlowPlan.Proofs.Compile.Spines

/-!
# What the limits of a compilation do

The bound on the depth limits a compilation twice: how deep it goes, and how many elements it may count. Both limits only ever
cut a compilation off (`Build.Curtails`): with a greater bound it does the same up to there. So a plan, or an error that is no
limit's, is the same with every greater bound (`limits_only_cut_off`).
-/

namespace FlowPlan

open FlowPlan.Graph

/-- Whether an error says that a limit is reached. -/
def CompileError.isLimit : CompileError → Bool
  | .graphTooDeep .. => true
  | .planTooLarge .. => true
  | _ => false

namespace Build

/-- The first part does what the second one does, or a limit cuts it off. -/
def Curtails (α : Type) (m m' : Build α) : Prop :=
  ∀ p, m'.run.run p = m.run.run p ∨ ∃ e, (m.run.run p).1 = .error e ∧ e.isLimit = true

/-- A part that is cut off cuts off all that comes after it, so that any error may be thrown on both sides. -/
theorem congruence_curtails : Congruence (fun _ => True) Curtails where
  pure _ := fun _ => Or.inl rfl
  bind := by
    intro α β m m' k k' hm hk p
    rw [run_bind, run_bind]
    rcases hm p with hsame | ⟨e, he, hlimit⟩
    · rw [hsame]
      rcases m.run.run p with ⟨a | a, q⟩
      · exact Or.inl rfl
      · exact hk a q
    · rcases hrun : m.run.run p with ⟨outcome, q⟩
      obtain rfl : outcome = .error e := by rw [← he, hrun]
      exact Or.inr ⟨e, rfl, hlimit⟩
  throw _ := fun _ => Or.inl rfl
  tell _ := fun _ => Or.inl rfl
  nextNumber := fun _ => Or.inl rfl

/-- A count goes on under every greater limit. -/
theorem curtails_count {limit limit' : Nat} (h : limit ≤ limit') (node : String) :
    Curtails Unit (count limit node) (count limit' node) := by
  intro p
  rw [run_count, run_count]
  by_cases hp : limit < p.emitted + 1
  · rw [if_pos hp]
    exact Or.inr ⟨_, rfl, rfl⟩
  · rw [if_neg hp, if_neg (by omega)]
    exact Or.inl rfl

end Build

namespace Setting

variable {g : Graph} {s t : Setting g}

/-- A greater bound on the depth makes for no lower limit on the elements. -/
theorem limit_le_limit (h : s.maxDepth ≤ t.maxDepth) : s.limit ≤ t.limit := by
  have hscaled : g.size * max s.maxDepth 1 ≤ g.size * max t.maxDepth 1 := Nat.mul_le_mul_left _ (by omega)
  unfold limit
  omega

/-- Of two unfoldings, the one with less depth is cut off at most. -/
theorem unfold_curtails (ha : Alike Build.Curtails s t) {depth depth' : Nat} (h : depth ≤ depth') (f : Frame g.size) :
    Build.Curtails _ (f.unfoldBy (s.unfold depth)) (f.unfoldBy (t.unfold depth')) := by
  induction depth generalizing depth' f with
  | zero =>
    obtain ⟨segment, stop, scope⟩ := f
    intro p
    unfold Frame.unfoldBy
    cases hbare : isBareChoice segment with
    | true =>
      rw [unfold_bare s stop scope hbare, unfold_bare t stop scope hbare]
      exact Or.inl rfl
    | false =>
      rw [unfold_zero s stop scope hbare]
      exact Or.inr ⟨_, rfl, rfl⟩
  | succ depth ih =>
    obtain ⟨k, rfl⟩ := Nat.exists_eq_add_of_le h
    rw [Nat.add_right_comm]
    exact unfold_congruent Build.congruence_curtails ha (fun _ _ => trivial) fun f' _ => ih (by omega) f'

end Setting

/-- With a greater bound a compilation does the same, events included, or a limit cuts it off with the lower one. -/
theorem Compiler.compilation_of_le (c : Compiler) (flowId : String) (g : Graph) {d d' : Nat} (h : d ≤ d') :
    { c with maxDepth := d' }.compilation flowId g = { c with maxDepth := d }.compilation flowId g ∨
      ∃ e, { c with maxDepth := d }.compileGraph flowId g = .error e ∧ e.isLimit = true := by
  have ha : Setting.Alike Build.Curtails (setting { c with maxDepth := d } flowId g)
      (setting { c with maxDepth := d' } flowId g) :=
    ⟨rfl, rfl, fun _ => Build.curtails_count (Setting.limit_le_limit h) _⟩
  have hplan := Setting.plan_congruent Build.congruence_curtails ha (fun _ _ => trivial) (fun _ _ _ => trivial)
    fun _ f _ _ => Setting.unfold_curtails ha h f
  rcases hplan {} with hsame | hcut
  · refine Or.inl ?_
    unfold compilation
    rw [hsame]
  · exact Or.inr hcut

/-- The limits of a compilation only ever cut it off, on every graph and with every chain of interceptors: a plan is the same
with every greater bound on the depth, and so is the error when there is no single entry or when a node cannot stand where it is
met. -/
theorem limits_only_cut_off (c : Compiler) (flowId : String) (g : Graph) {d d' : Nat} (h : d ≤ d') :
    (∀ route, { c with maxDepth := d }.compileGraph flowId g = .ok route →
      { c with maxDepth := d' }.compileGraph flowId g = .ok route) ∧
    (∀ candidates, { c with maxDepth := d }.compileGraph flowId g = .error (.noEntryNode candidates) →
      { c with maxDepth := d' }.compileGraph flowId g = .error (.noEntryNode candidates)) ∧
    ∀ node obstacle, { c with maxDepth := d }.compileGraph flowId g = .error (.unsupportedShape node obstacle) →
      { c with maxDepth := d' }.compileGraph flowId g = .error (.unsupportedShape node obstacle) := by
  have hsame : ∀ outcome, { c with maxDepth := d }.compileGraph flowId g = outcome →
      (∀ e, outcome = .error e → e.isLimit = false) → { c with maxDepth := d' }.compileGraph flowId g = outcome := by
    rintro _ rfl hlimit
    rcases c.compilation_of_le flowId g h with hcompilation | ⟨e, he, hcut⟩
    · exact congrArg Compilation.outcome hcompilation
    · rw [hlimit e he] at hcut
      cases hcut
  refine ⟨fun route hr => hsame _ hr nofun, fun candidates he => hsame _ he ?_, fun node obstacle he => hsame _ he ?_⟩
  · rintro _ ⟨⟩
    rfl
  · rintro _ ⟨⟩
    rfl

/-- `Flow.retry` takes a depth of five; with interceptors that wrap every step, its plan is the same at the default depth. -/
theorem limits_only_cut_off_retry : ∃ g route, Graph.build .standard Flow.retry.nodes Flow.retry.edges = .ok g ∧ 5 ≤ 256 ∧
    Compiler.compileGraph { chain := [.wrap "w" 0], maxDepth := 5 } "retry" g = .ok route ∧
      Compiler.compileGraph { chain := [.wrap "w" 0], maxDepth := 256 } "retry" g = .ok route := by
  obtain ⟨g, hg, route, hr⟩ : ∃ g, Graph.build .standard Flow.retry.nodes Flow.retry.edges = .ok g ∧
      ∃ route, Compiler.compileGraph { chain := [.wrap "w" 0], maxDepth := 5 } "retry" g = .ok route := by
    decide +kernel
  exact ⟨g, route, hg, by decide, hr, (limits_only_cut_off { chain := [.wrap "w" 0] } "retry" g (by decide)).1 route hr⟩

end FlowPlan
