import FlowPlan.Compile.Progress

/-!
# Parts of a compilation that end well

`Build.Returns` says that a part of a compilation, from some progress, ends well with a result and a later progress. A part
made of two ends well when both do, the second from where the first ended (`Build.returns_bind`).
-/

namespace FlowPlan.Build

/-- From progress `p`, the part `m` ends well with `a`, at progress `q`. -/
def Returns {α : Type} (m : Build α) (p : Progress) (a : α) (q : Progress) : Prop :=
  m.run.run p = (.ok a, q)

variable {α β : Type} {p q r : Progress}

/-- A result on its own is returned and changes no counter. -/
@[simp] theorem returns_pure {a b : α} : (pure a : Build α).Returns p b q ↔ b = a ∧ q = p := by
  constructor
  · intro h
    cases h
    exact ⟨rfl, rfl⟩
  · rintro ⟨rfl, rfl⟩
    rfl

@[simp] theorem not_returns_throw {e : CompileError} {a : α} : ¬ (throw e : Build α).Returns p a q := by
  intro h
  cases h

/-- Two parts run one after the other, the second one from the counters of the first, or not at all. -/
theorem run_bind {ε σ : Type} (m : ExceptT ε (StateM σ) α) (f : α → ExceptT ε (StateM σ) β) (p : σ) :
    (m >>= f).run.run p = match m.run.run p with
      | (.ok a, q) => (f a).run.run q
      | (.error e, q) => (.error e, q) := by
  rw [ExceptT.run_bind, StateT.run_bind]
  rcases hm : m.run.run p with ⟨x, q⟩
  cases x <;> rfl

/-- Counting runs into the limit only after the counter has gone up. -/
theorem run_count (limit : Nat) (node : String) (p : Progress) :
    (count limit node).run.run p =
      (if limit < p.emitted + 1 then .error (.planTooLarge node limit) else .ok (), { p with emitted := p.emitted + 1 }) := by
  change (if limit < p.emitted + 1 then throw (.planTooLarge node limit) else pure () : Build Unit).run.run
    { p with emitted := p.emitted + 1 } = _
  split <;> rfl

/-- Two parts one after the other. -/
theorem returns_bind {m : Build α} {f : α → Build β} {b : β} :
    (m >>= f).Returns p b r ↔ ∃ a q, m.Returns p a q ∧ (f a).Returns q b r := by
  unfold Returns
  rw [run_bind]
  constructor
  · intro h
    rcases hm : m.run.run p with ⟨x, q⟩
    rw [hm] at h
    cases x with
    | error e => cases h
    | ok a => exact ⟨a, q, rfl, h⟩
  · rintro ⟨a, q, hm, h⟩
    rw [hm]
    exact h

/-- Whatever a part returns has a property. -/
def Ensures (m : Build α) (P : α → Prop) : Prop :=
  ∀ p a q, m.Returns p a q → P a

/-- A result on its own has the properties that it has. -/
theorem ensures_pure {P : α → Prop} {a : α} (h : P a) : (pure a : Build α).Ensures P := by
  intro p b q hb
  rw [(returns_pure.1 hb).1]
  exact h

/-- Of errors nothing is ensured. -/
theorem ensures_throw {P : α → Prop} {e : CompileError} : (throw e : Build α).Ensures P :=
  fun _ _ _ h => absurd h not_returns_throw

/-- What the first part ensures is known to the second one. -/
theorem ensures_bind {m : Build α} {f : α → Build β} {P : α → Prop} {R : β → Prop} (hm : m.Ensures P)
    (hf : ∀ a, P a → (f a).Ensures R) : (m >>= f).Ensures R := by
  intro p b q h
  obtain ⟨a, r, ha, hb⟩ := returns_bind.1 h
  exact hf a (hm p a r ha) r b q hb

/-- Of the first part only what comes after it counts. -/
theorem ensures_of_bind {m : Build α} {f : α → Build β} {R : β → Prop} (hf : ∀ a, (f a).Ensures R) : (m >>= f).Ensures R :=
  ensures_bind (P := fun _ => True) (fun _ _ _ _ => trivial) fun a _ => hf a

end FlowPlan.Build
