import FlowPlan.Proofs.Compile.Progress

/-!
# Compilations side by side

`Build.Matches` relates two parts of compilations that count alike: from equal counters, either both end with the same error, or
both end well, with equal counters again and results that are related. The relation may speak of the elements that the first
part hands to its interceptors on the way. There is one rule for each operation of a compilation and one for parts made of two
(`Build.matches_bind`).
-/

namespace FlowPlan

/-- The elements that go to the interceptors, among events in order. -/
def Event.submissions (events : List Event) : List Element :=
  events.filterMap fun
    | .submitted element => some element
    | _ => none

namespace Build

/-- From equal counters, two parts end with the same error, or both end well, with equal counters and with results that `R` relates;
`R` gets the elements that the first part hands to its interceptors, too. -/
def Matches {α β : Type} (x : Build α) (y : Build β) (R : List Element → α → β → Prop) : Prop :=
  ∀ p q : Progress, p.nextId = q.nextId → p.emitted = q.emitted →
    (∃ e p' q', x.run.run p = (.error e, p') ∧ y.run.run q = (.error e, q')) ∨
      ∃ a b p' q' submitted, x.Returns p a p' ∧ y.Returns q b q' ∧ p'.nextId = q'.nextId ∧ p'.emitted = q'.emitted ∧
        Event.submissions p'.events.reverse = Event.submissions p.events.reverse ++ submitted ∧ R submitted a b

variable {α β γ δ : Type} {x : Build α} {y : Build β} {R : List Element → α → β → Prop}

/-- A weaker relation of the results. -/
theorem Matches.mono {R' : List Element → α → β → Prop} (h : x.Matches y R) (hR : ∀ l a b, R l a b → R' l a b) :
    x.Matches y R' := by
  intro p q hid hcount
  rcases h p q hid hcount with herror | ⟨a, b, p', q', l, hx, hy, hid', hcount', hl, hab⟩
  · exact Or.inl herror
  · exact Or.inr ⟨a, b, p', q', l, hx, hy, hid', hcount', hl, hR l a b hab⟩

/-- Results that are related, with nothing submitted. -/
theorem matches_pure {a : α} {b : β} (h : R [] a b) : (pure a : Build α).Matches (pure b) R :=
  fun p q hid hcount => Or.inr ⟨a, b, p, q, [], rfl, rfl, hid, hcount, (List.append_nil _).symm, h⟩

theorem matches_throw (e : CompileError) : (throw e : Build α).Matches (throw e : Build β) R :=
  fun p q _ _ => Or.inl ⟨e, p, q, rfl, rfl⟩

/-- Two parts one after the other, on both sides. -/
theorem matches_bind {f : α → Build γ} {k : β → Build δ} {R' : List Element → γ → δ → Prop} (h : x.Matches y R)
    (hf : ∀ l a b, R l a b → (f a).Matches (k b) fun l' c d => R' (l ++ l') c d) : (x >>= f).Matches (y >>= k) R' := by
  intro p q hid hcount
  rcases h p q hid hcount with ⟨e, p', q', hx, hy⟩ | ⟨a, b, p', q', l, hx, hy, hid', hcount', hl, hab⟩
  · exact Or.inl ⟨e, p', q', by rw [run_bind, hx], by rw [run_bind, hy]⟩
  rcases hf l a b hab p' q' hid' hcount' with
    ⟨e, p'', q'', hx', hy'⟩ | ⟨c, d, p'', q'', l', hx', hy', hid'', hcount'', hl', hcd⟩
  · have hx'' : x.run.run p = (.ok a, p') := hx
    have hy'' : y.run.run q = (.ok b, q') := hy
    refine Or.inl ⟨e, p'', q'', ?_, ?_⟩
    · rw [run_bind, hx'']
      exact hx'
    · rw [run_bind, hy'']
      exact hy'
  · refine Or.inr ⟨c, d, p'', q'', l ++ l', returns_bind.2 ⟨a, p', hx, hx'⟩, returns_bind.2 ⟨b, q', hy, hy'⟩, hid'', hcount'',
      ?_, hcd⟩
    rw [hl', hl, List.append_assoc]

/-- Events that do not go to the interceptors are of no account. -/
theorem matches_tell {event event' : Event} (h : ∀ element, event ≠ .submitted element) :
    (tell event).Matches (tell event') fun l _ _ => l = [] := by
  intro p q hid hcount
  refine Or.inr ⟨(), (), _, _, [], rfl, rfl, hid, hcount, ?_, rfl⟩
  have hnone : Event.submissions [event] = [] := by
    cases event with
    | submitted element => exact absurd rfl (h element)
    | _ => rfl
  rw [List.reverse_cons, Event.submissions, List.filterMap_append]
  exact congrArg (Event.submissions p.events.reverse ++ ·) hnone

/-- Elements go to the interceptors on both sides, and only the first one is looked at. -/
theorem matches_submitted {element element' : Element} :
    (tell (.submitted element)).Matches (tell (.submitted element')) fun l _ _ => l = [element] := by
  intro p q hid hcount
  refine Or.inr ⟨(), (), _, _, [element], rfl, rfl, hid, hcount, ?_, rfl⟩
  rw [List.reverse_cons, Event.submissions, List.filterMap_append]
  rfl

/-- Equal counters give equal numbers. -/
theorem matches_nextNumber : nextNumber.Matches nextNumber fun l a b => l = [] ∧ a = b := by
  intro p q hid hcount
  exact Or.inr ⟨p.nextId, q.nextId, _, _, [], rfl, rfl, congrArg (· + 1) hid, hcount, (List.append_nil _).symm, rfl, hid⟩

/-- Equal counters pass the limit together. -/
theorem matches_count (limit : Nat) (node : String) : (count limit node).Matches (count limit node) fun l _ _ => l = [] := by
  intro p q hid hcount
  by_cases h : limit < p.emitted + 1
  · refine Or.inl ⟨.planTooLarge node limit, { p with emitted := p.emitted + 1 }, { q with emitted := q.emitted + 1 },
      (run_count ..).trans ?_, (run_count ..).trans ?_⟩
    · rw [if_pos h]
    · rw [if_pos (hcount ▸ h)]
  · refine Or.inr ⟨(), (), { p with emitted := p.emitted + 1 }, { q with emitted := q.emitted + 1 }, [], (run_count ..).trans ?_,
      (run_count ..).trans ?_, hid, congrArg (· + 1) hcount, (List.append_nil _).symm, rfl⟩
    · rw [if_neg h]
    · rw [if_neg (hcount ▸ h)]

end Build

end FlowPlan
