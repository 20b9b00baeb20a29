import FlowPlan.Json.Decode
import FlowPlan.Proofs.Json.Nesting
import Mathlib.Data.List.Nodup

/-!
# Levels of nesting

A decoder has so many levels of nesting left. A value that it decodes needs as many levels as it is nested, and with fewer it is
refused (`Decodes`). Lists, maps and records take one level and leave the others to what they hold, so this is said once for each of
them; of a record it is enough that its fields are those of the slots, in their order (`FillsAll`).
-/

namespace FlowPlan.Json

variable {α β : Type}

/-- What is decoded when a container is closed, and then what is decoded when another one is. -/
theorem ifClosed_bind {closed inner : Bool} {a : α} {b : β} {f : α → Decoded β} (h : f a = Doc.ifClosed inner b) :
    Doc.ifClosed closed a >>= f = Doc.ifClosed (closed && inner) b := by
  cases closed with
  | false => rfl
  | true => exact h

/-- What is decoded in a container that is closed. -/
theorem ifClosed_bind_closed (closed : Bool) (a : α) : Doc.ifClosed closed a >>= Doc.ifClosed true = Doc.ifClosed closed a := by
  cases closed <;> rfl

@[simp] theorem ifClosed_map (closed : Bool) (a : α) (f : α → β) : f <$> Doc.ifClosed closed a = Doc.ifClosed closed (f a) := by
  cases closed <;> rfl

/-- `read` finds `a` in a value when as many levels are left as the value is nested, and refuses it otherwise. -/
def Decodes (read : Nat → Doc → Decoded α) (j : Json) (a : α) : Prop :=
  ∀ levels, read levels j.doc = Doc.ifClosed (decide (j.nesting ≤ levels)) a

/-- What a slot makes of a decoded value. -/
theorem Decodes.fill {read : Nat → Doc → Decoded α} {j : Json} {a : α} (h : Decodes read j a) (f : α → β) (levels : Nat) :
    (do return f (← read levels j.doc)) = Doc.ifClosed (decide (j.nesting ≤ levels)) (f a) := by
  rw [h levels]
  exact ifClosed_map _ a f

/-- What holds others needs one level more. -/
theorem decodes_of_levels {read : Nat → Doc → Decoded α} {j : Json} {a : α} {n : Nat} (hn : j.nesting = n + 1)
    (hzero : read 0 j.doc = .error .malformed)
    (hsucc : ∀ levels, read (levels + 1) j.doc = Doc.ifClosed (decide (n ≤ levels)) a) : Decodes read j a := by
  intro levels
  rw [hn]
  cases levels with
  | zero =>
    rw [hzero, decide_eq_false (Nat.not_succ_le_zero n)]
    rfl
  | succ levels =>
    rw [hsucc]
    exact congrArg (Doc.ifClosed · a) (decide_eq_decide.2 Nat.succ_le_succ_iff.symm)

theorem decide_most_cons_le (n : Nat) (rest : List Nat) (k : Nat) :
    decide (most (n :: rest) ≤ k) = (decide (n ≤ k) && decide (most rest ≤ k)) := by
  rw [← Bool.decide_and]
  exact decide_eq_decide.2 Nat.max_le

/-! ## Lists and maps -/

/-- A list and what is made of its items. -/
theorem decodes_list {read : Nat → Doc → Decoded α} {readAll : Nat → Doc → Decoded β} {f : List α → β} {toJson : α → Json}
    {items : List α} (hzero : ∀ docs, readAll 0 (.list docs true) = .error .malformed)
    (hsucc : ∀ levels docs, readAll (levels + 1) (.list docs true) = f <$> (Doc.list docs true).decodeList (levels + 1) (read levels))
    (h : ∀ a ∈ items, Decodes read (toJson a) a) : Decodes readAll (.list (items.map toJson)) (f items) := by
  refine decodes_of_levels (nesting_list _) (hzero _) fun levels => ?_
  have hitems : ((items.map toJson).map doc).mapM (read levels) =
      Doc.ifClosed (decide (most ((items.map toJson).map nesting) ≤ levels)) items := by
    induction items with
    | nil => rfl
    | cons a rest ih =>
      obtain ⟨ha, hrest⟩ := List.forall_mem_cons.1 h
      simp only [List.map_cons, List.mapM_cons, ha levels, ih hrest, decide_most_cons_le]
      exact ifClosed_bind (ifClosed_map _ _ _)
  rw [doc, hsucc, docsOfItems_eq, Doc.decodeList, hitems, ← ifClosed_map _ items f]
  exact congrArg (f <$> ·) (ifClosed_bind_closed _ _)

/-- Pairs are decoded when each value is. -/
theorem decodePairs_eq {read : Nat → Doc → Decoded α} {toJson : α → Json} {pairs : List (String × α)} {levels : Nat}
    (h : ∀ p ∈ pairs, Decodes read (toJson p.2) p.2) :
    Doc.decodePairs (read levels) ((pairs.map fun p => (p.1, toJson p.2)).map fun p => (some p.1, p.2.doc)) =
      Doc.ifClosed (decide (most ((pairs.map fun p => (p.1, toJson p.2)).map fun p => p.2.nesting) ≤ levels)) pairs := by
  induction pairs with
  | nil => rfl
  | cons p rest ih =>
    obtain ⟨hp, hrest⟩ := List.forall_mem_cons.1 h
    simp only [List.map_cons, Doc.decodePairs, hp levels, ih hrest, decide_most_cons_le]
    exact ifClosed_bind (ifClosed_map _ _ _)

/-- A map, and what is made of it. -/
theorem decodes_dict {read : Nat → Doc → Decoded α} {readAll : Nat → Doc → Decoded β} {f : Dict α → β} (toJson : α → Json)
    (entries : Dict α) (hzero : ∀ fields, readAll 0 (.record fields true) = .error .malformed)
    (hsucc : ∀ levels fields,
      readAll (levels + 1) (.record fields true) = f <$> (Doc.record fields true).decodeDict (levels + 1) (read levels))
    (h : ∀ p ∈ entries.toList, Decodes read (toJson p.2) p.2) : Decodes readAll (.map (entries.map toJson)) (f entries) := by
  refine decodes_of_levels (nesting_map _) (by rw [doc_map]; exact hzero _) fun levels => ?_
  rw [doc_map, hsucc, Dict.toList_map, Doc.decodeDict, decodePairs_eq h, if_neg (Nat.succ_ne_zero levels),
    ← ifClosed_map _ entries f]
  refine congrArg (f <$> ·) ((ifClosed_bind (f := fun pairs => Doc.ifClosed true (Dict.ofList pairs)) rfl).trans ?_)
  rw [Bool.and_true, Dict.ofList_toList]

/-! ## Variants and records -/

/-- A record with the name of a variant as its only key takes a level. -/
theorem variant_record {known : List String} {name : String} (h : known.contains name = true) (levels : Nat) (doc : Doc)
    (closed : Bool) : Doc.variant (levels + 1) known (.record [(some name, doc)] closed) = .ok (.filled name doc) := by
  rw [Doc.variant, if_neg (Nat.succ_ne_zero levels), if_pos h]

/-- The content of a variant. -/
theorem decodes_variant {read content : Nat → Doc → Decoded α} {name : String} {j : Json} {a : α}
    (hzero : ∀ doc, read 0 (.record [(some name, doc)] true) = .error .malformed)
    (hsucc : ∀ levels doc, read (levels + 1) (.record [(some name, doc)] true) = content levels doc) (h : Decodes content j a) :
    Decodes read (.record [(name, j)]) a := by
  refine decodes_of_levels (nesting_record _) (hzero _) fun levels => ?_
  have hmost : most [j.nesting] = j.nesting := Nat.max_zero j.nesting
  rw [List.map_singleton, hmost, ← h levels]
  exact hsucc levels j.doc

/-- Slots filled one after the other from fields with their names, at so many levels. -/
inductive FillsAll (levels : Nat) : List (Slot α) → List (String × Json) → α → α → Prop
  | nil {a} : FillsAll levels [] [] a a
  | cons {slot slots name j fields a b c} : slot.name = name →
      slot.fill j.doc a = Doc.ifClosed (decide (j.nesting ≤ levels)) b → FillsAll levels slots fields b c →
      FillsAll levels (slot :: slots) ((name, j) :: fields) a c

/-- Slots with distinct names and no other spellings. -/
structure Plain (slots : List (Slot α)) : Prop where
  nodup : (slots.map (·.name)).Nodup
  only : ∀ slot ∈ slots, slot.otherNames = []

namespace Plain

variable {front rest : List (Slot α)} {slot : Slot α} (h : Plain (front ++ slot :: rest))

include h

/-- No slot in front has the name of a later one. -/
theorem name_notMem : slot.name ∉ front.map (·.name) := by
  have hnodup := h.nodup
  rw [List.map_append, List.map_cons] at hnodup
  exact fun hmem => (List.nodup_middle.1 hnodup).notMem (List.mem_append_left _ hmem)

/-- A key finds the slot of its name. -/
theorem find?_name : (front ++ slot :: rest).find? (·.answersTo slot.name) = some slot := by
  refine List.find?_eq_some_iff_append.2 ⟨?_, front, rest, rfl, fun other hother => ?_⟩
  · rw [Slot.answersTo, beq_self_eq_true, Bool.true_or]
  · have hne : slot.name ≠ other.name := fun he => h.name_notMem (he ▸ List.mem_map_of_mem hother)
    rw [Slot.answersTo, h.only other (List.mem_append_left _ hother), beq_false_of_ne hne]
    rfl

end Plain

/-- Fields in the order of the slots fill one slot after the other. -/
theorem FillsAll.fillNamed {levels : Nat} {slots : List (Slot α)} {fields : List (String × Json)} {a b : α}
    (h : FillsAll levels slots fields a b) (front : List (Slot α)) (hplain : Plain (front ++ slots)) :
    Layout.fillNamed (front ++ slots) (front.map (·.name)).reverse a (fields.map fun p => (some p.1, p.2.doc)) =
      Doc.ifClosed (decide (most (fields.map fun p => p.2.nesting) ≤ levels)) (b, ((front ++ slots).map (·.name)).reverse) := by
  induction h generalizing front with
  | nil => rw [List.append_nil]; rfl
  | @cons slot slots name j fields a b c hname hfill _ ih =>
    subst hname
    have hnew : (front.map (·.name)).reverse.contains slot.name = false := by
      rw [List.contains_eq_mem, decide_eq_false_iff_not, List.mem_reverse]
      exact hplain.name_notMem
    have hrest := ih (front ++ [slot]) (by rwa [List.append_assoc])
    rw [List.append_assoc, List.map_append, List.reverse_append] at hrest
    rw [List.map_cons, Layout.fillNamed, hplain.find?_name]
    simp only [hnew, hfill, List.map_cons, decide_most_cons_le]
    exact ifClosed_bind hrest

/-- A record whose fields are those of its slots in order, and what is made of it. -/
theorem decodes_record (layout : Nat → Layout α) {read : Nat → Doc → Decoded β} {f : α → β} {fields : List (String × Json)}
    {a : α} (hzero : ∀ fields, read 0 (.record fields true) = .error .malformed)
    (hsucc : ∀ levels fields, read (levels + 1) (.record fields true) = f <$> (layout levels).decode (.record fields true))
    (hplain : ∀ levels, Plain (layout levels).slots)
    (h : ∀ levels, FillsAll levels (layout levels).slots fields (layout levels).blank a) :
    Decodes read (.record fields) (f a) := by
  refine decodes_of_levels (nesting_record _) (hzero _) fun levels => ?_
  have hfilled := (h levels).fillNamed [] (hplain levels)
  have hmissing : (layout levels).firstMissing ((layout levels).slots.map (·.name)).reverse = none := by
    refine List.find?_eq_none.2 fun slot hslot => ?_
    have hmet : ((layout levels).slots.map (·.name)).reverse.contains slot.name = true :=
      List.contains_iff_mem.2 (List.mem_reverse.2 (List.mem_map_of_mem hslot))
    rw [hmet]
    simp
  rw [List.nil_append, List.map_nil, List.reverse_nil] at hfilled
  rw [doc, hsucc, docsOfFields_eq, Layout.decode, hfilled, ← ifClosed_map _ a f]
  refine congrArg (f <$> ·) ((ifClosed_bind ?_).trans (congrArg (Doc.ifClosed · a) (Bool.and_true _)))
  simp only [hmissing]
  rfl

end FlowPlan.Json
