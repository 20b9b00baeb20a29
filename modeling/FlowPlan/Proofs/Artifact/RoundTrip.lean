import FlowPlan.Artifact.Store
import FlowPlan.Proofs.Artifact.Words
import FlowPlan.Proofs.Plan

/-!
# Compiled flows read back

A compiled flow can be stored when its lengths fit into a word (`CompiledFlow.Storable`), which is
so for any that a memory can hold. Values and elements that can be stored are read back, by induction on how they nest
(`Value.Storable.reads`, `Element.Storable.reads`). So the bytes of a compiled flow are read back as the flow, whatever follows
them, and no part of them is mistaken for an artifact (`CompiledFlow.decode_toBytes`).
-/

namespace FlowPlan

open Artifact

/-! ## What can be stored -/

/-- A value whose lengths are words. -/
inductive Value.Storable : Value → Prop
  | null : Storable .null
  | bool {b} : Storable (.bool b)
  | number {x} : Storable (.number x)
  | text {s} : FitsText s → Storable (.text s)
  | list {items} : items.length < 2 ^ 64 → (∀ v ∈ items, Storable v) → Storable (.list items)
  | map {entries : Dict Value} : entries.size < 2 ^ 64 → (∀ p ∈ entries.toList, FitsText p.1) →
      (∀ p ∈ entries.toList, Storable p.2) → Storable (.map entries)

/-- A step whose texts and parameters can be stored. -/
structure Step.Storable (s : Step) : Prop where
  id : FitsText s.id
  component : FitsText s.component
  parameters : (Value.map s.parameters).Storable

/-- An element whose texts, steps and bodies can be stored. -/
inductive Element.Storable : Element → Prop
  | sequential {node} : node.Storable → Storable (.sequential node)
  | leaf {node} : node.Storable → Storable (.leaf node)
  | choice {id node arms otherwise} : FitsText id → node.Storable → arms.length < 2 ^ 64 →
      (∀ a ∈ arms, FitsText a.id ∧ FitsText a.condition ∧ a.body.length < 2 ^ 64) → (∀ a ∈ arms, ∀ e ∈ a.body, Storable e) →
      (∀ body ∈ otherwise, body.length < 2 ^ 64) → (∀ body ∈ otherwise, ∀ e ∈ body, Storable e) →
      Storable (.choice id node arms otherwise)
  | parallel {id lanes} : FitsText id → lanes.length < 2 ^ 64 → (∀ l ∈ lanes, FitsText l.id ∧ l.body.length < 2 ^ 64) →
      (∀ l ∈ lanes, ∀ e ∈ l.body, Storable e) → Storable (.parallel id lanes)

/-- A compiled flow whose texts and elements can be stored. -/
structure CompiledFlow.Storable (c : CompiledFlow) : Prop where
  flowId : FitsText c.flowId
  routeId : FitsText c.route.flowId
  length : c.route.steps.length < 2 ^ 64
  steps : ∀ e ∈ c.route.steps, e.Storable

/-! ## Helpers: parts of a format -/

namespace RoundTripAux

variable {α : Type} {room : Nat}

/-- A dictionary, with its size in front. -/
theorem reads_dict {item : Reader α} {encode : α → List UInt8} {d : Dict α} (hsize : d.size < 2 ^ 64)
    (hkeys : ∀ p ∈ d.toList, FitsText p.1) (hitems : ∀ p ∈ d.toList, Reads room item (encode p.2) p.2) :
    Reads room (readDict item) (encodeInteger d.size ++ d.toList.flatMap fun p => encodeText p.1 ++ encode p.2) d := by
  rw [← d.length_toList] at hsize ⊢
  have hpairs : Reads room (Reader.list do return (← Reader.text, ← item)) _ d.toList :=
    reads_list hsize fun p hp => (reads_text (hkeys p hp)).andThen (hitems p hp).returns
  refine hpairs.last ?_
  rw [Dict.ofList_toList]

/-- Something that nests is read by its variant, one level deeper with at least one byte less to go. -/
theorem reads_nested {read : Nat → Reader α} {next : Nat → Nat → Reader α} {variants kind : Nat} {bytes : List UInt8} {a : α}
    (hzero : read 0 = atEnd) (hsucc : ∀ n, read (n + 1) = Reader.variant variants >>= next n) (hkind : kind < variants)
    (hfits : kind < 2 ^ 32) (hnext : ∀ room, Reads room (next room kind) bytes a) (room : Nat) :
    Reads room (read room) (encodeInteger kind ++ bytes) a := by
  have hsome : 0 < (encodeInteger kind).length := List.length_pos_iff.2 (encodeInteger_ne_nil kind)
  cases room with
  | zero =>
    rw [hzero]
    constructor
    · intro tail hlength
      simp only [List.length_append] at hlength
      omega
    · exact fun _ _ _ _ => ⟨1, Nat.one_pos, rfl⟩
  | succ n =>
    rw [hsucc]
    exact (reads_variant hkind hfits).bind (hnext n) (by omega)

@[simp] theorem encodeItems_eq (items : List Value) : Value.encodeItems items = items.flatMap Value.encode :=
  eq_flatMap rfl (fun _ _ => rfl) items

/-- A map is written as the number of its entries and the entries in order. -/
theorem encode_map (entries : Dict Value) : (Value.map entries).encode =
    encodeInteger 5 ++ (encodeInteger entries.size ++ entries.toList.flatMap fun p => encodeText p.1 ++ p.2.encode) := by
  rw [List.flatMap_def, Dict.map_toList, ← List.append_assoc, Value.encode]
  rfl

@[simp] theorem encodeBody_eq (body : List Element) : Element.encodeBody body = body.flatMap Element.encode :=
  eq_flatMap rfl (fun _ _ => rfl) body

@[simp] theorem encodeArms_eq (arms : List (Arm Element)) : Element.encodeArms arms = arms.flatMap fun a =>
    encodeText a.id ++ (encodeText a.condition ++ (encodeInteger a.body.length ++ a.body.flatMap Element.encode)) := by
  refine eq_flatMap rfl (fun a rest => ?_) arms
  simp only [Element.encodeArms, encodeBody_eq, List.append_assoc]

@[simp] theorem encodeLanes_eq (lanes : List (Lane Element)) : Element.encodeLanes lanes = lanes.flatMap fun l =>
    encodeText l.id ++ (encodeInteger l.body.length ++ l.body.flatMap Element.encode) := by
  refine eq_flatMap rfl (fun l rest => ?_) lanes
  simp only [Element.encodeLanes, encodeBody_eq, List.append_assoc]

end RoundTripAux

open RoundTripAux

/-! ## Values, steps and elements -/

/-- A map can be stored when its entries can be. -/
theorem Value.storable_ofEntries {entries : List (String × Value)} (h : Dict.InOrder entries) (hlength : entries.length < 2 ^ 64)
    (hkeys : ∀ p ∈ entries, FitsText p.1) (hvalues : ∀ p ∈ entries, p.2.Storable) : (Value.map (.ofEntries entries h)).Storable := by
  refine .map ?_ ?_ ?_
  · rwa [Dict.size_ofEntries]
  · rwa [Dict.toList_ofEntries]
  · rwa [Dict.toList_ofEntries]

/-- A value is read back, by induction on its nesting, and every strict prefix refused. -/
theorem Value.Storable.reads {v : Value} (h : v.Storable) (room : Nat) : Reads room (Value.read room) v.encode v := by
  induction h generalizing room with
  | null =>
    rw [Value.encode, ← List.append_nil (encodeInteger 0)]
    refine reads_nested rfl (fun _ => rfl) ?_ ?_ (fun _ => ?_) room
    · decide
    · decide
    · exact reads_pure
  | @bool b =>
    rw [Value.encode]
    exact reads_nested rfl (fun _ => rfl) (by decide) (by decide) (fun _ => (reads_bool b).returns) room
  | @number x =>
    rw [Value.encode]
    exact reads_nested rfl (fun _ => rfl) (by decide) (by decide) (fun _ => (reads_double x).returns) room
  | text hs =>
    rw [Value.encode]
    exact reads_nested rfl (fun _ => rfl) (by decide) (by decide) (fun _ => (reads_text hs).returns) room
  | list hlength _ ih =>
    rw [Value.encode, encodeItems_eq, List.append_assoc]
    exact reads_nested rfl (fun _ => rfl) (by decide) (by decide)
      (fun room => (reads_list hlength fun v hv => ih v hv room).returns) room
  | map hsize hkeys _ ih =>
    rw [encode_map]
    exact reads_nested rfl (fun _ => rfl) (by decide) (by decide)
      (fun room => (reads_dict hsize hkeys fun p hp => ih p hp room).returns) room

theorem Step.Storable.reads {s : Step} (h : s.Storable) (room : Nat) : Reads room (Step.read room) s.encode s := by
  cases h.parameters with
  | map hsize hkeys hvalues =>
    rw [Step.encode, List.append_assoc, List.append_assoc]
    exact (reads_text h.id).andThen ((reads_text h.component).andThen
      (reads_dict hsize hkeys fun p hp => (hvalues p hp).reads room).returns)

/-- An element is read back, by induction on its nesting. -/
theorem Element.Storable.reads {e : Element} (h : e.Storable) (room : Nat) : Reads room (Element.read room) e.encode e := by
  induction h generalizing room with
  | sequential hnode =>
    exact reads_nested rfl (fun _ => rfl) (by decide) (by decide) (fun room => (hnode.reads room).returns) room
  | leaf hnode =>
    exact reads_nested rfl (fun _ => rfl) (by decide) (by decide) (fun room => (hnode.reads room).returns) room
  | @choice id node arms otherwise hid hnode harms hfits _ hother _ iharms ihother =>
    have arm (room : Nat) : ∀ a ∈ arms, Reads room (Arm.read (Element.read room)) _ a := fun a ha =>
      (reads_text (hfits a ha).1).andThen ((reads_text (hfits a ha).2.1).andThen
        (reads_list (hfits a ha).2.2 fun e he => iharms a ha e he room).returns)
    have other (room : Nat) :
        Reads room (Reader.optional (Reader.list (Element.read room))) (encodeOtherwise otherwise) otherwise := by
      cases otherwise with
      | none => exact reads_none
      | some body =>
        rw [encodeOtherwise, encodeBody_eq]
        exact reads_some (reads_list (hother body rfl) fun e he => ihother body rfl e he room)
    rw [Element.encode, encodeArms_eq]
    simp only [List.append_assoc]
    refine reads_nested rfl (fun _ => rfl) (by decide) (by decide) (fun room => ?_) room
    rw [← List.append_assoc (encodeInteger arms.length)]
    exact (reads_text hid).andThen ((hnode.reads room).andThen ((reads_list harms (arm room)).andThen (other room).returns))
  | @parallel id lanes hid hlanes hfits _ ihlanes =>
    have lane (room : Nat) : ∀ l ∈ lanes, Reads room (Lane.read (Element.read room)) _ l := fun l hl =>
      (reads_text (hfits l hl).1).andThen (reads_list (hfits l hl).2 fun e he => ihlanes l hl e he room).returns
    rw [Element.encode, encodeLanes_eq, List.append_assoc, List.append_assoc]
    refine reads_nested rfl (fun _ => rfl) (by decide) (by decide) (fun room => ?_) room
    exact (reads_text hid).andThen (reads_list hlanes (lane room)).returns

/-! ## Compiled flows -/

/-- The route of a compiled flow is read back. -/
theorem Route.reads_of_storable {c : CompiledFlow} (h : c.Storable) (room : Nat) :
    Reads room (Route.read room) c.route.encode c.route := by
  rw [Route.encode, encodeBody_eq, List.append_assoc]
  exact (reads_text h.routeId).andThen (reads_list h.length fun e he => (h.steps e he).reads room).returns

namespace CompiledFlow

/-- The bytes of a compiled flow are read back as the flow, whatever follows them. Of a part of them, reading finds that bytes are
lacking. -/
theorem decode_toBytes {c : CompiledFlow} (h : c.Storable) :
    (∀ tail, decode (c.toBytes ++ tail) = .ok c) ∧
      ∀ front, front <+: c.toBytes → front ≠ c.toBytes →
        ∃ lacking, 0 < lacking ∧ decode front = .error (.decode (.unexpectedEnd lacking)) := by
  have reads (room : Nat) : Reads room (do return (⟨← Reader.text, ← Route.read room⟩ : CompiledFlow)) c.toBytes c :=
    (reads_text h.flowId).andThen (Route.reads_of_storable h room).returns
  constructor
  · intro tail
    have hwhole := (reads (c.toBytes ++ tail).length).whole tail (Nat.le_refl _)
    rw [decode, ofBytes, hwhole]
    rfl
  · intro front hfront hne
    obtain ⟨lacking, hpos, hshort⟩ := (reads front.length).part front hfront hne (Nat.le_refl _)
    refine ⟨lacking, hpos, ?_⟩
    rw [decode, ofBytes, hshort]
    rfl

/-- A compiled flow with every kind of element and value. -/
def review : CompiledFlow := .ofRoute {
  flowId := "review"
  steps := [
    .sequential ⟨"A", "fetch", .ofEntries [("strict", .bool true),
      ("wait", .map (.ofEntries [("für", .text "A"), ("s", .number ⟨0x4008000000000000⟩)] (by decide)))] (by decide)⟩,
    .choice "review-choice-1" ⟨"C", "choice", ∅⟩
      [⟨"long", "words > 300",
        [.parallel "review-parallel-2" [⟨"review-parallel-2-0", [.leaf ⟨"E", "read", ∅⟩]⟩, ⟨"review-parallel-2-1", []⟩]]⟩]
      (some [.leaf ⟨"F", "skip", .single "because" (.list [.null, .text "short"])⟩])] }

theorem storable_review : review.Storable := by
  have text {s : String} (h : decide (s.length < 2 ^ 62) = true) : FitsText s := .of_length (of_decide_eq_true h)
  have bare {id component : String} (hid : FitsText id) (hcomponent : FitsText component) : Step.Storable ⟨id, component, ∅⟩ :=
    ⟨hid, hcomponent, Value.storable_ofEntries .nil (Nat.two_pow_pos 64) nofun nofun⟩
  refine ⟨text rfl, text rfl, by decide, List.forall_mem_cons.2 ⟨.sequential ⟨text rfl, text rfl, ?fetch⟩,
    List.forall_mem_singleton.2 (.choice (text rfl) (bare (text rfl) (text rfl)) (by decide) ?arms ?bodies ?length ?otherwise)⟩⟩
  case fetch =>
    refine Value.storable_ofEntries (by decide) (by decide) (List.forall_mem_cons.2 ⟨text rfl, List.forall_mem_singleton.2 (text rfl)⟩)
      (List.forall_mem_cons.2 ⟨.bool, List.forall_mem_singleton.2 (Value.storable_ofEntries (by decide) (by decide) ?_ ?_)⟩)
    · exact List.forall_mem_cons.2 ⟨text rfl, List.forall_mem_singleton.2 (text rfl)⟩
    · exact List.forall_mem_cons.2 ⟨.text (text rfl), List.forall_mem_singleton.2 .number⟩
  case arms => exact List.forall_mem_singleton.2 ⟨text rfl, text rfl, by decide⟩
  case bodies =>
    refine List.forall_mem_singleton.2 (List.forall_mem_singleton.2 (.parallel (text rfl) (by decide) ?_ ?_))
    · exact List.forall_mem_cons.2 ⟨⟨text rfl, by decide⟩, List.forall_mem_singleton.2 ⟨text rfl, by decide⟩⟩
    · refine List.forall_mem_cons.2 ⟨List.forall_mem_singleton.2 (.leaf ?_), List.forall_mem_singleton.2 nofun⟩
      exact bare (text rfl) (text rfl)
  case length => exact fun body hbody => Option.some.inj hbody ▸ by decide
  case otherwise =>
    intro body hbody
    obtain rfl := Option.some.inj hbody
    refine List.forall_mem_singleton.2 (.leaf ⟨text rfl, text rfl, Value.storable_ofEntries (by decide) (by decide) ?_ ?_⟩)
    · exact List.forall_mem_singleton.2 (text rfl)
    · refine List.forall_mem_singleton.2 (.list (by decide) ?_)
      exact List.forall_mem_cons.2 ⟨.null, List.forall_mem_singleton.2 (.text (text rfl))⟩

/-- `review` is read back, but not from the bytes of its id alone. -/
theorem decode_toBytes_review : review.Storable ∧ (∀ tail, decode (review.toBytes ++ tail) = .ok review) ∧
    ∃ lacking, 0 < lacking ∧ decode (encodeText review.flowId) = .error (.decode (.unexpectedEnd lacking)) := by
  have hne : review.route.encode ≠ [] :=
    List.append_ne_nil_of_left_ne_nil (List.append_ne_nil_of_left_ne_nil
      (List.append_ne_nil_of_left_ne_nil (encodeInteger_ne_nil _) _) _) _
  obtain ⟨whole, part⟩ := decode_toBytes storable_review
  exact ⟨storable_review, whole, part _ (List.prefix_append _ _) fun he => hne (List.self_eq_append_right.1 he)⟩

end CompiledFlow

end FlowPlan
