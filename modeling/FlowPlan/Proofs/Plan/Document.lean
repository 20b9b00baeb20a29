import FlowPlan.Plan.Document
import FlowPlan.Proofs.Json.Levels
import FlowPlan.Proofs.Plan

/-!
# Plan documents read back

What is printed of a plan is read back as the plan, as long as brackets and braces in it nest at most 127 deep, and refused
otherwise (`Route.parse_compact`). The plan has to be legible: the reader of numbers finds each of its numbers in what is printed of
it, which is not so of infinities and not of every finite number.
-/

namespace FlowPlan

open Json

/-! ## Legible plans -/

/-- The reader of numbers maps what is printed of a number back to it. -/
def Double.ReadsBack (x : Double) : Prop :=
  ∃ literal n, Doc.readNumber (x.text Json.style).toList = some (literal, []) ∧ literal.value? = some n ∧ n.toDouble = x

/-- A value whose numbers are finite and read back. -/
inductive Value.Legible : Value → Prop
  | null : Legible .null
  | bool {b} : Legible (.bool b)
  | number {x} : x.isFinite = true → x.ReadsBack → Legible (.number x)
  | text {s} : Legible (.text s)
  | list {items} : (∀ v ∈ items, Legible v) → Legible (.list items)
  | map {entries : Dict Value} : (∀ p ∈ entries.toList, Legible p.2) → Legible (.map entries)

/-- A step whose parameters are a legible map. -/
def Step.Legible (s : Step) : Prop :=
  (Value.map s.parameters).Legible

/-- An element whose steps, at whatever depth, are legible. -/
inductive Element.Legible : Element → Prop
  | sequential {node} : node.Legible → Legible (.sequential node)
  | leaf {node} : node.Legible → Legible (.leaf node)
  | choice {id node arms otherwise} : node.Legible → (∀ a ∈ arms, ∀ e ∈ a.body, Legible e) →
      (∀ body ∈ otherwise, ∀ e ∈ body, Legible e) → Legible (.choice id node arms otherwise)
  | parallel {id lanes} : (∀ l ∈ lanes, ∀ e ∈ l.body, Legible e) → Legible (.parallel id lanes)

/-- A plan whose steps, at whatever depth, are legible. -/
def Route.Legible (r : Route) : Prop :=
  ∀ e ∈ r.steps, e.Legible

/-! ## Lists of a plan -/

@[simp] theorem Value.itemsToJson_eq (items : List Value) : Value.itemsToJson items = items.map Value.toJson := by
  induction items with
  | nil => rfl
  | cons v rest ih => rw [itemsToJson, ih, List.map_cons]

/-- A map of values is tagged as one. -/
theorem Value.toJson_map (entries : Dict Value) : (Value.map entries).toJson = .record [("Map", .map (entries.map Value.toJson))] := by
  rw [toJson, Dict.map]

/-- An arm as a record. -/
def Element.armToJson (a : Arm Element) : Json :=
  .record [("id", .text a.id), ("condition", .text a.condition), ("body", .list (a.body.map Element.toJson))]

/-- A lane as a record. -/
def Element.laneToJson (l : Lane Element) : Json :=
  .record [("branch_id", .text l.id), ("body", .list (l.body.map Element.toJson))]

@[simp] theorem Element.bodyToJson_eq (body : List Element) : Element.bodyToJson body = body.map Element.toJson := by
  induction body with
  | nil => rfl
  | cons e rest ih => rw [bodyToJson, ih, List.map_cons]

@[simp] theorem Element.armsToJson_eq (arms : List (Arm Element)) : Element.armsToJson arms = arms.map Element.armToJson := by
  induction arms with
  | nil => rfl
  | cons a rest ih => rw [armsToJson, ih, List.map_cons, armToJson, bodyToJson_eq]

@[simp] theorem Element.lanesToJson_eq (lanes : List (Lane Element)) : Element.lanesToJson lanes = lanes.map Element.laneToJson := by
  induction lanes with
  | nil => rfl
  | cons l rest ih => rw [lanesToJson, ih, List.map_cons, laneToJson, bodyToJson_eq]

theorem Element.otherwiseToJson_eq (otherwise : Option (List Element)) :
    Element.otherwiseToJson otherwise = otherwise.elim .null fun body => .list (body.map Element.toJson) := by
  cases otherwise with
  | none => rfl
  | some body => rw [otherwiseToJson, bodyToJson_eq]; rfl

/-! ## Values -/

namespace Value

/-- The content of a variant, at so many levels. -/
def contentAt (name : String) : Nat → Doc → Decoded Value
  | 0, content => decodeContent 0 tooDeep name content
  | inner + 1, content => decodeContent (inner + 1) (decode inner) name content

/-- A variant with its content. -/
theorem decodes_content {name : String} (hname : variants.contains name = true) {j : Json} {v : Value}
    (h : Decodes (contentAt name) j v) : Decodes decode (.record [(name, j)]) v := by
  refine decodes_variant (fun doc => ?_) (fun levels doc => ?_) h
  · rw [decode]
    rfl
  · rw [decode, variant_record hname]
    cases levels with
    | zero => exact bind_pure (contentAt name 0 doc)
    | succ levels => exact bind_pure (contentAt name (levels + 1) doc)

/-- The printed form of a number that reads back. -/
theorem decodeDouble_doc {x : Double} (h : x.ReadsBack) : (Number.float x).doc.decodeDouble = .ok x := by
  obtain ⟨literal, n, hliteral, hvalue, hn⟩ := h
  have hdoc : (Number.float x).doc = .number literal := by
    unfold Number.doc
    rw [show (Number.float x).text = x.text Json.style from rfl, hliteral]
  rw [hdoc, Doc.decodeDouble, hvalue, ← hn]

/-- A legible value is read back at as many levels as its JSON is nested. -/
theorem Legible.decodes {v : Value} (h : v.Legible) : Decodes decode v.toJson v := by
  induction h with
  | null =>
    intro levels
    rw [decode]
    rfl
  | @bool b =>
    rw [toJson]
    refine decodes_content rfl fun levels => ?_
    cases levels <;> rfl
  | @number x hfinite hreads =>
    rw [toJson, ofDouble, if_pos hfinite]
    refine decodes_content rfl fun levels => ?_
    have hcontent : contentAt "Number" levels (Json.number (.float x)).doc = .number <$> (Number.float x).doc.decodeDouble := by
      cases levels <;> rfl
    rw [hcontent, decodeDouble_doc hreads]
    rfl
  | @text s =>
    rw [toJson]
    refine decodes_content rfl fun levels => ?_
    cases levels <;> rfl
  | @list items _ ih =>
    rw [toJson, itemsToJson_eq]
    exact decodes_content rfl (decodes_list (fun _ => rfl) (fun _ _ => rfl) ih)
  | @map entries _ ih =>
    rw [toJson_map]
    exact decodes_content rfl (decodes_dict toJson entries (fun _ => rfl) (fun _ _ => rfl) ih)

/-- A map is legible when what is made of each value is. -/
theorem legible_map {entries : Dict Value} (h : ∀ p ∈ entries.toList, p.2.toJson.Legible) :
    (Json.map (entries.map Value.toJson)).Legible := by
  refine .map ?_
  rw [Dict.toList_map]
  exact List.forall_mem_map.2 h

/-- What is printed of a legible value is legible. -/
theorem Legible.toJson {v : Value} (h : v.Legible) : v.toJson.Legible := by
  have tagged {name : String} {j : Json} (hj : j.Legible) : (Json.record [(name, j)]).Legible :=
    .record (List.forall_mem_singleton.2 hj)
  induction h with
  | null => exact .text
  | bool => exact tagged .bool
  | @number x hfinite hreads =>
    obtain ⟨literal, n, hliteral, -, -⟩ := hreads
    rw [Value.toJson, ofDouble, if_pos hfinite]
    exact tagged (.number hliteral)
  | text => exact tagged .text
  | list _ ih =>
    rw [Value.toJson, itemsToJson_eq]
    exact tagged (.list (List.forall_mem_map.2 ih))
  | map _ ih =>
    rw [toJson_map]
    exact tagged (legible_map ih)

/-- A value inside so many lists. -/
def inside (v : Value) : Nat → Value
  | 0 => v
  | n + 1 => .list [v.inside n]

/-- Lists around a value do not make it illegible. -/
theorem Legible.inside {v : Value} (h : v.Legible) (n : Nat) : (v.inside n).Legible := by
  induction n with
  | zero => exact h
  | succ n ih => exact .list (List.forall_mem_singleton.2 ih)

/-- A list counts twice, as the record of a variant and as a list. -/
theorem nesting_inside (v : Value) (n : Nat) : (v.inside n).toJson.nesting = 2 * n + v.toJson.nesting := by
  induction n with
  | zero => rw [Value.inside]; omega
  | succ n ih =>
    rw [Value.inside, toJson, itemsToJson_eq, nesting_record, List.map_singleton, nesting_list, List.map_map]
    simp only [List.map_singleton, Function.comp, most, List.foldr_cons, List.foldr_nil, Nat.max_zero, ih]
    omega

end Value

/-! ## Steps -/

namespace Step

/-- A step is read back from its document, whose levels suffice. -/
theorem Legible.decodes {s : Step} (h : s.Legible) : Decodes decode s.toJson s := by
  cases h with
  | map hvalues =>
    have hparameters : Decodes (fun levels doc => doc.decodeDict levels (Value.decode (levels - 1)))
        (.map (s.parameters.map Value.toJson)) s.parameters :=
      decodes_dict (f := fun d => d) Value.toJson s.parameters (fun _ => rfl) (fun _ _ => (id_map' _).symm)
        fun p hp => (hvalues p hp).decodes
    rw [Step.toJson]
    refine decodes_record layout (f := fun s => s) (fun _ => rfl) (fun _ _ => (id_map' _).symm) (fun levels => ?_) fun levels => ?_
    · exact ⟨by simp [layout], by simp [layout]⟩
    · exact .cons rfl rfl (.cons rfl rfl (.cons rfl (hparameters.fill _ levels) .nil))

theorem Legible.toJson {s : Step} (h : s.Legible) : s.toJson.Legible := by
  cases h with
  | map hvalues =>
    rw [Step.toJson]
    refine .record (List.forall_mem_cons.2 ⟨.text, List.forall_mem_cons.2 ⟨.text, List.forall_mem_singleton.2 ?_⟩⟩)
    exact Value.legible_map fun p hp => (hvalues p hp).toJson

end Step

/-! ## Elements -/

namespace Element

variable {name : String} {j : Json} {e : Element}

/-- A variant with its content. -/
theorem decodes_content (hname : variants.contains name = true) (h : Decodes (fun levels => decodeContent levels name) j e) :
    Decodes decode (.record [(name, j)]) e := by
  refine decodes_variant (fun doc => ?_) (fun levels doc => ?_) h
  · rw [decode]
    rfl
  · rw [decode, variant_record hname]
    exact bind_pure (decodeContent levels name doc)

/-- Elements of a body are read back one by one. -/
theorem decodes_body {body : List Element} (h : ∀ e ∈ body, Decodes decode e.toJson e) :
    Decodes decodeBody (.list (body.map toJson)) body := by
  refine decodes_list (f := fun body => body) (fun docs => ?_) (fun levels doc => ?_) h
  · rw [decodeBody]
    rfl
  · rw [decodeBody]
    exact (id_map' _).symm

theorem decodes_arm {a : Arm Element} (h : ∀ e ∈ a.body, Decodes decode e.toJson e) : Decodes decodeArm (armToJson a) a := by
  refine decodes_record (fun levels => armLayout (decodeBody levels)) (f := fun a => a) (fun fields => ?_) (fun levels fields => ?_)
    (fun levels => ?_) fun levels => ?_
  · rw [decodeArm]
    rfl
  · rw [decodeArm]
    exact (id_map' _).symm
  · exact ⟨by simp [armLayout], by simp [armLayout]⟩
  · exact .cons rfl rfl (.cons rfl rfl (.cons rfl ((decodes_body h).fill _ levels) .nil))

theorem decodes_arms {arms : List (Arm Element)} (h : ∀ a ∈ arms, ∀ e ∈ a.body, Decodes decode e.toJson e) :
    Decodes decodeArms (.list (arms.map armToJson)) arms := by
  refine decodes_list (f := fun arms => arms) (fun docs => ?_) (fun levels doc => ?_) fun a ha => decodes_arm (h a ha)
  · rw [decodeArms]
    rfl
  · rw [decodeArms]
    exact (id_map' _).symm

theorem decodes_lane {l : Lane Element} (h : ∀ e ∈ l.body, Decodes decode e.toJson e) : Decodes decodeLane (laneToJson l) l := by
  refine decodes_record (fun levels => laneLayout (decodeBody levels)) (f := fun l => l) (fun fields => ?_)
    (fun levels fields => ?_) (fun levels => ?_) fun levels => ?_
  · rw [decodeLane]
    rfl
  · rw [decodeLane]
    exact (id_map' _).symm
  · exact ⟨by simp [laneLayout], by simp [laneLayout]⟩
  · exact .cons rfl rfl (.cons rfl ((decodes_body h).fill _ levels) .nil)

theorem decodes_lanes {lanes : List (Lane Element)} (h : ∀ l ∈ lanes, ∀ e ∈ l.body, Decodes decode e.toJson e) :
    Decodes decodeLanes (.list (lanes.map laneToJson)) lanes := by
  refine decodes_list (f := fun lanes => lanes) (fun docs => ?_) (fun levels doc => ?_) fun l hl => decodes_lane (h l hl)
  · rw [decodeLanes]
    rfl
  · rw [decodeLanes]
    exact (id_map' _).symm

/-- The body without a condition, which may be lacking. -/
theorem decodes_otherwise {otherwise : Option (List Element)}
    (h : ∀ body ∈ otherwise, ∀ e ∈ body, Decodes decode e.toJson e) :
    Decodes (fun levels doc => doc.decodeOptional (decodeBody levels)) (otherwiseToJson otherwise) otherwise := by
  rw [otherwiseToJson_eq]
  cases otherwise with
  | none => exact fun _ => rfl
  | some body => exact fun levels => (decodes_body (h body rfl)).fill some levels

/-- A variant that holds a step only. -/
theorem decodes_step {make : Step → Element} {node : Step} (hname : variants.contains name = true)
    (hmake : ∀ levels doc, decodeContent levels name doc = make <$> (stepLayout name (levels - 1)).decodeAt levels doc)
    (hnode : node.Legible) : Decodes decode (.record [(name, .record [("node", node.toJson)])]) (make node) := by
  refine decodes_content hname (decodes_record (stepLayout name) (fun _ => hmake 0 _) (fun levels _ => hmake (levels + 1) _)
    (fun _ => ?_) fun levels => ?_)
  · exact ⟨List.nodup_singleton _, List.forall_mem_singleton.2 rfl⟩
  · exact .cons rfl (hnode.decodes levels) .nil

/-- A legible element is read back at as many levels as its JSON is nested. -/
theorem Legible.decodes (h : e.Legible) : Decodes decode e.toJson e := by
  -- The induction hypotheses are about the elements of each body; what is between an element and its bodies is read layer by layer.
  induction h with
  | sequential hnode =>
    rw [toJson]
    refine decodes_step rfl (fun levels doc => ?_) hnode
    cases levels <;> rw [decodeContent] <;> rfl
  | leaf hnode =>
    rw [toJson]
    refine decodes_step rfl (fun levels doc => ?_) hnode
    cases levels <;> rw [decodeContent] <;> rfl
  | @choice id node arms otherwise hnode _ _ iharms ihother =>
    rw [toJson, armsToJson_eq]
    refine decodes_content rfl (decodes_record (fun levels => choiceLayout levels (decodeArms levels) (decodeBody levels))
      (f := fun c : ChoiceParts => Element.choice c.id c.node c.arms c.otherwise) (a := ⟨id, node, arms, otherwise⟩)
      (fun _ => ?_) (fun levels _ => ?_) (fun levels => ?_) fun levels => ?_)
    · rw [decodeContent]
      rfl
    · rw [decodeContent]
      rfl
    · exact ⟨by simp [choiceLayout], by simp [choiceLayout]⟩
    · exact .cons rfl rfl (.cons rfl (hnode.decodes.fill _ levels) (.cons rfl ((decodes_arms iharms).fill _ levels)
        (.cons rfl ((decodes_otherwise ihother).fill _ levels) .nil)))
  | @parallel id lanes _ ihlanes =>
    rw [toJson, lanesToJson_eq]
    refine decodes_content rfl (decodes_record (fun levels => parallelLayout (decodeLanes levels))
      (f := fun p : String × List (Lane Element) => Element.parallel p.1 p.2) (a := (id, lanes))
      (fun _ => ?_) (fun levels _ => ?_) (fun levels => ?_) fun levels => ?_)
    · rw [decodeContent]
      rfl
    · rw [decodeContent]
      rfl
    · exact ⟨by simp [parallelLayout], by simp [parallelLayout]⟩
    · exact .cons rfl rfl (.cons rfl ((decodes_lanes ihlanes).fill _ levels) .nil)

/-- What is printed of a legible element is legible. -/
theorem Legible.toJson (h : e.Legible) : e.toJson.Legible := by
  have tagged {name : String} {fields : List (String × Json)} (hfields : ∀ p ∈ fields, p.2.Legible) :
      (Json.record [(name, .record fields)]).Legible :=
    .record (List.forall_mem_singleton.2 (.record hfields))
  have cons {name : String} {j : Json} {fields : List (String × Json)} (hj : j.Legible) (hfields : ∀ p ∈ fields, p.2.Legible) :
      ∀ p ∈ (name, j) :: fields, p.2.Legible :=
    List.forall_mem_cons.2 ⟨hj, hfields⟩
  have bodies {body : List Element} (hbody : ∀ e ∈ body, e.toJson.Legible) : (Json.list (body.map Element.toJson)).Legible :=
    .list (List.forall_mem_map.2 hbody)
  induction h with
  | sequential hnode =>
    rw [Element.toJson]
    exact tagged (cons hnode.toJson nofun)
  | leaf hnode =>
    rw [Element.toJson]
    exact tagged (cons hnode.toJson nofun)
  | @choice id node arms otherwise hnode _ _ iharms ihother =>
    rw [Element.toJson, armsToJson_eq, otherwiseToJson_eq]
    refine tagged (cons .text (cons hnode.toJson (cons (.list (List.forall_mem_map.2 fun a ha => ?_)) (cons ?_ nofun))))
    · exact .record (cons .text (cons .text (cons (bodies (iharms a ha)) nofun)))
    · cases otherwise with
      | none => exact .null
      | some body => exact bodies (ihother body rfl)
  | @parallel id lanes _ ihlanes =>
    rw [Element.toJson, lanesToJson_eq]
    refine tagged (cons .text (cons (.list (List.forall_mem_map.2 fun l hl => ?_)) nofun))
    exact .record (cons .text (cons (bodies (ihlanes l hl)) nofun))

end Element

/-! ## Plans -/

namespace Route

theorem Legible.decodes {r : Route} (h : r.Legible) : Decodes decode r.toJson r := by
  rw [Route.toJson, Element.bodyToJson_eq]
  refine decodes_record layout (f := fun r => r) (fun _ => rfl) (fun _ _ => (id_map' _).symm) (fun levels => ?_) fun levels => ?_
  · exact ⟨by simp [layout], by simp [layout]⟩
  · exact .cons rfl rfl (.cons rfl ((Element.decodes_body fun e he => (h e he).decodes).fill _ levels) .nil)

theorem Legible.toJson {r : Route} (h : r.Legible) : r.toJson.Legible := by
  rw [Route.toJson, Element.bodyToJson_eq]
  refine .record (List.forall_mem_cons.2 ⟨.text, List.forall_mem_singleton.2 (.list ?_)⟩)
  exact List.forall_mem_map.2 fun e he => (h e he).toJson

/-- A plan of one step, which has one parameter. -/
def ofParameter (v : Value) : Route :=
  ⟨"probe", [.leaf ⟨"D", "script", .single "level" v⟩]⟩

theorem legible_ofParameter {v : Value} (h : v.Legible) : (ofParameter v).Legible :=
  List.forall_mem_singleton.2 (.leaf (.map (List.forall_mem_singleton.2 h)))

/-- Around its parameter, such a plan nests six levels of brackets. -/
theorem nesting_ofParameter (v : Value) : (ofParameter v).toJson.nesting = v.toJson.nesting + 6 := by
  have htext (s : String) : (Json.text s).nesting = 0 := rfl
  simp [ofParameter, Route.toJson, Element.toJson, Step.toJson, Dict.toList_map, most, htext]

/-- What is printed of a legible plan is read back as the plan if its brackets and braces nest at most 127 deep, and is refused
otherwise. -/
theorem parse_compact {r : Route} (h : r.Legible) :
    Route.parse r.toJson.compact = if bracketDepth r.toJson.compact ≤ 127 then .ok r else .error .malformed := by
  rw [h.toJson.bracketDepth_compact, parse, decodeWhole, h.toJson.read_compact]
  change (decode 127 r.toJson.doc >>= Doc.ifClosed true) = _
  rw [h.decodes 127, ifClosed_bind_closed]
  simp only [Doc.ifClosed, decide_eq_true_eq]

/-- A tenth inside sixty lists is read back, and `Null` inside sixty-one is one level too deep. -/
theorem parse_compact_inside :
    let deep := ofParameter ((Value.number ⟨0x3fb999999999999a⟩).inside 60)
    let deeper := ofParameter (Value.null.inside 61)
    (deep.Legible ∧ parse deep.toJson.compact = .ok deep) ∧ deeper.Legible ∧ parse deeper.toJson.compact = .error .malformed := by
  intro deep deeper
  have htenth : (Value.number ⟨0x3fb999999999999a⟩).Legible := by
    refine .number (by decide +kernel) ⟨⟨false, [0], [1], none⟩, .float ⟨0x3fb999999999999a⟩, ?_, ?_, rfl⟩
    · decide +kernel
    · decide +kernel
  have hdeep : deep.Legible := legible_ofParameter (htenth.inside 60)
  have hdeeper : deeper.Legible := legible_ofParameter (.inside .null 61)
  refine ⟨⟨hdeep, ?_⟩, hdeeper, ?_⟩
  · rw [parse_compact hdeep, hdeep.toJson.bracketDepth_compact, nesting_ofParameter, Value.nesting_inside]
    rfl
  · rw [parse_compact hdeeper, hdeeper.toJson.bracketDepth_compact, nesting_ofParameter, Value.nesting_inside]
    rfl

end Route

end FlowPlan
