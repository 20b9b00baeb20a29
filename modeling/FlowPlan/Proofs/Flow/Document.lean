import FlowPlan.Flow.Document
import FlowPlan.Proofs.Json.Integers
import FlowPlan.Proofs.Json.Spelling

/-!
# Flow documents read back

A flow is written in many ways: the fields of its records stand in any order, two of them have a second key, what is empty may be left
out, and fields with unknown keys may stand in between (`Flow.Spelling`). However it is written, it is read as the same flow, as long as
brackets and braces nest at most 127 deep (`Flow.parse_spelling`). Nothing of the kind is said of parameters: they are written as they
are printed, and their numbers are integers of 64 bits, so that they are read back at all.
-/

namespace FlowPlan

open Json

namespace Json

/-- An integral value is printed as a JSON text. -/
theorem Integral.value {j : Json} (h : j.Integral) : Grammar.Value j.compact := by
  induction h with
  | null => exact .word (by decide)
  | @bool b => cases b <;> exact .word (by decide)
  | @number n _ _ => exact .number (number_int n)
  | @text s => exact Grammar.value_quotedText s
  | list _ ih =>
    rw [compact_list]
    exact .list (List.forall_mem_map.2 ih)
  | @map entries _ ih =>
    have hfields : ∀ q ∈ entries.toList.map fun p => (p.1, p.2.compact), Grammar.Value q.2 := List.forall_mem_map.2 ih
    have hall := Grammar.value_recordText hfields
    rw [List.map_map] at hall
    rw [compact_map]
    exact hall

/-- What is printed of a value is read as the value. -/
theorem Integral.ofText {j : Json} (h : j.Integral) : Doc.ofText j.compact = j.doc :=
  congrArg Reading.doc h.legible.read_compact

theorem compact_text (s : String) : (Json.text s).compact = quotedText s := by
  rw [compact]

theorem integral_ofText? (s : Option String) : (Json.ofText? s).Integral := by
  cases s with
  | none => exact .null
  | some s => exact .text

/-- A text that may be lacking. -/
theorem decodeOptional_ofText? (s : Option String) :
    (Doc.ofText (Json.ofText? s).compact).decodeOptional Doc.decodeText = .ok s := by
  rw [(integral_ofText? s).ofText]
  cases s <;> rfl

/-- The parameters of a node. -/
theorem Integral.decodes_parameters {d : Dict Json} (h : (Json.map d).Integral) : Decodes Flow.decodeParameters (.map d) d := by
  cases h with
  | map hvalues =>
    exact decodes_dict (f := fun d => d) id d (fun _ => rfl) (fun _ _ => (id_map' _).symm) fun p hp => (hvalues p hp).decodes

end Json

namespace Flow

/-! ## How a flow is written -/

/-- The fields of a branch. -/
def Branch.forms (b : Branch) : List FieldForm := [
  { name := "id", text := (· = quotedText b.id) },
  { name := "condition", text := (· = (Json.ofText? b.condition).compact), optional := b.condition = none }]

def Branch.Spelling (b : Branch) (text : String) : Prop :=
  RecordSpelling b.forms text

def Node.forms (n : Node) : List FieldForm := [
  { name := "id", text := (· = quotedText n.id) },
  { name := "component_id", otherNames := ["componentId"], text := (· = quotedText n.component) },
  { name := "parameters", text := (· = (Json.map n.parameters).compact), optional := n.parameters = ∅ },
  { name := "children", text := ListSpelling Branch.Spelling n.branches, optional := n.branches = [] }]

def Node.Spelling (n : Node) (text : String) : Prop :=
  RecordSpelling n.forms text

def Edge.forms (e : Edge) : List FieldForm := [
  { name := "source", text := (· = quotedText e.source) },
  { name := "source_output", otherNames := ["sourceOutput"], text := (· = (Json.ofText? e.branch).compact),
    optional := e.branch = none },
  { name := "target", text := (· = quotedText e.target) }]

def Edge.Spelling (e : Edge) (text : String) : Prop :=
  RecordSpelling e.forms text

def forms (f : Flow) : List FieldForm := [
  { name := "id", text := (· = quotedText f.id) },
  { name := "nodes", text := ListSpelling Node.Spelling f.nodes },
  { name := "edges", text := ListSpelling Edge.Spelling f.edges }]

/-- A text of a flow: as it is printed, but for the order and the keys of fields, fields that may be left out and unknown ones. -/
def Spelling (f : Flow) (text : String) : Prop :=
  RecordSpelling f.forms text

/-- All numbers in the parameters are integers of 64 bits, signed or not. -/
def Integral (f : Flow) : Prop :=
  ∀ n ∈ f.nodes, (Json.map n.parameters).Integral

/-! ## Parts of a record -/

/-- A field that is met, or whose value is the one that it has when it is left out. -/
theorem ite_of_or {α : Type} {met : Prop} [Decidable met] {a missing : α} (h : met ∨ a = missing) :
    (if met then a else missing) = a := by
  split
  · rfl
  · exact (h.resolve_left ‹_›).symm

/-- A field that is not optional has been met. -/
theorem ite_of_or_false {α : Type} {met : Prop} [Decidable met] {a missing : α} (h : met ∨ False) :
    (if met then a else missing) = a :=
  ite_of_or (h.imp_right False.elim)

/-- A quoted text is read as the text. -/
theorem decodeText_quotedText {s text : String} (h : text = quotedText s) : (Doc.ofText text).decodeText = .ok s := by
  rw [h, Grammar.ofText_quotedText]
  rfl

/-! ## Branches -/

namespace Branch

variable {b : Branch} {text : String}

theorem forms_value : ∀ form ∈ b.forms, ∀ t, form.text t → Grammar.Value t := by
  simp only [forms, List.forall_mem_cons, forall_eq]
  exact ⟨Grammar.value_quotedText _, (integral_ofText? _).value, nofun⟩

/-- The branch as far as its fields are met. -/
def part (b : Branch) (met : List String) : Branch where
  id := if "id" ∈ met then b.id else ""
  condition := if "condition" ∈ met then b.condition else none

theorem serves (levels : Nat) : List.Forall₂ (Serves levels b.part) b.forms layout.slots := by
  refine .cons ?_ (.cons ?_ .nil)
  · exact .of_read Doc.decodeText (fun s b => { b with id := s }) b.id rfl rfl (fun _ h => h) (fun _ _ => rfl)
      (fun _ htext _ => decodeText_quotedText htext) fun met => by simp [part]
  · exact .of_read (Doc.decodeOptional Doc.decodeText) (fun s b => { b with condition := s }) b.condition rfl rfl nofun
      (fun _ _ => rfl) (fun _ htext _ => htext ▸ decodeOptional_ofText? _) fun met => by simp [part]

/-- A branch is decoded however it is spelled. -/
theorem decode_spelling (h : b.Spelling text) {levels : Nat} (hdepth : bracketDepth text ≤ levels) :
    Branch.decode levels (.ofText text) = .ok b := by
  refine RecordSpelling.decodes b.part h (serves _) (by decide : ["id", "condition"].Nodup) forms_value rfl (fun met hmet => ?_) hdepth
  simp only [forms, List.forall_mem_cons] at hmet
  obtain ⟨hid, hcondition, -⟩ := hmet
  rw [part, ite_of_or_false hid, ite_of_or hcondition]

end Branch

/-! ## Edges -/

namespace Edge

variable {e : Edge} {text : String}

theorem forms_value : ∀ form ∈ e.forms, ∀ t, form.text t → Grammar.Value t := by
  simp only [forms, List.forall_mem_cons, forall_eq]
  exact ⟨Grammar.value_quotedText _, (integral_ofText? _).value, Grammar.value_quotedText _, nofun⟩

/-- The edge as far as its fields are met. -/
def part (e : Edge) (met : List String) : Edge where
  source := if "source" ∈ met then e.source else ""
  branch := if "source_output" ∈ met then e.branch else none
  target := if "target" ∈ met then e.target else ""

theorem serves (levels : Nat) : List.Forall₂ (Serves levels e.part) e.forms layout.slots := by
  refine .cons ?_ (.cons ?_ (.cons ?_ .nil))
  · exact .of_read Doc.decodeText (fun s e => { e with source := s }) e.source rfl rfl (fun _ h => h) (fun _ _ => rfl)
      (fun _ htext _ => decodeText_quotedText htext) fun met => by simp [part]
  · exact .of_read (Doc.decodeOptional Doc.decodeText) (fun s e => { e with branch := s }) e.branch rfl rfl nofun
      (fun _ _ => rfl) (fun _ htext _ => htext ▸ decodeOptional_ofText? _) fun met => by simp [part]
  · exact .of_read Doc.decodeText (fun s e => { e with target := s }) e.target rfl rfl (fun _ h => h) (fun _ _ => rfl)
      (fun _ htext _ => decodeText_quotedText htext) fun met => by simp [part]

/-- An edge is decoded however it is spelled. -/
theorem decode_spelling (h : e.Spelling text) {levels : Nat} (hdepth : bracketDepth text ≤ levels) :
    Edge.decode levels (.ofText text) = .ok e := by
  refine RecordSpelling.decodes e.part h (serves _) (by decide : ["source", "source_output", "sourceOutput", "target"].Nodup)
    forms_value rfl (fun met hmet => ?_) hdepth
  simp only [forms, List.forall_mem_cons] at hmet
  obtain ⟨hsource, hbranch, htarget, -⟩ := hmet
  rw [part, ite_of_or_false hsource, ite_of_or hbranch, ite_of_or_false htarget]

end Edge

/-! ## Nodes -/

namespace Node

variable {n : Node} {text : String}

theorem forms_value (hn : (Json.map n.parameters).Integral) : ∀ form ∈ n.forms, ∀ t, form.text t → Grammar.Value t := by
  simp only [forms, List.forall_mem_cons, forall_eq]
  refine ⟨Grammar.value_quotedText _, Grammar.value_quotedText _, hn.value, fun t ht => ?_, nofun⟩
  exact ht.value fun b _ t hb => hb.value Branch.forms_value

/-- The node as far as its fields are met. -/
def part (n : Node) (met : List String) : Node where
  id := if "id" ∈ met then n.id else ""
  component := if "component_id" ∈ met then n.component else ""
  parameters := if "parameters" ∈ met then n.parameters else ∅
  branches := if "children" ∈ met then n.branches else []

theorem serves (hn : (Json.map n.parameters).Integral) (levels : Nat) :
    List.Forall₂ (Serves levels n.part) n.forms (layout levels).slots := by
  refine .cons ?_ (.cons ?_ (.cons ?_ (.cons ?_ .nil)))
  · exact .of_read Doc.decodeText (fun s n => { n with id := s }) n.id rfl rfl (fun _ h => h) (fun _ _ => rfl)
      (fun _ htext _ => decodeText_quotedText htext) fun met => by simp [part]
  · exact .of_read Doc.decodeText (fun s n => { n with component := s }) n.component rfl rfl (fun _ h => h) (fun _ _ => rfl)
      (fun _ htext _ => decodeText_quotedText htext) fun met => by simp [part]
  · refine .of_read (decodeParameters levels) (fun d n => { n with parameters := d }) n.parameters rfl rfl nofun (fun _ _ => rfl)
      ?_ fun met => by simp [part]
    rintro _ rfl hdepth
    rw [hn.legible.bracketDepth_compact] at hdepth
    rw [hn.ofText, hn.decodes_parameters levels, decide_eq_true hdepth]
    rfl
  · refine .of_read (Doc.decodeList levels (Branch.decode (levels - 1))) (fun bs n => { n with branches := bs }) n.branches rfl rfl
      nofun (fun _ _ => rfl) (fun t ht hdepth => ?_) fun met => by simp [part]
    exact ListSpelling.decodes ht (fun b _ t hb => hb.value Branch.forms_value) (fun b _ t hb => Branch.decode_spelling hb) hdepth

/-- A node is decoded however it is spelled. -/
theorem decode_spelling (hn : (Json.map n.parameters).Integral) (h : n.Spelling text) {levels : Nat}
    (hdepth : bracketDepth text ≤ levels) : Node.decode levels (.ofText text) = .ok n := by
  refine RecordSpelling.decodes n.part h (serves hn _)
    (by decide : ["id", "component_id", "componentId", "parameters", "children"].Nodup) (forms_value hn) rfl (fun met hmet => ?_) hdepth
  simp only [forms, List.forall_mem_cons] at hmet
  obtain ⟨hid, hcomponent, hparameters, hchildren, -⟩ := hmet
  rw [part, ite_of_or_false hid, ite_of_or_false hcomponent, ite_of_or hparameters, ite_of_or hchildren]

end Node

/-! ## Flows -/

variable {f : Flow} {text : String}

theorem forms_value (hf : f.Integral) : ∀ form ∈ f.forms, ∀ t, form.text t → Grammar.Value t := by
  simp only [forms, List.forall_mem_cons, forall_eq]
  refine ⟨Grammar.value_quotedText _, fun t ht => ?_, fun t ht => ?_, nofun⟩
  · exact ht.value fun n hmem t hn => hn.value (Node.forms_value (hf n hmem))
  · exact ht.value fun e _ t he => he.value Edge.forms_value

/-- The flow as far as its fields are met. -/
def part (f : Flow) (met : List String) : Flow where
  id := if "id" ∈ met then f.id else ""
  nodes := if "nodes" ∈ met then f.nodes else []
  edges := if "edges" ∈ met then f.edges else []

theorem serves (hf : f.Integral) (levels : Nat) : List.Forall₂ (Serves levels f.part) f.forms (layout levels).slots := by
  refine .cons ?_ (.cons ?_ (.cons ?_ .nil))
  · exact .of_read Doc.decodeText (fun s f => { f with id := s }) f.id rfl rfl (fun _ h => h) (fun _ _ => rfl)
      (fun _ htext _ => decodeText_quotedText htext) fun met => by simp [part]
  · refine .of_read (Doc.decodeList levels (Node.decode (levels - 1))) (fun ns f => { f with nodes := ns }) f.nodes rfl rfl
      (fun _ h => h) (fun _ _ => rfl) (fun t ht hdepth => ?_) fun met => by simp [part]
    exact ListSpelling.decodes ht (fun n hmem t hn => hn.value (Node.forms_value (hf n hmem)))
      (fun n hmem t hn => Node.decode_spelling (hf n hmem) hn) hdepth
  · refine .of_read (Doc.decodeList levels (Edge.decode (levels - 1))) (fun es f => { f with edges := es }) f.edges rfl rfl
      (fun _ h => h) (fun _ _ => rfl) (fun t ht hdepth => ?_) fun met => by simp [part]
    exact ListSpelling.decodes ht (fun e _ t he => he.value Edge.forms_value) (fun e _ t he => Edge.decode_spelling he) hdepth

/-- A flow is decoded however it is spelled. -/
theorem decode_spelling (hf : f.Integral) (h : f.Spelling text) {levels : Nat} (hdepth : bracketDepth text ≤ levels) :
    decode levels (.ofText text) = .ok f := by
  refine RecordSpelling.decodes f.part h (serves hf _) (by decide : ["id", "nodes", "edges"].Nodup) (forms_value hf) rfl
    (fun met hmet => ?_) hdepth
  simp only [forms, List.forall_mem_cons] at hmet
  obtain ⟨hid, hnodes, hedges, -⟩ := hmet
  rw [part, ite_of_or_false hid, ite_of_or_false hnodes, ite_of_or_false hedges]

/-! ## The printed text -/

/-- A branch as it is printed is one spelling of it. -/
theorem Branch.spelling_compact (b : Branch) : b.Spelling b.toJson.compact :=
  .of_compact (.field (List.mem_cons_self ..) (compact_text b.id) (.field (List.mem_cons_self ..) rfl .nil))

theorem Edge.spelling_compact (e : Edge) : e.Spelling e.toJson.compact :=
  .of_compact (.field (List.mem_cons_self ..) (compact_text e.source) (.field (List.mem_cons_self ..) rfl
    (.field (List.mem_cons_self ..) (compact_text e.target) .nil)))

theorem Node.spelling_compact (n : Node) : n.Spelling n.toJson.compact :=
  .of_compact (.field (List.mem_cons_self ..) (compact_text n.id) (.field (List.mem_cons_self ..) (compact_text n.component)
    (.field (List.mem_cons_self ..) rfl (.field (List.mem_cons_self ..) (.of_compact Branch.spelling_compact n.branches) .nil))))

/-- What is printed of a flow is one of its spellings. -/
theorem spelling_compact (f : Flow) : f.Spelling f.toJson.compact :=
  .of_compact (.field (List.mem_cons_self ..) (compact_text f.id)
    (.field (List.mem_cons_self ..) (.of_compact Node.spelling_compact f.nodes)
      (.field (List.mem_cons_self ..) (.of_compact Edge.spelling_compact f.edges) .nil)))

/-- However a flow is spelled, it is read as the same flow if brackets and braces in the text nest at most 127 deep; and so is what is
printed of it. -/
theorem parse_spelling {f : Flow} (hf : f.Integral) :
    (∀ text, f.Spelling text → bracketDepth text ≤ 127 → parse text = .ok f) ∧
      (bracketDepth f.toJson.compact ≤ 127 → parse f.toJson.compact = .ok f) := by
  have hspelled : ∀ text, f.Spelling text → bracketDepth text ≤ 127 → parse text = .ok f := by
    intro text h hdepth
    have hread := (RecordSpelling.value h (forms_value hf)).reads_ofText.read
    have hdecode : decode nestingLimit (.ofText text) = .ok f := decode_spelling hf h hdepth
    rw [parse, decodeWhole, hread, hdecode]
    rfl
  exact ⟨hspelled, hspelled _ f.spelling_compact⟩

/-- A choice whose only branch leads back to it. -/
def loop : Flow where
  id := "loop"
  nodes := [{ id := "n", component := "choice", parameters := .single "k" (.number (.int (-1))), branches := [⟨"b", none⟩] }]
  edges := [⟨"n", some "b", "n"⟩]

/-- The loop with its fields from the last to the first, with second keys, and behind a field that is not known. -/
def loopRespelled : String :=
  "\x7b\"note\":[1e999, \"\\ud800\"],\"edges\":[\x7b\"target\":\"n\",\"sourceOutput\":\"b\",\"source\":\"n\"\x7d]," ++
    "\"nodes\":[\x7b\"children\":[\x7b\"id\":\"b\"\x7d],\"parameters\":\x7b\"k\":-1\x7d,\"componentId\":\"choice\",\"id\":\"n\"\x7d]," ++
    "\"id\":\"loop\"\x7d"

/-- The other text of `Flow.loop` is a spelling of it. -/
theorem spelling_loopRespelled : loop.Spelling loopRespelled := by
  have hnumber : Grammar.Number ([] ++ (['1'] ++ ([] ++ 'e' :: ([] ++ ['9', '9', '9'])))) :=
    .mk (by decide) (.digits (by decide) (by simp)) .absent (.written (by decide) (by decide) ⟨by decide, by simp⟩)
  have hquoted : Grammar.Quoted "\"\\ud800\"" :=
    ⟨['\\', 'u', 'd', '8', '0', '0'] ++ [], .cons (.unit (by decide) (by decide) (by decide) (by decide)) .nil, rfl⟩
  have hnote : Grammar.Value (listText ["1e999", " " ++ "\"\\ud800\"" ++ ""]) :=
    .list (List.forall_mem_cons.2 ⟨.number hnumber, List.forall_mem_singleton.2 (.blank (by decide) (.text hquoted) (by decide))⟩)
  have hbranch : Branch.Spelling ⟨"b", none⟩ (recordText [fieldText ("id", quotedText "b")]) :=
    ⟨_, [], [("id", quotedText "b")], .field (List.mem_cons_self ..) rfl (.left rfl .nil), nofun, .refl _, rfl⟩
  have hnode : Node.Spelling ⟨"n", "choice", .single "k" (.number (.int (-1))), [⟨"b", none⟩]⟩ (recordText (List.map fieldText
      [("children", listText [recordText [fieldText ("id", quotedText "b")]]),
        ("parameters", (Json.map (.single "k" (.number (.int (-1))))).compact), ("componentId", quotedText "choice"),
        ("id", quotedText "n")])) :=
    ⟨_, [], _, .field (List.mem_cons_self ..) rfl (.field (List.mem_cons_of_mem _ (List.mem_cons_self ..)) rfl
      (.field (List.mem_cons_self ..) rfl (.field (List.mem_cons_self ..) ⟨_, .cons hbranch .nil, rfl⟩ .nil))), nofun,
      List.reverse_perm _, rfl⟩
  have hedge : Edge.Spelling ⟨"n", some "b", "n"⟩ (recordText (List.map fieldText
      [("target", quotedText "n"), ("sourceOutput", quotedText "b"), ("source", quotedText "n")])) :=
    ⟨_, [], _, .field (List.mem_cons_self ..) rfl (.field (List.mem_cons_of_mem _ (List.mem_cons_self ..)) (compact_text "b").symm
      (.field (List.mem_cons_self ..) rfl .nil)), nofun, List.reverse_perm _, rfl⟩
  exact ⟨_, [("note", _)], _, .field (List.mem_cons_self ..) rfl
    (.field (List.mem_cons_self ..) ⟨_, .cons hnode .nil, rfl⟩ (.field (List.mem_cons_self ..) ⟨_, .cons hedge .nil, rfl⟩ .nil)),
    List.forall_mem_singleton.2 ⟨by decide, hnote⟩, List.reverse_perm _, by decide +kernel⟩

/-- Both texts of `Flow.loop` are read as the flow. -/
theorem parse_spelling_loop : loop.Integral ∧ loop.Spelling loopRespelled ∧ bracketDepth loopRespelled ≤ 127 ∧
    parse loopRespelled = .ok loop ∧ bracketDepth loop.toJson.compact ≤ 127 ∧ parse loop.toJson.compact = .ok loop := by
  have hloop : loop.Integral := by
    refine List.forall_mem_singleton.2 (.map (List.forall_mem_singleton.2 (.number ?_ ?_)))
    · decide
    · decide
  have hdepth : bracketDepth loopRespelled ≤ 127 := by decide +kernel
  have hprinted : bracketDepth loop.toJson.compact ≤ 127 := by decide +kernel
  exact ⟨hloop, spelling_loopRespelled, hdepth, (parse_spelling hloop).1 _ spelling_loopRespelled hdepth, hprinted,
    (parse_spelling hloop).2 hprinted⟩

end Flow

end FlowPlan
