import FlowPlan.Json.Doc
import FlowPlan.Json.Printer
import FlowPlan.Text.Quoted

/-!
# Reading typed data from documents

Decoders turn a document into data and report the first thing, in document order, that does not fit. A `Misfit` is a document
that is well-formed but of another shape; `Fault.malformed` stands for every fault of grammar, nesting past the limit
included. A `Layout` describes a record: its slots, the spellings of their keys, and which of them may be absent. A record may
also be written as the list of its slots.
-/

namespace FlowPlan.Json

/-- What stands where something else is expected. -/
inductive Kind
  | null
  | bool (b : Bool)
  | number (n : Number)
  | text (s : String)
  | sequence
  | map
  /-- the bare name of a variant that has content -/
  | unitVariant
  deriving DecidableEq, Repr

def Kind.description : Kind → String
  | .null => "null"
  | .bool b => s!"boolean `{b}`"
  | .number (.int n) => s!"integer `{n}`"
  | .number (.float x) => "floating point `" ++ x.text style ++ "`"
  | .text s => "string " ++ Text.quoted s
  | .sequence => "sequence"
  | .map => "map"
  | .unitVariant => "unit variant"

/-- How a well-formed document fails to fit. -/
inductive Misfit
  | missingField (name : String)
  | duplicateField (name : String)
  | invalidType (found : Kind) (expected : String)
  | invalidLength (length : Nat) (expected : String)
  | unknownVariant (name : String) (known : List String)
  deriving DecidableEq, Repr

def Misfit.message : Misfit → String
  | .missingField name => s!"missing field `{name}`"
  | .duplicateField name => s!"duplicate field `{name}`"
  | .invalidType found expected => "invalid type: " ++ found.description ++ ", expected " ++ expected
  | .invalidLength length expected => s!"invalid length {length}, expected {expected}"
  | .unknownVariant name known =>
    s!"unknown variant `{name}`, expected one of " ++ String.intercalate ", " (known.map fun k => "`" ++ k ++ "`")

/-- Why a document is refused. -/
inductive Fault
  | malformed
  | misfit (m : Misfit)
  deriving DecidableEq, Repr

/-- The result of reading a document. -/
abbrev Decoded (α : Type) := Except Fault α

/-- Containers nest at most this deep. -/
def nestingLimit : Nat := 127

namespace Doc

/-- The fault of a document that stands where `expected` should. -/
def unexpected (expected : String) (doc : Doc) : Fault :=
  let found (k : Kind) : Fault := .misfit (.invalidType k expected)
  match doc with
  | .null => found .null
  | .bool b => found (.bool b)
  | .number literal =>
    match literal.value? with
    | some n => found (.number n)
    | none => .malformed
  | .text (some s) => found (.text s)
  | .text none => .malformed
  | .list .. => found .sequence
  | .record .. => found .map
  | .broken => .malformed

/-- A value that was read inside a container: it counts only if the container is closed. -/
def ifClosed {α : Type} (closed : Bool) (a : α) : Decoded α :=
  if closed then .ok a else .error .malformed

def decodeText : Doc → Decoded String
  | .text (some s) => .ok s
  | doc => .error (doc.unexpected "a string")

def decodeBool : Doc → Decoded Bool
  | .bool b => .ok b
  | doc => .error (doc.unexpected "a boolean")

/-- A number, as a floating point number. -/
def decodeDouble : Doc → Decoded Double
  | .number literal =>
    match literal.value? with
    | some n => .ok n.toDouble
    | none => .error .malformed
  | doc => .error (doc.unexpected "f64")

def decodeNull : Doc → Decoded Unit
  | .null => .ok ()
  | doc => .error (doc.unexpected "unit")

/-- Nothing for `null`, and otherwise what `read` finds. -/
def decodeOptional {α : Type} (read : Doc → Decoded α) : Doc → Decoded (Option α)
  | .null => .ok none
  | doc => some <$> read doc

/-- The items of a list, which takes one of the levels of nesting that are left. -/
def decodeList {α : Type} (levels : Nat) (item : Doc → Decoded α) : Doc → Decoded (List α)
  | .list items closed => do
    if levels = 0 then throw .malformed
    ifClosed closed (← items.mapM item)
  | doc => .error (doc.unexpected "a sequence")

/-- The keys and values of a map, in document order. -/
def decodePairs {α : Type} (value : Doc → Decoded α) : List (Option String × Doc) → Decoded (List (String × α))
  | [] => .ok []
  | (none, _) :: _ => .error .malformed
  | (some key, doc) :: rest => do
    let v ← value doc
    let pairs ← decodePairs value rest
    return (key, v) :: pairs

/-- A map, which takes one level of nesting; of two values for one key the later one stays. -/
def decodeDict {α : Type} (levels : Nat) (value : Doc → Decoded α) : Doc → Decoded (Dict α)
  | .record fields closed => do
    if levels = 0 then throw .malformed
    ifClosed closed (Dict.ofList (← decodePairs value fields))
  | doc => .error (doc.unexpected "a map")

/-- Any JSON value within the levels of nesting that are left. -/
def decodeJson : (levels : Nat) → Doc → Decoded Json
  | _, .null => .ok .null
  | _, .bool b => .ok (.bool b)
  | _, .number literal =>
    match literal.value? with
    | some n => .ok (.number n)
    | none => .error .malformed
  | _, .text (some s) => .ok (.text s)
  | inner + 1, .list items closed => do
    ifClosed closed (.list (← items.mapM fun doc => decodeJson inner doc))
  | inner + 1, .record fields closed => do
    ifClosed closed (.map (Dict.ofList (← decodePairs (fun doc => decodeJson inner doc) fields)))
  | _, _ => .error .malformed

end Doc

/-! ## Records -/

/-- Which spellings of a record may leave a slot out. -/
inductive Presence
  /-- none -/
  | required
  /-- the record with keys -/
  | optional
  /-- the record with keys, and the list when all later slots are left out too -/
  | defaulted
  deriving DecidableEq, Repr

/-- A slot of a record: its name, other spellings of its key, and how its content goes into the record. -/
structure Slot (α : Type) where
  name : String
  otherNames : List String := []
  presence : Presence := .required
  fill : Doc → α → Decoded α

def Slot.answersTo {α : Type} (slot : Slot α) (key : String) : Bool :=
  key == slot.name || slot.otherNames.contains key

/-- A record: how messages call it, its slots in order, and the record that the slots fill. -/
structure Layout (α : Type) where
  title : String
  slots : List (Slot α)
  blank : α

namespace Layout

/-- Fills the slots that the fields name, in document order; other fields are passed over. Gives the names that were met. -/
def fillNamed {α : Type} (slots : List (Slot α)) (met : List String) (filled : α) :
    List (Option String × Doc) → Decoded (α × List String)
  | [] => .ok (filled, met)
  | (none, _) :: _ => .error .malformed
  | (some key, doc) :: rest =>
    match slots.find? (·.answersTo key) with
    | none => fillNamed slots met filled rest
    | some slot =>
      if met.contains slot.name then .error (.misfit (.duplicateField slot.name))
      else do
        let filled ← slot.fill doc filled
        fillNamed slots (slot.name :: met) filled rest

/-- How a record of so many slots is called when it is written as a list. -/
def listTitle {α : Type} (layout : Layout α) : String :=
  let count := layout.slots.length
  s!"{layout.title} with {count} " ++ (if count = 1 then "element" else "elements")

/-- Fills the slots in order from a list of contents, the first one of which has the given place. -/
def fillInOrder {α : Type} (title : String) (closed : Bool) (place : Nat) (filled : α) :
    List (Slot α) → List Doc → Decoded α
  | [], [] => Doc.ifClosed closed filled
  | [], _ :: _ => .error .malformed
  | slot :: slots, [] =>
    if !closed then .error .malformed
    else if slot.presence = .defaulted then fillInOrder title closed (place + 1) filled slots []
    else .error (.misfit (.invalidLength place title))
  | slot :: slots, doc :: rest => do
    let filled ← slot.fill doc filled
    fillInOrder title closed (place + 1) filled slots rest

/-- The first slot that has to be there and was not met. -/
def firstMissing {α : Type} (layout : Layout α) (met : List String) : Option (Slot α) :=
  layout.slots.find? fun slot => slot.presence = .required && !met.contains slot.name

/-- A record from a document, whose level of nesting is already taken. -/
def decode {α : Type} (layout : Layout α) : Doc → Decoded α
  | .record fields closed => do
    let (filled, met) ← fillNamed layout.slots [] layout.blank fields
    if !closed then throw .malformed
    match layout.firstMissing met with
    | some slot => throw (.misfit (.missingField slot.name))
    | none => return filled
  | .list items closed => fillInOrder layout.listTitle closed 0 layout.blank layout.slots items
  | doc => .error (doc.unexpected layout.title)

/-- A record, which takes one of the levels of nesting that are left. -/
def decodeAt {α : Type} (levels : Nat) (layout : Layout α) (doc : Doc) : Decoded α :=
  match levels, doc with
  | 0, .record .. => .error .malformed
  | 0, .list .. => .error .malformed
  | _, doc => layout.decode doc

end Layout

/-! ## Variants -/

/-- A variant by its bare name, or by its name and content. -/
inductive Variant
  | bare (name : String)
  | filled (name : String) (content : Doc)

/-- The variant in a document: its bare name, or a record, which takes one level, whose one key is the name. -/
def Doc.variant (levels : Nat) (known : List String) : Doc → Decoded Variant
  | .text (some name) =>
    if known.contains name then .ok (.bare name) else .error (.misfit (.unknownVariant name known))
  | .record ((some name, content) :: _) _ =>
    if levels = 0 then .error .malformed
    else if known.contains name then .ok (.filled name content)
    else .error (.misfit (.unknownVariant name known))
  | _ => .error .malformed

/-- Whether a variant's record ends after its content. -/
def Doc.holdsOneField : Doc → Bool
  | .record [_] closed => closed
  | _ => false

/-- The fault of a bare name whose variant has content. -/
def Fault.bareVariant (expected : String) : Fault :=
  .misfit (.invalidType .unitVariant expected)

/-! ## Whole texts -/

/-- Reads a text that holds one document and nothing else. -/
def decodeWhole {α : Type} (decode : (levels : Nat) → Doc → Decoded α) (s : String) : Decoded α := do
  let reading := Doc.read s
  let a ← decode nestingLimit reading.doc
  Doc.ifClosed reading.ended a

/-- Reads a text as any JSON value. -/
def parse (s : String) : Decoded Json :=
  decodeWhole Doc.decodeJson s

end FlowPlan.Json
