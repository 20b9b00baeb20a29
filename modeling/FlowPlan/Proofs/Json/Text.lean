import FlowPlan.Proofs.Json.Grammar
import Mathlib.Data.List.DropRight

/-!
# Values read back

Every JSON text is read as a document (`Grammar.Value.reads`), and what is printed of a value without blanks as the document of the
value (`Json.Legible.read_compact`), as long as every number in it is printed as a number literal (`Json.Legible`). Behind a value
nothing follows, or a character that is not one of numbers: a blank, a comma or a closing bracket (`Doc.Reads`). The reader is bounded
by the length of the text, and every value that it meets on the way down is shorter than what is left of the bound.
-/

namespace FlowPlan.Json

/-! ## Values -/

/-- The document of a number: its literal, when it is printed as one. -/
def Number.doc (n : Number) : Doc :=
  match Doc.readNumber n.text.toList with
  | some (literal, _) => .number literal
  | none => .broken

mutual

/-- The document that is read from what is printed of a value. -/
def doc : Json → Doc
  | .null => .null
  | .bool b => .bool b
  | .number n => n.doc
  | .text s => .text (some s)
  | .list items => .list (docsOfItems items) true
  | .record fields => .record (docsOfFields fields) true
  | .map ⟨keys, _, value⟩ => .record (List.ofFn fun i => (some (keys.get i), doc (value i))) true

def docsOfItems : List Json → List Doc
  | [] => []
  | item :: rest => doc item :: docsOfItems rest

def docsOfFields : List (String × Json) → List (Option String × Doc)
  | [] => []
  | (key, value) :: rest => (some key, doc value) :: docsOfFields rest

end

/-- A value whose numbers are all printed as number literals. -/
inductive Legible : Json → Prop
  | null : Legible .null
  | bool {b} : Legible (.bool b)
  | number {n literal} : Doc.readNumber n.text.toList = some (literal, []) → Legible (.number n)
  | text {s} : Legible (.text s)
  | list {items} : (∀ j ∈ items, Legible j) → Legible (.list items)
  | record {fields} : (∀ p ∈ fields, Legible p.2) → Legible (.record fields)
  | map {entries : Dict Json} : (∀ p ∈ entries.toList, Legible p.2) → Legible (.map entries)

namespace Doc

theorem skipBlanks_cons {c : Char} {cs : List Char} (h : isBlankChar c = false) : skipBlanks (c :: cs) = c :: cs :=
  List.dropWhile_cons_of_neg (Bool.eq_false_iff.1 h)

/-- A number literal begins with a character of numbers, which no other value begins with. -/
theorem readValue_number {cs rest : List Char} {literal : Literal} (h : readNumber cs = some (literal, []))
    (hrest : EndsNumber rest) (fuel : Nat) : readValue (fuel + 1) (cs ++ rest) = (.number literal, some rest) := by
  have hread := scans_readNumber.goesOn h hrest
  obtain ⟨front, hcs, hfront⟩ := scans_readNumber.front h
  rw [List.append_nil] at hcs
  subst hcs
  cases cs with
  | nil => cases h
  | cons c cs =>
    have hc := hfront c (List.mem_cons_self ..)
    rw [List.cons_append] at hread ⊢
    unfold readValue
    rw [skipBlanks_cons (isBlankChar_of_isNumberChar hc)]
    split
    case h_7 =>
      rw [hread]
      rfl
    all_goals
      rename_i heq
      rw [(List.cons.inj heq).1] at hc
      cases hc

end Doc

/-! ## What is printed, as characters -/

/-- A text in quotes. -/
theorem toList_quotedText (s : String) : (quotedText s).toList = '"' :: (s.toList.flatMap escapedChar ++ ['"']) := by
  simp [quotedText]

/-- A key with the text of its value. -/
def fieldText (p : String × String) : String :=
  quotedText p.1 ++ ":" ++ p.2

/-- Texts with commas between them. -/
def separated (texts : List String) : List Char :=
  [','].intercalate (texts.map String.toList)

@[simp] theorem separated_singleton (t : String) : separated [t] = t.toList := by
  simp [separated]

theorem separated_cons_cons (t u : String) (rest : List String) :
    separated (t :: u :: rest) = t.toList ++ ',' :: separated (u :: rest) := by
  simp [separated, List.intercalate_cons_cons]

@[simp] theorem toList_listText (texts : List String) : (listText texts).toList = '[' :: (separated texts ++ [']']) := by
  simp [listText, separated]

@[simp] theorem toList_recordText (fields : List String) : (recordText fields).toList = '\x7b' :: (separated fields ++ ['\x7d']) := by
  simp [recordText, separated]

@[simp] theorem compact_list (items : List Json) : compact (.list items) = listText (items.map compact) := by
  have hitems : compactItems items = items.map compact := by
    induction items with
    | nil => rfl
    | cons item rest ih => rw [compactItems, ih, List.map_cons]
  rw [compact, hitems, listText]

@[simp] theorem compact_record (fields : List (String × Json)) :
    compact (.record fields) = recordText (fields.map fun p => fieldText (p.1, p.2.compact)) := by
  have hfields : compactFields fields = fields.map fun p => fieldText (p.1, p.2.compact) := by
    induction fields with
    | nil => rfl
    | cons p rest ih => rw [compactFields, ih, List.map_cons, fieldText]
  rw [compact, hfields, recordText]

/-- A map is printed as the record of its entries. -/
@[simp] theorem compact_map (entries : Dict Json) :
    compact (.map entries) = recordText (entries.toList.map fun p => fieldText (p.1, p.2.compact)) := by
  rw [Dict.map_toList, recordText, compact]
  rfl

theorem docsOfItems_eq (items : List Json) : docsOfItems items = items.map doc := by
  induction items with
  | nil => rfl
  | cons item rest ih => rw [docsOfItems, ih, List.map_cons]

theorem docsOfFields_eq (fields : List (String × Json)) : docsOfFields fields = fields.map fun p => (some p.1, p.2.doc) := by
  induction fields with
  | nil => rfl
  | cons p rest ih => rw [docsOfFields, ih, List.map_cons]

/-- A map is read as the record of its entries. -/
@[simp] theorem doc_map (entries : Dict Json) : doc (.map entries) = .record (entries.toList.map fun p => (some p.1, p.2.doc)) true := by
  rw [Dict.map_toList, doc]

/-! ## Values in a text -/

namespace Doc

theorem skipBlanks_append {front : String} (h : Grammar.Blank front) (cs : List Char) :
    skipBlanks (front.toList ++ cs) = skipBlanks cs := by
  refine List.dropWhile_append_of_pos fun c hc => ?_
  have hcases := h c hc
  simp only [List.mem_cons, List.not_mem_nil, or_false] at hcases
  rcases hcases with rfl | rfl | rfl | rfl
  all_goals rfl

/-- Blanks behind a number end it. -/
theorem endsNumber_append {behind : String} (h : Grammar.Blank behind) {rest : List Char} (hrest : EndsNumber rest) :
    EndsNumber (behind.toList ++ rest) := by
  rw [Grammar.Blank] at h
  generalize behind.toList = blanks at h
  cases blanks with
  | nil => exact hrest
  | cons c cs =>
    have hcases := h c (List.mem_cons_self ..)
    simp only [List.mem_cons, List.not_mem_nil, or_false] at hcases
    rw [List.cons_append, endsNumber_cons]
    rcases hcases with rfl | rfl | rfl | rfl
    all_goals rfl

theorem skipBlanks_idem (cs : List Char) : skipBlanks (skipBlanks cs) = skipBlanks cs :=
  List.dropWhile_idempotent isBlankChar cs

/-- Blanks in front of a value do not matter. -/
theorem readValue_skipBlanks (fuel : Nat) (cs : List Char) : readValue fuel (skipBlanks cs) = readValue fuel cs := by
  cases fuel with
  | zero => rfl
  | succ fuel => rw [readValue, readValue, skipBlanks_idem]

theorem readItems_skipBlanks (fuel : Nat) (cs : List Char) : readItems fuel (skipBlanks cs) = readItems fuel cs := by
  cases fuel with
  | zero => rfl
  | succ fuel => rw [readItems, readItems, readValue_skipBlanks]

theorem readFields_skipBlanks (fuel : Nat) (cs : List Char) : readFields fuel (skipBlanks cs) = readFields fuel cs := by
  cases fuel with
  | zero => rfl
  | succ fuel => rw [readFields, readFields, skipBlanks_idem]

/-- A text is read as a document, in any text that goes on behind it. Blanks at its end may be left. -/
def Reads (text : String) (doc : Doc) : Prop :=
  ∀ fuel rest, text.toList.length < fuel → EndsNumber rest →
    ∃ tail, readValue fuel (text.toList ++ rest) = (doc, some tail) ∧ skipBlanks tail = skipBlanks rest

/-- A text that is read is read to its end when nothing follows. -/
theorem Reads.read {s : String} {doc : Doc} (h : Reads s doc) : Doc.read s = ⟨doc, true⟩ := by
  obtain ⟨tail, hread, htail⟩ := h (2 * s.toList.length + 2) [] (by omega) endsNumber_nil
  rw [List.append_nil] at hread
  simp only [Doc.read, hread, htail]
  rfl

/-- To read a text it is enough to have fuel for its characters, and one more. -/
theorem reads_of_succ {text : String} {doc : Doc} (h : ∀ fuel rest, text.toList.length ≤ fuel → EndsNumber rest →
    readValue (fuel + 1) (text.toList ++ rest) = (doc, some rest)) : Reads text doc := by
  intro fuel rest hfuel hrest
  cases fuel with
  | zero => exact absurd hfuel (Nat.not_lt_zero _)
  | succ fuel => exact ⟨rest, h fuel rest (Nat.le_of_lt_succ hfuel) hrest, rfl⟩

/-- The three words are read. -/
theorem reads_word {s : String} (h : s ∈ ["null", "true", "false"]) : ∃ doc, Reads s doc := by
  simp only [List.mem_cons, List.not_mem_nil, or_false] at h
  rcases h with rfl | rfl | rfl
  · exact ⟨.null, reads_of_succ fun _ _ _ _ => rfl⟩
  · exact ⟨.bool true, reads_of_succ fun _ _ _ _ => rfl⟩
  · exact ⟨.bool false, reads_of_succ fun _ _ _ _ => rfl⟩

/-- A number is read up to its end, whatever stands behind that is not part of one. -/
theorem reads_number {s : String} {literal : Literal} (h : readNumber s.toList = some (literal, [])) : Reads s (.number literal) :=
  reads_of_succ fun fuel _ _ hrest => readValue_number h hrest fuel

/-- What is read as pieces up to a quote is a text between quotes. -/
theorem reads_quoted {s : String} {inside : List Char} {key : Option String} (hs : s.toList = '"' :: (inside ++ ['"']))
    (h : ∀ rest, ∃ pieces, readPieces [] (inside ++ '"' :: rest) = some (pieces, rest) ∧ pieceText pieces = key) :
    Reads s (.text key) := by
  refine reads_of_succ fun fuel rest _ _ => ?_
  obtain ⟨pieces, hpieces, hkey⟩ := h rest
  rw [hs, List.cons_append, List.append_assoc, readValue]
  simp only [skipBlanks_cons (show isBlankChar '"' = false from rfl), List.singleton_append, hpieces, hkey]

/-- Blanks around a text are of no account. -/
theorem Reads.blank {text front behind : String} {doc : Doc} (h : Reads text doc) (hfront : Grammar.Blank front)
    (hbehind : Grammar.Blank behind) : Reads (front ++ text ++ behind) doc := by
  intro fuel rest hfuel hrest
  rw [String.toList_append, String.toList_append] at hfuel ⊢
  rw [List.length_append, List.length_append] at hfuel
  obtain ⟨tail, hread, htail⟩ := h fuel (behind.toList ++ rest) (by omega) (endsNumber_append hbehind hrest)
  refine ⟨tail, ?_, htail.trans (skipBlanks_append hbehind rest)⟩
  rw [List.append_assoc, List.append_assoc, ← readValue_skipBlanks, skipBlanks_append hfront, readValue_skipBlanks, hread]

/-! ## Lists -/

/-- Items between commas are read one by one, by induction on the list of them. -/
theorem readItems_separated {items : List (String × Doc)} (hne : items ≠ []) (h : ∀ p ∈ items, Reads p.1 p.2) (fuel : Nat)
    (rest : List Char) (hfuel : (separated (items.map (·.1))).length + 1 < fuel) :
    readItems fuel (separated (items.map (·.1)) ++ ']' :: rest) = (items.map (·.2), some rest) := by
  induction items generalizing fuel with
  | nil => exact absurd rfl hne
  | cons p others ih =>
    obtain ⟨fuel, rfl⟩ : ∃ n, fuel = n + 1 := ⟨fuel - 1, by omega⟩
    obtain ⟨hp, hothers⟩ := List.forall_mem_cons.1 h
    cases others with
    | nil =>
      rw [List.map_singleton, separated_singleton] at hfuel ⊢
      obtain ⟨tail, hread, htail⟩ := hp fuel (']' :: rest) (by omega) (endsNumber_cons.2 rfl)
      simp only [readItems, hread, htail, skipBlanks_cons (show isBlankChar ']' = false from rfl)]
      rfl
    | cons q others =>
      simp only [List.map_cons, separated_cons_cons, List.length_append, List.length_cons] at hfuel
      have hrest := ih (List.cons_ne_nil q others) hothers fuel (by rw [List.map_cons]; omega)
      simp only [List.map_cons, separated_cons_cons, List.append_assoc, List.cons_append] at hrest ⊢
      obtain ⟨tail, hread, htail⟩ := hp fuel (',' :: (separated (q.1 :: others.map (·.1)) ++ ']' :: rest)) (by omega)
        (endsNumber_cons.2 rfl)
      simp only [readItems, hread, htail, skipBlanks_cons (show isBlankChar ',' = false from rfl), hrest]

/-- Items are not read where a bracket closes a list. -/
theorem readItems_closing {cs rest : List Char} (h : skipBlanks cs = ']' :: rest) (fuel : Nat) : (readItems fuel cs).2 = none := by
  have hvalue (fuel : Nat) : (readValue fuel (']' :: rest)).2 = none := by
    cases fuel <;> rfl
  rw [← readItems_skipBlanks, h]
  cases fuel with
  | zero => rfl
  | succ fuel =>
    rw [readItems]
    rcases hread : readValue fuel (']' :: rest) with ⟨item, tail⟩
    obtain rfl : tail = none := by rw [← hvalue fuel, hread]
    rfl

/-- Texts in brackets are read as a list. -/
theorem reads_listText {items : List (String × Doc)} (h : ∀ p ∈ items, Reads p.1 p.2) :
    Reads (listText (items.map (·.1))) (.list (items.map (·.2)) true) := by
  refine reads_of_succ fun fuel rest hfuel _ => ?_
  rw [toList_listText, List.length_cons, List.length_append, List.length_singleton] at hfuel
  rw [toList_listText, List.cons_append, List.append_assoc, List.singleton_append, readValue]
  cases items with
  | nil => rfl
  | cons p others =>
    -- The reader looks for the end of the list first, so the first item must not begin with a bracket that closes it.
    have hread := readItems_separated (List.cons_ne_nil p others) h fuel rest (by omega)
    rw [skipBlanks_cons rfl]
    simp only
    split
    · rw [Prod.ext_iff, readItems_closing ‹_›] at hread
      cases hread.2
    · rw [readItems_skipBlanks, hread]

/-- An empty list may have blanks inside. -/
theorem reads_emptyList {blank : String} (h : Grammar.Blank blank) : Reads ("[" ++ blank ++ "]") (.list [] true) := by
  refine reads_of_succ fun fuel rest _ _ => ?_
  have hskip := skipBlanks_append h (']' :: rest)
  rw [skipBlanks_cons rfl] at hskip
  simp only [String.toList_append, String.reduceToList, List.cons_append, List.append_assoc, List.nil_append,
    readValue, skipBlanks_cons (show isBlankChar '[' = false from rfl), hskip]

/-! ## Records -/

/-- A field in front of a text, and what depends on the character that follows. -/
def ReadsField (text : String) (field : Option String × Doc) : Prop :=
  ∀ fuel tail, text.toList.length < fuel → EndsNumber tail →
    readFields (fuel + 1) (text.toList ++ tail) = match skipBlanks tail with
      | '\x7d' :: rest => ([field], some rest)
      | ',' :: rest => (field :: (readFields fuel rest).1, (readFields fuel rest).2)
      | _ => ([field], none)

/-- A field is a key in quotes, a colon and a text, with blanks in front and between. -/
theorem readsField_of_quoted {front quoted behind text : String} {inside : List Char} {key : Option String} {doc : Doc}
    (hfront : Grammar.Blank front) (hquoted : quoted.toList = '"' :: (inside ++ ['"']))
    (hkey : ∀ rest, ∃ pieces, readPieces [] (inside ++ '"' :: rest) = some (pieces, rest) ∧ pieceText pieces = key)
    (hbehind : Grammar.Blank behind) (h : Reads text doc) :
    ReadsField (front ++ quoted ++ behind ++ ":" ++ text) (key, doc) := by
  intro fuel tail hfuel htail
  simp only [String.toList_append, hquoted, String.reduceToList, List.length_append, List.length_cons, List.append_assoc,
    List.cons_append, List.nil_append] at hfuel ⊢
  obtain ⟨pieces, hpieces, htext⟩ := hkey (behind.toList ++ ':' :: (text.toList ++ tail))
  obtain ⟨left, hvalue, hleft⟩ := h fuel tail (by omega) htail
  have hcolon := skipBlanks_append hbehind (':' :: (text.toList ++ tail))
  rw [skipBlanks_cons rfl] at hcolon
  have hread := readFields.eq_2 ('"' :: (inside ++ '"' :: (behind.toList ++ ':' :: (text.toList ++ tail)))) fuel
  simp only [skipBlanks_cons (show isBlankChar '"' = false from rfl), hpieces, hcolon, htext, hvalue, hleft] at hread
  rw [← readFields_skipBlanks, skipBlanks_append hfront, readFields_skipBlanks]
  exact hread

/-- A key as it is printed, with its value. -/
theorem readsField_fieldText (key : String) {text : String} {doc : Doc} (h : Reads text doc) :
    ReadsField (fieldText (key, text)) (some key, doc) := by
  have hblank : Grammar.Blank "" := nofun
  have hread := readsField_of_quoted hblank (toList_quotedText key) (readPieces_quoted key) hblank h
  rwa [String.empty_append, String.append_empty] at hread

/-- Fields between commas are read one by one, by induction on the list of them. -/
theorem readFields_separated {fields : List (String × Option String × Doc)} (hne : fields ≠ [])
    (h : ∀ p ∈ fields, ReadsField p.1 p.2) (fuel : Nat) (rest : List Char)
    (hfuel : (separated (fields.map (·.1))).length + 1 < fuel) :
    readFields fuel (separated (fields.map (·.1)) ++ '\x7d' :: rest) = (fields.map (·.2), some rest) := by
  induction fields generalizing fuel with
  | nil => exact absurd rfl hne
  | cons p others ih =>
    obtain ⟨fuel, rfl⟩ : ∃ n, fuel = n + 1 := ⟨fuel - 1, by omega⟩
    obtain ⟨hp, hothers⟩ := List.forall_mem_cons.1 h
    cases others with
    | nil =>
      rw [List.map_singleton, separated_singleton] at hfuel ⊢
      rw [hp fuel _ (by omega) (endsNumber_cons.2 rfl)]
      rfl
    | cons q others =>
      simp only [List.map_cons, separated_cons_cons, List.length_append, List.length_cons] at hfuel
      have hrest := ih (List.cons_ne_nil q others) hothers fuel (by rw [List.map_cons]; omega)
      simp only [List.map_cons, separated_cons_cons, List.append_assoc, List.cons_append] at hrest ⊢
      rw [hp fuel _ (by omega) (endsNumber_cons.2 rfl)]
      simp only [skipBlanks_cons (show isBlankChar ',' = false from rfl), hrest]

/-- Fields are not read where a brace closes a record. -/
theorem readFields_closing {cs rest : List Char} (h : skipBlanks cs = '\x7d' :: rest) (fuel : Nat) :
    (readFields fuel cs).2 = none := by
  rw [← readFields_skipBlanks, h]
  cases fuel <;> rfl

/-- Fields in braces are read as a record. -/
theorem reads_recordText {fields : List (String × Option String × Doc)} (h : ∀ p ∈ fields, ReadsField p.1 p.2) :
    Reads (recordText (fields.map (·.1))) (.record (fields.map (·.2)) true) := by
  refine reads_of_succ fun fuel rest hfuel _ => ?_
  rw [toList_recordText, List.length_cons, List.length_append, List.length_singleton] at hfuel
  rw [toList_recordText, List.cons_append, List.append_assoc, List.singleton_append, readValue]
  cases fields with
  | nil => rfl
  | cons p others =>
    have hread := readFields_separated (List.cons_ne_nil p others) h fuel rest (by omega)
    rw [skipBlanks_cons rfl]
    simp only
    split
    · rw [Prod.ext_iff, readFields_closing ‹_›] at hread
      cases hread.2
    · rw [readFields_skipBlanks, hread]

/-- An empty record may have blanks inside. -/
theorem reads_emptyRecord {blank : String} (h : Grammar.Blank blank) : Reads ("\x7b" ++ blank ++ "\x7d") (.record [] true) := by
  refine reads_of_succ fun fuel rest _ _ => ?_
  have hskip := skipBlanks_append h ('\x7d' :: rest)
  rw [skipBlanks_cons rfl] at hskip
  simp only [String.toList_append, String.reduceToList, List.cons_append, List.append_assoc, List.nil_append,
    readValue, skipBlanks_cons (show isBlankChar '\x7b' = false from rfl), hskip]

end Doc

/-! ## Values -/

/-- Each with something that is found for it. -/
theorem exists_pairs {α β : Type} {R : α → β → Prop} {as : List α} (h : ∀ a ∈ as, ∃ b, R a b) :
    ∃ pairs : List (α × β), pairs.map (·.1) = as ∧ ∀ p ∈ pairs, R p.1 p.2 := by
  induction as with
  | nil => exact ⟨[], rfl, nofun⟩
  | cons a rest ih =>
    obtain ⟨⟨b, hb⟩, hrest⟩ := List.forall_mem_cons.1 h
    obtain ⟨pairs, rfl, hpairs⟩ := ih hrest
    exact ⟨(a, b) :: pairs, rfl, List.forall_mem_cons.2 ⟨hb, hpairs⟩⟩

/-- What stands between quotes is read as a text, or as nothing when there is half of a surrogate pair in it. -/
theorem Grammar.Quoted.key {s : String} (h : Grammar.Quoted s) : ∃ inside key, s.toList = '"' :: (inside ++ ['"']) ∧
    ∀ rest, ∃ pieces, Doc.readPieces [] (inside ++ '"' :: rest) = some (pieces, rest) ∧ Doc.pieceText pieces = key := by
  obtain ⟨inside, hinside, hs⟩ := h
  obtain ⟨pieces, hpieces⟩ := hinside.reads []
  exact ⟨inside, _, hs, fun rest => ⟨pieces, hpieces rest, rfl⟩⟩

/-- Every JSON text is read as a document. -/
theorem Grammar.Value.reads {s : String} (h : Grammar.Value s) : ∃ doc, Doc.Reads s doc := by
  induction h with
  | word hs => exact Doc.reads_word hs
  | number hs =>
    obtain ⟨literal, hread⟩ := hs.reads
    exact ⟨_, Doc.reads_number hread⟩
  | text hs =>
    obtain ⟨inside, key, hs, hkey⟩ := hs.key
    exact ⟨_, Doc.reads_quoted hs hkey⟩
  | emptyList hblank => exact ⟨_, Doc.reads_emptyList hblank⟩
  | @list texts _ ih =>
    obtain ⟨items, rfl, hitems⟩ := exists_pairs ih
    exact ⟨_, Doc.reads_listText hitems⟩
  | emptyRecord hblank => exact ⟨_, Doc.reads_emptyRecord hblank⟩
  | @record fields hkeys _ ih =>
    have hfields : ∀ t ∈ fields.map fun p => p.1.1 ++ p.1.2.1 ++ p.1.2.2 ++ ":" ++ p.2, ∃ field, Doc.ReadsField t field := by
      refine List.forall_mem_map.2 fun p hp => ?_
      obtain ⟨hfront, hquoted, hbehind⟩ := hkeys p hp
      obtain ⟨inside, key, hinside, hkey⟩ := hquoted.key
      obtain ⟨doc, hdoc⟩ := ih p hp
      exact ⟨_, Doc.readsField_of_quoted hfront hinside hkey hbehind hdoc⟩
    obtain ⟨pairs, hpairs, hall⟩ := exists_pairs hfields
    rw [← hpairs]
    exact ⟨_, Doc.reads_recordText hall⟩
  | blank hfront _ hbehind ih =>
    obtain ⟨doc, hdoc⟩ := ih
    exact ⟨doc, hdoc.blank hfront hbehind⟩

/-- Fields whose values are read are read as a record. -/
theorem reads_fields {fields : List (String × Json)} (h : ∀ p ∈ fields, Doc.Reads p.2.compact p.2.doc) :
    Doc.Reads (recordText (fields.map fun p => fieldText (p.1, p.2.compact)))
      (.record (fields.map fun p => (some p.1, p.2.doc)) true) := by
  have hfields : ∀ q ∈ fields.map fun p => (fieldText (p.1, p.2.compact), some p.1, p.2.doc), Doc.ReadsField q.1 q.2 := by
    rw [List.forall_mem_map]
    exact fun p hp => Doc.readsField_fieldText p.1 (h p hp)
  have hread := Doc.reads_recordText hfields
  rwa [List.map_map, List.map_map] at hread

/-- What is printed of a legible value is read as its document, in any text that goes on behind it. -/
theorem Legible.reads {j : Json} (h : j.Legible) : Doc.Reads j.compact j.doc := by
  induction h with
  | null => exact Doc.reads_of_succ fun _ _ _ _ => rfl
  | @bool b => cases b <;> exact Doc.reads_of_succ fun _ _ _ _ => rfl
  | @number n literal hn =>
    rw [doc, Number.doc, hn]
    exact Doc.reads_number hn
  | @text s => exact Doc.reads_quoted (toList_quotedText s) (Doc.readPieces_quoted s)
  | @list items _ ih =>
    have hitems : ∀ q ∈ items.map fun j => (j.compact, j.doc), Doc.Reads q.1 q.2 := List.forall_mem_map.2 ih
    have hread := Doc.reads_listText hitems
    rw [List.map_map, List.map_map] at hread
    rw [compact_list, doc, docsOfItems_eq]
    exact hread
  | record _ ih =>
    rw [compact_record, doc, docsOfFields_eq]
    exact reads_fields ih
  | map _ ih =>
    rw [compact_map, doc_map]
    exact reads_fields ih

/-- A text that is printed of a legible value is read as its document, to its end. -/
theorem Legible.read_compact {j : Json} (h : j.Legible) : Doc.read j.compact = ⟨j.doc, true⟩ :=
  h.reads.read

end FlowPlan.Json
