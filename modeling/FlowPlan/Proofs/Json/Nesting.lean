import FlowPlan.Proofs.Json.Text
import FlowPlan.Proofs.Nesting

/-!
# How far a value is nested

A JSON value is nested as far as the brackets and braces in what is printed of it (`Json.Legible.bracketDepth_compact`). Those in a
text or in the key of a record do not count, so a scan of what is printed keeps track of quotes and escapes (`BracketScan`). What
is printed of a value leaves the scan as it was but for the depth that it has seen (`Passes`).
-/

namespace FlowPlan.Json

/-! ## Values -/

mutual

/-- How many lists and records of a value lie inside one another. -/
def nesting : Json → Nat
  | .list items => nestingOfItems items + 1
  | .record fields => nestingOfFields fields + 1
  | .map ⟨_, _, value⟩ => most (List.ofFn fun i => nesting (value i)) + 1
  | _ => 0

def nestingOfItems : List Json → Nat
  | [] => 0
  | item :: rest => max (nesting item) (nestingOfItems rest)

def nestingOfFields : List (String × Json) → Nat
  | [] => 0
  | (_, value) :: rest => max (nesting value) (nestingOfFields rest)

end

/-- A list is nested once more than its items. -/
@[simp] theorem nesting_list (items : List Json) : (Json.list items).nesting = most (items.map nesting) + 1 := by
  have hitems : nestingOfItems items = most (items.map nesting) := by
    induction items with
    | nil => rfl
    | cons item rest ih => rw [nestingOfItems, ih]; rfl
  rw [nesting, hitems]

/-- A record is nested once more than its fields. -/
@[simp] theorem nesting_record (fields : List (String × Json)) :
    (Json.record fields).nesting = most (fields.map fun p => p.2.nesting) + 1 := by
  have hfields : nestingOfFields fields = most (fields.map fun p => p.2.nesting) := by
    induction fields with
    | nil => rfl
    | cons p rest ih => rw [nestingOfFields, ih]; rfl
  rw [nesting, hfields]

@[simp] theorem nesting_map (entries : Dict Json) : (Json.map entries).nesting = most (entries.toList.map fun p => p.2.nesting) + 1 := by
  rw [Dict.map_toList, nesting]

/-! ## Texts -/

/-- How far a text is scanned for brackets and braces: whether inside quotes or behind a backslash there, and how many are open and
have been open at most. -/
structure BracketScan where
  quoted : Bool := false
  escaped : Bool := false
  depth : Nat := 0
  deepest : Nat := 0

/-- The scan of one more character. -/
def BracketScan.next (s : BracketScan) (c : Char) : BracketScan :=
  if s.escaped then { s with escaped := false }
  else if s.quoted then
    if c = '\\' then { s with escaped := true } else if c = '"' then { s with quoted := false } else s
  else if c = '"' then { s with quoted := true }
  else if c = '[' || c = '\x7b' then { s with depth := s.depth + 1, deepest := max s.deepest (s.depth + 1) }
  else if c = ']' || c = '\x7d' then { s with depth := s.depth - 1 }
  else s

/-- How deep the brackets and braces of a text nest. -/
def bracketDepth (text : String) : Nat :=
  (text.toList.foldl BracketScan.next {}).deepest

/-! ## What is printed of a value -/

/-- Outside of quotes, characters are scanned that leave no bracket open and nest so deep. -/
def Passes (cs : List Char) (n : Nat) : Prop :=
  ∀ depth deepest, depth ≤ deepest →
    cs.foldl BracketScan.next ⟨false, false, depth, deepest⟩ = ⟨false, false, depth, max deepest (depth + n)⟩

theorem passes_nil : Passes [] 0 := by
  intro depth deepest h
  rw [Nat.add_zero, Nat.max_eq_left h]
  rfl

/-- Texts that leave the brackets as they found them, one after the other. -/
theorem Passes.append {cs ds : List Char} {n k : Nat} (h : Passes cs n) (h' : Passes ds k) : Passes (cs ++ ds) (max n k) := by
  intro depth deepest hle
  rw [List.foldl_append, h depth deepest hle, h' depth _ (by omega), Nat.max_assoc, Nat.add_max_add_left]

/-- A character that opens and closes nothing, neither a list or record nor a text. -/
def isNeutral (c : Char) : Bool :=
  !List.contains ['"', '[', '\x7b', ']', '\x7d'] c

/-- Without brackets and quotes nothing nests. -/
theorem passes_of_neutral {cs : List Char} (h : cs.all isNeutral = true) : Passes cs 0 := by
  induction cs with
  | nil => exact passes_nil
  | cons c cs ih =>
    obtain ⟨hc, hcs⟩ := Bool.and_eq_true_iff.1 h
    intro depth deepest hle
    have hnext : BracketScan.next ⟨false, false, depth, deepest⟩ c = ⟨false, false, depth, deepest⟩ := by
      have hne : ¬ c = '"' ∧ ¬ c = '[' ∧ ¬ c = '\x7b' ∧ ¬ c = ']' ∧ ¬ c = '\x7d' := by simpa [isNeutral] using hc
      simp [BracketScan.next, hne]
    rw [List.foldl_cons, hnext, ih hcs depth deepest hle]

/-- A character of a number literal is neutral. -/
theorem isNeutral_of_isNumberChar {c : Char} (h : Doc.isNumberChar c = true) : isNeutral c = true := by
  rw [isNeutral, Bool.not_eq_true', List.contains_eq_mem, decide_eq_false_iff_not]
  intro hmem
  simp only [List.mem_cons, List.not_mem_nil, or_false] at hmem
  rcases hmem with rfl | rfl | rfl | rfl | rfl
  all_goals cases h

/-- No piece that stands between quotes ends them. -/
theorem Grammar.Piece.scan {piece : List Char} (h : Grammar.Piece piece) (depth deepest : Nat) :
    piece.foldl BracketScan.next ⟨true, false, depth, deepest⟩ = ⟨true, false, depth, deepest⟩ := by
  cases h with
  | plain hquote hslash _ => simp [BracketScan.next, hquote, hslash]
  | short => rfl
  | unit ha hb hc hd => simp [BracketScan.next, ha.ne, hb.ne, hc.ne, hd.ne]

/-- A text in quotes. -/
theorem Grammar.Quoted.passes {s : String} (h : Grammar.Quoted s) : Passes s.toList 0 := by
  obtain ⟨inside, hinside, hs⟩ := h
  intro depth deepest hle
  have hscan : inside.foldl BracketScan.next ⟨true, false, depth, deepest⟩ = ⟨true, false, depth, deepest⟩ := by
    clear hs
    induction hinside with
    | nil => rfl
    | cons hpiece _ ih => rw [List.foldl_append, hpiece.scan, ih]
  rw [hs, List.foldl_cons, List.foldl_append]
  change List.foldl BracketScan.next (List.foldl BracketScan.next ⟨true, false, depth, deepest⟩ _) ['"'] = _
  rw [hscan, Nat.add_zero, Nat.max_eq_left hle]
  rfl

/-- What stands between brackets or braces. -/
theorem Passes.enclosed {cs : List Char} {n : Nat} (h : Passes cs n) {opening closing : Char}
    (hb : (opening, closing) = ('[', ']') ∨ (opening, closing) = ('\x7b', '\x7d')) :
    Passes (opening :: (cs ++ [closing])) (n + 1) := by
  intro depth deepest hle
  have hopen : BracketScan.next ⟨false, false, depth, deepest⟩ opening =
      ⟨false, false, depth + 1, max deepest (depth + 1)⟩ := by
    rcases hb with hb | hb <;> cases hb <;> rfl
  have hclose (m : Nat) : BracketScan.next ⟨false, false, depth + 1, m⟩ closing = ⟨false, false, depth, m⟩ := by
    rcases hb with hb | hb <;> cases hb <;> rfl
  rw [List.foldl_cons, hopen, List.foldl_append, h _ _ (Nat.le_max_right ..), List.foldl_cons, hclose, List.foldl_nil]
  congr 1
  omega

/-- Texts with commas between them. -/
theorem passes_separated {items : List (String × Nat)} (h : ∀ p ∈ items, Passes p.1.toList p.2) :
    Passes (separated (items.map (·.1))) (most (items.map (·.2))) := by
  induction items with
  | nil => exact passes_nil
  | cons p rest ih =>
    obtain ⟨hp, hrest⟩ := List.forall_mem_cons.1 h
    cases rest with
    | nil =>
      have hmost : most [p.2] = p.2 := Nat.max_zero p.2
      rw [List.map_singleton, List.map_singleton, separated_singleton, hmost]
      exact hp
    | cons q rest =>
      have hcomma : Passes [','] 0 := passes_of_neutral rfl
      have hall := (hp.append hcomma).append (ih hrest)
      rw [Nat.max_zero, List.append_assoc] at hall
      rw [List.map_cons, List.map_cons, separated_cons_cons]
      exact hall

theorem passes_listText {items : List (String × Nat)} (h : ∀ p ∈ items, Passes p.1.toList p.2) :
    Passes (listText (items.map (·.1))).toList (most (items.map (·.2)) + 1) := by
  rw [toList_listText]
  exact (passes_separated h).enclosed (.inl rfl)

theorem passes_recordText {fields : List (String × Nat)} (h : ∀ p ∈ fields, Passes p.1.toList p.2) :
    Passes (recordText (fields.map (·.1))).toList (most (fields.map (·.2)) + 1) := by
  rw [toList_recordText]
  exact (passes_separated h).enclosed (.inr rfl)

/-- A key with its value. -/
theorem Passes.field {key text : String} {n : Nat} (hkey : Passes key.toList 0) (h : Passes text.toList n) :
    Passes (key ++ ":" ++ text).toList n := by
  have hcolon : Passes [':'] 0 := passes_of_neutral rfl
  have hall := (hkey.append hcolon).append h
  rw [Nat.max_self, Nat.zero_max] at hall
  rw [String.toList_append, String.toList_append]
  exact hall

theorem Grammar.Blank.passes {s : String} (h : Grammar.Blank s) : Passes s.toList 0 := by
  refine passes_of_neutral (List.all_eq_true.2 fun c hc => ?_)
  have hcases := h c hc
  simp only [List.mem_cons, List.not_mem_nil, or_false] at hcases
  rcases hcases with rfl | rfl | rfl | rfl
  all_goals rfl

/-- A number has no brackets. -/
theorem passes_number {s : String} {literal : Literal} (h : Doc.readNumber s.toList = some (literal, [])) :
    Passes s.toList 0 := by
  obtain ⟨front, hcs, hfront⟩ := Doc.scans_readNumber.front h
  rw [List.append_nil] at hcs
  rw [hcs]
  exact passes_of_neutral (List.all_eq_true.2 fun c hc => isNeutral_of_isNumberChar (hfront c hc))

/-- Every JSON text passes the scan. -/
theorem Grammar.Value.passes {s : String} (h : Grammar.Value s) : ∃ n, Passes s.toList n := by
  have around {front s behind : String} {n : Nat} (hfront : Grammar.Blank front) (hs : Passes s.toList n)
      (hbehind : Grammar.Blank behind) : Passes (front ++ s ++ behind).toList n := by
    have hall := (hfront.passes.append hs).append hbehind.passes
    rw [Nat.zero_max, Nat.max_zero] at hall
    rw [String.toList_append, String.toList_append]
    exact hall
  induction h with
  | word hs =>
    simp only [List.mem_cons, List.not_mem_nil, or_false] at hs
    rcases hs with rfl | rfl | rfl
    all_goals exact ⟨0, passes_of_neutral rfl⟩
  | number hs =>
    obtain ⟨literal, hread⟩ := hs.reads
    exact ⟨0, passes_number hread⟩
  | text hs => exact ⟨0, hs.passes⟩
  | emptyList hblank =>
    refine ⟨1, ?_⟩
    rw [String.toList_append, String.toList_append]
    exact hblank.passes.enclosed (.inl rfl)
  | list _ ih =>
    obtain ⟨items, rfl, hitems⟩ := exists_pairs ih
    exact ⟨_, passes_listText hitems⟩
  | emptyRecord hblank =>
    refine ⟨1, ?_⟩
    rw [String.toList_append, String.toList_append]
    exact hblank.passes.enclosed (.inr rfl)
  | @record fields hkeys _ ih =>
    have hfields : ∀ t ∈ fields.map fun p => p.1.1 ++ p.1.2.1 ++ p.1.2.2 ++ ":" ++ p.2, ∃ n, Passes t.toList n := by
      refine List.forall_mem_map.2 fun p hp => ?_
      obtain ⟨hfront, hquoted, hbehind⟩ := hkeys p hp
      obtain ⟨n, hn⟩ := ih p hp
      exact ⟨n, (around hfront hquoted.passes hbehind).field hn⟩
    obtain ⟨pairs, hpairs, hall⟩ := exists_pairs hfields
    rw [← hpairs]
    exact ⟨_, passes_recordText hall⟩
  | blank hfront _ hbehind ih =>
    obtain ⟨n, hn⟩ := ih
    exact ⟨n, around hfront hn hbehind⟩

/-- Fields pass the scan as deep as their values. -/
theorem passes_fields {fields : List (String × Json)} (h : ∀ p ∈ fields, Passes p.2.compact.toList p.2.nesting) :
    Passes (recordText (fields.map fun p => fieldText (p.1, p.2.compact))).toList (most (fields.map fun p => p.2.nesting) + 1) := by
  have hfields : ∀ q ∈ fields.map fun p => (fieldText (p.1, p.2.compact), p.2.nesting), Passes q.1.toList q.2 := by
    rw [List.forall_mem_map]
    exact fun p hp => (Grammar.quoted_quotedText p.1).passes.field (h p hp)
  have hall := passes_recordText hfields
  rwa [List.map_map, List.map_map] at hall

/-- What is printed of a legible value passes the scan as deep as the value is nested. -/
theorem Legible.passes {j : Json} (h : j.Legible) : Passes j.compact.toList j.nesting := by
  induction h with
  | null => exact passes_of_neutral rfl
  | @bool b => cases b <;> exact passes_of_neutral rfl
  | number hn => exact passes_number hn
  | text => exact (Grammar.quoted_quotedText _).passes
  | @list items _ ih =>
    have hitems : ∀ q ∈ items.map fun j => (j.compact, j.nesting), Passes q.1.toList q.2 := List.forall_mem_map.2 ih
    have hall := passes_listText hitems
    rw [List.map_map, List.map_map] at hall
    rw [compact_list, nesting_list]
    exact hall
  | record _ ih =>
    rw [compact_record, nesting_record]
    exact passes_fields ih
  | map _ ih =>
    rw [compact_map, nesting_map]
    exact passes_fields ih

/-- The scan of a text that passes it. -/
theorem Passes.bracketDepth {s : String} {n : Nat} (h : Passes s.toList n) : bracketDepth s = n := by
  rw [Json.bracketDepth, h 0 0 (Nat.le_refl 0), Nat.zero_add, Nat.zero_max]

/-- Brackets and braces of what is printed of a legible value nest as deep as its lists and records. -/
theorem Legible.bracketDepth_compact {j : Json} (h : j.Legible) : bracketDepth j.compact = j.nesting :=
  h.passes.bracketDepth

end FlowPlan.Json
