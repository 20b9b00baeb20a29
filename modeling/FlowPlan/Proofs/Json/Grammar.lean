import FlowPlan.Proofs.Json.Tokens

/-!
# The texts of JSON

What a JSON text is, said without a reader (`Grammar.Value`): any escapes in texts, halves of surrogate pairs included, numbers of any
size and blanks between tokens. Its numbers are read as literals (`Grammar.Number.reads`) and its texts in quotes piece by piece
(`Grammar.Inside.reads`).
-/

namespace FlowPlan.Json

/-- Texts in brackets, with commas between them. -/
def listText (texts : List String) : String :=
  "[" ++ String.intercalate "," texts ++ "]"

/-- Fields in braces, with commas between them. -/
def recordText (fields : List String) : String :=
  "\x7b" ++ String.intercalate "," fields ++ "\x7d"

namespace Grammar

/-! ## Tokens -/

/-- White space between tokens. -/
def Blank (s : String) : Prop :=
  ∀ c ∈ s.toList, c ∈ [' ', '\n', '\t', '\r']

instance (s : String) : Decidable (Blank s) :=
  List.decidableBAll _ s.toList

/-- One digit or more. -/
def Digits (cs : List Char) : Prop :=
  cs ≠ [] ∧ ∀ c ∈ cs, c.isDigit = true

/-- The digits before the point: a zero, or digits that begin with another one. -/
inductive Whole : List Char → Prop
  | zero : Whole ['0']
  | digits {c cs} : c ≠ '0' → (∀ d ∈ c :: cs, d.isDigit = true) → Whole (c :: cs)

inductive Fraction : List Char → Prop
  | absent : Fraction []
  | written {cs} : Digits cs → Fraction ('.' :: cs)

inductive Exponent : List Char → Prop
  | absent : Exponent []
  | written {e sign cs} : e ∈ ['e', 'E'] → sign ∈ [[], ['+'], ['-']] → Digits cs → Exponent (e :: (sign ++ cs))

inductive Number : List Char → Prop
  | mk {sign whole fraction exponent} : sign ∈ [[], ['-']] → Whole whole → Fraction fraction → Exponent exponent →
      Number (sign ++ (whole ++ (fraction ++ exponent)))

def HexDigit (c : Char) : Prop :=
  ('0' ≤ c ∧ c ≤ '9') ∨ ('a' ≤ c ∧ c ≤ 'f') ∨ ('A' ≤ c ∧ c ≤ 'F')

instance (c : Char) : Decidable (HexDigit c) :=
  inferInstanceAs (Decidable (_ ∨ _ ∨ _))

/-- One character between quotes: itself, behind a backslash, or a UTF-16 unit by its number. -/
inductive Piece : List Char → Prop
  | plain {c} : c ≠ '"' → c ≠ '\\' → ¬ c.toNat < 32 → Piece [c]
  | short {c} : c ∈ ['"', '\\', '/', 'b', 'f', 'n', 'r', 't'] → Piece ['\\', c]
  | unit {a b c d} : HexDigit a → HexDigit b → HexDigit c → HexDigit d → Piece ['\\', 'u', a, b, c, d]

/-- What stands between quotes. -/
inductive Inside : List Char → Prop
  | nil : Inside []
  | cons {piece cs} : Piece piece → Inside cs → Inside (piece ++ cs)

/-- A text in quotes. -/
def Quoted (s : String) : Prop :=
  ∃ inside, Inside inside ∧ s.toList = '"' :: (inside ++ ['"'])

/-! ## Values -/

/-- The text of a JSON value, with blanks around it or not. -/
inductive Value : String → Prop
  | word {s} : s ∈ ["null", "true", "false"] → Value s
  | number {s} : Number s.toList → Value s
  | text {s} : Quoted s → Value s
  | emptyList {blank} : Blank blank → Value ("[" ++ blank ++ "]")
  | list {texts} : (∀ t ∈ texts, Value t) → Value (listText texts)
  | emptyRecord {blank} : Blank blank → Value ("\x7b" ++ blank ++ "\x7d")
  | record {fields : List ((String × String × String) × String)} :
      (∀ p ∈ fields, Blank p.1.1 ∧ Quoted p.1.2.1 ∧ Blank p.1.2.2) → (∀ p ∈ fields, Value p.2) →
      Value (recordText (fields.map fun p => p.1.1 ++ p.1.2.1 ++ p.1.2.2 ++ ":" ++ p.2))
  | blank {front s behind} : Blank front → Value s → Blank behind → Value (front ++ s ++ behind)

/-! ## Numbers are read -/

/-- All digits up to the first other character are taken. -/
theorem takeDigits_append {ds rest : List Char} (h : ∀ c ∈ ds, c.isDigit = true) (hrest : ∀ c ∈ rest.head?, c.isDigit = false) :
    Doc.takeDigits (ds ++ rest) = (ds.map Doc.digit, rest) := by
  have hnone : rest.takeWhile Char.isDigit = [] ∧ rest.dropWhile Char.isDigit = rest := by
    cases rest with
    | nil => exact ⟨rfl, rfl⟩
    | cons c cs =>
      have hc : ¬ c.isDigit = true := Bool.eq_false_iff.1 (hrest c rfl)
      exact ⟨List.takeWhile_cons_of_neg hc, List.dropWhile_cons_of_neg hc⟩
  rw [Doc.takeDigits, List.takeWhile_append_of_pos h, List.dropWhile_append_of_pos h, hnone.1, hnone.2, List.append_nil]

theorem Digits.takes {cs : List Char} (h : Digits cs) (rest : List Char) (hrest : ∀ c ∈ rest.head?, c.isDigit = false) :
    ∃ d ds, Doc.takeDigits (cs ++ rest) = (d :: ds, rest) := by
  obtain ⟨c, cs, rfl⟩ := List.exists_cons_of_ne_nil h.1
  exact ⟨_, _, takeDigits_append h.2 hrest⟩

theorem digit_ne_zero {c : Char} (h : c.isDigit = true) (hc : c ≠ '0') : Doc.digit c ≠ 0 := by
  intro hzero
  have hle : '0'.toNat ≤ c.toNat := (Char.isDigit_iff_toNat.1 h).1
  refine hc (Char.toNat_inj.1 ?_)
  rw [Doc.digit] at hzero
  omega

/-- A whole number of the grammar is read to its end, zero only by itself. -/
theorem Whole.reads {cs : List Char} (h : Whole cs) (rest : List Char) (hrest : ∀ c ∈ rest.head?, c.isDigit = false) :
    Doc.readWhole (cs ++ rest) = some (cs.map Doc.digit, rest) := by
  unfold Doc.readWhole
  cases h with
  | zero =>
    rw [takeDigits_append (List.forall_mem_singleton.2 rfl) hrest]
    rfl
  | @digits c cs hc hdigits =>
    rw [takeDigits_append hdigits hrest, List.map_cons]
    split
    · cases ‹_ = ([], _)›
    · exact absurd (List.cons.inj (Prod.mk.inj ‹_›).1).1 (digit_ne_zero (hdigits c (List.mem_cons_self ..)) hc)
    · rfl

/-- No sign is in front of digits. -/
theorem Whole.unsigned {cs : List Char} (h : Whole cs) (rest : List Char) :
    Doc.readNumber (cs ++ rest) = Doc.readUnsigned false (cs ++ rest) := by
  unfold Doc.readNumber
  split
  · rename_i heq
    cases h with
    | zero => cases heq
    | digits _ hdigits =>
      cases heq
      cases hdigits '-' (List.mem_cons_self ..)
  · rfl

theorem Fraction.reads {cs rest : List Char} (h : Fraction cs) (hrest : ∀ c ∈ rest.head?, c.isDigit = false ∧ c ≠ '.') :
    ∃ digits, Doc.readFraction (cs ++ rest) = some (digits, rest) := by
  cases h with
  | absent =>
    rw [List.nil_append]
    unfold Doc.readFraction
    split
    · exact absurd rfl (hrest '.' rfl).2
    · exact ⟨[], rfl⟩
  | written hdigits =>
    obtain ⟨d, ds, htakes⟩ := hdigits.takes rest fun c hc => (hrest c hc).1
    refine ⟨d :: ds, ?_⟩
    rw [List.cons_append, Doc.readFraction, htakes]

theorem Exponent.reads {cs : List Char} (h : Exponent cs) : ∃ exponent, Doc.readExponent cs = some (exponent, []) := by
  cases h with
  | absent => exact ⟨none, rfl⟩
  | @written e sign cs he hsign hdigits =>
    obtain ⟨d, ds, htakes⟩ := hdigits.takes [] nofun
    rw [List.append_nil] at htakes
    obtain ⟨negative, hread⟩ : ∃ negative, Doc.readSign (sign ++ cs) = (negative, cs) := by
      simp only [List.mem_cons, List.not_mem_nil, or_false] at hsign
      rcases hsign with rfl | rfl | rfl
      · obtain ⟨c, cs, rfl⟩ := List.exists_cons_of_ne_nil hdigits.1
        have hc := hdigits.2 c (List.mem_cons_self ..)
        refine ⟨false, ?_⟩
        rw [List.nil_append]
        unfold Doc.readSign
        split
        · cases ‹_ = '-' :: _›
          cases hc
        · cases ‹_ = '+' :: _›
          cases hc
        · rfl
      · exact ⟨false, rfl⟩
      · exact ⟨true, rfl⟩
    refine ⟨some (negative, d :: ds), ?_⟩
    have hletter : (decide (e = 'e') || decide (e = 'E')) = true := by simpa using he
    simp only [Doc.readExponent, hletter, if_true, hread, htakes]

theorem Exponent.head {cs : List Char} (h : Exponent cs) : ∀ c ∈ cs.head?, c.isDigit = false ∧ c ≠ '.' := by
  cases h with
  | absent => nofun
  | written he =>
    rintro c ⟨⟩
    simp only [List.mem_cons, List.not_mem_nil, or_false] at he
    rcases he with rfl | rfl
    · exact ⟨rfl, by decide⟩
    · exact ⟨rfl, by decide⟩

/-- A number is read as a literal. -/
theorem Number.reads {cs : List Char} (h : Number cs) : ∃ literal, Doc.readNumber cs = some (literal, []) := by
  obtain @⟨sign, whole, fraction, exponent, hsign, hwhole, hfraction, hexponent⟩ := h
  have hpoint : ∀ c ∈ (fraction ++ exponent).head?, c.isDigit = false := by
    cases hfraction with
    | absent => exact fun c hc => (hexponent.head c hc).1
    | written => rintro c ⟨⟩; rfl
  obtain ⟨fractions, hfractions⟩ := hfraction.reads hexponent.head
  obtain ⟨shift, hshift⟩ := hexponent.reads
  have hunsigned (negative : Bool) : Doc.readUnsigned negative (whole ++ (fraction ++ exponent)) =
      some (⟨negative, whole.map Doc.digit, fractions, shift⟩, []) := by
    simp only [Doc.readUnsigned, hwhole.reads _ hpoint, hfractions, hshift, bind, Option.bind]
    rfl
  simp only [List.mem_cons, List.not_mem_nil, or_false] at hsign
  rcases hsign with rfl | rfl
  · exact ⟨_, (hwhole.unsigned _).trans (hunsigned false)⟩
  · exact ⟨_, hunsigned true⟩

/-! ## Texts are read -/

theorem HexDigit.value {c : Char} (h : HexDigit c) : ∃ n, Doc.hexValue? c = some n := by
  unfold Doc.hexValue?
  split
  · exact ⟨_, rfl⟩
  split
  · exact ⟨_, rfl⟩
  split
  · exact ⟨_, rfl⟩
  · rcases h with h | h | h <;> simp_all

/-- A digit opens and closes nothing. -/
theorem HexDigit.ne {c : Char} (h : HexDigit c) : c ≠ '"' ∧ c ≠ '\\' := by
  constructor
  all_goals
    rintro rfl
    exact absurd h (by decide)

/-- A piece of a text in quotes is read as one piece, by the escapes that there are. -/
theorem Piece.reads {written : List Char} (h : Piece written) :
    ∃ piece : Doc.Piece, ∀ read cs, Doc.readPieces read (written ++ cs) = Doc.readPieces (piece :: read) cs := by
  cases h with
  | plain hquote hslash hc => exact ⟨_, (Doc.Writes.plain hquote hslash hc).reads⟩
  | @short c hc =>
    simp only [List.mem_cons, List.not_mem_nil, or_false] at hc
    rcases hc with rfl | rfl | rfl | rfl | rfl | rfl | rfl | rfl
    all_goals exact ⟨_, (Doc.Writes.short (by decide) rfl).reads⟩
  | @unit a b c d ha hb hc hd =>
    obtain ⟨⟨_, ha⟩, ⟨_, hb⟩, ⟨_, hc⟩, ⟨_, hd⟩⟩ := ha.value, hb.value, hc.value, hd.value
    obtain ⟨n, hn⟩ : ∃ n, Doc.hexValue4? a b c d = some n := ⟨_, by rw [Doc.hexValue4?, ha, hb, hc, hd]; rfl⟩
    exact ⟨_, (Doc.Writes.unit hn).reads⟩

/-- What stands between quotes is read up to the quote that closes it. -/
theorem Inside.reads {inside : List Char} (h : Inside inside) (read : List Doc.Piece) :
    ∃ pieces, ∀ rest, Doc.readPieces read (inside ++ '"' :: rest) = some (pieces, rest) := by
  induction h generalizing read with
  | nil => exact ⟨_, fun _ => rfl⟩
  | cons hpiece _ ih =>
    obtain ⟨piece, hread⟩ := hpiece.reads
    obtain ⟨pieces, hpieces⟩ := ih (piece :: read)
    exact ⟨pieces, fun rest => by rw [List.append_assoc, hread, hpieces]⟩

/-- A character is written in quotes as a piece. -/
theorem piece_of_escapes {c : Char} {written : List Char} (h : Doc.Escapes c written) : Piece written := by
  cases h with
  | @short e hu hs =>
    refine .short ?_
    unfold Doc.shortEscape? at hs
    split at hs
    · rename_i he
      simp only [Bool.or_eq_true, decide_eq_true_eq] at he
      rcases he with (rfl | rfl) | rfl
      all_goals decide
    iterate 5
      split at hs
      · rename_i he
        subst he
        decide
    · cases hs
  | control hc =>
    have hdigits : ∀ n < 32, HexDigit (hexDigit (n / 16)) ∧ HexDigit (hexDigit (n % 16)) := by decide
    exact .unit (by decide) (by decide) (hdigits _ hc).1 (hdigits _ hc).2
  | plain hquote hslash hc => exact .plain hquote hslash hc

/-- What is printed of a text is a text of the grammar. -/
theorem quoted_quotedText (s : String) : Quoted (quotedText s) := by
  refine ⟨s.toList.flatMap escapedChar, ?_, by simp [quotedText]⟩
  induction s.toList with
  | nil => exact .nil
  | cons c cs ih =>
    rw [List.flatMap_cons]
    exact .cons (piece_of_escapes (Doc.escapes c)) ih

end Grammar

end FlowPlan.Json
