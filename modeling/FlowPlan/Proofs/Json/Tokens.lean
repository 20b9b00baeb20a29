import FlowPlan.Json.Doc
import FlowPlan.Json.Printer
import Mathlib.Data.List.Forall2
import Mathlib.Data.List.TakeWhile

/-!
# Numbers and texts read back

A number literal ends where no character of a number follows, so a text that is a literal as a whole is read as the same one in a
longer text (`Doc.scans_readNumber`). A text in quotes is read character by character as it was written, and no character is taken
for half of a surrogate pair (`Doc.readPieces_quoted`).
-/

namespace FlowPlan.Json

namespace Doc

/-! ## Numbers -/

/-- A character of a number literal. -/
def isNumberChar (c : Char) : Bool :=
  c.isDigit || c = '-' || c = '+' || c = '.' || c = 'e' || c = 'E'

/-- No number literal goes on here. -/
def EndsNumber (cs : List Char) : Prop :=
  ∀ c ∈ cs.head?, isNumberChar c = false

theorem endsNumber_nil : EndsNumber [] :=
  nofun

/-- A number ends at a character that is not one of numbers. -/
theorem endsNumber_cons {c : Char} {cs : List Char} : EndsNumber (c :: cs) ↔ isNumberChar c = false := by
  simp [EndsNumber]

theorem isBlankChar_of_isNumberChar {c : Char} (h : isNumberChar c = true) : isBlankChar c = false := by
  refine Bool.eq_false_iff.2 fun hblank => ?_
  have hcases : c = ' ' ∨ c = '\n' ∨ c = '\t' ∨ c = '\r' := by simpa [isBlankChar, or_assoc] using hblank
  rcases hcases with rfl | rfl | rfl | rfl
  all_goals cases h

theorem isNumberChar_of_isDigit {c : Char} (h : c.isDigit = true) : isNumberChar c = true := by
  simp [isNumberChar, h]

variable {α β : Type}

/-- A part of a number literal is read in front of a text: it consists of characters of numbers, and it is read in the same way
when the text goes on with another character. -/
structure Scans (read : List Char → Option (α × List Char)) : Prop where
  front {cs a tail} : read cs = some (a, tail) → ∃ front, cs = front ++ tail ∧ ∀ c ∈ front, isNumberChar c = true
  goesOn {cs a tail rest} : read cs = some (a, tail) → EndsNumber rest → read (cs ++ rest) = some (a, tail ++ rest)

/-- One part after the other. -/
theorem Scans.bind {first : List Char → Option (α × List Char)} {second : α → List Char → Option (β × List Char)}
    (h : Scans first) (h' : ∀ a, Scans (second a)) : Scans fun cs => first cs >>= fun p => second p.1 p.2 where
  front := by
    intro cs b tail hread
    obtain ⟨⟨a, between⟩, ha, hb⟩ := Option.bind_eq_some_iff.1 hread
    obtain ⟨front, rfl, hfront⟩ := h.front ha
    obtain ⟨front', rfl, hfront'⟩ := (h' a).front hb
    exact ⟨front ++ front', by rw [List.append_assoc], List.forall_mem_append.2 ⟨hfront, hfront'⟩⟩
  goesOn := by
    intro cs b tail rest hread hrest
    obtain ⟨⟨a, between⟩, ha, hb⟩ := Option.bind_eq_some_iff.1 hread
    exact Option.bind_eq_some_iff.2 ⟨(a, between ++ rest), h.goesOn ha hrest, (h' a).goesOn hb hrest⟩

/-- A part that is made of nothing. -/
theorem Scans.pure (a : α) : Scans fun cs => some (a, cs) where
  front := by
    rintro cs _ _ ⟨⟩
    exact ⟨[], rfl, List.forall_mem_nil _⟩
  goesOn := by
    rintro cs _ _ rest ⟨⟩ -
    rfl

/-- A part that is refused for what it is. -/
theorem Scans.filter {read : List Char → Option (α × List Char)} (h : Scans read) (p : α → Bool) :
    Scans fun cs => (read cs).filter fun found => p found.1 where
  front hread := h.front (Option.filter_eq_some_iff.1 hread).1
  goesOn hread hrest := by
    obtain ⟨hread, hp⟩ := Option.filter_eq_some_iff.1 hread
    exact Option.filter_eq_some_iff.2 ⟨h.goesOn hread hrest, hp⟩

/-- A part that depends on whether a certain character is in front, which is dropped then. -/
theorem Scans.head {read dropped kept : List Char → Option (α × List Char)} (p : Char → Bool)
    (hp : ∀ c, p c = true → isNumberChar c = true) (hdropped : Scans dropped) (hkept : Scans kept) (hnil : read [] = kept [])
    (hdrops : ∀ c cs, p c = true → read (c :: cs) = dropped cs)
    (hkeeps : ∀ c cs, ¬ p c = true → read (c :: cs) = kept (c :: cs)) : Scans read where
  front := by
    intro cs a tail hread
    cases cs with
    | nil => exact hkept.front (hnil ▸ hread)
    | cons c cs =>
      by_cases hc : p c = true
      · obtain ⟨front, rfl, hfront⟩ := hdropped.front (hdrops c cs hc ▸ hread)
        exact ⟨c :: front, rfl, List.forall_mem_cons.2 ⟨hp c hc, hfront⟩⟩
      · exact hkept.front (hkeeps c cs hc ▸ hread)
  goesOn := by
    intro cs a tail rest hread hrest
    cases cs with
    | nil =>
      have hkept := hkept.goesOn (hnil ▸ hread) hrest
      cases rest with
      | nil => exact hnil.trans hkept
      | cons d rest =>
        have hd : ¬ p d = true := fun h => Bool.eq_false_iff.1 (endsNumber_cons.1 hrest) (hp d h)
        exact (hkeeps d rest hd).trans hkept
    | cons c cs =>
      by_cases hc : p c = true
      · exact (hdrops c (cs ++ rest) hc).trans (hdropped.goesOn (hdrops c cs hc ▸ hread) hrest)
      · exact (hkeeps c (cs ++ rest) hc).trans (hkept.goesOn (hkeeps c cs hc ▸ hread) hrest)

/-- A part that depends on whether one character is in front. -/
theorem Scans.mark {read dropped kept : List Char → Option (α × List Char)} (m : Char) (hm : isNumberChar m = true)
    (hdropped : Scans dropped) (hkept : Scans kept) (hnil : read [] = kept []) (hdrops : ∀ cs, read (m :: cs) = dropped cs)
    (hkeeps : ∀ c cs, c ≠ m → read (c :: cs) = kept (c :: cs)) : Scans read := by
  refine Scans.head (· = m) (fun c hc => ?_) hdropped hkept hnil (fun c cs hc => ?_) fun c cs hc => hkeeps c cs (by simpa using hc)
  · rw [of_decide_eq_true hc]
    exact hm
  · rw [of_decide_eq_true hc]
    exact hdrops cs

/-- To take digits is to scan. -/
theorem scans_takeDigits : Scans fun cs => some (takeDigits cs) where
  front := by
    rintro cs _ _ ⟨⟩
    refine ⟨cs.takeWhile Char.isDigit, List.takeWhile_append_dropWhile.symm, fun c hc => ?_⟩
    exact isNumberChar_of_isDigit (List.mem_takeWhile_imp hc)
  goesOn := by
    rintro cs _ _ rest ⟨⟩ hrest
    have hstops : rest.takeWhile Char.isDigit = [] ∧ rest.dropWhile Char.isDigit = rest := by
      cases rest with
      | nil => exact ⟨rfl, rfl⟩
      | cons c rest =>
        have hc : ¬ c.isDigit = true := fun h => Bool.eq_false_iff.1 (endsNumber_cons.1 hrest) (isNumberChar_of_isDigit h)
        exact ⟨List.takeWhile_cons_of_neg hc, List.dropWhile_cons_of_neg hc⟩
    refine congrArg some (Prod.ext (congrArg (List.map digit) ?_) ?_)
    · induction cs with
      | nil => exact hstops.1
      | cons c cs ih => simp only [List.cons_append, List.takeWhile_cons, ih]
    · change (cs ++ rest).dropWhile Char.isDigit = cs.dropWhile Char.isDigit ++ rest
      induction cs with
      | nil => exact hstops.2
      | cons c cs ih =>
        simp only [List.cons_append, List.dropWhile_cons, ih]
        split <;> rfl

/-- One digit or more. -/
def someDigits (cs : List Char) : Option (List Nat × List Char) :=
  (some (takeDigits cs)).filter fun found => !found.1.isEmpty

theorem someDigits_eq (cs : List Char) : someDigits cs = match takeDigits cs with
    | ([], _) => none
    | found => some found := by
  unfold someDigits
  rcases takeDigits cs with ⟨_ | ⟨d, ds⟩, tail⟩ <;> rfl

theorem scans_someDigits : Scans someDigits :=
  scans_takeDigits.filter fun ds => !ds.isEmpty

/-- Digits that may stand before the point. -/
def isWhole : List Nat → Bool
  | [] => false
  | 0 :: _ :: _ => false
  | _ => true

/-- Whole numbers are scanned: what is read depends on the characters up to the end of the number. -/
theorem scans_readWhole : Scans readWhole := by
  have heq : readWhole = fun cs => (some (takeDigits cs)).filter fun found => isWhole found.1 := by
    funext cs
    unfold readWhole
    rcases takeDigits cs with ⟨_ | ⟨_ | d, _ | ⟨e, ds⟩⟩, tail⟩ <;> rfl
  rw [heq]
  exact scans_takeDigits.filter _

theorem scans_readFraction : Scans readFraction := by
  refine Scans.mark '.' rfl scans_someDigits (.pure []) rfl (fun cs => (someDigits_eq cs).symm) fun c cs hc => ?_
  unfold readFraction
  split
  · exact absurd (List.cons.inj ‹_›).1 hc
  · rfl

/-- A sign that is no minus sign. -/
def readPlus : List Char → Bool × List Char
  | '+' :: rest => (false, rest)
  | cs => (false, cs)

theorem scans_readPlus : Scans fun cs => some (readPlus cs) := by
  refine Scans.mark '+' rfl (.pure false) (.pure false) rfl (fun _ => rfl) fun c cs hc => ?_
  unfold readPlus
  split
  · exact absurd (List.cons.inj ‹_›).1 hc
  · rfl

theorem scans_readSign : Scans fun cs => some (readSign cs) := by
  refine Scans.mark '-' rfl (.pure true) scans_readPlus rfl (fun _ => rfl) fun c cs hc => ?_
  unfold readSign readPlus
  split
  · exact absurd (List.cons.inj ‹_›).1 hc
  · cases ‹_ = '+' :: _›
    rfl
  · rename_i hother
    split
    · exact (hother _ ‹_›).elim
    · rfl

theorem scans_readExponent : Scans readExponent := by
  have hdigits : Scans fun cs => some (readSign cs) >>= fun p => someDigits p.2 >>= fun q => some (some (p.1, q.1), q.2) :=
    scans_readSign.bind fun negative => scans_someDigits.bind fun digits => .pure (some (negative, digits))
  refine Scans.head (fun c => c = 'e' || c = 'E') (fun c hc => ?_) hdigits (.pure none) rfl (fun c cs hc => ?_) fun c cs hc => ?_
  · rcases Bool.or_eq_true_iff.1 hc with hc | hc
    · rw [of_decide_eq_true hc]
      rfl
    · rw [of_decide_eq_true hc]
      rfl
  · simp only [readExponent, if_pos hc, someDigits_eq, bind, Option.bind]
    rcases takeDigits (readSign cs).2 with ⟨_ | ⟨d, ds⟩, tail⟩ <;> rfl
  · simp only [readExponent, if_neg hc]

theorem scans_readUnsigned (negative : Bool) : Scans (readUnsigned negative) :=
  scans_readWhole.bind fun whole => scans_readFraction.bind fun fraction => scans_readExponent.bind fun exponent =>
    Scans.pure (⟨negative, whole, fraction, exponent⟩ : Literal)

/-- Numbers are scanned, from the sign to the exponent. -/
theorem scans_readNumber : Scans readNumber := by
  refine Scans.mark '-' rfl (scans_readUnsigned true) (scans_readUnsigned false) rfl (fun _ => rfl) fun c cs hc => ?_
  unfold readNumber
  split
  · exact absurd (List.cons.inj ‹_›).1 hc
  · rfl

/-! ## Texts -/

/-- How a character is written in quotes. -/
inductive Escapes (c : Char) : List Char → Prop
  | short {e} : e ≠ 'u' → shortEscape? e = some c → Escapes c ['\\', e]
  | control : c.toNat < 32 → Escapes c ['\\', 'u', '0', '0', hexDigit (c.toNat / 16), hexDigit (c.toNat % 16)]
  | plain : c ≠ '"' → c ≠ '\\' → ¬ c.toNat < 32 → Escapes c [c]

/-- Each character is escaped in a way that is read as the character. -/
theorem escapes (c : Char) : Escapes c (escapedChar c) := by
  have short {d e : Char} (hd : c = d) (he : e ≠ 'u') (hs : shortEscape? e = some d) : Escapes c ['\\', e] :=
    .short he (hd ▸ hs)
  have of_toNat {n : Nat} (h : c.toNat = n) : c = .ofNat n := by
    rw [← h, Char.ofNat_toNat]
  unfold escapedChar
  split
  · exact short ‹_› (by decide) rfl
  split
  · exact short ‹_› (by decide) rfl
  split
  · exact short ‹_› (by decide) rfl
  split
  · exact short ‹_› (by decide) rfl
  split
  · exact short ‹_› (by decide) rfl
  split
  · exact short (of_toNat ‹_›) (by decide) rfl
  split
  · exact short (of_toNat ‹_›) (by decide) rfl
  split
  · exact .control ‹_›
  · exact .plain ‹_› ‹_› ‹_›

/-- The piece that a character is read as. -/
inductive Piece.Shows (c : Char) : Piece → Prop
  | char : Shows c (.char c)
  | unit : c.toNat < 32 → Shows c (.unit c.toNat)

/-- How a piece is written in quotes. -/
inductive Writes : Piece → List Char → Prop
  | short {e c} : e ≠ 'u' → shortEscape? e = some c → Writes (.char c) ['\\', e]
  | unit {a b c d n} : hexValue4? a b c d = some n → Writes (.unit n) ['\\', 'u', a, b, c, d]
  | plain {c} : c ≠ '"' → c ≠ '\\' → ¬ c.toNat < 32 → Writes (.char c) [c]

/-- A piece is read as it is written. -/
theorem Writes.reads {piece : Piece} {written : List Char} (h : Writes piece written) (read : List Piece) (cs : List Char) :
    readPieces read (written ++ cs) = readPieces (piece :: read) cs := by
  cases h with
  | short hu hs =>
    rw [List.cons_append, List.cons_append, List.nil_append, readPieces, hs]
    exact fun _ _ _ _ _ he => absurd he hu
  | unit hn => simp only [List.cons_append, List.nil_append, readPieces, hn]
  | plain hquote hslash hc =>
    rw [List.cons_append, List.nil_append, readPieces]
    · exact if_neg (by simp [hc, hslash])
    · exact hquote
    · exact fun _ _ _ _ _ he => absurd he hslash
    · exact fun _ _ he => absurd he hslash

theorem hexValue4?_control : ∀ n < 32, hexValue4? '0' '0' (hexDigit (n / 16)) (hexDigit (n % 16)) = some n := by
  decide

/-- A character is written as a piece that it is read as. -/
theorem Escapes.writes {c : Char} {written : List Char} (h : Escapes c written) :
    ∃ piece : Piece, piece.Shows c ∧ Writes piece written := by
  cases h with
  | short hu hs => exact ⟨.char c, .char, .short hu hs⟩
  | control hc => exact ⟨.unit c.toNat, .unit hc, .unit (hexValue4?_control _ hc)⟩
  | plain hquote hslash hc => exact ⟨.char c, .char, .plain hquote hslash hc⟩

/-- An escaped text is read back piece by piece, up to the quote that ends it. -/
theorem readPieces_flatMap (text : List Char) (read : List Piece) (rest : List Char) :
    ∃ pieces, List.Forall₂ Piece.Shows text pieces ∧
      readPieces read (text.flatMap escapedChar ++ '"' :: rest) = some (read.reverse ++ pieces, rest) := by
  induction text generalizing read with
  | nil => exact ⟨[], .nil, by rw [List.append_nil]; rfl⟩
  | cons c text ih =>
    obtain ⟨piece, hpiece, hwrites⟩ := (escapes c).writes
    obtain ⟨pieces, hpieces, hrest⟩ := ih (piece :: read)
    refine ⟨piece :: pieces, .cons hpiece hpieces, ?_⟩
    rw [List.flatMap_cons, List.append_assoc, hwrites.reads, hrest, List.reverse_cons, List.append_assoc]
    rfl

/-- No piece that a character is read as is half of a surrogate pair. -/
theorem joinPieces_shows {text : List Char} {pieces : List Piece} (h : List.Forall₂ Piece.Shows text pieces) (read : List Char) :
    joinPieces read pieces = some (read.reverse ++ text) := by
  induction h generalizing read with
  | nil => rw [List.append_nil]; rfl
  | @cons c piece text pieces hpiece _ ih =>
    have hjoin : joinPieces read (piece :: pieces) = joinPieces (c :: read) pieces := by
      cases hpiece with
      | char => rw [joinPieces]
      | unit hc =>
        have hhigh : isHighSurrogate c.toNat = false := by
          have : ¬ 0xD800 ≤ c.toNat := by omega
          simp [isHighSurrogate, this]
        have hlow : isLowSurrogate c.toNat = false := by
          have : ¬ 0xDC00 ≤ c.toNat := by omega
          simp [isLowSurrogate, this]
        rcases pieces with _ | ⟨_ | n, pieces⟩
        · simp [joinPieces, hhigh, hlow, Char.ofNat_toNat]
        · simp [joinPieces, hhigh, hlow, Char.ofNat_toNat]
        · simp [joinPieces, hhigh, hlow, Char.ofNat_toNat]
    rw [hjoin, ih, List.reverse_cons, List.append_assoc]
    rfl

/-- What is printed of a text is read as the text. -/
theorem readPieces_quoted (s : String) (rest : List Char) : ∃ pieces,
    readPieces [] (s.toList.flatMap escapedChar ++ '"' :: rest) = some (pieces, rest) ∧ pieceText pieces = some s := by
  obtain ⟨pieces, hpieces, hread⟩ := readPieces_flatMap s.toList [] rest
  refine ⟨pieces, hread, ?_⟩
  rw [pieceText, joinPieces_shows hpieces, List.reverse_nil, List.nil_append, Option.map_some, String.ofList_toList]

end Doc

end FlowPlan.Json
