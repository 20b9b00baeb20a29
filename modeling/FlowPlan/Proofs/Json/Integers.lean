import FlowPlan.Proofs.Json.Levels

/-!
# Integers read back

An integer is printed as a literal that stands for it, as long as a 64-bit word holds it, signed or not (`readNumber_int`). So a value
all of whose numbers are such integers is read back as it is (`Json.Integral.decodes`).
-/

namespace FlowPlan.Json

/-- A value of lists and maps whose numbers are integers of 64 bits, signed or not. -/
inductive Integral : Json → Prop
  | null : Integral .null
  | bool {b} : Integral (.bool b)
  | number {n : Int} : -(Nat.pow 2 63 : Int) ≤ n → n < Nat.pow 2 64 → Integral (.number (.int n))
  | text {s} : Integral (.text s)
  | list {items} : (∀ j ∈ items, Integral j) → Integral (.list items)
  | map {entries : Dict Json} : (∀ p ∈ entries.toList, Integral p.2) → Integral (.map entries)

/-! ## Decimal digits -/

/-- No zero stands in front of the digits of a number but that of zero itself. -/
theorem exists_toDigits_cons {n : Nat} (h : 0 < n) : ∃ c cs, Nat.toDigits 10 n = c :: cs ∧ c ≠ '0' := by
  induction n using Nat.strongRecOn with
  | ind n ih =>
    by_cases hn : n < 10
    · have hdigit : ∀ d < 10, 0 < d → Nat.digitChar d ≠ '0' := by decide
      exact ⟨_, [], Nat.toDigits_of_lt_base hn, hdigit n hn h⟩
    · obtain ⟨c, cs, hcs, hc⟩ := ih (n / 10) (by omega) (by omega)
      exact ⟨c, cs ++ _, by rw [Nat.toDigits_of_base_le (by decide) (by omega), hcs]; rfl, hc⟩

/-- Digits of a number have no zero in front. -/
theorem whole_toDigits (n : Nat) : Grammar.Whole (Nat.toDigits 10 n) := by
  cases n with
  | zero => exact .zero
  | succ n =>
    have hdigits : ∀ d ∈ Nat.toDigits 10 (n + 1), d.isDigit = true := fun d hd =>
      Nat.isDigit_of_mem_toDigits (by decide) (by decide) hd
    obtain ⟨c, cs, hcs, hc⟩ := exists_toDigits_cons n.succ_pos
    rw [hcs] at hdigits ⊢
    exact .digits hc hdigits

/-- Digits of a number have its value. -/
theorem digitsValue_toDigits (n : Nat) : Literal.digitsValue ((Nat.toDigits 10 n).map Doc.digit) = n := by
  refine Eq.trans ?_ (Nat.ofDigitChars_ten_toDigits (n := n))
  rw [Literal.digitsValue, List.foldl_map, Nat.ofDigitChars]
  exact congrArg (fun f => List.foldl f 0 (Nat.toDigits 10 n)) (funext fun m => funext fun c => by rw [Nat.mul_comm]; rfl)

/-- The literal of an integer. -/
def intLiteral (n : Int) : Literal where
  negative := decide (n < 0)
  whole := (Nat.toDigits 10 n.natAbs).map Doc.digit
  fraction := []
  exponent := none

/-- An integer is read as it is printed. -/
theorem readNumber_int (n : Int) : Doc.readNumber (Number.int n).text.toList = some (intLiteral n, []) := by
  have hunsigned (negative : Bool) (m : Nat) : Doc.readUnsigned negative (Nat.toDigits 10 m) =
      some (⟨negative, (Nat.toDigits 10 m).map Doc.digit, [], none⟩, []) := by
    have hwhole := (whole_toDigits m).reads [] nofun
    rw [List.append_nil] at hwhole
    rw [Doc.readUnsigned, hwhole]
    rfl
  cases n with
  | ofNat m =>
    have hread := (whole_toDigits m).unsigned []
    rw [List.append_nil, hunsigned] at hread
    change Doc.readNumber (Nat.repr m).toList = _
    rw [Nat.toList_repr, hread]
    rfl
  | negSucc m =>
    change Doc.readNumber ("-" ++ Nat.repr (m + 1)).toList = _
    rw [String.toList_append, Nat.toList_repr, intLiteral, decide_eq_true (Int.negSucc_lt_zero m)]
    exact hunsigned true (m + 1)

/-- An integer is printed as a number. -/
theorem number_int (n : Int) : Grammar.Number (Number.int n).text.toList := by
  have hnumber {sign : List Char} (hsign : sign ∈ [[], ['-']]) (m : Nat) :
      Grammar.Number (sign ++ Nat.toDigits 10 m) := by
    have hwhole := Grammar.Number.mk hsign (whole_toDigits m) .absent .absent
    rwa [List.append_nil, List.append_nil] at hwhole
  cases n with
  | ofNat m =>
    change Grammar.Number (Nat.repr m).toList
    rw [Nat.toList_repr]
    exact hnumber (List.mem_cons_self ..) m
  | negSucc m =>
    change Grammar.Number ("-" ++ Nat.repr (m + 1)).toList
    rw [String.toList_append, Nat.toList_repr]
    exact hnumber (List.mem_cons_of_mem _ (List.mem_cons_self ..)) (m + 1)

/-- An integer that a 64-bit word holds is what its literal stands for. -/
theorem value?_intLiteral {n : Int} (hlow : -(Nat.pow 2 63 : Int) ≤ n) (hhigh : n < Nat.pow 2 64) :
    (intLiteral n).value? = some (.int n) := by
  have hlow : -9223372036854775808 ≤ n := hlow
  have hhigh : n < 18446744073709551616 := hhigh
  have hlimit : Literal.wordLimit = 18446744073709551616 := rfl
  have hhalf : Nat.pow 2 63 = 9223372036854775808 := rfl
  have hword : n.natAbs < Literal.wordLimit := by omega
  simp only [Literal.value?, intLiteral, digitsValue_toDigits, hword, List.isEmpty_nil, Option.isNone_none, decide_true, Bool.and_self,
    if_true]
  by_cases hn : n < 0
  · have hmagnitude : ¬ (n.natAbs = 0 ∨ Nat.pow 2 63 < n.natAbs) := by omega
    have hsign : -(n.natAbs : Int) = n := by omega
    simp only [hn, decide_true, if_true, Bool.or_eq_true, decide_eq_true_eq, if_neg hmagnitude, hsign]
  · have hsign : (n.natAbs : Int) = n := by omega
    simp only [hn, decide_false, Bool.false_eq_true, if_false, hsign]

/-! ## Values -/

theorem Integral.legible {j : Json} (h : j.Integral) : j.Legible := by
  induction h with
  | null => exact .null
  | bool => exact .bool
  | number => exact .number (readNumber_int _)
  | text => exact .text
  | list _ ih => exact .list ih
  | map _ ih => exact .map ih

/-- A value whose numbers are integers is read back at as many levels as it is nested. -/
theorem Integral.decodes {j : Json} (h : j.Integral) : Decodes Doc.decodeJson j j := by
  induction h with
  | null => exact fun _ => Doc.decodeJson.eq_1 _
  | bool => exact fun _ => Doc.decodeJson.eq_2 ..
  | @number n hlow hhigh =>
    intro levels
    rw [doc, Number.doc, readNumber_int, Doc.decodeJson, value?_intLiteral hlow hhigh]
    rfl
  | text => exact fun _ => Doc.decodeJson.eq_4 ..
  | @list items _ ih =>
    have hall : Decodes Doc.decodeJson (.list (items.map id)) (.list items) := by
      refine decodes_list (fun _ => rfl) (fun levels docs => ?_) ih
      rw [Doc.decodeJson, Doc.decodeList, if_neg (Nat.succ_ne_zero levels)]
      cases docs.mapM (Doc.decodeJson levels) <;> rfl
    rwa [List.map_id] at hall
  | @map entries _ ih =>
    refine decodes_dict id entries (fun _ => rfl) (fun levels docs => ?_) ih
    rw [Doc.decodeJson, Doc.decodeDict, if_neg (Nat.succ_ne_zero levels)]
    cases Doc.decodePairs (Doc.decodeJson levels) docs <;> rfl

end FlowPlan.Json
