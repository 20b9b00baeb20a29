import FlowPlan.Text.Utf8

/-!
# Texts and their UTF-8 bytes

Decoding reads back the bytes of a text (`decodeUtf8_encodeUtf8`). It does so character by character: from between two characters,
the bytes of one lead back between characters, with the character read (`decodeUtf8From_utf8EncodeChar`).
-/

namespace FlowPlan.Text

/-! ## Bytes of a text -/

theorem toList_loop (bytes : ByteArray) (i : Nat) (front : List UInt8) :
    ByteArray.toList.loop bytes i front = front.reverse ++ bytes.data.toList.drop i := by
  fun_induction ByteArray.toList.loop bytes i front with
  | case1 i front h ih =>
    have hi : i < bytes.data.toList.length := by simpa using h
    rw [ih, List.drop_eq_getElem_cons hi]
    simp [ByteArray.get!, h]
  | case2 i front h =>
    rw [List.drop_eq_nil_of_le (by simpa using Nat.le_of_not_lt h), List.append_nil]

/-- The bytes of a text are those of its characters. -/
theorem encodeUtf8_eq (s : String) : encodeUtf8 s = s.toList.flatMap String.utf8EncodeChar := by
  have bytes : s.toUTF8.data.toList = s.toList.flatMap String.utf8EncodeChar := by
    change s.toByteArray.data.toList = _
    rw [← String.utf8Encode_toList]
    exact List.toList_data_toByteArray
  rw [encodeUtf8, ByteArray.toList, toList_loop, List.reverse_nil, List.nil_append, List.drop_zero, bytes]

/-- A character takes at most four bytes. -/
theorem length_encodeUtf8_le (s : String) : (encodeUtf8 s).length ≤ 4 * s.length := by
  rw [encodeUtf8_eq, ← String.length_toList]
  induction s.toList with
  | nil => exact Nat.zero_le _
  | cons c rest ih =>
    have hc : (String.utf8EncodeChar c).length ≤ 4 := by
      rw [String.length_utf8EncodeChar]
      exact c.utf8Size_le_four
    rw [List.flatMap_cons, List.length_append, List.length_cons]
    omega

/-! ## One byte after the other -/

section Steps

variable {valid seen owed low high bits : Nat} {read : List Char} {b : UInt8} {rest : List UInt8}

/-- The first byte of a character of several bytes. -/
theorem decodeUtf8From_lead {state : Utf8State} (h : 0x80 ≤ b.toNat) (hlead : Utf8State.afterLead? b.toNat = some state) :
    decodeUtf8From valid read .between (b :: rest) = decodeUtf8From valid read state rest := by
  simp only [decodeUtf8From, if_neg (Nat.not_lt.2 h), hlead]

/-- A byte inside a character. -/
theorem decodeUtf8From_next (hl : low ≤ b.toNat) (hh : b.toNat ≤ high) (ho : owed ≠ 1) :
    decodeUtf8From valid read (.inside seen owed low high bits) (b :: rest) =
      decodeUtf8From valid read (.inside (seen + 1) (owed - 1) 0x80 0xBF (bits * 64 + (b.toNat - 0x80))) rest := by
  simp only [decodeUtf8From, if_pos (And.intro hl hh), if_neg ho]

/-- The last byte of a character. -/
theorem decodeUtf8From_last (hl : low ≤ b.toNat) (hh : b.toNat ≤ high) :
    decodeUtf8From valid read (.inside seen 1 low high bits) (b :: rest) =
      decodeUtf8From (valid + seen + 1) (.ofNat (bits * 64 + (b.toNat - 0x80)) :: read) .between rest := by
  simp only [decodeUtf8From, if_pos (And.intro hl hh), if_true]

end Steps

/-- The first byte of two. -/
theorem afterLead?_two {q : Nat} (hl : 2 ≤ q) (hh : q < 32) :
    Utf8State.afterLead? (0xC0 + q) = some (.inside 1 1 0x80 0xBF q) := by
  rw [Utf8State.afterLead?, if_pos (by omega), Nat.add_sub_cancel_left]

/-- The first byte of three: the second one may be any that makes neither a shorter character nor half of a surrogate pair. -/
theorem afterLead?_three {q p : Nat} (hq : q < 16) (hp : p < 64) (hshort : q = 0 → 32 ≤ p) (hsurrogate : q = 13 → p < 32) :
    ∃ low high, Utf8State.afterLead? (0xE0 + q) = some (.inside 1 2 low high q) ∧ low ≤ 0x80 + p ∧ 0x80 + p ≤ high := by
  by_cases h0 : q = 0
  · subst h0
    exact ⟨0xA0, 0xBF, rfl, by omega, by omega⟩
  by_cases h13 : q = 13
  · subst h13
    exact ⟨0x80, 0x9F, rfl, by omega, by omega⟩
  refine ⟨0x80, 0xBF, ?_, by omega, by omega⟩
  rw [Utf8State.afterLead?, if_neg (by omega), if_neg (by omega), if_neg (by omega), if_pos (by omega), Nat.add_sub_cancel_left]

/-- The first byte of four: the second one may be any that makes neither a shorter character nor one past the last. -/
theorem afterLead?_four {q p : Nat} (hq : q ≤ 4) (hp : p < 64) (hshort : q = 0 → 16 ≤ p) (hlast : q = 4 → p < 16) :
    ∃ low high, Utf8State.afterLead? (0xF0 + q) = some (.inside 1 3 low high q) ∧ low ≤ 0x80 + p ∧ 0x80 + p ≤ high := by
  by_cases h0 : q = 0
  · subst h0
    exact ⟨0x90, 0xBF, rfl, by omega, by omega⟩
  by_cases h4 : q = 4
  · subst h4
    exact ⟨0x80, 0x8F, rfl, by omega, by omega⟩
  refine ⟨0x80, 0xBF, ?_, by omega, by omega⟩
  rw [Utf8State.afterLead?, if_neg (by omega), if_neg (by omega), if_neg (by omega), if_neg (by omega), if_neg (by omega),
    if_neg (by omega), if_pos (by omega), Nat.add_sub_cancel_left]

/-- The bytes of a character are read as the character. -/
theorem decodeUtf8From_utf8EncodeChar (valid : Nat) (read : List Char) (c : Char) (rest : List UInt8) :
    ∃ valid', decodeUtf8From valid read .between (String.utf8EncodeChar c ++ rest) =
      decodeUtf8From valid' (c :: read) .between rest := by
  have hc : Char.ofNat c.val.toNat = c := Char.ofNat_toNat c
  have hvalid : c.val.toNat < 0xD800 ∨ 0xDFFF < c.val.toNat ∧ c.val.toNat < 0x110000 := c.valid
  have byte : ∀ n < 256, (UInt8.ofNat n).toNat = n := fun n hn => UInt8.toNat_ofNat_of_lt hn
  unfold String.utf8EncodeChar
  generalize c.val.toNat = v at hc hvalid
  subst hc
  dsimp only
  -- by the number of bytes; behind the first one, each adds six bits
  split
  · have hb : (UInt8.ofNat v).toNat = v := byte v (by omega)
    refine ⟨valid + 1, ?_⟩
    rw [List.singleton_append, decodeUtf8From, hb, if_pos (by omega)]
  split
  · have hb0 : (UInt8.ofNat (v / 64 % 32 + 192)).toNat = 0xC0 + v / 64 := (byte _ (by omega)).trans (by omega)
    have hb1 : (UInt8.ofNat (v % 64 + 128)).toNat = 0x80 + v % 64 := (byte _ (by omega)).trans (by omega)
    refine ⟨valid + 1 + 1, ?_⟩
    rw [List.cons_append, List.singleton_append,
      decodeUtf8From_lead (by omega) (hb0 ▸ afterLead?_two (by omega) (by omega)),
      decodeUtf8From_last (by omega) (by omega), hb1, Nat.add_sub_cancel_left, Nat.div_add_mod']
  split
  · have hb0 : (UInt8.ofNat (v / 4096 % 16 + 224)).toNat = 0xE0 + v / 4096 := (byte _ (by omega)).trans (by omega)
    have hb1 : (UInt8.ofNat (v / 64 % 64 + 128)).toNat = 0x80 + v / 64 % 64 := (byte _ (by omega)).trans (by omega)
    have hb2 : (UInt8.ofNat (v % 64 + 128)).toNat = 0x80 + v % 64 := (byte _ (by omega)).trans (by omega)
    obtain ⟨low, high, hlead, hlow, hhigh⟩ :=
      afterLead?_three (q := v / 4096) (p := v / 64 % 64) (by omega) (by omega) (by omega) (by omega)
    have hv : (v / 4096 * 64 + v / 64 % 64) * 64 + v % 64 = v := by omega
    refine ⟨valid + (1 + 1) + 1, ?_⟩
    rw [List.cons_append, List.cons_append, List.singleton_append, decodeUtf8From_lead (by omega) (hb0 ▸ hlead),
      decodeUtf8From_next (by omega) (by omega) (by omega), decodeUtf8From_last (by omega) (by omega), hb1, hb2,
      Nat.add_sub_cancel_left, Nat.add_sub_cancel_left, hv]
  · have hb0 : (UInt8.ofNat (v / 262144 % 8 + 240)).toNat = 0xF0 + v / 262144 := (byte _ (by omega)).trans (by omega)
    have hb1 : (UInt8.ofNat (v / 4096 % 64 + 128)).toNat = 0x80 + v / 4096 % 64 := (byte _ (by omega)).trans (by omega)
    have hb2 : (UInt8.ofNat (v / 64 % 64 + 128)).toNat = 0x80 + v / 64 % 64 := (byte _ (by omega)).trans (by omega)
    have hb3 : (UInt8.ofNat (v % 64 + 128)).toNat = 0x80 + v % 64 := (byte _ (by omega)).trans (by omega)
    obtain ⟨low, high, hlead, hlow, hhigh⟩ :=
      afterLead?_four (q := v / 262144) (p := v / 4096 % 64) (by omega) (by omega) (by omega) (by omega)
    have hv : ((v / 262144 * 64 + v / 4096 % 64) * 64 + v / 64 % 64) * 64 + v % 64 = v := by omega
    refine ⟨valid + (1 + 1 + 1) + 1, ?_⟩
    rw [List.cons_append, List.cons_append, List.cons_append, List.singleton_append,
      decodeUtf8From_lead (by omega) (hb0 ▸ hlead), decodeUtf8From_next (by omega) (by omega) (by omega),
      decodeUtf8From_next (by omega) (by omega) (by omega), decodeUtf8From_last (by omega) (by omega), hb1, hb2, hb3,
      Nat.add_sub_cancel_left, Nat.add_sub_cancel_left, Nat.add_sub_cancel_left, hv]

/-- Encoded characters are decoded one by one, by induction on the list of them. -/
theorem decodeUtf8From_flatMap (cs read : List Char) (valid : Nat) :
    decodeUtf8From valid read .between (cs.flatMap String.utf8EncodeChar) = .ok (read.reverse ++ cs) := by
  induction cs generalizing read valid with
  | nil => rw [List.flatMap_nil, decodeUtf8From, List.append_nil]
  | cons c rest ih =>
    obtain ⟨valid', hstep⟩ := decodeUtf8From_utf8EncodeChar valid read c (rest.flatMap String.utf8EncodeChar)
    rw [List.flatMap_cons, hstep, ih, List.reverse_cons, List.append_assoc]
    rfl

/-- Decoding reads back the bytes of a text. -/
theorem decodeUtf8_encodeUtf8 (s : String) : decodeUtf8 (encodeUtf8 s) = .ok s := by
  rw [decodeUtf8, encodeUtf8_eq, decodeUtf8From_flatMap]
  exact congrArg Except.ok String.ofList_toList

end FlowPlan.Text
