import FlowPlan.Artifact.Word
import FlowPlan.Proofs.Text.Utf8
import Mathlib.Algebra.Group.Nat.Defs

/-!
# Words read back

`Reads` says that a reader takes bytes for a value: whatever follows them is left, and as long as some of them are lacking the
reader runs short. Parts that are read one after the other compose (`Reads.bind`), so every format that is made of words has this
property once its words have it: integers (`reads_integer`), texts (`reads_text`), truth values, numbers, and lists of items that
have it (`reads_list`).

Values nest, and a reader of values is bounded by the number of bytes that it may see. So `Reads` speaks of inputs of at most so
many bytes, and this number goes down with each byte that is read.
-/

namespace FlowPlan.Artifact

/-- A reader finds its input too short, and by how much. -/
def Reader.RunsShort {α : Type} (r : Reader α) (input : List UInt8) : Prop :=
  ∃ lacking, 0 < lacking ∧ r.run input = .error (.unexpectedEnd lacking)

/-- On inputs of at most `room` bytes, a reader takes `bytes` for a value: it leaves what follows them, and runs short on a part
of them. -/
structure Reads {α : Type} (room : Nat) (r : Reader α) (bytes : List UInt8) (a : α) : Prop where
  whole : ∀ tail, (bytes ++ tail).length ≤ room → r.run (bytes ++ tail) = .ok (a, tail)
  part : ∀ front, front <+: bytes → front ≠ bytes → front.length ≤ room → r.RunsShort front

variable {α β : Type} {room : Nat} {r : Reader α} {bytes : List UInt8} {a : α}

/-! ## One part after the other -/

theorem reads_pure : Reads room (pure a : Reader α) [] a where
  whole := fun _ _ => rfl
  part := fun _ hfront hne _ => (hne (List.prefix_nil.1 hfront)).elim

/-- Two readers one after the other. The room for the first one covers what it reads and the room for the second. -/
theorem Reads.bind {room' : Nat} {f : α → Reader β} {bytes' : List UInt8} {b : β} (h : Reads room r bytes a)
    (h' : Reads room' (f a) bytes' b) (hroom : room ≤ bytes.length + room') : Reads room (r >>= f) (bytes ++ bytes') b where
  whole := by
    intro tail hlength
    rw [List.append_assoc] at hlength ⊢
    rw [StateT.run_bind, h.whole _ hlength]
    rw [List.length_append] at hlength
    exact h'.whole tail (by omega)
  part := by
    intro front hfront hne hlength
    -- the input ends inside the first part, or behind it and inside the second one
    by_cases hfirst : front <+: bytes ∧ front ≠ bytes
    · obtain ⟨lacking, hpos, hshort⟩ := h.part front hfirst.1 hfirst.2 hlength
      exact ⟨lacking, hpos, by rw [StateT.run_bind, hshort]; rfl⟩
    · have hbehind : bytes <+: front := by
        rcases List.prefix_or_prefix_of_prefix hfront (List.prefix_append bytes bytes') with hp | hp
        · obtain rfl : front = bytes := Decidable.not_not.1 fun he => hfirst ⟨hp, he⟩
          exact List.prefix_refl front
        · exact hp
      obtain ⟨rest, rfl⟩ := hbehind
      have hrest : rest <+: bytes' := (List.prefix_append_right_inj bytes).1 hfront
      have hne' : rest ≠ bytes' := fun he => hne (he ▸ rfl)
      have hlength' := hlength
      rw [List.length_append] at hlength'
      obtain ⟨lacking, hpos, hshort⟩ := h'.part rest hrest hne' (by omega)
      exact ⟨lacking, hpos, by rw [StateT.run_bind, h.whole rest hlength]; exact hshort⟩

/-- A part and then another one, on the same inputs. -/
theorem Reads.andThen {f : α → Reader β} {bytes' : List UInt8} {b : β} (h : Reads room r bytes a) (h' : Reads room (f a) bytes' b) :
    Reads room (r >>= f) (bytes ++ bytes') b :=
  h.bind h' (Nat.le_add_left ..)

/-- A part behind which no more is read. -/
theorem Reads.last {f : α → Reader β} {b : β} (h : Reads room r bytes a) (hf : f a = pure b) : Reads room (r >>= f) bytes b := by
  have hpure : Reads room (f a) [] b := hf ▸ reads_pure
  have hread := h.andThen hpure
  rwa [List.append_nil] at hread

/-- What is made of a value that is read. -/
theorem Reads.returns {f : α → β} (h : Reads room r bytes a) : Reads room (r >>= fun x => pure (f x)) bytes (f a) :=
  h.last rfl

/-! ## Bytes -/

/-- As many bytes as are asked for. -/
theorem reads_take {count : Nat} (h : bytes.length = count) : Reads room (Reader.take count) bytes bytes where
  whole := by
    intro tail _
    subst h
    change Reader.take bytes.length (bytes ++ tail) = _
    rw [Reader.take, List.take_left, List.drop_left]
    exact if_neg (Nat.lt_irrefl _)
  part := by
    intro front hfront hne _
    have hshort : front.length < count :=
      h ▸ Nat.lt_of_le_of_ne hfront.length_le fun he => hne (hfront.eq_of_length he)
    refine ⟨count - front.length, by omega, ?_⟩
    change Reader.take count front = _
    rw [Reader.take, List.take_of_length_le (Nat.le_of_lt hshort)]
    exact if_pos hshort

/-- A word has its width. -/
theorem length_littleEndian (width n : Nat) : (littleEndian width n).length = width := by
  induction width generalizing n with
  | zero => rfl
  | succ width ih => rw [littleEndian, List.length_cons, ih]

/-- A number that fits its width is read back from its bytes. -/
theorem littleEndianValue_littleEndian {width n : Nat} (h : n < 256 ^ width) :
    Reader.littleEndianValue (littleEndian width n) = n := by
  induction width generalizing n with
  | zero =>
    obtain rfl : n = 0 := by simpa using h
    rfl
  | succ width ih =>
    rw [Nat.pow_succ] at h
    rw [littleEndian, Reader.littleEndianValue, ih (by omega), UInt8.toNat_ofNat']
    omega

/-- A word of a fixed width is read back, and every shorter text refused. -/
theorem reads_word {width n : Nat} (h : n < 256 ^ width) : Reads room (Reader.word width) (littleEndian width n) n := by
  have htake : Reads room (Reader.take width) (littleEndian width n) (littleEndian width n) :=
    reads_take (length_littleEndian width n)
  rw [Reader.word, map_eq_pure_bind]
  have hword := htake.returns (f := Reader.littleEndianValue)
  rwa [littleEndianValue_littleEndian h] at hword

theorem reads_byte (b : UInt8) : Reads room Reader.byte [b] b.toNat := by
  have hb : littleEndian 1 b.toNat = [b] := by
    rw [littleEndian, littleEndian, Nat.mod_eq_of_lt b.toNat_lt, UInt8.ofNat_toNat]
  exact hb ▸ reads_word b.toNat_lt

/-! ## Words -/

/-- No integer is written without a byte, its marker or itself. -/
theorem encodeInteger_ne_nil (n : Nat) : encodeInteger n ≠ [] := by
  unfold encodeInteger
  split
  · simp
  split
  · simp
  split <;> simp

/-- An integer is read where it fits. -/
theorem reads_integer {expected : IntegerType} {n : Nat} (h : n < 2 ^ 64) (hfits : expected = .word32 → n < 2 ^ 32) :
    Reads room (Reader.integer expected) (encodeInteger n) n := by
  unfold Reader.integer
  by_cases hsmall : n ≤ 250
  · rw [encodeInteger, if_pos hsmall]
    have hmarker := @reads_byte room (UInt8.ofNat n)
    rw [UInt8.toNat_ofNat', Nat.mod_eq_of_lt (by omega)] at hmarker
    exact hmarker.last (if_pos hsmall)
  by_cases hword16 : n < Nat.pow 2 16
  · rw [encodeInteger, if_neg hsmall, if_pos hword16]
    exact (reads_byte 251).andThen (reads_word hword16)
  by_cases hword32 : n < Nat.pow 2 32
  · rw [encodeInteger, if_neg hsmall, if_neg hword16, if_pos hword32]
    exact (reads_byte 252).andThen (reads_word hword32)
  · rw [encodeInteger, if_neg hsmall, if_neg hword16, if_neg hword32]
    refine (reads_byte 253).andThen ?_
    change Reads room (if expected = .word32 then _ else _) _ _
    rw [if_neg fun he => hword32 (hfits he)]
    exact reads_word h

/-- The index of a variant. -/
theorem reads_variant {variants n : Nat} (h : n < variants) (hfits : n < 2 ^ 32) :
    Reads room (Reader.variant variants) (encodeInteger n) n := by
  have hindex : Reads room (Reader.integer .word32) (encodeInteger n) n := reads_integer (by omega) fun _ => hfits
  exact hindex.last (if_pos h)

/-- Counts are 64 bits wide at most. -/
theorem reads_count {n : Nat} (h : n < 2 ^ 64) : Reads room Reader.count (encodeInteger n) n :=
  reads_integer h nofun

/-- The length of a text in bytes is a word. -/
def FitsText (s : String) : Prop :=
  (Text.encodeUtf8 s).length < 2 ^ 64

/-- A character takes four bytes at most, so that no text of this length is too long. -/
theorem FitsText.of_length {s : String} (h : s.length < 2 ^ 62) : FitsText s := by
  have hs := Text.length_encodeUtf8_le s
  rw [FitsText]
  omega

/-- A text is read back if its bytes can be counted. -/
theorem reads_text {s : String} (h : FitsText s) : Reads room Reader.text (encodeText s) s := by
  have hlength : Reads room (Reader.integer .word64) (encodeInteger (Text.encodeUtf8 s).length) (Text.encodeUtf8 s).length :=
    reads_integer h nofun
  have hbytes : Reads room (Reader.take (Text.encodeUtf8 s).length) (Text.encodeUtf8 s) (Text.encodeUtf8 s) := reads_take rfl
  refine hlength.andThen (hbytes.last ?_)
  rw [Text.decodeUtf8_encodeUtf8]

/-- A truth value is one byte, and every other byte is refused. -/
theorem reads_bool (b : Bool) : Reads room Reader.bool (encodeBool b) b := by
  cases b
  · exact (reads_byte 0).last rfl
  · exact (reads_byte 1).last rfl

/-- A number is read back by its bits, also where it is not a number. -/
theorem reads_double (x : Double) : Reads room Reader.double (encodeDouble x) x := by
  have hword : Reads room (Reader.word 8) (encodeDouble x) x.bits.toNat := reads_word x.bits.toNat_lt
  have hbits := hword.returns (f := fun n => (⟨UInt64.ofNat n⟩ : Double))
  rwa [UInt64.ofNat_toNat] at hbits

/-! ## Several items -/

/-- Items one after the other, by induction on the list of them. -/
theorem reads_times {item : Reader α} {encode : α → List UInt8} {items : List α}
    (hitems : ∀ a ∈ items, Reads room item (encode a) a) :
    Reads room (Reader.times item items.length) (items.flatMap encode) items := by
  induction items with
  | nil => exact reads_pure
  | cons a rest ih =>
    obtain ⟨ha, hrest⟩ := List.forall_mem_cons.1 hitems
    exact ha.andThen (ih hrest).returns

/-- A list of items, each written by `encode`, with its length in front. -/
theorem reads_list {item : Reader α} {encode : α → List UInt8} {items : List α} (hlength : items.length < 2 ^ 64)
    (hitems : ∀ a ∈ items, Reads room item (encode a) a) :
    Reads room (Reader.list item) (encodeInteger items.length ++ items.flatMap encode) items :=
  (reads_count hlength).andThen (reads_times hitems)

theorem reads_none {item : Reader α} : Reads room (Reader.optional item) [0] none :=
  (reads_byte 0).last rfl

theorem reads_some {item : Reader α} (h : Reads room item bytes a) : Reads room (Reader.optional item) (1 :: bytes) (some a) :=
  (reads_byte 1).andThen h.returns

end FlowPlan.Artifact
