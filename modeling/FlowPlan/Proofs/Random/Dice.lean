import FlowPlan.Random.Dice

/-!
# Fair dice

The picks of a stream of random words stay in their range, so its dice are fair (`Stream.fair_dice`). A word is scaled to the range
and cut off; the second word that decides near a carry is asked for only where one more is still in the range.
-/

namespace FlowPlan.Random.Stream

/-- The stream gives numbers of 32 bits. -/
theorem next_lt (s : Stream) : s.next.1 < Nat.pow 2 32 := by
  unfold next
  split
  · exact UInt32.toNat_lt _
  · split
    · exact UInt32.toNat_lt _
    · exact Nat.pow_pos Nat.zero_lt_two

/-- The whole part of a scaled word stays below the scale, even with a carry where the part that is cut off comes near to one. -/
theorem scaled_lt {base word count : Nat} (hword : word < base) (hcount : 0 < count) :
    word * count / base < count ∧ (base - count < word * count % base → word * count / base + 1 < count) := by
  have hwhole : word * count / base < count := Nat.div_lt_of_lt_mul (Nat.mul_lt_mul_of_pos_right hword hcount)
  refine ⟨hwhole, fun hnear => Nat.lt_of_le_of_ne hwhole fun htop => ?_⟩
  -- at the top of the range the part that is cut off leaves the scale free
  have hsplit := Nat.div_add_mod (word * count) base
  have hle : (word + 1) * count ≤ base * count := Nat.mul_le_mul_right count hword
  have hscaled : base * count = base * (word * count / base) + base := by rw [← Nat.mul_succ, Nat.succ_eq_add_one, htop]
  rw [Nat.succ_mul] at hle
  omega

/-- The dice of a stream are fair. -/
theorem fair_dice : dice.Fair := by
  intro low high s hle
  obtain ⟨hwhole, hcarry⟩ := scaled_lt s.next_lt (Nat.succ_pos (high - low))
  change low ≤ (pick low high s).1 ∧ (pick low high s).1 ≤ high
  unfold pick
  simp only
  generalize s.next.1 * (high - low + 1) / Nat.pow 2 32 = whole at hwhole hcarry ⊢
  split
  · rename_i hnear
    have hmore := hcarry hnear
    split <;> exact ⟨by omega, by omega⟩
  · exact ⟨by omega, by omega⟩

end FlowPlan.Random.Stream
