import FlowPlan.Generator
import FlowPlan.Proofs.Compile.Naming

/-!
# Ids of a random flow

The nodes of a random flow are numbered, and their ids are these numbers with zeros in front. However many digits a number has, the
id tells it (`Generator.idOf_inj`). The id of a branch tells its node and its index (`Generator.branchAt_inj`), and is not the id of
a node.
-/

namespace FlowPlan.Generator

/-- The id of the node with a number. -/
def idOf (number : Nat) : String :=
  "n" ++ paddedNumber number

/-- Zeros in front have no value. -/
theorem ofDigitChars_zeros (k : Nat) : Nat.ofDigitChars 10 (List.replicate k '0') 0 = 0 := by
  induction k with
  | zero => rfl
  | succ k ih =>
    rw [List.replicate_succ, Nat.ofDigitChars_cons]
    exact ih

/-- A padded number is the number behind zeros. -/
theorem toList_paddedNumber (n : Nat) : ∃ k, (paddedNumber n).toList = List.replicate k '0' ++ (toString n).toList := by
  refine ⟨4 - (toString n).length, ?_⟩
  rw [paddedNumber, String.toList_append, String.toList_ofList]

/-- A number is told by its digits, whatever zeros stand in front. -/
theorem paddedNumber_inj {n m : Nat} (h : paddedNumber n = paddedNumber m) : n = m := by
  have value : ∀ k, Nat.ofDigitChars 10 (paddedNumber k).toList 0 = k := by
    intro k
    obtain ⟨zeros, hk⟩ := toList_paddedNumber k
    rw [hk, Nat.ofDigitChars_append, ofDigitChars_zeros, NamingAux.toList_toString, Nat.ofDigitChars_ten_toDigits]
  rw [← value n, h, value m]

/-- Nodes with different numbers have different ids. -/
theorem idOf_inj {n m : Nat} (h : idOf n = idOf m) : n = m :=
  paddedNumber_inj ((String.append_right_inj _).1 h)

/-- The id of a node has no hyphen. -/
theorem hyphen_notMem_idOf (n : Nat) : '-' ∉ (idOf n).toList := by
  obtain ⟨zeros, hn⟩ := toList_paddedNumber n
  rw [idOf, String.toList_append, hn, List.mem_append, List.mem_append, not_or, not_or]
  refine ⟨by decide, fun hzero => ?_, NamingAux.hyphen_notMem_toString n⟩
  exact absurd (List.eq_of_mem_replicate hzero) (by decide)

section Branches

variable {id id' : String} {count count' index index' : Nat} {withOtherwise withOtherwise' : Bool}

/-- Behind the hyphen in the id of a branch stands its index. -/
theorem toList_branchAt :
    (branchAt id count withOtherwise index).id.toList = id.toList ++ '-' :: 'b' :: (toString index).toList := by
  simp [branchAt, String.toList_append, ToString.toString]

theorem hyphen_notMem_index : '-' ∉ 'b' :: (toString index).toList := by
  rw [List.mem_cons, not_or]
  exact ⟨by decide, NamingAux.hyphen_notMem_toString index⟩

/-- The id of a branch tells its node and its index. -/
theorem branchAt_inj (h : (branchAt id count withOtherwise index).id = (branchAt id' count' withOtherwise' index').id) :
    id = id' ∧ index = index' := by
  have hlist := congrArg String.toList h
  rw [toList_branchAt, toList_branchAt] at hlist
  obtain ⟨hfront, hdigits⟩ := NamingAux.eq_of_append_cons_eq hyphen_notMem_index hyphen_notMem_index hlist
  refine ⟨String.toList_inj.1 hfront, ?_⟩
  rw [List.cons.injEq, NamingAux.toList_toString, NamingAux.toList_toString] at hdigits
  have hvalue := congrArg (Nat.ofDigitChars 10 · 0) hdigits.2
  simpa only [Nat.ofDigitChars_ten_toDigits] using hvalue

/-- The id of a branch has one, and so is not the id of a node. -/
theorem branchAt_ne_idOf {number : Nat} : (branchAt id count withOtherwise index).id ≠ idOf number := by
  intro h
  have hhyphen : '-' ∈ (branchAt id count withOtherwise index).id.toList := by simp [toList_branchAt]
  rw [h] at hhyphen
  exact hyphen_notMem_idOf number hhyphen

end Branches

end FlowPlan.Generator
