import TensorLowering.Source.Reference
import Mathlib.Data.List.Basic

/-!
# Names of outputs

Output `index` of a node is known under the name of the node or, if it is a later output, under that
name, a colon and the index. The part after the last colon of such a name is the index, so two later
outputs never share a name (`outputName_eq_iff`); but the name of a later output may also be the
name of another node, which is then the name of the first output of that node.
-/

namespace TensorLowering.Source

/-! ## The last colon -/

theorem splitLast?_eq_none {separator : Char} {text : List Char} (h : separator ∉ text) :
    splitLast? separator text = none := by
  induction text with
  | nil => rfl
  | cons c text ih =>
    rw [List.mem_cons, not_or] at h
    rw [splitLast?, ih h.2, if_neg (Ne.symm h.1)]

theorem splitLast?_append {separator : Char} (before : List Char) {after : List Char}
    (h : separator ∉ after) :
    splitLast? separator (before ++ separator :: after) = some (before, after) := by
  induction before with
  | nil => rw [List.nil_append, splitLast?, splitLast?_eq_none h, if_pos rfl]
  | cons c before ih => rw [List.cons_append, splitLast?, ih]

theorem colon_notMem_toDigits (n : Nat) : ':' ∉ Nat.toDigits 10 n := fun h =>
  absurd (Nat.isDigit_of_mem_toDigits (by decide) (by decide) h) (by decide)

/-! ## Names -/

@[simp] theorem outputName_zero (name : String) : outputName name 0 = name := rfl

theorem toList_outputName (name : String) {index : Nat} (h : index ≠ 0) :
    (outputName name index).toList = name.toList ++ ':' :: Nat.toDigits 10 index := by
  rw [outputName, if_neg h]
  show (name ++ ":" ++ Nat.repr index).toList = _
  rw [String.toList_append, String.toList_append, Nat.toList_repr, List.append_assoc]
  rfl

/-- The name of a later output can be taken apart. -/
theorem splitLast?_outputName (name : String) {index : Nat} (h : index ≠ 0) :
    splitLast? ':' (outputName name index).toList =
      some (name.toList, Nat.toDigits 10 index) := by
  rw [toList_outputName name h, splitLast?_append _ (colon_notMem_toDigits index)]

theorem colon_mem_outputName (name : String) {index : Nat} (h : index ≠ 0) :
    ':' ∈ (outputName name index).toList := by
  rw [toList_outputName name h]
  exact List.mem_append_right _ List.mem_cons_self

/-- Two outputs share a name only if one of them is a later output and its name is the name of the
node that the other one is the first output of. -/
theorem outputName_eq_iff {name name' : String} {index index' : Nat} :
    outputName name index = outputName name' index' ↔ (name = name' ∧ index = index') ∨
      (index = 0 ∧ index' ≠ 0 ∧ name = outputName name' index') ∨
      (index ≠ 0 ∧ index' = 0 ∧ name' = outputName name index) := by
  by_cases h : index = 0 <;> by_cases h' : index' = 0
  · simp [h, h']
  · simp [h, h', Ne.symm h']
  · simp [h, h', eq_comm]
  · simp only [h, h', false_and, and_false, or_false]
    refine ⟨fun he => ?_, fun ⟨hn, hi⟩ => by rw [hn, hi]⟩
    have hs := splitLast?_outputName name h
    rw [he, splitLast?_outputName name' h', Option.some.injEq, Prod.mk.injEq] at hs
    refine ⟨(String.toList_inj.mp hs.1).symm, ?_⟩
    rw [← Nat.ofDigitChars_ten_toDigits (n := index), ← hs.2, Nat.ofDigitChars_ten_toDigits]

/-- Names without colons tell all outputs apart. -/
theorem outputName_inj {name name' : String} {index index' : Nat} (hn : ':' ∉ name.toList)
    (hn' : ':' ∉ name'.toList) (h : outputName name index = outputName name' index') :
    name = name' ∧ index = index' := by
  rcases outputName_eq_iff.mp h with h | ⟨-, hi, rfl⟩ | ⟨hi, -, rfl⟩
  · exact h
  · exact absurd (colon_mem_outputName _ hi) hn
  · exact absurd (colon_mem_outputName _ hi) hn'

end TensorLowering.Source
