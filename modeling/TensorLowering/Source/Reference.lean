/-!
# References to tensors

Nodes name their inputs by strings: `name` for the first output of a node or for a graph input,
`name:3` for a later output, and `^name` for a control dependency, which carries no data. What
follows the last colon counts as an output number only if it is one; otherwise the whole string is
a name.
-/

namespace TensorLowering.Source

structure Reference where
  /-- The node or graph input that is referred to. -/
  node : String
  /-- The number of the output. -/
  index : Nat
  /-- Whether the reference is a control dependency. -/
  isControl : Bool
deriving DecidableEq, Repr

/-- The text before and after the last `separator`. -/
def splitLast? (separator : Char) : List Char → Option (List Char × List Char)
  | [] => none
  | c :: text =>
    match splitLast? separator text with
    | some (before, after) => some (c :: before, after)
    | none => if c = separator then some ([], text) else none

/-- The number that decimal digits write, the most significant first. -/
def ofDigits (digits : List Char) : Nat :=
  digits.foldl (fun n c => 10 * n + (c.toNat - '0'.toNat)) 0

/-- A number that fits into 64 bits, in decimal digits, which a plus sign may precede. -/
def parseIndex? (text : List Char) : Option Nat :=
  let digits := if text.head? = some '+' then text.tail else text
  if digits ≠ [] ∧ digits.all Char.isDigit ∧ ofDigits digits < UInt64.size then
    some (ofDigits digits)
  else none

/-- The name under which output `index` of a node is known. -/
def outputName (node : String) (index : Nat) : String :=
  if index = 0 then node else s!"{node}:{index}"

namespace Reference

/-- The reference that a string writes, given by its characters. -/
def ofChars : List Char → Reference
  | '^' :: name => ⟨String.ofList name, 0, true⟩
  | text =>
    match splitLast? ':' text with
    | none => ⟨String.ofList text, 0, false⟩
    | some (name, suffix) =>
      match parseIndex? suffix with
      | some index => ⟨String.ofList name, index, false⟩
      | none => ⟨String.ofList text, 0, false⟩

/-- The reference that a string writes. -/
def parse (reference : String) : Reference :=
  ofChars reference.toList

/-- The name of the tensor that is referred to. -/
def tensorName (ref : Reference) : String :=
  outputName ref.node ref.index

end Reference

end TensorLowering.Source
