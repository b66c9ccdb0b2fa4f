import TensorLowering.Source.Literal

/-!
# Attributes of source nodes

An attribute holds a value of one of nine kinds. A `Reader` reads values of one kind and names the
type of what it reads, for messages.
-/

namespace TensorLowering.Source

inductive Attribute where
  | float (value : Binary32)
  | int (value : Int)
  | bool (value : Bool)
  | string (value : String)
  | type (value : DataType)
  | tensor (value : Literal)
  | floats (values : List Binary32)
  | ints (values : List Int)
  | strings (values : List String)
deriving DecidableEq, Repr

namespace Attribute

/-- The name of the kind of value, for messages. -/
def kind : Attribute → String
  | float _ => "float"
  | int _ => "int"
  | bool _ => "bool"
  | string _ => "string"
  | type _ => "type"
  | tensor _ => "tensor"
  | floats _ => "list(float)"
  | ints _ => "list(int)"
  | strings _ => "list(string)"

/-- How attributes of one kind are read. -/
structure Reader (α : Type) where
  /-- The name that messages give the expected type. -/
  typeName : String
  read? : Attribute → Option α

namespace Reader

def float : Reader Binary32 where
  typeName := "f32"
  read?
    | .float value => some value
    | _ => none

def int : Reader Int where
  typeName := "i64"
  read?
    | .int value => some value
    | _ => none

/-- Some exporters write truth values as integers; every integer but zero is true. -/
def bool : Reader Bool where
  typeName := "bool"
  read?
    | .bool value => some value
    | .int value => some (value != 0)
    | _ => none

def string : Reader String where
  typeName := "alloc::string::String"
  read?
    | .string value => some value
    | _ => none

def type : Reader DataType where
  typeName := "graft_graph::graph::DataType"
  read?
    | .type value => some value
    | _ => none

def tensor : Reader Literal where
  typeName := "graft_graph::graph::TensorLiteral"
  read?
    | .tensor value => some value
    | _ => none

def floats : Reader (List Binary32) where
  typeName := "alloc::vec::Vec<f32>"
  read?
    | .floats values => some values
    | _ => none

def ints : Reader (List Int) where
  typeName := "alloc::vec::Vec<i64>"
  read?
    | .ints values => some values
    | _ => none

def strings : Reader (List String) where
  typeName := "alloc::vec::Vec<alloc::string::String>"
  read?
    | .strings values => some values
    | _ => none

end Reader

end Attribute

end TensorLowering.Source
