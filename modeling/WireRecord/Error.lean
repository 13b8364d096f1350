/-
WireRecord.Error — why an operation was refused.

One constructor per cause, with what a caller needs to tell them apart. The
wording is in `Error.detail`, and `Error.message` puts the kind of the error in
front of it.
-/
import WireRecord.Value

namespace WireRecord

/-- The rough classes of errors. -/
inductive ErrorKind where
  /-- A name is not there. -/
  | notFound
  /-- An element index is too large. -/
  | invalidIndex
  /-- A schema, a buffer or an argument does not fit. -/
  | invalidArgument
  /-- A field lies where it cannot be accessed, or a place where no word reaches. -/
  | unexpected
deriving DecidableEq, Repr

/-- What is wrong with one element of a struct. -/
inductive ElementFault where
  /-- A fixed repetition of zero times. -/
  | noRepetition
  /-- The type name stands for nothing. -/
  | unknownType (type : String)
  /-- The element that should count the array is not an earlier one. -/
  | uncounted (counter : String)
  /-- The width is zero or larger than the native one. -/
  | width (bits : Nat) (type : Scalar)
  /-- No enumeration has an entry of the constant's name. -/
  | unknownConstant (token : String)
deriving DecidableEq, Repr

/-- What a machine cannot compute of sizes and places. -/
inductive Fault where
  /-- A sum that no word holds. -/
  | sum
  /-- A product that no word holds. -/
  | product
  /-- A quotient by zero. -/
  | quotient
deriving DecidableEq, Repr

/-- Why an operation was refused. -/
inductive Error where
  /-- The schema has no struct of the name. -/
  | noStruct (name : String)
  /-- The view has no element of the name, or none below the path. -/
  | noElement (path : String)
  /-- The view has too few elements. -/
  | noIndex (index count : Nat)
  /-- Two aliases have one name. -/
  | repeatedAlias (name : String)
  /-- Two enumerations have one name. -/
  | repeatedEnum (name : String)
  /-- Two structs have one name. -/
  | repeatedStruct (name : String)
  /-- A struct contains itself. -/
  | cyclic (name : String)
  /-- The underlying type of an enumeration is no scalar. -/
  | enumBase (enum base : String)
  /-- An element of a struct is at fault. -/
  | element (owner name : String) (fault : ElementFault)
  /-- The buffer does not hold the fixed part of the record. -/
  | bufferTooShort (length needed : Nat) (layout : String)
  /-- The bytes handed over are not as many as the type has. -/
  | rawLength (field : String) (length : Nat) (type : Scalar)
  /-- The size of the field is zero or exceeds a word. -/
  | fieldSize (field : String) (size : Nat)
  /-- The field reaches beyond the buffer. -/
  | fieldOutside (field : String) (offset stop length : Nat)
  /-- A native field does not consist of whole bytes. -/
  | unalignedField (field : String) (offset size : Nat)
  /-- The element that counts an array is not among the fields known so far. -/
  | counterMissing (path : String)
  /-- The element that counts an array holds no natural number. -/
  | counterValue (path : String) (value : Value)
  /-- The buffer cannot hold as many items. -/
  | counterTooLarge (count : Nat) (path : String) (length : Nat)
  /-- A field of the variable part ends beyond the buffer. -/
  | instanceOutside (field : String) (stop length : Nat)
  /-- The target of a transfer does not hold the record. -/
  | targetTooShort (length needed : Nat) (layout : String)
  /-- A range of bytes would begin inside a byte. -/
  | unalignedStart (field : String) (offset : Nat)
  /-- The bytes of an array are not a range of the buffer. -/
  | arrayRange (path : String) (start stop length : Nat)
  /-- A struct starts beyond the buffer. -/
  | structOutside (path : String)
  /-- A size or a place could not be computed. This is not an answer of the
  operation: the program stops. -/
  | stopped (fault : Fault)
deriving DecidableEq, Repr

/-- The wording of a fault. -/
def Fault.text : Fault → String
  | sum => "attempt to add with overflow"
  | product => "attempt to multiply with overflow"
  | quotient => "attempt to divide by zero"

/-- The wording of what is wrong with an element. -/
def ElementFault.text : ElementFault → String
  | noRepetition => "dynamic array without size element"
  | unknownType type => s!"unknown type {type}"
  | uncounted counter => s!"array size element '{counter}' is not declared before the array"
  | width bits type => s!"{bits} bits do not fit {type.name}"
  | unknownConstant token => s!"unknown constant {token}"

namespace Error

/-- The class of an error. -/
def kind : Error → ErrorKind
  | noStruct _ | noElement _ => .notFound
  | noIndex _ _ => .invalidIndex
  | unalignedField _ _ _ | unalignedStart _ _ | stopped _ => .unexpected
  | _ => .invalidArgument

/-- What the message says behind the class of the error. -/
def detail : Error → String
  | noStruct name => s!"struct {name}"
  | noElement path => path
  | noIndex index count => s!"{index} (element count {count})"
  | repeatedAlias name => s!"duplicate data type name: {name}"
  | repeatedEnum name => s!"duplicate enum name: {name}"
  | repeatedStruct name => s!"duplicate struct name: {name}"
  | cyclic name => s!"struct {name} contains itself"
  | enumBase enum base => s!"enum {enum}: unsupported underlying type {base}"
  | element owner name fault => s!"{owner}.{name}: {fault.text}"
  | bufferTooShort length needed layout =>
    s!"buffer of {length} bytes is smaller than the static size {needed} of {layout}"
  | rawLength field length type =>
    s!"{field}: value size {length} does not match {type.name} ({type.bytes} bytes)"
  | fieldSize field size => s!"{field}: unsupported bit size {size}"
  | fieldOutside field offset stop length =>
    s!"{field}: bits {offset}..{stop} exceed buffer of {length} bytes"
  | unalignedField field offset size =>
    s!"{field}: deserialized position {offset}+{size} is not byte aligned"
  | counterMissing path => s!"array size element {path} not found"
  | counterValue path value => s!"array size element {path} holds {value.text}"
  | counterTooLarge count path length =>
    s!"array size {count} from {path} exceeds buffer of {length} bytes"
  | instanceOutside field stop length =>
    s!"{field} ends at bit {stop}, beyond buffer of {length} bytes"
  | targetTooShort length needed layout =>
    s!"target buffer of {length} bytes is smaller than {needed} bytes needed for {layout}"
  | unalignedStart field offset => s!"{field} starts at bit {offset}, not on a byte boundary"
  | arrayRange path start stop length =>
    s!"array {path} spans bytes {start}..{stop} of a {length} byte buffer"
  | structOutside path => s!"struct {path} starts past the buffer"
  | stopped fault => fault.text

/-- The message of an error. -/
def message (e : Error) : String :=
  match e.kind with
  | .notFound => "Not found: " ++ e.detail
  | .invalidIndex => "Invalid index " ++ e.detail
  | .invalidArgument => "Invalid argument: " ++ e.detail
  | .unexpected => "Unexpected: " ++ e.detail

end Error

end WireRecord
