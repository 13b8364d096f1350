/-
WireRecord.Path — the names of elements.

An element is named by the way to it from the record: members are joined by a
point, and an item of an array carries its index in brackets. An empty name
adds nothing to a path, on either side of the point.
-/

namespace WireRecord.Path

/-- The path of a member below a path. -/
def join (path name : String) : String :=
  if path.isEmpty then name
  else if name.isEmpty then path
  else path ++ "." ++ name

/-- The path of one item of an array. -/
def item (path : String) (index : Nat) : String :=
  path ++ "[" ++ toString index ++ "]"

/-- The path of one item of a fixed array; a single item goes without an
index. -/
def itemOf (path : String) (index count : Nat) : String :=
  if count = 1 then path else item path index

/-- Whether a name lies below the struct at a path. -/
def inStruct (path name : String) : Bool := (path ++ ".").toList.isPrefixOf name.toList

/-- Whether a name lies in the array at a path. -/
def inArray (path name : String) : Bool := (path ++ "[").toList.isPrefixOf name.toList

end WireRecord.Path
