/-
WireRecord.View.Transfer — carrying a record over into a representation.

Every element is read from the view and written, at its place in the other
representation, into a target. What lies between the elements stays as it is in
the target, unless the target is cleared first.
-/
import WireRecord.View

namespace WireRecord.View

/-- Writes the values of some elements of a view into the target, in order. What
was written before a refusal stays. -/
def writeElements (v : View) (r : Representation) :
    List Field → ExceptT Error (StateM Bytes) Unit
  | [] => return
  | f :: rest => do
    match f.read v.rep v.buffer >>= f.write r (← get) with
    | .ok b => set b
    | .error e => throw e
    v.writeElements r rest

/-- Writes the record into a target of at least its size. The result is the
number of bytes it takes. -/
def transferInto (v : View) (r : Representation) (clear : Bool) :
    ExceptT Error (StateM Bytes) Nat := do
  let needed := v.bytes r
  let target ← get
  if target.length < needed then
    throw (.targetTooShort target.length needed v.layout.name)
  if clear then set (List.replicate needed 0 ++ target.drop needed)
  v.writeElements r v.elements
  return needed

/-- The record in a representation, with all bits between its elements clear. -/
def transfer (v : View) (r : Representation) : Except Error Bytes :=
  match (v.transferInto r false).run.run (List.replicate (v.bytes r) 0) with
  | (.ok _, b) => .ok b
  | (.error e, _) => .error e

/-- What the journal says about a transfer. -/
def transferEvent (v : View) (r : Representation) : Event :=
  .transferred v.layout.name v.count v.rep r

end WireRecord.View
