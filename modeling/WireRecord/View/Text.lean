/-
WireRecord.View.Text — a record as text, for people.

One line for each element. An element that cannot be read shows the bytes that
hold it, or, if it cannot be addressed either, why it cannot be read.
-/
import WireRecord.View

namespace WireRecord

/-- Two lower-case hexadecimal digits. -/
def hexByte (x : UInt8) : String :=
  let digit (n : Nat) : Char := Char.ofNat (if n < 10 then 48 + n else 87 + n)
  String.ofList [digit (x.toNat / 16), digit (x.toNat % 16)]

namespace View

/-- What the text shows for one element. -/
def elementText (v : View) (f : Field) : String :=
  match f.read v.rep v.buffer with
  | .ok x => x.textIn f.table
  | .error e =>
    match v.fieldBytes? f with
    | some bytes => "hex(" ++ " ".intercalate (bytes.map hexByte) ++ ")"
    | none => s!"<{e.message}>"

/-- The text of a record. -/
def text (v : View) : String :=
  "\n".intercalate (v.elements.map fun f => s!"{f.name} = {v.elementText f}")

end View

end WireRecord
