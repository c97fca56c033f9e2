/-!
The stream inside `neko.io.PrefixOutputStream`. The characters of the line separator are single bytes,
as they are on all platforms, and `println` sends the line separator.
-/

structure PrefixOutputStream where
  cursor : Nat := 0
  pending : Bool := true
  -- all that has been sent to the target
  out : List UInt8 := []

namespace PrefixOutputStream

-- `pref` is what `out.print(prefix)` sends.
variable (pref lineSep : List UInt8)

def print (s : PrefixOutputStream) (bytes : List UInt8) : PrefixOutputStream :=
  { s with out := s.out ++ bytes }

def write (s : PrefixOutputStream) (b : UInt8) : PrefixOutputStream :=
  let s := if s.pending then { s with pending := false }.print pref else s
  if lineSep[s.cursor]? = some b then
    let s := { s with cursor := s.cursor + 1 }
    if s.cursor = lineSep.length then
      { s with cursor := 0, pending := true }.print lineSep
    else
      s
  else
    s.print [b]

def flush (s : PrefixOutputStream) : PrefixOutputStream :=
  { s with cursor := 0, pending := true }

inductive Call where
  | write (b : UInt8)
  | flush

def call (s : PrefixOutputStream) : Call → PrefixOutputStream
  | .write b => s.write pref lineSep b
  | .flush => s.flush

def after (calls : List Call) : PrefixOutputStream := calls.foldl (call pref lineSep) {}

end PrefixOutputStream
