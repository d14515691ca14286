/-!
The data of a TOML document: values, and tables whose entries keep the order in which they were
written.
-/

namespace FixedPool.Document

/-- How a table came to be, which decides what may still be added to it. -/
inductive Origin
  /-- Written between braces. -/
  | braces
  /-- Named by a header of its own, or the root of a document. -/
  | header
  /-- Passed through by the header of another table. -/
  | path
  /-- Passed through by a dotted key. -/
  | dotted
deriving DecidableEq, Repr

/-- A value, a table or an array of tables. Dates and times are told from other values, but not
from each other. -/
inductive Node
  | boolean (value : Bool)
  | integer (value : Int)
  | float (value : Float)
  | string (value : String)
  | moment
  | array (elements : List Node)
  | table (origin : Origin) (entries : List (String × Node))
  | tables (elements : List (List (String × Node)))

/-- The entries of a table, in the order in which they were written. -/
abbrev Entries := List (String × Node)

namespace Entries

def find? (es : Entries) (key : String) : Option Node := List.lookup key es

/-- Takes an entry out. -/
def erase (es : Entries) (key : String) : Entries := es.filter (·.1 != key)

/-- Changes an entry in its place, or adds it behind the others. -/
def put (es : Entries) (key : String) (node : Node) : Entries :=
  if (es.find? key).isSome then es.map fun e => if e.1 == key then (key, node) else e
  else es ++ [(key, node)]

/-- Adds a new entry behind the others. -/
def add? (es : Entries) (key : String) (node : Node) : Option Entries :=
  if (es.find? key).isSome then none else some (es ++ [(key, node)])

/-- Changes the table that a path of keys leads to, and answers `act`'s result. Missing tables on
the way are made with the origin `missing`; a table that is there is entered if its origin is in
`enter`, and of an array of tables the last one. -/
def within {α : Type} (missing : Origin) (enter : List Origin)
    (act : Origin → Entries → Option (Entries × α)) :
    List String → Origin → Entries → Option (Entries × α)
  | [], origin, es => act origin es
  | key :: path, _, es =>
    match es.find? key with
    | none => do
      let (sub, a) ← within missing enter act path missing []
      return (es.put key (.table missing sub), a)
    | some (.table origin sub) =>
      if origin ∈ enter then do
        let (sub, a) ← within missing enter act path origin sub
        return (es.put key (.table origin sub), a)
      else none
    | some (.tables elements) => do
      let (sub, a) ← within missing enter act path .header (← elements.getLast?)
      return (es.put key (.tables (elements.dropLast ++ [sub])), a)
    | some _ => none

/-- Adds an entry under a dotted key, whose last part is `key`. A dotted key adds only to tables
that dotted keys made, or, without dots, to the table itself. -/
def assign? (path : List String) (key : String) (node : Node) (enter : List Origin)
    (origin : Origin) (es : Entries) : Option Entries := do
  let add (origin : Origin) (es : Entries) : Option (Entries × Unit) :=
    if path.isEmpty ↔ origin = .dotted then none
    else return (← es.add? key node, ())
  let (es, _) ← within .dotted enter add path origin es
  return es

end Entries

end FixedPool.Document
