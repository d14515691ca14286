import FixedPool.Document.Scalar

/-!
The lines of a document: assignments and headers, with the values that assignments give.
-/

namespace FixedPool.Document

open Reader

/-- How deep arrays and inline tables may be nested. -/
def mostLevels : Nat := 79

/-- How many parts a key may have. -/
def mostParts : Nat := 79

def isBare (c : Char) : Bool := c.isAlphanum || c == '_' || c == '-'

/-- One part of a key. -/
def keyPart : Reader String := do
  match ← peek with
  | none => failure
  | some c =>
    if isQuote c then basicString
    else if isApostrophe c then literalString
    else return .ofList (← run isBare)

/-- The parts of a dotted key: those in front, and the last one. -/
def key : Reader (List String × String) := do
  let part : Reader String := do
    blanks
    let s ← keyPart
    blanks
    return s
  let parts ← separated part (char '.')
  match parts.getLast? with
  | none => failure
  | some last => if parts.length ≤ mostParts then return (parts.dropLast, last) else failure

/-- A comment goes up to the end of the line. -/
def comment : Reader Unit := do
  char '#'
  let _ ← takeWhile isPlain

/-- Blanks, comments and line breaks inside an array. -/
def gap : Reader Unit := do
  let _ ← many ((do let _ ← run isBlank) <|> (do let _ ← optional comment; newline))

/-- Elements between brackets; a comma may follow the last one. -/
def array (element : Reader Node) : Reader Node := do
  char '['
  let item : Reader Node := do
    gap
    let node ← element
    gap
    return node
  let elements ← separated item (char ',')
  if !elements.isEmpty then
    let _ ← optional (char ',')
  gap
  char ']'
  return .array elements

/-- Assignments between braces, on one line. -/
def inlineTable (element : Reader Node) : Reader Node := do
  char '\x7b'
  let item : Reader ((List String × String) × Node) := do
    let k ← key
    char '='
    blanks
    let node ← element
    blanks
    return (k, node)
  let assignments ← separated item (char ',')
  blanks
  char '\x7d'
  let entries ← assignments.foldlM
    (fun es (k, node) => Entries.assign? k.1 k.2 node [.dotted] .braces es) []
  return .table .braces entries

/-- A value in which arrays and inline tables are nested at most `levels` deep. -/
def value : Nat → Reader Node
  | 0 => scalar
  | levels + 1 => do
    match ← peek with
    | some '[' => array (value levels)
    | some '\x7b' => inlineTable (value levels)
    | _ => scalar

/-- A line of a document that says something. -/
inductive Statement
  /-- A value for the last part of a dotted key. -/
  | assign (path : List String) (key : String) (node : Node)
  /-- The header of a table. -/
  | table (path : List String) (key : String)
  /-- The header of a further table of an array of tables. -/
  | element (path : List String) (key : String)

/-- What may stand at the end of a line. -/
def lineEnd : Reader Unit := do
  blanks
  let _ ← optional comment
  newline <|> done

def header : Reader Statement :=
  (do
    text "[["
    let (path, last) ← key
    text "]]"
    return .element path last)
  <|> (do
    char '['
    let (path, last) ← key
    char ']'
    return .table path last)

def assignment : Reader Statement := do
  let (path, last) ← key
  char '='
  blanks
  return .assign path last (← value mostLevels)

/-- One line, which may say nothing. -/
def line : Reader (Option Statement) := do
  blanks
  match ← peek with
  | none => failure
  | some c =>
    if c == '#' || c == '\n' || c == '\r' then
      lineEnd
      return none
    let statement ← if c == '[' then header else assignment
    lineEnd
    return some statement

/-- All lines of a document, behind a byte-order mark if there is one. -/
def statements : Reader (List Statement) := do
  let _ ← optional (satisfy (·.toNat == 0xFEFF))
  let lines ← many line
  blanks
  done
  return lines.filterMap id

end FixedPool.Document
