import FixedPool.Document.Statement

/-!
Documents: the tables that the lines of a text build up. A table is complete, and put in its place,
when the next header or the end of the text is reached.
-/

namespace FixedPool.Document

/-- A document in the making: what is complete, and the table that assignments now add to. -/
structure Draft where
  root : Entries
  current : Entries
  /-- Where the current table goes; the table in front of all headers is the root itself. -/
  place : Option Statement

namespace Draft

def start : Draft := ⟨[], [], none⟩

/-- The tables that headers may pass through. -/
def passable : List Origin := [.header, .path, .dotted]

/-- Puts the current table in its place. -/
def settle (d : Draft) : Option Entries :=
  match d.place with
  | none => some d.current
  | some (.element path key) =>
    (·.1) <$> Entries.within .path passable
      (fun _ es =>
        match es.find? key with
        | none => some (es.put key (.tables [d.current]), ())
        | some (.tables elements) => some (es.put key (.tables (elements ++ [d.current])), ())
        | some _ => none)
      path .header d.root
  | some (.table path key) =>
    (·.1) <$> Entries.within .path passable
      (fun _ es => do return (← es.add? key (.table .header d.current), ()))
      path .header d.root
  | some (.assign ..) => none

/-- A header opens a new table. One that headers of its parts have already made goes on with its
entries; a table has only one header. -/
def openTable (root : Entries) (path : List String) (key : String) : Option Draft := do
  let (root, current) ← Entries.within .path passable
    (fun _ es =>
      match es.find? key with
      | none => some (es, [])
      | some (.table .path entries) => some (es.erase key, entries)
      | some _ => none)
    path .header root
  return ⟨root, current, some (.table path key)⟩

/-- A header opens a new element of an array of tables. -/
def openElement (root : Entries) (path : List String) (key : String) : Option Draft := do
  let (root, _) ← Entries.within .path passable
    (fun _ es =>
      match es.find? key with
      | none => some (es.put key (.tables []), ())
      | some (.tables _) => some (es, ())
      | some _ => none)
    path .header root
  return ⟨root, [], some (.element path key)⟩

/-- What a line changes. -/
def step (d : Draft) : Statement → Option Draft
  | .assign path key node => do
    let enter : List Origin := [.path, .dotted]
    return { d with current := ← d.current.assign? path key node enter .header }
  | .table path key => do openTable (← d.settle) path key
  | .element path key => do openElement (← d.settle) path key

end Draft

/-- The entries of the document that a text writes, if it writes one. -/
def read? (source : String) : Option Entries := do
  let (lines, _) ← statements (.of source)
  let draft ← lines.foldlM Draft.step .start
  draft.settle

end FixedPool.Document
