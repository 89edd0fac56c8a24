/-!
# Tables

A TOML text describes a table of named values, which may be tables themselves. A name is given a
value once. Tables come about in four ways, and how a table came about decides what may still be
added to it.
-/

namespace HornMachine.CommandLine.Toml

/-- How a table came about. -/
inductive Origin where
  | braces
  /-- Part of a dotted key; further dotted keys can add to it. -/
  | dotted
  /-- Named by a header; the lines below the header and further headers add to it. -/
  | header
  /-- Part of the name in a header; it can still get a header of its own. -/
  | implied
deriving DecidableEq, Repr

/-- A value of the kinds that settings have. Arrays are kept apart only as to whether they hold
anything. -/
inductive Value where
  | text (text : String)
  | integer (value : Int)
  | flag (value : Bool)
  | emptyArray
  | table (origin : Origin) (entries : List (String × Value))

/-- Names and their values in the order they were given. -/
abbrev Entries := List (String × Value)

namespace Entries

/-- Replace the value of a name. -/
def replace (entries : Entries) (name : String) (value : Value) : Entries :=
  entries.map fun entry ↦ if entry.1 = name then (name, value) else entry

/-- Give a dotted key a value, unless it has one or a part of it is no table of dotted keys. -/
def define? : List String → Value → Entries → Option Entries
  | [], _, _ => none
  | [name], value, entries =>
    match entries.lookup name with
    | none => some (entries ++ [(name, value)])
    | some _ => none
  | name :: path, value, entries =>
    match entries.lookup name with
    | none => do
      let inner ← define? path value []
      some (entries ++ [(name, .table .dotted inner)])
    | some (.table .dotted inner) => do
      let inner ← define? path value inner
      some (entries.replace name (.table .dotted inner))
    | some _ => none

/-- Open the table of a header. It must not be there yet, unless as part of another header. -/
def openTable? : List String → Entries → Option Entries
  | [], _ => none
  | [name], entries =>
    match entries.lookup name with
    | none => some (entries ++ [(name, .table .header [])])
    | some (.table .implied inner) => some (entries.replace name (.table .header inner))
    | some _ => none
  | name :: path, entries =>
    match entries.lookup name with
    | none => do
      let inner ← openTable? path []
      some (entries ++ [(name, .table .implied inner)])
    | some (.table .implied inner) => do
      let inner ← openTable? path inner
      some (entries.replace name (.table .implied inner))
    | some (.table .header inner) => do
      let inner ← openTable? path inner
      some (entries.replace name (.table .header inner))
    | some _ => none

/-- Give a dotted key a value in the table of a header. -/
def defineIn? : List String → List String → Value → Entries → Option Entries
  | [], path, value, entries => define? path value entries
  | name :: header, path, value, entries =>
    match entries.lookup name with
    | some (.table origin inner) => do
      let inner ← defineIn? header path value inner
      some (entries.replace name (.table origin inner))
    | _ => none

end Entries
end HornMachine.CommandLine.Toml
