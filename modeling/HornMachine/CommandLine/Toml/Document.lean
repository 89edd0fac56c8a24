import HornMachine.Config.Read
import HornMachine.CommandLine.Toml.Scan
import HornMachine.CommandLine.Toml.Table

/-!
# TOML texts

A text is a sequence of lines: empty ones and comments, headers, and keys with their values. It may
start with a byte order mark. Values are those that settings can have: strings, whole numbers, truth
values, tables in braces and arrays with nothing in them. A text with any other value holds no
settings, so it is refused like a text that is malformed.

Reading settings takes the decoder of their text as a parameter. This one is what the command line
is run with; nothing else depends on it.
-/

namespace HornMachine.CommandLine.Toml

open Scan

/-- Take what may stand between the brackets of an array that holds nothing. -/
def emptySpace : Nat → Scan Unit
  | 0 => failure
  | lines + 1 => do
    blanks
    comment
    match ← peek with
    | some '\n' | some '\r' =>
      newline
      emptySpace lines
    | _ => pure ()

/-- Take an array that holds nothing. -/
def emptyArray : Scan Value := do
  expect '['
  let text ← get
  emptySpace (text.length + 1)
  expect ']'
  pure .emptyArray

/-- Take a word that is a value. -/
def wordValue : Scan Value := do
  let word ← Scan.word
  if word = "true".toList then pure (.flag true)
  else if word = "false".toList then pure (.flag false)
  else
    match readInteger? word with
    | some value => pure (.integer value)
    | none => failure

mutual

/-- Take a value with tables less than `depth` deep. -/
def valueWithin : Nat → Scan Value
  | 0 => failure
  | depth + 1 => do
    match ← peek with
    | some '"' | some '\'' => Value.text <$> string
    | some '[' => emptyArray
    | some '\x7b' =>
      expect '\x7b'
      blanks
      if ← accept '\x7d' then pure (.table .braces [])
      else do
        let entries ← entriesWithin depth []
        pure (.table .braces entries)
    | _ => wordValue

/-- Take at most `depth` keys with their values, in addition to those before them, up to the closing
brace. -/
def entriesWithin : Nat → Entries → Scan Entries
  | 0, _ => failure
  | depth + 1, before => do
    let path ← key
    expect '='
    blanks
    let value ← valueWithin depth
    match before.define? path value with
    | none => failure
    | some entries =>
      blanks
      if ← accept ',' then entriesWithin depth entries
      else do
        expect '\x7d'
        pure entries

end

/-- Take a key with its value. -/
def pair : Scan (List String × Value) := do
  let path ← key
  expect '='
  blanks
  let text ← get
  let value ← valueWithin (text.length + 1)
  pure (path, value)

/-- Take a header. -/
def header : Scan (List String) := do
  expect '['
  let path ← key
  expect ']'
  pure path

/-- A text read so far: its entries, and the header its next lines stand under. -/
structure Document where
  entries : Entries := []
  header : List String := []

/-- Take at most `count` lines. -/
def linesWithin : Nat → Document → Scan Entries
  | 0, _ => failure
  | count + 1, document => do
    blanks
    match ← peek with
    | none => pure document.entries
    | some '#' | some '\n' | some '\r' =>
      endLine
      linesWithin count document
    | some '[' =>
      let path ← header
      endLine
      match document.entries.openTable? path with
      | none => failure
      | some entries => linesWithin count { entries, header := path }
    | some _ =>
      let (path, value) ← pair
      endLine
      match document.entries.defineIn? document.header path value with
      | none => failure
      | some entries => linesWithin count { document with entries }

/-- Leave out a byte order mark at the front. -/
def dropMark : List Char → List Char
  | '\ufeff' :: rest => rest
  | text => text

mutual

/-- A value without the way it was written. -/
def Value.plain : Value → Config.Value
  | .text text => .text text
  | .integer value => .integer value
  | .flag value => .flag value
  | .emptyArray => .emptyArray
  | .table _ entries => .table (plainEntries entries)

/-- Entries without the way they were written. -/
def plainEntries : Entries → Config.Entries
  | [] => []
  | (name, value) :: entries => (name, value.plain) :: plainEntries entries

end

/-- The entries that a text describes. -/
def decode : Config.Decoder := fun text ↦ do
  let characters := dropMark text.toList
  let (entries, _) ← (linesWithin (characters.length + 1) {}).run characters
  some (plainEntries entries)

end HornMachine.CommandLine.Toml
