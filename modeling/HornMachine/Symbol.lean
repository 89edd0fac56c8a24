import Std.Data.HashMap

/-!
# Symbols

Atoms and structures carry names. A symbol table gives each distinct name one number, in the
order in which the names were first met, and reads the name back from the number. Arity is not
part of a symbol: `p/1` and `p/2` share the symbol of `p`.
-/

namespace HornMachine

/-- A registered name, known by its position in a symbol table. -/
structure Symbol where
  id : Nat
deriving DecidableEq, Hashable, Repr

/-- Symbols are ordered by age. -/
instance : Ord Symbol where
  compare a b := compare a.id b.id

instance : Std.TransOrd Symbol := inferInstanceAs (Std.TransCmp (compareOn Symbol.id))

instance : Std.LawfulEqOrd Symbol where
  eq_of_compare {a b} same := by
    cases a
    cases b
    exact congrArg Symbol.mk (Nat.compare_eq_eq.1 same)

/-- Interned names. The index answers which position a name has; it knows exactly the listed
names, so no name is listed twice. -/
structure SymbolTable where
  names : Array String
  positions : Std.HashMap String Nat
  positions_iff : ∀ (name : String) (i : Nat), positions[name]? = some i ↔ names[i]? = some name

namespace SymbolTable

/-- The table without names. -/
def empty : SymbolTable where
  names := #[]
  positions := ∅
  positions_iff := by simp

/-- Number of registered names. -/
def size (table : SymbolTable) : Nat := table.names.size

/-- The symbol of `name`, if it is registered. -/
def lookup? (table : SymbolTable) (name : String) : Option Symbol :=
  table.positions[name]?.map Symbol.mk

/-- The name of `symbol`, if this table issued it. -/
def name? (table : SymbolTable) (symbol : Symbol) : Option String :=
  table.names[symbol.id]?

/-- The name of `symbol`, or `$` and its number for a symbol of another table. -/
def nameOf (table : SymbolTable) (symbol : Symbol) : String :=
  (table.name? symbol).getD ("$" ++ toString symbol.id)

/-- Append a name that is not registered yet. -/
def register (table : SymbolTable) (name : String) (fresh : table.positions[name]? = none) :
    SymbolTable where
  names := table.names.push name
  positions := table.positions.insert name table.names.size
  positions_iff := by
    have absent : ∀ i : Nat, table.names[i]? ≠ some name := fun i h ↦ by
      simp [(table.positions_iff name i).2 h] at fresh
    intro other i
    rw [Std.HashMap.getElem?_insert, Array.getElem?_push]
    by_cases same : name = other
    · subst same
      by_cases last : i = table.names.size
      · simp [last]
      · simp [last, absent, Ne.symm last]
    · simp only [beq_iff_eq, same, if_false]
      rw [table.positions_iff]
      by_cases last : i = table.names.size
      · simp [last, same]
      · simp [last]

/-- The symbol of `name`, registering the name on its first use. -/
def intern (table : SymbolTable) (name : String) : Symbol × SymbolTable :=
  match known : table.positions[name]? with
  | some i => (⟨i⟩, table)
  | none => (⟨table.names.size⟩, table.register name known)

@[simp]
theorem size_empty : empty.size = 0 := rfl

/-- A table reads back every name it has issued, and finds the symbol of every name it lists. -/
theorem lookup?_eq_some_iff (table : SymbolTable) (name : String) (symbol : Symbol) :
    table.lookup? name = some symbol ↔ table.name? symbol = some name := by
  simp only [lookup?, name?, Option.map_eq_some_iff]
  rw [← table.positions_iff]
  constructor
  · rintro ⟨i, found, rfl⟩
    exact found
  · exact fun found ↦ ⟨symbol.id, found, rfl⟩

/-- After interning, the name is found under the symbol returned. -/
theorem name?_intern (table : SymbolTable) (name : String) :
    (table.intern name).2.name? (table.intern name).1 = some name := by
  unfold intern
  split
  · next i known => exact (table.positions_iff name i).1 known
  · simp [name?, register]

/-- Interning a registered name changes nothing. -/
theorem intern_of_lookup? {table : SymbolTable} {name : String} {symbol : Symbol}
    (known : table.lookup? name = some symbol) : table.intern name = (symbol, table) := by
  obtain ⟨i, found, rfl⟩ := Option.map_eq_some_iff.1 known
  unfold intern
  split
  · next j other =>
    rw [found] at other
    cases other
    rfl
  · next other => simp [found] at other

end SymbolTable
end HornMachine
