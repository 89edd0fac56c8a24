import HornMachine.Config

/-!
# Reading settings

Settings are read from a text, given a decoder that takes it apart. Settings that are not named keep
their defaults, and names that are no settings are refused. The occurs check is named by a string,
or by a table whose only name has nothing below it.
-/

namespace HornMachine

/-- A decoded value of the kinds that settings have. -/
inductive Config.Value where
  | text (text : String)
  | integer (value : Int)
  | flag (value : Bool)
  | emptyArray
  | table (entries : List (String × Value))

/-- Names and their values in the order they were given. -/
abbrev Config.Entries := List (String × Value)

/-- What takes a text apart, unless it is malformed or holds other values. -/
abbrev Config.Decoder := String → Option Entries

namespace OccursCheck

/-- The policy with a name. -/
def ofName? : String → Option OccursCheck
  | "on" => some .on
  | "off" => some .off
  | _ => none

/-- The policy that a value names. -/
def ofValue? : Config.Value → Option OccursCheck
  | .text name => ofName? name
  | .table [(name, .table [])] | .table [(name, .emptyArray)] => ofName? name
  | _ => none

end OccursCheck

namespace Config

/-- The number that a value is, if it is not negative. -/
def count? : Value → Option Nat
  | .integer value => value.toNat?
  | _ => none

/-- The truth value that a value is. -/
def flag? : Value → Option Bool
  | .flag value => some value
  | _ => none

/-- Change the setting with a name. -/
def assign? (config : Config) (name : String) (value : Value) : Option Config :=
  match name with
  | "occurs_check" => (OccursCheck.ofValue? value).map ({ config with occursCheck := · })
  | "registers" => (count? value).map ({ config with registers := · })
  | "max_steps" => (count? value).map ({ config with maxSteps := · })
  | "max_rounds" => (count? value).map ({ config with maxRounds := · })
  | "parallel" => (flag? value).map ({ config with parallel := · })
  | _ => none

/-- The settings that entries describe, starting from the defaults. -/
def ofEntries? (entries : Entries) : Option Config :=
  entries.foldlM (fun config (name, value) ↦ config.assign? name value) {}

/-- Read settings from a text and check them. -/
def readWith (decode : Decoder) (text : String) : Except ConfigIssue Config :=
  match (decode text).bind ofEntries? with
  | some config => config.validate
  | none => .error .malformed

end Config
end HornMachine
