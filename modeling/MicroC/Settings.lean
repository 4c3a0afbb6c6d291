import MicroC.Diagnostic.Basic
import MicroC.Toml.Reader

/-!
Settings of a compilation, and the documents they are read from. Every setting has a
default, so an empty document is complete; a key that is not a setting is an error.
-/

namespace MicroC

structure Settings where
  moduleName : String := "main"
  /-- Which log lines are wanted. Nothing is logged here, so it has no effect. -/
  logFilter : Option String := none
  diagnostics : DisplayOptions := {}
deriving DecidableEq, Repr, Inhabited

inductive SettingsError where
  | malformed
  | notFound (path : String)
deriving DecidableEq, Repr

def SettingsError.message : SettingsError → String
  | malformed => "invalid configuration"
  | notFound path => s!"cannot read `{path}`: No such file or directory (os error 2)"

/-- A style is written as its name, or as a table that has the name as its only key and holds
nothing under it. -/
def DisplayStyle.ofToml? : Toml.Value → Option DisplayStyle
  | .string name => ofText? name
  | .table _ [(name, value)] => if value.isEmpty then ofText? name else none
  | _ => none

/-- A tab width is any number that is not negative. -/
def DisplayOptions.widthOfToml? : Toml.Value → Option Nat
  | .integer value => if 0 ≤ value then some value.toNat else none
  | _ => none

namespace DisplayOptions

def set (o : DisplayOptions) (entry : String × Toml.Value) : Option DisplayOptions :=
  match entry.1 with
  | "style" => (DisplayStyle.ofToml? entry.2).map fun style => { o with style }
  | "tab_width" => (widthOfToml? entry.2).map fun tabWidth => { o with tabWidth }
  | _ => none

/-- The options are written as a table, or as an array that starts with style and tab width;
what is left out has its default. -/
def ofToml? (value : Toml.Value) : Option DisplayOptions :=
  match value, value.items? with
  | .table _ entries, _ => entries.foldlM set {}
  | _, some [] => some {}
  | _, some [style] => do
    return { style := ← DisplayStyle.ofToml? style }
  | _, some (style :: width :: _) => do
    return { style := ← DisplayStyle.ofToml? style, tabWidth := ← widthOfToml? width }
  | _, none => none

end DisplayOptions

namespace Settings

def set (s : Settings) (entry : String × Toml.Value) : Option Settings :=
  match entry with
  | ("module_name", .string moduleName) => some { s with moduleName }
  | ("log_filter", .string filter) => some { s with logFilter := some filter }
  | ("diagnostics", value) =>
    (DisplayOptions.ofToml? value).map fun diagnostics => { s with diagnostics }
  | _ => none

/-- The settings that a document gives. -/
def parse (text : String) : Except SettingsError Settings :=
  match Toml.read text with
  | none => .error .malformed
  | some entries =>
    match entries.foldlM set {} with
    | none => .error .malformed
    | some settings => .ok settings

/-- The settings in a file; `files` gives the texts of the files there are. -/
def load (files : String → Option String) (path : String) : Except SettingsError Settings :=
  match files path with
  | none => .error (.notFound path)
  | some text => parse text

end Settings

end MicroC
