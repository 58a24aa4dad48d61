import FlatXor.FamilyText
import FlatXor.Toml.Document

/-!
# Settings

The settings of the program come in three sections. A settings file may give any of
them in TOML, and what it leaves out keeps its default. A section is a table, or an
array of its fields in order. Keys that are not known are ignored.
-/
namespace FlatXor

structure SearchSettings where
  /-- The number of steps after which a search stops, or 0 for no limit. -/
  maxSteps : Nat
  detectOscillation : Bool
  deriving Repr, DecidableEq

structure LogSettings where
  /-- Which log lines are wanted. The text is not looked into. -/
  level : String
  deriving Repr, DecidableEq

structure Settings where
  search : SearchSettings
  output : OutputSettings
  log : LogSettings
  deriving Repr, DecidableEq

namespace SearchSettings

def default : SearchSettings := ⟨SearchLimits.defaultMaxSteps, true⟩

def limits (s : SearchSettings) : SearchLimits :=
  ⟨if s.maxSteps = 0 then none else some s.maxSteps, s.detectOscillation⟩

end SearchSettings

def LogSettings.default : LogSettings := ⟨"warn"⟩

/-- The word for a format on the command line and in a settings file. -/
def OutputFormat.ofWord? : String → Option OutputFormat
  | "c" => some .c
  | "json" => some .json
  | _ => none

/-- The word for a kind of declaration in a settings file. -/
def Declaration.ofWord? : String → Option Declaration
  | "plain" => some .plain
  | "static" => some .static
  | _ => none

namespace Toml.Value

/-- A field of a section: its key, and how a value of it changes the section. -/
structure SettingsField (α : Type) where
  key : String
  set? : α → Value → Option α

/-- A field that holds what its value stands for. -/
def SettingsField.holding {α β : Type} (key : String) (parse : Value → Option β)
    (put : α → β → α) : SettingsField α :=
  ⟨key, fun a v => (parse v).map (put a)⟩

@[simp] theorem SettingsField.key_holding {α β : Type} (key : String) (parse : Value → Option β)
    (put : α → β → α) : (holding key parse put).key = key := rfl

/-- The section that a value describes, on top of a default. A date stands for the
default itself. -/
def sectionOf? {α : Type} (fields : List (SettingsField α)) (initial : α) : Value → Option α
  | table _ entries =>
    entries.foldlM (fun a e =>
      match fields.find? (·.key == e.1) with
      | some field => field.set? a e.2
      | none => some a) initial
  | array items => (fields.zip items).foldlM (fun a p => p.1.set? a p.2) initial
  | tables elements =>
    (fields.zip elements).foldlM (fun a p => p.1.set? a (table .header p.2)) initial
  | dateTime => some initial
  | _ => none

def toNat? : Value → Option Nat
  | integer (.ofNat n) => some n
  | _ => none

def toBool? : Value → Option Bool
  | boolean b => some b
  | _ => none

def toText? : Value → Option String
  | string s => some s
  | _ => none

def isEmptyCollection : Value → Bool
  | array [] => true
  | table _ [] => true
  | _ => false

/-- A word out of a fixed choice: a string, or a table that has the word as its only
key, with nothing in it. -/
def toWord? : Value → Option String
  | string s => some s
  | table _ [(key, v)] => if v.isEmptyCollection then some key else none
  | _ => none

end Toml.Value

namespace Settings

open Toml.Value

def default : Settings := ⟨.default, .default, .default⟩

def searchFields : List (SettingsField SearchSettings) :=
  [.holding "max_steps" toNat? fun s maxSteps => { s with maxSteps },
   .holding "detect_oscillation" toBool? fun s detectOscillation => { s with detectOscillation }]

def outputFields : List (SettingsField OutputSettings) :=
  [.holding "format" (fun v => v.toWord?.bind OutputFormat.ofWord?) fun s format =>
      { s with format },
   .holding "declaration" (fun v => v.toWord?.bind Declaration.ofWord?) fun s declaration =>
      { s with declaration },
   .holding "index" toBool? fun s index => { s with index }]

def logFields : List (SettingsField LogSettings) :=
  [.holding "level" toText? fun s level => { s with level }]

def fields : List (SettingsField Settings) :=
  [.holding "search" (sectionOf? searchFields .default) fun s search => { s with search },
   .holding "output" (sectionOf? outputFields .default) fun s output => { s with output },
   .holding "log" (sectionOf? logFields .default) fun s log => { s with log }]

/-- The settings that a TOML text describes. -/
def parse? (text : String) : Option Settings :=
  (Toml.Document.parse? text).bind fun entries =>
    sectionOf? fields default (.table .header entries)

end Settings

/-- What there is at the path of a settings file. -/
inductive FileContent where
  | missing
  | directory
  /-- A file that cannot be read, for another reason. -/
  | unreadable (reason : String)
  | bytes (data : ByteArray)

/-- Why there are no settings. -/
inductive SettingsError where
  /-- The file could not be read as text. -/
  | unreadable (path reason : String)
  /-- The text does not describe settings. -/
  | malformed (path : String)
  deriving Repr, DecidableEq

namespace SettingsError

def message : SettingsError → String
  | unreadable path reason => s!"failed to read config {path}: {reason}"
  | malformed path => s!"invalid config {path}"

end SettingsError

namespace Settings

/-- The settings of a file. -/
def ofFile (path : String) : FileContent → Except SettingsError Settings
  | .missing => .error (.unreadable path "No such file or directory (os error 2)")
  | .directory => .error (.unreadable path "Is a directory (os error 21)")
  | .unreadable reason => .error (.unreadable path reason)
  | .bytes data =>
    match String.fromUTF8? data with
    | none => .error (.unreadable path "stream did not contain valid UTF-8")
    | some text =>
      match parse? text with
      | some settings => .ok settings
      | none => .error (.malformed path)

/-- The settings of the file at a path, or the default when no path is given. -/
def load (contentAt : String → FileContent) : Option String → Except SettingsError Settings
  | some path => ofFile path (contentAt path)
  | none => .ok default

end Settings

end FlatXor
