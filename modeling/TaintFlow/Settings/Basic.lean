/-!
# Settings of an analysis run

Seven options steer a run. Every option has a default, three presets bundle complete settings, and
`Settings.validate` checks the two options that have a range.

The causes for which settings are refused form `Settings.Failure`; `Failure.message` is their only
wording.
-/

namespace TaintFlow

/-- Whether facts carry a witness path from their source to the current statement. -/
inductive PathTracking where
  | off
  | forward
deriving DecidableEq, Repr

namespace PathTracking

def name : PathTracking → String
  | off => "none"
  | forward => "forward"

def ofName? : String → Option PathTracking
  | "none" => some off
  | "forward" => some forward
  | _ => none

end PathTracking

structure Settings where
  pathTracking : PathTracking := .off
  /-- Follow facts into the body of a call that is a sink itself. -/
  inspectSinks : Bool := true
  /-- Every flow function answers with nothing once a finding exists. -/
  stopAfterFirstFlow : Bool := false
  /-- The longest field chain of an access path. -/
  accessPathLength : Nat := 5
  /-- Evaluate the normal flows of a batch side by side. They then take effect in any order; their
  facts are recorded in the order of the batch all the same. -/
  parallel : Bool := true
  /-- The number of path edges that one solver step takes from the worklist. -/
  batchSize : Nat := 256
  /-- A cap on processed path edges over both solvers; zero stands for no cap. -/
  maxPropagations : Nat := 0
deriving DecidableEq, Repr

/-- Complete settings for a common use. -/
inductive Preset where
  | fast
  | balanced
  | thorough
deriving DecidableEq, Repr

namespace Settings

inductive Failure where
  | range (field : String) (value least most : Nat) (hint : String)
  | missingVersion
  | unsupportedVersion (found : Nat)
  | unknownPreset (name : String)
  /-- The document is not written in the settings notation, or a field has the wrong type. -/
  | malformed
  | missingFile
deriving DecidableEq, Repr

def Failure.message : Failure → String
  | range field value least most hint =>
    s!"Invalid range for field '{field}': {value} not in {least}..={most}. {hint}"
  | missingVersion =>
    "Missing 'version' field in configuration file. Add 'version: 1' to the top of your YAML file."
  | unsupportedVersion found =>
    s!"Unsupported configuration version {found}. Supported versions: 1"
  | unknownPreset name => s!"Unknown preset '{name}'. Valid presets: fast, balanced, thorough"
  | malformed => "YAML parsing error"
  | missingFile => "IO error"

end Settings

namespace Preset

def name : Preset → String
  | fast => "fast"
  | balanced => "balanced"
  | thorough => "thorough"

/-- Preset names are read without regard to case. Only ASCII letters have a lower case that occurs
in one of the three names, so no other case mapping is needed. -/
def ofName (name : String) : Except Settings.Failure Preset :=
  match name.map Char.toLower with
  | "fast" => .ok fast
  | "balanced" => .ok balanced
  | "thorough" => .ok thorough
  | _ => .error (.unknownPreset name)

def settings : Preset → Settings
  | fast => { stopAfterFirstFlow := true, accessPathLength := 3 }
  | balanced => {}
  | thorough => { pathTracking := .forward, accessPathLength := 8 }

end Preset

namespace Settings

def tracksPaths (s : Settings) : Bool := s.pathTracking == .forward

def checkRange (field : String) (value least most : Nat) (hint : String) : Except Failure Unit :=
  if least ≤ value ∧ value ≤ most then .ok () else .error (.range field value least most hint)

def validate (s : Settings) : Except Failure Unit := do
  checkRange "access_path_length" s.accessPathLength 1 32
    "Access paths need at least one field to stay field-sensitive"
  checkRange "batch_size" s.batchSize 1 1000000
    "Each solver step must take at least one worklist item"

end Settings

end TaintFlow
