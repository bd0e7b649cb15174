import TaintFlow.Settings.Basic
import TaintFlow.Yaml.Typed

/-!
# Settings documents

A document names its version, a preset and, optionally, overrides of single options:

    version: 1
    preset: fast
    overrides:
      batch_size: 64

`Settings.ofText` reads and validates a document; `Settings.toText` writes settings as the balanced
preset with every option overridden. `Settings.ofRecord?` builds settings from loose fields instead,
without validation.
-/

namespace TaintFlow.Settings

open Yaml (Node)

/-- The largest number that a count may be. -/
def maxCount : Nat := 18446744073709551615

/-- The largest number that a version may be. -/
def maxVersion : Nat := 4294967295

/-! ## Reading -/

/-- Options that replace those of a preset. -/
structure Overrides where
  pathTracking : Option PathTracking := none
  inspectSinks : Option Bool := none
  stopAfterFirstFlow : Option Bool := none
  accessPathLength : Option Nat := none
  parallel : Option Bool := none
  batchSize : Option Nat := none
  maxPropagations : Option Nat := none
deriving DecidableEq, Repr

def Overrides.ofNode? (d : Yaml.Document) (node : Node) : Option Overrides := do
  let field ← d.fields? ["path_tracking", "inspect_sinks", "stop_after_first_flow",
    "access_path_length", "parallel", "batch_size", "max_propagations"] node
  return {
    pathTracking := ← Node.optional? (Node.choice? PathTracking.ofName?) (field "path_tracking")
    inspectSinks := ← Node.optional? Node.flag? (field "inspect_sinks")
    stopAfterFirstFlow := ← Node.optional? Node.flag? (field "stop_after_first_flow")
    accessPathLength := ← Node.optional? (Node.count? maxCount) (field "access_path_length")
    parallel := ← Node.optional? Node.flag? (field "parallel")
    batchSize := ← Node.optional? (Node.count? maxCount) (field "batch_size")
    maxPropagations := ← Node.optional? (Node.count? maxCount) (field "max_propagations") }

def override (s : Settings) (o : Overrides) : Settings where
  pathTracking := o.pathTracking.getD s.pathTracking
  inspectSinks := o.inspectSinks.getD s.inspectSinks
  stopAfterFirstFlow := o.stopAfterFirstFlow.getD s.stopAfterFirstFlow
  accessPathLength := o.accessPathLength.getD s.accessPathLength
  parallel := o.parallel.getD s.parallel
  batchSize := o.batchSize.getD s.batchSize
  maxPropagations := o.maxPropagations.getD s.maxPropagations

/-- The fields of a document, before any of them is judged. -/
structure Document where
  version : Option Nat
  preset : String
  overrides : Option Overrides
deriving DecidableEq, Repr

def Document.ofYaml? (d : Yaml.Document) : Option Document := do
  let field ← d.fields? ["version", "preset", "overrides"] d.root
  return {
    version := ← Node.optional? (Node.count? maxVersion) (field "version")
    preset := ← field "preset" >>= Node.word?
    overrides := ← Node.optional? (Overrides.ofNode? d) (field "overrides") }

/-- The version is judged before the preset, the preset before the ranges. -/
def Document.settings (d : Document) : Except Failure Settings := do
  match d.version with
  | none => throw .missingVersion
  | some 1 => pure ()
  | some found => throw (.unsupportedVersion found)
  let preset ← Preset.ofName d.preset
  let s := preset.settings.override (d.overrides.getD {})
  s.validate
  return s

def ofText (text : String) : Except Failure Settings :=
  match Yaml.Document.ofText? text >>= Document.ofYaml? with
  | some d => d.settings
  | none => .error .malformed

/-- Read a file, given by its contents if it exists. -/
def ofFile : Option String → Except Failure Settings
  | some contents => ofText contents
  | none => .error .missingFile

/-! ## Writing -/

def flagText (b : Bool) : String := if b then "true" else "false"

def toText (s : Settings) : String :=
  "version: 1\n" ++
  "preset: " ++ Preset.balanced.name ++ "\n" ++
  "overrides:\n" ++
  "  path_tracking: " ++ s.pathTracking.name ++ "\n" ++
  "  inspect_sinks: " ++ flagText s.inspectSinks ++ "\n" ++
  "  stop_after_first_flow: " ++ flagText s.stopAfterFirstFlow ++ "\n" ++
  "  access_path_length: " ++ s.accessPathLength.repr ++ "\n" ++
  "  parallel: " ++ flagText s.parallel ++ "\n" ++
  "  batch_size: " ++ s.batchSize.repr ++ "\n" ++
  "  max_propagations: " ++ s.maxPropagations.repr ++ "\n"

/-! ## Loose fields -/

/-- A field value of a structured record. -/
inductive Datum where
  | word (text : String)
  | flag (value : Bool)
  | count (value : Nat)
  /-- A record whose only field is null names a choice by that field. -/
  | choice (name : String)
  /-- Anything that no option can be: null, a fraction, a negative number, a list, another
  record. -/
  | other
deriving DecidableEq, Repr

namespace Datum

def tracking? : Datum → Option PathTracking
  | word name => PathTracking.ofName? name
  | choice name => PathTracking.ofName? name
  | _ => none

def flag? : Datum → Option Bool
  | flag b => some b
  | _ => none

def count? : Datum → Option Nat
  | count n => if n ≤ maxCount then some n else none
  | _ => none

end Datum

/-- A field that keeps its default if it is left out. -/
def fieldOr? {α : Type} (read : Datum → Option α) (fallback : α) : Option Datum → Option α
  | none => some fallback
  | some d => read d

/-- Settings from a record of fields: unknown fields are ignored, and a field of the wrong type
spoils the record. -/
def ofRecord? (field : String → Option Datum) : Option Settings := do
  let s : Settings := {}
  return {
    pathTracking := ← fieldOr? Datum.tracking? s.pathTracking (field "path_tracking")
    inspectSinks := ← fieldOr? Datum.flag? s.inspectSinks (field "inspect_sinks")
    stopAfterFirstFlow :=
      ← fieldOr? Datum.flag? s.stopAfterFirstFlow (field "stop_after_first_flow")
    accessPathLength := ← fieldOr? Datum.count? s.accessPathLength (field "access_path_length")
    parallel := ← fieldOr? Datum.flag? s.parallel (field "parallel")
    batchSize := ← fieldOr? Datum.count? s.batchSize (field "batch_size")
    maxPropagations := ← fieldOr? Datum.count? s.maxPropagations (field "max_propagations") }

end TaintFlow.Settings
