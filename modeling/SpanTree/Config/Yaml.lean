import SpanTree.Config.Fields
import SpanTree.Yaml.Document

/-!
# Configurations in YAML

A configuration is a mapping. Fields may be left out and unknown ones are ignored, but a field may
be given only once. An empty scalar, as behind a key without a value, is a mapping without entries.

A text may be any scalar, whatever it looks like; a boolean is one of six plain words.
-/

namespace SpanTree

open Yaml

namespace Yaml.Document

/-- The node itself, or the one that an alias refers to. -/
def resolve (d : Document) : Yaml.Node → Except String Yaml.Node
  | .alias target =>
    match d.anchored.lookup target with
    | some n => .ok n
    | none => .error "unknown anchor"
  | n => .ok n

def text (d : Document) (n : Yaml.Node) : Except String String := do
  match ← d.resolve n with
  | .scalar _ _ s => return s
  | _ => throw "text expected"

def boolTag : String := "tag:yaml.org,2002:bool"

/-- A quoted word is no boolean, and neither is a block scalar, unless a literal one says so by its
tag. -/
def bool (d : Document) (n : Yaml.Node) : Except String Bool := do
  match ← d.resolve n with
  | .scalar style tag s =>
    if style = .plain ∨ (style = .literal ∧ tag = some boolTag) then
      if ["true", "True", "TRUE"].contains s then return true
      else if ["false", "False", "FALSE"].contains s then return false
      else throw "boolean expected"
    else throw "boolean expected"
  | _ => throw "boolean expected"

/-- The entries of a record, each handed to `field` with what is known so far. -/
def record {σ : Type} (d : Document) (field : σ → String → Yaml.Node → Except String σ) (s : σ)
    (n : Yaml.Node) : Except String σ := do
  match ← d.resolve n with
  | .mapping entries =>
    entries.foldlM (fun s (k, v) => do field s (← d.text k) v) s
  | .scalar _ _ "" => return s
  | _ => throw "mapping expected"

end Yaml.Document

namespace BillFields

def ofYamlField (d : Document) (f : BillFields) (name : String) (v : Yaml.Node) :
    Except String BillFields :=
  match name with
  | "no_root_node" =>
    if f.noRootNode.isSome then .error "repeated field"
    else (d.bool v).map fun b => { f with noRootNode := some b }
  | "root_name" =>
    if f.rootName.isSome then .error "repeated field"
    else (d.text v).map fun s => { f with rootName := some s }
  | _ => .ok f

end BillFields

namespace OutputFields

def ofYamlField (d : Document) (f : OutputFields) (name : String) (v : Yaml.Node) :
    Except String OutputFields :=
  match name with
  | "serializer" =>
    if f.serializer.isSome then .error "repeated field"
    else (d.text v).map fun s => { f with serializer := some s }
  | "logger" =>
    if f.logger.isSome then .error "repeated field"
    else (d.text v).map fun s => { f with logger := some s }
  | "gzip" =>
    if f.gzip.isSome then .error "repeated field"
    else (d.bool v).map fun b => { f with gzip := some b }
  | "bill" =>
    if f.bill.isSome then .error "repeated field"
    else
      (d.record (BillFields.ofYamlField d) {} v).map fun b => { f with bill := some b.complete }
  | _ => .ok f

/-- A text without content gives nothing. -/
def ofYaml (cs : List Char) : Except String OutputFields := do
  let d ← Document.parse cs
  match d.root with
  | none => return {}
  | some n => d.record (ofYamlField d) {} n

end OutputFields

def OutputConfig.readYaml (text : String) : Except String OutputConfig :=
  (OutputFields.ofYaml text.toList).map (·.complete)

end SpanTree
