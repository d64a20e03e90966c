import SpanTree.Config.Fields
import SpanTree.Json.Read

/-!
# Configurations in JSON

A configuration is a record. Fields may be left out and unknown ones are ignored, but a field may be
given only once. Instead of names the order of the fields may tell what they are.
-/

namespace SpanTree

open Json.Read

namespace BillFields

def readNoRootNode (f : BillFields) (cs : List Char) : Except String (Parsed BillFields) := do
  let (b, rest) ← bool cs
  return ({ f with noRootNode := some b }, rest)

def readRootName (f : BillFields) (cs : List Char) : Except String (Parsed BillFields) := do
  let (s, rest) ← string cs
  return ({ f with rootName := some s }, rest)

def readField (f : BillFields) (name : String) (cs : List Char) :
    Except String (Parsed BillFields) :=
  match name with
  | "no_root_node" =>
    if f.noRootNode.isSome then .error "repeated field" else f.readNoRootNode cs
  | "root_name" => if f.rootName.isSome then .error "repeated field" else f.readRootName cs
  | _ => (value cs).map fun rest => (f, rest)

def read (cs : List Char) : Except String (Parsed BillConfig) := do
  let (f, rest) ← record readField [readNoRootNode, readRootName] {} cs
  return (f.complete, rest)

end BillFields

namespace OutputFields

def readSerializer (f : OutputFields) (cs : List Char) : Except String (Parsed OutputFields) := do
  let (s, rest) ← string cs
  return ({ f with serializer := some s }, rest)

def readLogger (f : OutputFields) (cs : List Char) : Except String (Parsed OutputFields) := do
  let (s, rest) ← string cs
  return ({ f with logger := some s }, rest)

def readGzip (f : OutputFields) (cs : List Char) : Except String (Parsed OutputFields) := do
  let (b, rest) ← bool cs
  return ({ f with gzip := some b }, rest)

def readBill (f : OutputFields) (cs : List Char) : Except String (Parsed OutputFields) := do
  let (b, rest) ← BillFields.read cs
  return ({ f with bill := some b }, rest)

def readField (f : OutputFields) (name : String) (cs : List Char) :
    Except String (Parsed OutputFields) :=
  match name with
  | "serializer" => if f.serializer.isSome then .error "repeated field" else f.readSerializer cs
  | "logger" => if f.logger.isSome then .error "repeated field" else f.readLogger cs
  | "gzip" => if f.gzip.isSome then .error "repeated field" else f.readGzip cs
  | "bill" => if f.bill.isSome then .error "repeated field" else f.readBill cs
  | _ => (value cs).map fun rest => (f, rest)

def readJson (cs : List Char) : Except String (Parsed OutputFields) :=
  record readField [readSerializer, readLogger, readGzip, readBill] {} cs

end OutputFields

def OutputConfig.readJson (text : String) : Except String OutputConfig :=
  (whole OutputFields.readJson text.toList).map (·.complete)

end SpanTree
