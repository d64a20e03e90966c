import SpanTree.Yaml.Token

/-!
# Documents

A document is the node that its tokens denote. A node which is left out is an empty plain scalar.
An alias refers to the last anchor of its name before it; the nodes that have anchors are kept
apart, by the order in which their anchors came.
-/

namespace SpanTree.Yaml

inductive Node
  | scalar (style : Style) (tag : Option String) (text : String)
  | sequence (items : List Node)
  | mapping (entries : List (Node × Node))
  | alias (target : Nat)

namespace Node

instance : Inhabited Node := ⟨sequence []⟩

/-- The node that is left out. -/
def blank : Node := scalar .plain none ""

end Node

/-- A document without content has no root. -/
structure Document where
  root : Option Node
  /-- The nodes with anchors, by the numbers that aliases refer to. -/
  anchored : List (Nat × Node)

/-- What is known while nodes are read. -/
structure Builder where
  tokens : List Token
  /-- The meanings of the tag handles. -/
  handles : List (String × String)
  /-- The numbers of the anchors by name, the latest first. -/
  anchors : List (String × Nat)
  anchored : List (Nat × Node)

abbrev Building (α : Type) := ExceptT String (StateM Builder) α

namespace Builder

def peek : Building (Option Token) := do return (← get).tokens.head?

def skip : Building Unit := modify fun b => { b with tokens := b.tokens.drop 1 }

/-! ## Properties of a node -/

/-- The tag that a handle and a suffix stand for. -/
def resolveTag (handle suffix : String) : Building String := do
  if handle.isEmpty then return suffix
  else
    match (← get).handles.lookup handle with
    | some start => return start ++ suffix
    | none => throw "undefined tag handle"

/-- An anchor and a tag, in either order and each at most once. -/
def properties : Building (Option String × Option String) := do
  match ← peek with
  | some (.anchor name) =>
    skip
    match ← peek with
    | some (.tag handle suffix) =>
      skip
      return (some name, some (← resolveTag handle suffix))
    | _ => return (some name, none)
  | some (.tag handle suffix) =>
    skip
    match ← peek with
    | some (.anchor name) =>
      skip
      return (some name, some (← resolveTag handle suffix))
    | _ => return (none, some (← resolveTag handle suffix))
  | _ => return (none, none)

/-- Gives an anchor its number, under which the node will be found. -/
def declare (name? : Option String) : Building (Option Nat) := do
  match name? with
  | none => return none
  | some name =>
    let b ← get
    let number := b.anchors.length
    set { b with anchors := (name, number) :: b.anchors }
    return some number

def keep (number? : Option Nat) (n : Node) : Building Node := do
  match number? with
  | none => return n
  | some number =>
    modify fun b => { b with anchored := (number, n) :: b.anchored }
    return n

/-! ## Nodes -/

/-- Which tokens may begin a node besides the usual ones. -/
structure Context where
  /-- Block collections. -/
  allowsBlock : Bool
  /-- A sequence that is not indented deeper than its key. -/
  allowsFlat : Bool

def isOneOf (t? : Option Token) (ts : List Token) : Bool := t?.any (ts.contains ·)

mutual

def node : (fuel : Nat) → Context → Building Node
  | 0, _ => throw "document too long"
  | fuel + 1, c => do
    match ← peek with
    | some (.alias name) =>
      skip
      match (← get).anchors.lookup name with
      | some number => return .alias number
      | none => throw "unknown anchor"
    | _ =>
      let (anchor?, tag?) ← properties
      let number? ← declare anchor?
      match ← peek with
      | some (.scalar style text) =>
        skip
        keep number? (.scalar style tag? text)
      | some .flowSequenceStart =>
        skip
        keep number? (.sequence (← flowItems fuel true))
      | some .flowMappingStart =>
        skip
        keep number? (.mapping (← flowEntries fuel true))
      | t? =>
        if c.allowsFlat && t? = some .blockEntry then
          keep number? (.sequence (← flatItems fuel))
        else if c.allowsBlock && t? = some .blockSequenceStart then
          skip
          keep number? (.sequence (← blockItems fuel))
        else if c.allowsBlock && t? = some .blockMappingStart then
          skip
          keep number? (.mapping (← blockEntries fuel))
        else if anchor?.isSome || tag?.isSome then keep number? (.scalar .plain tag? "")
        else throw "node expected"

/-- A node, or the empty one if a token comes that ends it. -/
def nodeBefore : (fuel : Nat) → Context → (ends : List Token) → Building Node
  | 0, _, _ => throw "document too long"
  | fuel + 1, c, ends => do if isOneOf (← peek) ends then return .blank else node fuel c

def blockItems : (fuel : Nat) → Building (List Node)
  | 0 => throw "document too long"
  | fuel + 1 => do
    match ← peek with
    | some .blockEntry =>
      skip
      let n ← nodeBefore fuel ⟨true, false⟩ [.blockEntry, .blockEnd]
      return n :: (← blockItems fuel)
    | some .blockEnd =>
      skip
      return []
    | _ => throw "block entry expected"

/-- The items of a sequence in a mapping that is indented no deeper than its key. -/
def flatItems : (fuel : Nat) → Building (List Node)
  | 0 => throw "document too long"
  | fuel + 1 => do
    match ← peek with
    | some .blockEntry =>
      skip
      let n ← nodeBefore fuel ⟨true, false⟩ [.blockEntry, .key, .value, .blockEnd]
      return n :: (← flatItems fuel)
    | _ => return []

def blockEntries : (fuel : Nat) → Building (List (Node × Node))
  | 0 => throw "document too long"
  | fuel + 1 => do
    let ends := [Token.key, .value, .blockEnd]
    match ← peek with
    | some .key =>
      skip
      let k ← nodeBefore fuel ⟨true, true⟩ ends
      if (← peek) = some .value then
        skip
        let v ← nodeBefore fuel ⟨true, true⟩ ends
        return (k, v) :: (← blockEntries fuel)
      else return (k, .blank) :: (← blockEntries fuel)
    | some .blockEnd =>
      skip
      return []
    | _ => throw "key expected"

/-- The items of a flow sequence; the first needs no comma before it. An item with a key is a
mapping of a single entry. -/
def flowItems : (fuel : Nat) → (isFirst : Bool) → Building (List Node)
  | 0, _ => throw "document too long"
  | fuel + 1, isFirst => do
    if (← peek) = some .flowSequenceEnd then
      skip
      return []
    else
      if !isFirst then
        if (← peek) = some .flowEntry then skip else throw "comma or bracket expected"
      match ← peek with
      | some .flowSequenceEnd =>
        skip
        return []
      | some .key =>
        skip
        let k ←
          if isOneOf (← peek) [.value, .flowEntry, .flowSequenceEnd] then
            skip
            pure Node.blank
          else node fuel ⟨false, false⟩
        let v ←
          if (← peek) = some .value then
            skip
            nodeBefore fuel ⟨false, false⟩ [.flowEntry, .flowSequenceEnd]
          else pure Node.blank
        return .mapping [(k, v)] :: (← flowItems fuel false)
      | _ =>
        let n ← node fuel ⟨false, false⟩
        return n :: (← flowItems fuel false)

/-- The entries of a flow mapping; the first needs no comma before it. -/
def flowEntries : (fuel : Nat) → (isFirst : Bool) → Building (List (Node × Node))
  | 0, _ => throw "document too long"
  | fuel + 1, isFirst => do
    if (← peek) = some .flowMappingEnd then
      skip
      return []
    else
      if !isFirst then
        if (← peek) = some .flowEntry then skip else throw "comma or brace expected"
      match ← peek with
      | some .flowMappingEnd =>
        skip
        return []
      | some .key =>
        skip
        let k ← nodeBefore fuel ⟨false, false⟩ [.value, .flowEntry, .flowMappingEnd]
        let v ←
          if (← peek) = some .value then
            skip
            nodeBefore fuel ⟨false, false⟩ [.flowEntry, .flowMappingEnd]
          else pure Node.blank
        return (k, v) :: (← flowEntries fuel false)
      | _ =>
        let k ← node fuel ⟨false, false⟩
        return (k, .blank) :: (← flowEntries fuel false)

end

/-! ## The whole text -/

def defaultHandles : List (String × String) := [("!", "!"), ("!!", "tag:yaml.org,2002:")]

/-- Directives: at most one version, which must be 1.1 or 1.2, and no handle twice. -/
def directives (versionSeen : Bool) (handles : List (String × String)) :
    (fuel : Nat) → Building (Bool × List (String × String))
  | 0 => throw "document too long"
  | fuel + 1 => do
    match ← peek with
    | some (.versionDirective major minor) =>
      if versionSeen then throw "repeated version"
      else if major ≠ 1 ∨ (minor ≠ 1 ∧ minor ≠ 2) then throw "incompatible version"
      else
        skip
        directives true handles fuel
    | some (.tagDirective handle start) =>
      if (handles.lookup handle).isSome then throw "repeated tag handle"
      else
        skip
        directives versionSeen ((handle, start) :: handles) fuel
    | _ => return (versionSeen, handles)

/-- The root of the only document. -/
def root (fuel : Nat) : Building (Option Node) := do
  match ← peek with
  | none => return none
  | t? =>
    let (versionSeen, handles) ← directives false [] fuel
    modify fun b => { b with handles := handles ++ b.handles }
    let isMarked := isOneOf t? [.documentStart] || versionSeen || !handles.isEmpty
    if isMarked then
      if (← peek) = some .documentStart then skip else throw "document start expected"
    let isEmpty := match ← peek with
      | none | some .documentStart | some .documentEnd | some (.versionDirective _ _)
      | some (.tagDirective _ _) => isMarked
      | _ => false
    if isEmpty then return some .blank
    else return some (← node fuel ⟨true, false⟩)

/-- Nothing but the end of the document may follow its root. -/
def finish (fuel : Nat) : Building Unit := do
  match fuel, ← peek with
  | _, none => return
  | fuel + 1, some .documentEnd =>
    skip
    finish fuel
  | _, _ => throw "more than one document"

end Builder

/-- The only document of a text. -/
def Document.parse (cs : List Char) : Except String Document := do
  let ts ← tokens cs
  let fuel := 4 * ts.length + 4
  let build : Building (Option Node) := do
    let root ← Builder.root fuel
    Builder.finish fuel
    return root
  match build.run.run ⟨ts, Builder.defaultHandles, [], []⟩ with
  | (.error reason, _) => throw reason
  | (.ok root, b) => return ⟨root, b.anchored⟩

end SpanTree.Yaml
