import SpanTree.Error
import SpanTree.Path.Entries
import SpanTree.Text.Pieces
import SpanTree.Text.Utf8

/-!
# Directories

What a command can see: files, and the folders that hold them, by their paths from one directory. A
path is a list of steps; repeated slashes and the step `.` lead nowhere. Every step but the last
must lead to a folder, and a path that ends in a slash or in `.` asks for a folder too.
-/

namespace SpanTree

/-- What a path leads to. -/
inductive Item
  | file (content : Bytes)
  | folder
deriving DecidableEq, Repr

abbrev Directory := Entries Item

namespace Directory

/-- How a path ends: in a name, in a slash or in the step `.`. -/
inductive Ending
  | name
  | slash
  | dot
deriving DecidableEq, Repr

/-- The steps of a path, with an empty one in front if the path is absolute. -/
def steps (path : String) : List (List Char) :=
  let parts := (Text.pieces '/' path.toList).filter fun p => !(p.isEmpty || p == ['.'])
  if path.toList.head? = some '/' then [] :: parts else parts

def ending (path : String) : Ending :=
  match (Text.pieces '/' path.toList).getLast? with
  | some ['.'] => .dot
  | some [] => .slash
  | _ => .name

/-- The key of an item. That of the directory itself is empty. -/
def key (steps : List (List Char)) : String := String.ofList (Text.unite '/' steps)

/-- The keys on the way to the last step. -/
def parents (steps : List (List Char)) : List String :=
  ((List.range steps.length).drop 1).map fun n => key (steps.take n)

def item? (d : Directory) (key : String) : Option Item :=
  if key.isEmpty then some .folder else d.get? key

/-- Why the folders on the way cannot be passed, if they cannot. -/
def obstacle? (d : Directory) : List String → Option FileFault
  | [] => none
  | k :: ks =>
    match d.item? k with
    | none => some .notFound
    | some (.file _) => some .notDirectory
    | some .folder => obstacle? d ks

/-- Puts folders into the directory on the way that a path takes. -/
def addFolders (d : Directory) (path : String) : Directory :=
  (parents (steps path)).foldl (fun (d : Directory) k => d.insert k .folder) d

/-- Puts a file into the directory, with the folders on the way to it. -/
def add (d : Directory) (path : String) (bytes : Bytes) : Directory :=
  (d.addFolders path).insert (key (steps path)) (.file bytes)

def read (d : Directory) (path : String) : Except FileFault Bytes :=
  match d.obstacle? (parents (steps path)) with
  | some fault => .error fault
  | none =>
    match d.item? (key (steps path)) with
    | none => .error .notFound
    | some .folder => .error .isDirectory
    | some (.file bytes) => if ending path = .name then .ok bytes else .error .notDirectory

def readText (d : Directory) (path : String) : Except FileFault String :=
  match d.read path with
  | .error fault => .error fault
  | .ok bytes =>
    match Utf8.decode? bytes with
    | some s => .ok s
    | none => .error .notUtf8

/-- Writes a file in a folder that is there already. -/
def write (d : Directory) (path : String) (bytes : Bytes) : Except FileFault Directory :=
  let k := key (steps path)
  let way := parents (steps path) ++ (if ending path = .dot then [k] else [])
  match d.obstacle? way with
  | some fault => .error fault
  | none =>
    if ending path ≠ .name then .error .isDirectory
    else
      match d.item? k with
      | some .folder => .error .isDirectory
      | _ => .ok (d.insert k (.file bytes))

end Directory

end SpanTree
