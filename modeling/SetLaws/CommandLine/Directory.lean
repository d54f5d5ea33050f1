/-!
# Directories

The files and folders of a file system, and how a path leads to them.  A path begins at
the root of the file system when it is absolute, and in the working directory otherwise.
Paths and names have a greatest size.  There are no links, and no file or folder is
closed to its reader or writer.

A file is written in two steps.  The folders that the path names are made first, from
left to right, and stay even where the second step, which creates the file, fails.
-/

namespace SetLaws
namespace CommandLine

/-- The names on the way from the root to a file or a folder. -/
abbrev Route := List String

/-- A file with its text, or a folder with what it holds under each name. -/
inductive Node where
  | file (text : String)
  | folder (entries : List (String × Node))

namespace Node

/-- What a node holds; a file holds nothing. -/
def entries : Node → List (String × Node)
  | file _ => []
  | folder entries => entries

def find? (n : Node) : Route → Option Node
  | [] => some n
  | name :: route => (n.entries.lookup name).bind (·.find? route)

def isFolder (n : Node) (route : Route) : Bool :=
  match n.find? route with
  | some (.folder _) => true
  | _ => false

/-- The node with another one at the end of a route, in place of what is there. -/
def put (n : Node) (new : Node) : Route → Node
  | [] => new
  | name :: route =>
    let old := (n.entries.lookup name).getD (folder [])
    folder ((name, old.put new route) :: n.entries.filter (·.1 ≠ name))

theorem find?_put (n new : Node) (route : Route) : (n.put new route).find? route = some new := by
  induction route generalizing n with
  | nil => rfl
  | cons name route ih =>
    rw [put, find?, entries, List.lookup_cons_self, Option.bind_some]
    exact ih _

end Node

/-- A directory in a file system. -/
structure Directory where
  root : Node
  /-- The route to the directory, where relative paths begin. -/
  place : Route

namespace Directory

/-- An empty directory in a file system that holds nothing else. -/
def empty : Directory := ⟨.folder [("work", .folder [])], ["work"]⟩

def file? (d : Directory) (route : Route) : Option String :=
  match d.root.find? route with
  | some (.file text) => some text
  | _ => none

def isFolder (d : Directory) (route : Route) : Bool :=
  d.root.isFolder route

def put (d : Directory) (route : Route) (n : Node) : Directory :=
  { d with root := d.root.put n route }

/-- A file that is put at the end of a route can be read there. -/
theorem file?_put (d : Directory) (route : Route) (text : String) :
    (d.put route (.file text)).file? route = some text := by
  rw [file?, put, Node.find?_put]

def maxPathSize : Nat := 4095

def maxNameSize : Nat := 255

def splitPath (path : String) : List String :=
  (path.toList.splitOn '/').map String.ofList

/-- The parts of a path; an empty one is no path. -/
def pathParts (path : String) : Option (List String) :=
  if path.isEmpty then none else some (splitPath path)

/-- Where a path begins. -/
def start (d : Directory) (path : String) : Route :=
  if path.toList.head? = some '/' then [] else d.place

/-- Whether a part of a path leads on from a folder to the same folder. -/
def staysInPlace (part : String) : Bool :=
  part = "" || part = "."

/-- Follows the parts of a path from the end of a route.  The parts before the last have
to lead to folders.  The root is the folder around itself. -/
def follow (d : Directory) (route : Route) : List String → Option Route
  | [] => some route
  | part :: parts =>
    if !d.isFolder route then none
    else if staysInPlace part then d.follow route parts
    else if part = ".." then d.follow route.dropLast parts
    else d.follow (route ++ [part]) parts

def read (d : Directory) (path : String) : Option String :=
  if maxPathSize < path.utf8ByteSize then none
  else ((pathParts path).bind (d.follow (d.start path))).bind d.file?

/-- Follows the parts of a path and makes the folders that are missing, up to the
first part that cannot lead to a folder: the directory afterwards, and the route that
was followed if there is no such part. -/
def makeFolders (d : Directory) (route : Route) : List String → Directory × Option Route
  | [] => (d, some route)
  | part :: parts =>
    if staysInPlace part then d.makeFolders route parts
    else if part = ".." then d.makeFolders route.dropLast parts
    else
      let route := route ++ [part]
      if d.isFolder route then d.makeFolders route parts
      else if (d.file? route).isSome || maxNameSize < part.utf8ByteSize then (d, none)
      else (d.put route (.folder [])).makeFolders route parts

/-- Drops the parts at the end of a path that stay in place, but no `.` at its start. -/
def dropEnd : List String → List String
  | "." :: parts => "." :: (parts.reverse.dropWhile staysInPlace).reverse
  | parts => (parts.reverse.dropWhile staysInPlace).reverse

/-- The parts of the path to the folder that holds what a path names. -/
def parentParts (parts : List String) : List String :=
  dropEnd (dropEnd parts).dropLast

def isFileName (name : String) : Bool :=
  !staysInPlace name && name ≠ ".." && name.utf8ByteSize ≤ maxNameSize

/-- Writes a file at a path and makes the folders around it.  No file is written where
the path cannot be that of a file. -/
def write (d : Directory) (path : String) (text : String) : Directory :=
  match pathParts path with
  | none => d
  | some parts =>
    let parent := parentParts parts
    if maxPathSize < ("/".intercalate parent).utf8ByteSize then d
    else match d.makeFolders (d.start path) parent with
      | (made, none) => made
      | (made, some folder) =>
        let name := parts.getLast?.getD ""
        let route := folder ++ [name]
        if maxPathSize < path.utf8ByteSize || !isFileName name || made.isFolder route then made
        else made.put route (.file text)

/-- The directory with the given files, which are written one after the other. -/
def ofFiles (files : List (String × String)) : Directory :=
  files.foldl (fun d (path, text) => d.write path text) empty

end Directory
end CommandLine
end SetLaws
