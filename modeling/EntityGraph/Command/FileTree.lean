import EntityGraph.Command.Directories

/-!
# A model of a file system

A tree of files and directories under a root, as a function from paths to what is there.  Paths
are lists of names.  A path as written starts at the root if a slash comes first, and in the
working directory otherwise; in it empty names and `.` count for nothing and `..` leads back one
directory.  A name has at most 255 bytes and a path as written fewer than 4096.

Writing a file fails without effect when the path is a directory or its parent is not one, and
so does making a directory where something is already or where the parent is no directory.
-/

namespace EntityGraph

inductive FileTree.Entry where
  | file (text : String)
  | directory

def FileTree := List String → Option FileTree.Entry

namespace FileTree

/-- The root and nothing else. -/
def empty : FileTree
  | [] => some .directory
  | _ :: _ => none

def set (t : FileTree) (path : List String) (e : Entry) : FileTree :=
  fun p => if p = path then some e else t p

/-! ## Paths as written -/

/-- Where the names of a path are looked up first. -/
def start (here : List String) (path : String) : List String :=
  if Directories.rooted path then [] else here

/-- Follows names from a directory; every name but the last has to lead to a directory. -/
def follow (t : FileTree) : (base names : List String) → Except OsError (List String)
  | base, [] => .ok base
  | base, name :: rest =>
    match t base with
    | none => .error .notFound
    | some (.file _) => .error .notDirectory
    | some .directory =>
      if name = "" || name = "." then follow t base rest
      else if name = ".." then follow t base.dropLast rest
      else if 255 < name.utf8ByteSize then .error .nameTooLong
      else follow t (base ++ [name]) rest

/-- The names of a path that can be followed. -/
def names (path : String) : Except OsError (List String) :=
  if path.isEmpty then .error .notFound
  else if 4096 ≤ path.utf8ByteSize then .error .nameTooLong
  else .ok (Directories.names path)

/-- Where a path leads, whether or not there is something. -/
def locate (t : FileTree) (here : List String) (path : String) : Except OsError (List String) := do
  t.follow (start here path) (← names path)

/-! ## Operations -/

def read (t : FileTree) (here : List String) (path : String) : Except OsError String :=
  match t.locate here path with
  | .error e => .error e
  | .ok p =>
    match t p with
    | some (.file text) => .ok text
    | some .directory => .error .isDirectory
    | none => .error .notFound

def write (t : FileTree) (here : List String) (path text : String) : Except OsError FileTree :=
  match t.locate here path with
  | .error e => .error e
  | .ok p =>
    match t p with
    | some .directory => .error .isDirectory
    | _ => .ok (t.set p (.file text))

/-- Makes the directory that the last name of a path is to be, in the one that the names before
it lead to.  Slashes at the end count for nothing. -/
def makeDirectory (t : FileTree) (here : List String) (path : String) :
    Except OsError FileTree := do
  let names := ((← names path).reverse.dropWhile (·.isEmpty)).reverse
  match names.getLast? with
  | none => .error .exists
  | some last =>
    let parent ← t.follow (start here path) (names.dropLast ++ ["."])
    if last = "." || last = ".." then .error .exists
    else
      let p ← t.follow parent [last]
      match t p with
      | some _ => .error .exists
      | none => .ok (t.set p .directory)

/-! ## Trees with given files -/

/-- The tree with directories along a path. -/
def reach (t : FileTree) (path : List String) : FileTree :=
  fun p => if p.isPrefixOf path then some .directory else t p

/-- Puts a file into the tree, with the directories above it. -/
def place (t : FileTree) (path : List String) (text : String) : FileTree :=
  (t.reach path.dropLast).set path (.file text)

/-- A directory that holds the given files, and nothing besides. -/
def ofFiles (here : List String) (files : List (String × String)) : FileTree :=
  files.foldl (fun t (name, text) => t.place (here ++ Directories.names name) text)
    (empty.reach here)

end FileTree

/-- A model of the surroundings of a command: its files and its working directory, and what it
has printed. -/
structure Surroundings where
  files : FileTree
  directory : List String
  printed : String
  warned : String

namespace Surroundings

/-- Changes the files, if that succeeds. -/
def change (result : Except OsError FileTree) : StateM Surroundings (Except OsError Unit) :=
  fun s =>
    match result with
    | .ok files => (.ok (), { s with files })
    | .error e => (.error e, s)

instance : Host (StateM Surroundings) where
  read path := fun s => (s.files.read s.directory path, s)
  makeDirectory path := fun s => change (s.files.makeDirectory s.directory path) s
  write path text := fun s => change (s.files.write s.directory path text) s
  print text := fun s => ((), { s with printed := s.printed ++ text })
  warn text := fun s => ((), { s with warned := s.warned ++ text })

end Surroundings

end EntityGraph
