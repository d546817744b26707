import RoundTrip.Store.Files

/-!
# A tree of directories

Files in directories, with a working directory. A path is walked name by name; what is missing on
the way, or is no directory, is the failure of the walk. Beside the files of the working directory
the tree has the device `/dev/null`, which is empty and takes everything.

Main definitions: `Node`, `Tree`, `Tree.walk`, `Tree.locate`, `Tree.target`, `Tree.storage`,
`Tree.after`, `Tree.files`.
-/

set_option autoImplicit false

namespace RoundTrip.Store

open RoundTrip.Run

/-! ## Trees -/

/-- What stands at a place. -/
inductive Node where
  | directory
  | regular (contents : Bytes)
  /-- The device that is empty and forgets what is written to it. -/
  | null
  deriving DecidableEq, Repr

/-- A place: the names on the way to it, the last one first. -/
abbrev Place := List String

/-- The places that are taken. The root always is. -/
abbrev Tree := List (Place × Node)

namespace Tree

/-- What stands at a place. -/
def node? (t : Tree) (p : Place) : Option Node :=
  if p.isEmpty then some .directory else t.lookup p

/-- The tree with a node at a place. -/
def insert (t : Tree) (p : Place) (n : Node) : Tree := (p, n) :: t.filter fun e => e.1 != p

/-! ## Walks -/

/-- Why a path leads nowhere. -/
inductive WalkError where
  | absent
  | notDirectory
  | isDirectory
  | nameTooLong
  /-- The path holds a character that no path can hold. -/
  | invalid
  deriving DecidableEq, Repr

/-- The text of a walk error. -/
def WalkError.text : WalkError → String
  | absent => "no such file or directory"
  | notDirectory => "not a directory"
  | isDirectory => "is a directory"
  | nameTooLong => "file name too long"
  | invalid => "invalid argument"

/-- The greatest length of a name in bytes. -/
def maxName : Nat := 255

/-- The greatest length of a path in bytes. -/
def maxPath : Nat := 4095

/-- The step from a directory to a name in it. A step to a missing file succeeds; the next one
does not. -/
def enter (t : Tree) (p : Place) (name : String) : Except WalkError Place :=
  match t.node? p with
  | some .directory =>
      if name = "" ∨ name = "." then .ok p
      else if name = ".." then .ok p.tail
      else if maxName < name.utf8ByteSize then .error .nameTooLong
      else .ok (name :: p)
  | some _ => .error .notDirectory
  | none => .error .absent

/-- The walk along several names. -/
def walk (t : Tree) : Place → List String → Except WalkError Place
  | p, [] => .ok p
  | p, name :: names =>
      match t.enter p name with
      | .ok q => t.walk q names
      | .error e => .error e

/-- The names of a path. A slash at an end of the path has the empty name beside it. -/
def names (path : String) : List String := path.splitOn "/"

/-- Where the walk along a path starts: at the root or in the working directory. -/
def start (home : Place) (path : String) : Place := if path.startsWith "/" then [] else home

/-- The check of a path before it is walked. -/
def check (path : String) : Except WalkError Unit :=
  if path.contains (Char.ofNat 0) then .error .invalid
  else if maxPath < path.utf8ByteSize then .error .nameTooLong
  else .ok ()

/-- The node that a path leads to. -/
def locate (t : Tree) (home : Place) (path : String) : Except WalkError Node := do
  check path
  let p ← t.walk (start home path) (names path)
  match t.node? p with
  | some n => return n
  | none => throw .absent

/-- A name that stands for a file and not for a directory on the way. -/
def isProper (name : String) : Bool := name != "" && name != "." && name != ".."

/-- The place that a path leads to, when a file is to be written there. The directory around it
must exist, and a path that ends in a slash stands for a directory. -/
def target (t : Tree) (home : Place) (path : String) : Except WalkError Place := do
  check path
  let reversed := (names path).reverse
  let way := (reversed.dropWhile (· == "")).reverse
  let directory ← t.walk (start home path) way.dropLast
  -- The last step is only taken inside a directory.
  let directory ← t.enter directory "."
  let last := way.getLastD ""
  if isProper last ∧ reversed.head? = some "" then throw .isDirectory
  let p ← t.enter directory last
  if t.node? p = some .directory then throw .isDirectory
  return p

/-! ## Trees as storage -/

/-- A walk error as the failure of opening a path. -/
def openFailure (path : String) (e : WalkError) : Failure :=
  .within ("open " ++ path) (.plain e.text)

/-- The failure of reading a directory. -/
def readFailure (path : String) : Failure :=
  .within ("read " ++ path) (.plain WalkError.isDirectory.text)

/-- A node as an opened input. A directory can be opened, but not read. -/
def source (path : String) : Node → Source
  | .directory => { contents := [], failure := some (readFailure path) }
  | .regular contents => { contents, failure := none }
  | .null => { contents := [], failure := none }

/-- The place of an output as a created output. A device is no regular file. -/
def sink (t : Tree) (p : Place) : Sink := { Sink.ideal with regular := t.node? p != some .null }

/-- A tree as a run in its working directory sees it. -/
def storage (t : Tree) (home : Place) : Storage where
  openInput path :=
    match t.locate home path with
    | .ok n => .ok (source path n)
    | .error e => .error (openFailure path e)
  create path :=
    match t.target home path with
    | .ok p => .ok (t.sink p)
    | .error e => .error (openFailure path e)

/-- The tree after a file has been written. -/
def write (t : Tree) (home : Place) (path : String) (bs : Bytes) : Tree :=
  match t.target home path with
  | .ok p => if t.node? p = some .null then t else t.insert p (.regular bs)
  | .error _ => t

/-- The tree after a run. -/
def after (t : Tree) (home : Place) (r : Report) : Tree :=
  match r.stored with
  | some (path, bs) => t.write home path bs
  | none => t

/-! ## The working directory -/

/-- The working directory of a new tree. -/
def home : Place := ["work", "tmp"]

/-- A tree with an empty working directory. -/
def empty : Tree :=
  [(["null", "dev"], .null), (["dev"], .directory), (["tmp"], .directory), (home, .directory)]

/-- The tree with a directory below a place, and the directories on the way to it. -/
def addDirectories (t : Tree) : Place → List String → Tree
  | _, [] => t
  | p, name :: names =>
      if isProper name then
        let t := if t.node? (name :: p) = none then t.insert (name :: p) .directory else t
        t.addDirectories (name :: p) names
      else t.addDirectories (if name = ".." then p.tail else p) names

/-- The tree with a directory in the working directory. -/
def makeDirectory (t : Tree) (path : String) : Tree := t.addDirectories home (names path)

/-- The tree with a file in the working directory, and the directories on the way to it. -/
def makeFile (t : Tree) (path : String) (bs : Bytes) : Tree :=
  (t.addDirectories home (names path).dropLast).write home path bs

/-- The path of a place below the working directory, relative to it. -/
def relative? (p : Place) : Option String :=
  let way := p.reverse
  if home.reverse.isPrefixOf way then some ("/".intercalate (way.drop home.length)) else none

/-- All regular files below the working directory, by their relative paths. -/
def files (t : Tree) : Files :=
  t.filterMap fun (p, n) =>
    match n with
    | .regular bs => (relative? p).map fun path => (path, bs)
    | _ => none

end Tree

end RoundTrip.Store
