/-!
# Folders

A folder of files in memory, in which a command line can be tried without touching a disk. Looking
up a path follows the rules of a file system: the path is walked name by name, and each name must be
that of a folder as long as anything follows it. A path can lead out of the folder, into the folders
around it, of which nothing else is known.
-/

namespace CallByNeed.CommandLine

/-- What stands under a path. -/
inductive Entry where
  /-- A file, by its bytes. -/
  | file (bytes : List UInt8)
  /-- A folder. -/
  | folder
deriving DecidableEq, Repr

/-- Why a file cannot be read. -/
inductive OpenFailure where
  /-- Nothing stands under the path. -/
  | missing
  /-- A folder stands under the path. -/
  | isFolder
  /-- A file stands where the path goes on. -/
  | notFolder
  /-- A name or the whole path is too long. -/
  | tooLong
  /-- The path holds a character that no path can hold. -/
  | nullByte
  /-- Some other reason of the system, in its words. -/
  | other (reason : String)
deriving DecidableEq, Repr

/-- The entries of a folder, by their paths from it. -/
abbrev Folder := List (String × Entry)

namespace Folder

/-- The greatest number of bytes of a name. -/
def maxName : Nat := 255

/-- The number of bytes from which on a path is too long. -/
def maxPath : Nat := 4096

/-- The names that make up a path, between its slashes. -/
def names : List Char → List (List Char)
  | [] => [[]]
  | c :: cs =>
    if c = '/' then [] :: names cs
    else
      match names cs with
      | [] => [[c]]
      | n :: ns => (c :: n) :: ns

/-- Where a walk has come to. -/
inductive Spot where
  /-- Under the given names in the folder, the last first. -/
  | inside (names : List String)
  /-- In one of the folders around. -/
  | around
  /-- Under a name in one of the folders around. -/
  | beyond
deriving DecidableEq, Repr

namespace Spot

/-- The spot one folder up. Around the outermost folder is that folder itself. -/
def up : Spot → Spot
  | inside (_ :: names) => inside names
  | _ => around

/-- The spot under a name. -/
def down (name : String) : Spot → Spot
  | inside names => inside (name :: names)
  | _ => beyond

end Spot

/-- The entry at a spot. In the folder, it is a folder also if only something in it is listed. -/
def entry? (f : Folder) : Spot → Option Entry
  | .around | .inside [] => some .folder
  | .beyond => none
  | .inside names =>
    let path := "/".intercalate names.reverse
    match f.lookup path with
    | some e => some e
    | none =>
      if f.any fun p => (path ++ "/").toList.isPrefixOf p.1.toList then some .folder else none

/-- Walks from a spot along further names. -/
def walk (f : Folder) (here : Spot) : List String → Except OpenFailure Entry
  | [] =>
    match f.entry? here with
    | some e => .ok e
    | none => .error .missing
  | n :: ns =>
    match f.entry? here with
    | none => .error .missing
    | some (.file _) => .error .notFolder
    | some .folder =>
      if n = "" ∨ n = "." then walk f here ns
      else if n = ".." then walk f here.up ns
      else if maxName < n.utf8ByteSize then .error .tooLong
      else walk f (here.down n) ns

/-- The bytes of the file under a path, which starts in the folder, or at the root if it starts with
a slash. -/
def read (f : Folder) (path : String) : Except OpenFailure (List UInt8) :=
  if path.toList.contains '\x00' then .error .nullByte
  else if path = "" then .error .missing
  else if maxPath ≤ path.utf8ByteSize then .error .tooLong
  else
    let ns := (names path.toList).map String.ofList
    let start : Spot := if path.toList.head? = some '/' then .around else .inside []
    match f.walk start ns with
    | .ok (.file bytes) => .ok bytes
    | .ok .folder => .error .isFolder
    | .error e => .error e

end Folder

end CallByNeed.CommandLine
