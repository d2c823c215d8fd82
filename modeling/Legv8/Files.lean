import Legv8.Error

/-!
# Directory trees in memory

Files by name in a working directory, and what reading a path comes to. A path is followed name by name,
from the root or from the working directory: every name but the last must be that of a directory, and so
must the last if a slash follows it. Outside the working directory and what leads to it there are only the
directories that a system has at its root, and the null device.
-/
namespace Legv8

def textOfBytes (bytes : ByteArray) : Except ReadError String :=
  match String.fromUTF8? bytes with
  | some text => .ok text
  | none => .error .notText

structure Files where
  location : List String
  /-- Names and contents. A name may have directories before it, with slashes. -/
  entries : List (String × ByteArray)

namespace Files

inductive Node where
  | file (bytes : ByteArray)
  | directory

/-- The parts of a path between slashes. -/
def parts (path : String) : List String := path.splitOn "/"

def entry? (files : Files) (place : List String) : Option Node :=
  match files.entries.find? (parts ·.1 == place) with
  | some (_, bytes) => some (.file bytes)
  | none => if files.entries.any (place.isPrefixOf <| parts ·.1) then some .directory else none

def systemDirectories : List String :=
  ["bin", "boot", "dev", "etc", "home", "lib", "media", "mnt", "opt", "proc", "root", "run", "sbin",
    "srv", "sys", "tmp", "usr", "var"]

/-- What is at a place that has nothing to do with the working directory. -/
def systemNode? : List String → Option Node
  | [name] => if systemDirectories.contains name then some .directory else none
  | ["dev", "null"] => some (.file .empty)
  | _ => none

def node? (files : Files) (place : List String) : Option Node :=
  if place.isPrefixOf files.location then some .directory
  else if files.location.isPrefixOf place then files.entry? (place.drop files.location.length)
  else systemNode? place

/-- The longest name of a file or directory, in bytes. -/
def longestName : Nat := 255

/-- Follows the parts of a path from a place, given backwards. The root is its own parent. -/
def follow (files : Files) : (place : List String) → List String → Except ReadError Node
  | _, [] => .ok .directory
  | place, part :: rest =>
    if part = "" ∨ part = "." then follow files place rest
    else if part = ".." then follow files place.tail rest
    else if longestName < part.utf8ByteSize then .error .nameTooLong
    else
      match files.node? (part :: place).reverse with
      | none => .error .notFound
      | some .directory => follow files (part :: place) rest
      | some (.file bytes) => if rest.isEmpty then .ok (.file bytes) else .error .notDirectory

/-- The longest path, in bytes. -/
def longestPath : Nat := 4095

def isAbsolute (path : String) : Bool := path.toList.head? = some '/'

/-- A path from the root: a path from the working directory is put behind the path of that. -/
def absolute (files : Files) (path : String) : String :=
  if isAbsolute path then path
  else "/" ++ String.intercalate "/" files.location ++ "/" ++ path

def read (files : Files) (path : String) : Except ReadError ByteArray :=
  if path.toList.contains (Char.ofNat 0) then .error .nulInName
  else if path = "" then .error .notFound
  else if longestPath < path.utf8ByteSize then .error .nameTooLong
  else
    match files.follow (if isAbsolute path then [] else files.location.reverse) (parts path) with
    | .error cause => .error cause
    | .ok .directory => .error .isDirectory
    | .ok (.file bytes) => .ok bytes

end Files

end Legv8
