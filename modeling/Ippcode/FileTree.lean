/-! # File trees

Files below a root, seen from a working directory, and what is found under a path. A path is read
part by part: an empty part and `.` stay, `..` goes up, and the root is above itself. Whatever has
a part after it must be a directory.
-/
namespace Ippcode

/-- What is found under a path. A directory, for one, can be opened but not read. -/
inductive File where
  | contents (bytes : ByteArray)
  | unreadable (reason : String)
  | absent (reason : String)

/-- A place is the list of names on the way to it from the root. -/
abbrev Place := List String

namespace Place

/-- The place that one part of a path leads to. -/
def enter (place : Place) (part : String) : Place :=
  if part = "" ∨ part = "." then place
  else if part = ".." then place.dropLast
  else place ++ [part]

end Place

/-- The working directory, and the files with their places. -/
structure FileTree where
  home : Place
  files : List (Place × ByteArray)

namespace FileTree

def splitChars : List Char → List (List Char)
  | [] => [[]]
  | c :: rest =>
    if c = '/' then [] :: splitChars rest
    else
      match splitChars rest with
      | part :: parts => (c :: part) :: parts
      | [] => [[c]]

def parts (path : String) : List String := (splitChars path.toList).map String.ofList

/-- Where a path starts: at the root after a slash, else in the working directory. -/
def start (t : FileTree) (path : String) : Place :=
  if path.toList.head? = some '/' then [] else t.home

def place (t : FileTree) (path : String) : Place := (parts path).foldl Place.enter (t.start path)

def insert (t : FileTree) (path : String) (bytes : ByteArray) : FileTree :=
  { t with files := (t.place path, bytes) :: t.files }

/-- The working directory is a directory, so is what holds a file, and so is all above them. -/
def isDirectory (t : FileTree) (place : Place) : Bool :=
  (t.home :: t.files.map fun f => f.1.dropLast).any place.isPrefixOf

def fileAt (t : FileTree) (place : Place) : File :=
  if t.isDirectory place then .unreadable "Is a directory (os error 21)"
  else
    match t.files.lookup place with
    | some bytes => .contents bytes
    | none => .absent "No such file or directory (os error 2)"

/-- What is found by following the parts of a path from a place. -/
def follow (t : FileTree) (place : Place) : List String → File
  | [] => t.fileAt place
  | part :: rest =>
    if t.isDirectory place then t.follow (place.enter part) rest
    else
      match t.fileAt place with
      | .contents _ => .absent "Not a directory (os error 20)"
      | other => other

def file (t : FileTree) (path : String) : File := t.follow (t.start path) (parts path)

end FileTree

end Ippcode
