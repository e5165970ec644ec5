/-
  EffectsDsp.Settings.Files

  Where settings are read from: a file that the host names, or the first that exists of
  a few usual places, or nowhere, which gives the defaults. The files are given as the
  tree of all directories, so that reading them is a function.
-/

import EffectsDsp.Settings.Reading

namespace EffectsDsp

/-- A directory with its entries, or a file with its bytes. -/
inductive FileTree where
  | file (bytes : List UInt8)
  | directory (entries : List (String × FileTree))

namespace FileTree

/-- The directory without entries. -/
def empty : FileTree := .directory []

instance : Inhabited FileTree := ⟨empty⟩

/-- Why a file cannot be read. -/
inductive Failure where
  | notFound
  | isDirectory
  | notDirectory
  | nameTooLong
  | nulInPath
  | invalidText
  deriving DecidableEq, Repr

/-- What the host says of a failure. -/
def Failure.message : Failure → String
  | notFound => "No such file or directory (os error 2)"
  | isDirectory => "Is a directory (os error 21)"
  | notDirectory => "Not a directory (os error 20)"
  | nameTooLong => "File name too long (os error 36)"
  | nulInPath => "file name contained an unexpected NUL byte"
  | invalidText => "stream did not contain valid UTF-8"

/-- The parts of a path. Empty parts and single points name the directory they stand
    in, which the last part of a path may do as well. -/
def parts (path : String) : List String :=
  path.splitOn "/"

/-- The bytes that the name of an entry may have. -/
def maxNameSize : Nat := 255

/-- The bytes that a path may have. -/
def maxPathSize : Nat := 4095

/-- What lies at the end of a path, where `above` holds the directories on the way, the
    nearest first. A name that is too long is found out in the directory that would have
    to hold it. -/
def walk? (above : List FileTree) (here : FileTree) : List String → Except Failure FileTree
  | [] => .ok here
  | part :: rest =>
    match here with
    | file _ => .error .notDirectory
    | directory entries =>
      if part = "" ∨ part = "." then walk? above here rest
      else if part = ".." then
        match above with
        | parent :: above => walk? above parent rest
        | [] => walk? [] here rest
      else if maxNameSize < part.utf8ByteSize then .error .nameTooLong
      else
        match entries.find? (·.1 == part) with
        | some (_, next) => walk? (here :: above) next rest
        | none => .error .notFound

/-- The path below a directory; an absolute path stands for itself. -/
def join (base path : String) : String :=
  if path.startsWith "/" then path else base ++ "/" ++ path

/-- What lies at a path below a directory. The path as a whole is looked at before its
    parts are. -/
def lookup? (tree : FileTree) (path : String) : Except Failure FileTree :=
  if path.toList.contains '\x00' then .error .nulInPath
  else if maxPathSize < path.utf8ByteSize then .error .nameTooLong
  else walk? [] tree (parts path)

/-- There is a file at the path. -/
def isFile (tree : FileTree) (path : String) : Bool :=
  match tree.lookup? path with
  | .ok (file _) => true
  | _ => false

/-- The text of the file at a path. -/
def readText (tree : FileTree) (path : String) : Except Failure String :=
  match tree.lookup? path with
  | .ok (file bytes) =>
    match String.fromUTF8? (ByteArray.mk bytes.toArray) with
    | some text => .ok text
    | none => .error .invalidText
  | .ok (directory _) => .error .isDirectory
  | .error e => .error e

mutual

/-- Puts `node` at the end of a path, with the directories on the way. What lies there
    stays if it is a directory and `node` is an empty one. -/
def place (node : FileTree) : List String → FileTree → FileTree
  | [], here =>
    match node, here with
    | directory [], directory entries => directory entries
    | node, _ => node
  | part :: rest, here =>
    match here with
    | directory entries => directory (placeIn node part rest entries)
    | file bytes => file bytes
termination_by path _ => (path.length, 0)

/-- Puts `node` at the end of a path that starts with the entry `part`. -/
def placeIn (node : FileTree) (part : String) (rest : List String) :
    List (String × FileTree) → List (String × FileTree)
  | [] => [(part, place node rest empty)]
  | (name, tree) :: entries =>
    if name = part then (name, place node rest tree) :: entries
    else (name, tree) :: placeIn node part rest entries
termination_by entries => (rest.length, entries.length + 1)

end

/-- Puts `node` where the parts of a path lead from the directory at `reached`. The
    directories that a path leaves again are made as well. -/
def placeFrom (node : FileTree) (reached : List String) : List String → FileTree → FileTree
  | [], tree => place node reached tree
  | part :: rest, tree =>
    if part = "" ∨ part = "." then placeFrom node reached rest tree
    else if part = ".." then placeFrom node reached.dropLast rest (place empty reached tree)
    else placeFrom node (reached ++ [part]) rest tree

/-- Puts a file or a directory at a path, with the directories on the way. -/
def add (tree : FileTree) (path : String) (node : FileTree) : FileTree :=
  placeFrom node [] (parts path) tree

end FileTree

namespace Settings

/-- The usual places below a home directory. -/
def homePlaces : List String := [".config/fv1/config.toml", ".config/fv1.toml"]

/-- The usual place for all users. -/
def sharedPlace : String := "/etc/fv1.toml"

/-- The usual places in the order in which they are looked at. -/
def places (home? : Option String) : List String :=
  match home? with
  | some home => homePlaces.map (FileTree.join home) ++ [sharedPlace]
  | none => [sharedPlace]

/-- The first usual place with a file. -/
def find? (tree : FileTree) (home? : Option String) : Option String :=
  (places home?).find? tree.isFile

/-- The settings in the file at a path. -/
def ofFile (tree : FileTree) (path : String) : Except SettingsError Settings :=
  match tree.readText path with
  | .ok text => ofText text
  | .error e => .error (.unreadable e.message)

/-- The settings in the named file, or else at the first usual place, or else the
    defaults. -/
def load (tree : FileTree) (home? path? : Option String) : Except SettingsError Settings :=
  match path?.or (find? tree home?) with
  | some path => ofFile tree path
  | none => .ok {}

end Settings
end EffectsDsp
