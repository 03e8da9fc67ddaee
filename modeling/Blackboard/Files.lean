import Blackboard.Path

/-! What is known of the files that a run reads and writes. -/
namespace Blackboard

inductive Entry where
  | missing
  | directory
  | text (s : String)
  /-- a file that holds no text -/
  | binary
deriving DecidableEq, Repr

def Entry.isFile : Entry → Bool
  | text _ | binary => true
  | _ => false

inductive FileFault where
  | notFound | isDirectory | notDirectory | notText | exists_
deriving DecidableEq, Repr

abbrev Files := List (String × Entry)

namespace Files

def isUnder (path other : String) : Bool := other.startsWith (path ++ "/")

def at_ (fs : Files) (path : String) : Entry :=
  match fs.lookup path with
  | some e => e
  | none => if fs.any fun (p, _) => isUnder path p then .directory else .missing

def throughFile (fs : Files) (path : String) : Bool :=
  (Path.ancestors path).any fun p => (fs.at_ p).isFile

def unifyLineEnds : List Char → List Char
  | [] => []
  | '\r' :: '\n' :: cs => '\n' :: unifyLineEnds cs
  | '\r' :: cs => '\n' :: unifyLineEnds cs
  | c :: cs => c :: unifyLineEnds cs

def read (fs : Files) (path : String) : Except FileFault String :=
  if fs.throughFile path then .error .notDirectory
  else match fs.at_ path with
    | .missing => .error .notFound
    | .directory => .error .isDirectory
    | .binary => .error .notText
    | .text s => .ok (String.ofList (unifyLineEnds s.toList))

def writeFault? (fs : Files) (path : String) : Option FileFault :=
  if fs.throughFile path then some .notDirectory
  else if fs.at_ path = .directory then some .isDirectory
  else none

def makeFault? (fs : Files) (path : String) : Option FileFault :=
  if (fs.at_ (Path.parent path)).isFile then some .exists_ else fs.writeFault? path

end Files

end Blackboard
