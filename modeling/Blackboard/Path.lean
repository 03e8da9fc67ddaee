/-! File paths: names separated by slashes. -/
namespace Blackboard.Path

/-- Resolves the names of the current and the parent directory. Nothing lies above the root. -/
def resolve (rooted : Bool) : (done names : List (List Char)) → List (List Char)
  | done, [] => done.reverse
  | done, name :: rest =>
    if name.isEmpty || name = ['.'] then resolve rooted done rest
    else if name = ['.', '.'] then match done with
      | [] => resolve rooted (if rooted then [] else [name]) rest
      | last :: before =>
        resolve rooted (if last = ['.', '.'] then name :: done else before) rest
    else resolve rooted (name :: done) rest

def root : List Char → String
  | '/' :: '/' :: '/' :: _ => "/"
  | '/' :: '/' :: _ => "//"
  | '/' :: _ => "/"
  | _ => ""

def normalize (path : String) : String :=
  let cs := path.toList
  let start := root cs
  let names := resolve (start != "") [] (cs.splitOn '/')
  let result := start ++ "/".intercalate (names.map String.ofList)
  if result = "" then "." else result

def isAbsolute (path : String) : Bool := path.startsWith "/"

def absolute (directory path : String) : String :=
  if isAbsolute path then normalize path else normalize (directory ++ "/" ++ path)

def parent (path : String) : String :=
  let cs := path.toList.reverse.dropWhile (· != '/')
  let trimmed := cs.dropWhile (· == '/')
  String.ofList (if trimmed.isEmpty then cs.reverse else trimmed.reverse)

def ancestors (path : String) : List String := go path.length path
where
  go : Nat → String → List String
    | 0, _ => []
    | fuel + 1, p =>
      let above := parent p
      if above = "" || above = p then [] else above :: go fuel above

/-- A path before its extension, and the extension with its dot. Dots at the front of a file name
do not begin an extension. -/
def splitExtension (path : String) : String × String :=
  let (name, folder) := path.toList.reverse.span (· != '/')
  let (extension, stem) := name.span (· != '.')
  match stem with
  | '.' :: rest =>
    if rest.all (· == '.') then (path, "")
    else (String.ofList (rest ++ folder).reverse, String.ofList ('.' :: extension.reverse))
  | _ => (path, "")

end Blackboard.Path
