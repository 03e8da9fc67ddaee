import Blackboard.CommandLine.Flag

/-!
How arguments are read. Options may stand anywhere, long ones may be abbreviated, and a value may
be joined to its option. Two dashes end the options.
-/
namespace Blackboard.CommandLine

/-- An option as it stands among the arguments, with the value that is joined to it. -/
structure Occurrence where
  flag : Flag
  joined : Option String
deriving DecidableEq, Repr

inductive Word where
  | plain (s : String)
  | option (s : String) (o : Occurrence)
  | unknown (s : String)
  /-- the two dashes after which there are no options -/
  | dashes
deriving DecidableEq, Repr

def Word.text : Word → String
  | plain s | option s _ | unknown s => s
  | dashes => "--"

def cutValue (s : String) : String × Option String :=
  let (name, rest) := s.toList.span (· != '=')
  match rest with
  | [] => (s, none)
  | _ :: value => (String.ofList name, some (String.ofList value))

def abbreviated (s : String) : List (String × Occurrence) :=
  let (name, value) := cutValue s
  (Flag.spellings.filter fun (n, _) => n.startsWith name).map fun (n, f) => (n, ⟨f, value⟩)

def short (s : String) : List (String × Occurrence) :=
  let name := String.ofList (s.toList.take 2)
  Flag.spellings.filterMap fun (n, f) =>
    if n = name then some (n, ⟨f, some (String.ofList (s.toList.drop 2))⟩)
    else if n.startsWith s then some (n, ⟨f, none⟩)
    else none

def exact (s : String) : Option Occurrence :=
  match Flag.ofName? s, cutValue s with
  | some f, _ => some ⟨f, none⟩
  | none, (name, some value) => (Flag.ofName? name).map (⟨·, some value⟩)
  | none, (_, none) => none

def classify (s : String) : Except Misuse Word :=
  if !s.startsWith "-" || s = "-" then .ok (.plain s)
  else match exact s with
    | some o => .ok (.option s o)
    | none =>
      match if s.startsWith "--" then abbreviated s else short s with
      | [(_, o)] => .ok (.option s o)
      | [] =>
        .ok (if Whole.looksNegative s || s.toList.contains ' ' then .plain s else .unknown s)
      | found => .error (.ambiguous s (found.map (·.1)))

def classifyAll : List String → Except Misuse (List Word)
  | [] => .ok []
  | s :: ss =>
    if s = "--" then .ok (.dashes :: ss.map .plain)
    else do
      let w ← classify s
      return w :: (← classifyAll ss)

structure Progress where
  settings : Settings := {}
  /-- whether the input file has been taken, if only by its absence -/
  fileTaken : Bool := false
  /-- arguments for which there is no use -/
  extras : List String := []

namespace Progress

def takeFile (p : Progress) (s : Option String) : Progress :=
  { p with settings := { p.settings with inputFile := s }, fileTaken := true }

def addExtras (p : Progress) (ss : List String) : Progress := { p with extras := p.extras ++ ss }

def setJoined (p : Progress) (flag : Flag) (value : String) : Except Misuse Progress :=
  if !flag.takesValue then .error (.ignoredValue flag value)
  else if value = "--" then .ok p
  else do return { p with settings := ← p.settings.set flag value }

def switchOn (p : Progress) (flag : Flag) : Progress :=
  { p with settings := p.settings.switchOn flag }

end Progress

def asksHelp (s : String) (o : Occurrence) : Bool :=
  match o.flag, o.joined with
  | .help, none => true
  | .help, some value => match value.toList with
    | c :: _ => !s.startsWith "--" && (Flag.ofName? (String.ofList ['-', c])).isSome
    | [] => false
  | _, _ => false

/-- Reads arguments from left to right. The first one that is no option is the input file, and
nothing matters after help has been asked for. -/
def consume : Progress → List Word → Except Misuse Progress
  | p, [] => .ok p
  | p, .unknown s :: ws => consume (p.addExtras [s]) ws
  | p, .option s o :: ws =>
    if asksHelp s o then .ok (p.switchOn .help)
    else match o.joined with
      | some value => do consume (← p.setJoined o.flag value) ws
      | none =>
        if o.flag.takesValue then match ws with
          | .plain value :: rest => do
            consume { p with settings := ← p.settings.set o.flag value } rest
          | _ => .error (.expectedValue o.flag)
        else consume (p.switchOn o.flag) ws
  | p, .plain s :: ws =>
    if p.fileTaken then consume (p.addExtras [s]) ws
    else match ws with
      | .dashes :: rest => .ok ((p.takeFile (some s)).addExtras (rest.map (·.text)))
      | ws => consume (p.takeFile (some s)) ws
  | p, .dashes :: ws =>
    if p.fileTaken then .ok (p.addExtras ("--" :: ws.map (·.text)))
    else match ws with
      | [] => .ok (p.takeFile none)
      | w :: rest => .ok ((p.takeFile (some w.text)).addExtras (rest.map (·.text)))

def parse (args : List String) : Except Misuse Settings := do
  let p ← consume {} (← classifyAll args)
  if p.settings.help || p.extras.isEmpty then return p.settings
  else throw (.unrecognized p.extras)

end Blackboard.CommandLine
