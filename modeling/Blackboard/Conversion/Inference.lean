import Blackboard.Conversion.Vocabulary
import Blackboard.Pseudo.Normal
import Blackboard.Scope
import Blackboard.Source.CountingLoop

/-! The types of source expressions, as far as declarations and literals show them. -/
namespace Blackboard.Conversion

open Pseudo (Kind Scalar)
open Source (Expr BinaryOp)

structure View where
  language : Language
  scopes : Scopes
  enumNames : List String

namespace View

def typeOf? (v : View) (name : String) : Option Kind :=
  (v.scopes.findVariable? name).map fun i => { base := .ofText i.type, sizes := i.dimensions }

def resultOf? (v : View) (name : String) : Option Kind := do
  let p ← v.scopes.findCallable? name
  Kind.ofText? (← p.returns)

def isEnum (v : View) : Expr → Bool
  | .identifier _ name => v.enumNames.contains name
  | _ => false

def isInputSource (v : View) : Expr → Bool
  | .identifier _ name =>
    ((v.scopes.findVariable? name).bind (·.sourceType)).any (inputSources v.language).contains
  | .newObject _ type _ => (inputSources v.language).contains type.name
  | _ => false

def inputCall? (v : View) (callee : Expr) (args : List Expr) : Option (Scalar × Option Expr) :=
  match v.language with
  | .java => match callee, args with
    | .member _ target name _, [] =>
      if v.isInputSource target then (inputMethods.lookup name).map (·, none) else none
    | _, _ => none
  | .typescript =>
    if callee.dottedName?.any inputCalls.contains then some (.string, args.head?) else none

def input? (v : View) : Expr → Option (Scalar × Option Expr)
  | .call _ callee args => match v.inputCall? callee args, numberParser? callee.dottedName?, args with
    | some found, _, _ => some found
    | none, some type, [.call _ inner innerArgs] =>
      (v.inputCall? inner innerArgs).map fun (_, shown) => (type, shown)
    | none, _, _ => none
  | _ => none

end View

def scalar? (k : Option Kind) : Option Scalar := (k.filter fun k => !k.isArray).map (·.base)

def isMath : Expr → Bool
  | .identifier _ name => name == "Math"
  | _ => false

def inferBinary (l : Language) (op : BinaryOp) (left right : Option Scalar) : Option Scalar :=
  match op with
  | .eq | .ne | .strictEq | .strictNe | .lt | .gt | .le | .ge | .and | .or | .instanceOf =>
    some .boolean
  | .nullish => left <|> right
  | .div => do
    let a ← left
    let b ← right
    some (if dividesWhole l && a == .integer && b == .integer then .integer else .real)
  | _ => Scalar.combine left right

def inferMath (name : String) (args : List (Option Scalar)) : Option Scalar :=
  match mathResults.lookup name, args with
  | some s, _ => some s
  | none, some s :: rest => some (if (some s :: rest).contains (some .real) then .real else s)
  | none, _ => none

def inferCall (v : View) (callee : Expr) (args : List Expr) (types : List (Option Kind)) : Option Kind :=
  match v.input? (.call .unplaced callee args), numberParser? callee.dottedName? with
  | some (s, _), _ => some { base := s }
  | none, some s => some { base := s }
  | none, none => match callee with
    | .identifier _ name => v.resultOf? name
    | .member _ target method _ =>
      if isMath target then (inferMath method (types.map scalar?)).map ({ base := · })
      else match v.scopes.findCallable? method, methodResult? v.language method with
        | none, some s => some { base := s }
        | _, _ => v.resultOf? method
    | _ => none

mutual

def infer (v : View) : Expr → Option Kind
  | .number _ (.int _) _ => some { base := .integer }
  | .number _ (.real _) _ => some { base := .real }
  | .string .. | .template .. => some { base := .string }
  | .char .. => some { base := .char }
  | .boolean .. => some { base := .boolean }
  | .identifier _ name => v.typeOf? name
  | .member _ target name _ =>
    if name = "length" then some { base := .integer }
    else if target.isSelfReference || v.isEnum target then v.typeOf? name
    else none
  | .index _ target _ => match infer v target with
    | none => none
    | some k =>
      if k.isArray then some k.element
      else if k.base = .string then some { base := characterType v.language }
      else none
  | .call _ callee args => inferCall v callee args (inferAll v args)
  | .newArray _ element _ dimensions =>
    let k := Pseudo.normalize v.language element
    some { base := k.base, sizes := List.replicate dimensions "n" ++ k.sizes }
  | .newArrayOf _ _ _ _ (item :: items) | .array _ (item :: items) =>
    (infer v item).map fun k =>
      { base := k.base, sizes := toString (items.length + 1) :: k.sizes }
  | .binary _ op left right =>
    (inferBinary v.language op (scalar? (infer v left)) (scalar? (infer v right))).map ({ base := · })
  | .unary _ .not _ => some { base := .boolean }
  | .unary _ _ e | .update _ _ _ e | .assignment _ _ _ e | .await _ e | .spread _ e => infer v e
  | .conditional _ _ yes no => infer v yes <|> infer v no
  | .cast _ type _ =>
    let k := Pseudo.normalize v.language type
    if k.fallback then none else some k
  | .newArrayOf _ _ _ _ [] | .array _ [] | .null _ | .newObject .. | .object .. | .lambda .. => none

def inferAll (v : View) : List Expr → List (Option Kind)
  | [] => []
  | e :: es => infer v e :: inferAll v es

end

def inferScalar (v : View) (e : Expr) : Option Scalar := scalar? (infer v e)

end Blackboard.Conversion
