import Blackboard.Language

/-! The terminal symbols of the two languages: classes of literals and names, keywords, and marks. -/
namespace Blackboard

/-- A terminal symbol. Keywords are named `k…`, and marks for what they look like or do. -/
inductive Terminal where
  | number
  | name
  | string
  | character
  | template
  | kAbstract | kAs | kAsync | kAwait | kBoolean | kBreak | kByte | kCase | kCatch | kChar
  | kClass | kConst | kContinue | kDeclare | kDefault | kDelete | kDo | kDouble | kElse | kEnum
  | kExport | kExtends | kFalse | kFinal | kFinally | kFloat | kFor | kFunction | kIf
  | kImplements | kIn | kInstanceof | kInt | kInterface | kLet | kLong | kNamespace | kNative
  | kNew | kNull | kOf | kOverride | kPrivate | kProtected | kPublic | kReadonly | kReturn
  | kShort | kStatic | kStrictfp | kSuper | kSwitch | kSynchronized | kThis | kThrow | kThrows
  | kTransient | kTrue | kTry | kType | kTypeof | kVar | kVoid | kVolatile | kWhile
  | ellipsis | strictEq | strictNe | nullishAssign | orAssign | andAssign | fatArrow | addAssign
  | subAssign | mulAssign | divAssign | remAssign | bitAndAssign | bitOrAssign | bitXorAssign
  | barBar | ampAmp | eqEq | bangEq | le | ge | starStar | plusPlus | minusMinus | thinArrow
  | questionDot | questionQuestion | amp | at_ | bang | caret | colon | comma | dot | assign
  | lbrace | lt | lpar | lsqb | minus | gt | percent | plus | question | rbrace | rpar | rsqb
  | semi | slash | star | tilde | bar
deriving DecidableEq, Repr

namespace Terminal

def spelling : Terminal → String
  | number | name | string | character | template => ""
  | kAbstract => "abstract"
  | kAs => "as"
  | kAsync => "async"
  | kAwait => "await"
  | kBoolean => "boolean"
  | kBreak => "break"
  | kByte => "byte"
  | kCase => "case"
  | kCatch => "catch"
  | kChar => "char"
  | kClass => "class"
  | kConst => "const"
  | kContinue => "continue"
  | kDeclare => "declare"
  | kDefault => "default"
  | kDelete => "delete"
  | kDo => "do"
  | kDouble => "double"
  | kElse => "else"
  | kEnum => "enum"
  | kExport => "export"
  | kExtends => "extends"
  | kFalse => "false"
  | kFinal => "final"
  | kFinally => "finally"
  | kFloat => "float"
  | kFor => "for"
  | kFunction => "function"
  | kIf => "if"
  | kImplements => "implements"
  | kIn => "in"
  | kInstanceof => "instanceof"
  | kInt => "int"
  | kInterface => "interface"
  | kLet => "let"
  | kLong => "long"
  | kNamespace => "namespace"
  | kNative => "native"
  | kNew => "new"
  | kNull => "null"
  | kOf => "of"
  | kOverride => "override"
  | kPrivate => "private"
  | kProtected => "protected"
  | kPublic => "public"
  | kReadonly => "readonly"
  | kReturn => "return"
  | kShort => "short"
  | kStatic => "static"
  | kStrictfp => "strictfp"
  | kSuper => "super"
  | kSwitch => "switch"
  | kSynchronized => "synchronized"
  | kThis => "this"
  | kThrow => "throw"
  | kThrows => "throws"
  | kTransient => "transient"
  | kTrue => "true"
  | kTry => "try"
  | kType => "type"
  | kTypeof => "typeof"
  | kVar => "var"
  | kVoid => "void"
  | kVolatile => "volatile"
  | kWhile => "while"
  | ellipsis => "..."
  | strictEq => "==="
  | strictNe => "!=="
  | nullishAssign => "??="
  | orAssign => "||="
  | andAssign => "&&="
  | fatArrow => "=>"
  | addAssign => "+="
  | subAssign => "-="
  | mulAssign => "*="
  | divAssign => "/="
  | remAssign => "%="
  | bitAndAssign => "&="
  | bitOrAssign => "|="
  | bitXorAssign => "^="
  | barBar => "||"
  | ampAmp => "&&"
  | eqEq => "=="
  | bangEq => "!="
  | le => "<="
  | ge => ">="
  | starStar => "**"
  | plusPlus => "++"
  | minusMinus => "--"
  | thinArrow => "->"
  | questionDot => "?."
  | questionQuestion => "??"
  | amp => "&"
  | at_ => "@"
  | bang => "!"
  | caret => "^"
  | colon => ":"
  | comma => ","
  | dot => "."
  | assign => "="
  | lbrace => "\x7b"
  | lt => "<"
  | lpar => "("
  | lsqb => "["
  | minus => "-"
  | gt => ">"
  | percent => "%"
  | plus => "+"
  | question => "?"
  | rbrace => "\x7d"
  | rpar => ")"
  | rsqb => "]"
  | semi => ";"
  | slash => "/"
  | star => "*"
  | tilde => "~"
  | bar => "|"

end Terminal

namespace Language

def keywords : Language → List Terminal
  | java =>
    [.kSynchronized, .kImplements, .kInstanceof, .kInterface, .kProtected, .kTransient,
     .kAbstract, .kContinue, .kStrictfp, .kVolatile, .kBoolean, .kDefault, .kExtends, .kFinally,
     .kPrivate, .kDouble, .kNative, .kPublic, .kReturn, .kStatic, .kSwitch, .kThrows, .kBreak,
     .kCatch, .kClass, .kFalse, .kFinal, .kFloat, .kShort, .kSuper, .kThrow, .kWhile, .kByte,
     .kCase, .kChar, .kElse, .kEnum, .kLong, .kNull, .kThis, .kTrue, .kVoid, .kFor, .kInt, .kNew,
     .kTry, .kDo, .kIf]
  | typescript =>
    [.kImplements, .kInstanceof, .kInterface, .kNamespace, .kProtected, .kAbstract, .kContinue,
     .kFunction, .kOverride, .kReadonly, .kDeclare, .kDefault, .kExtends, .kFinally, .kPrivate,
     .kDelete, .kExport, .kPublic, .kReturn, .kStatic, .kSwitch, .kTypeof, .kAsync, .kAwait,
     .kBreak, .kCatch, .kClass, .kConst, .kFalse, .kSuper, .kThrow, .kWhile, .kCase, .kElse,
     .kEnum, .kNull, .kThis, .kTrue, .kType, .kFor, .kLet, .kNew, .kTry, .kVar, .kAs, .kDo, .kIf,
     .kIn, .kOf]

/-- The marks in the order in which they are tried: a mark stands before its own beginnings. -/
def marks : Language → List Terminal
  | java =>
    [.ellipsis, .addAssign, .subAssign, .eqEq, .bangEq, .le, .ge, .plusPlus, .minusMinus,
     .thinArrow, .mulAssign, .divAssign, .remAssign, .bitAndAssign, .bitOrAssign, .bitXorAssign,
     .barBar, .ampAmp, .amp, .at_, .bang, .caret, .colon, .comma, .dot, .assign, .lbrace, .lt,
     .lpar, .lsqb, .minus, .gt, .percent, .plus, .question, .rbrace, .rpar, .rsqb, .semi, .slash,
     .star, .tilde, .bar]
  | typescript =>
    [.ellipsis, .strictEq, .strictNe, .nullishAssign, .orAssign, .andAssign, .fatArrow,
     .addAssign, .barBar, .ampAmp, .eqEq, .bangEq, .le, .ge, .starStar, .plusPlus, .subAssign,
     .minusMinus, .questionDot, .mulAssign, .divAssign, .remAssign, .questionQuestion, .amp, .at_,
     .bang, .caret, .colon, .comma, .dot, .assign, .lbrace, .lt, .lpar, .lsqb, .minus, .gt,
     .percent, .plus, .question, .rbrace, .rpar, .rsqb, .semi, .slash, .star, .tilde, .bar]

def markLabel (l : Language) : Terminal → String
  | .amp => "AMPERSAND"
  | .at_ => "AT"
  | .bang => "BANG"
  | .caret => "CIRCUMFLEX"
  | .colon => "COLON"
  | .comma => "COMMA"
  | .dot => "DOT"
  | .assign => "EQUAL"
  | .lbrace => "LBRACE"
  | .lt => "LESSTHAN"
  | .lpar => "LPAR"
  | .lsqb => "LSQB"
  | .minus => "MINUS"
  | .gt => "MORETHAN"
  | .percent => "PERCENT"
  | .plus => "PLUS"
  | .question => "QMARK"
  | .rbrace => "RBRACE"
  | .rpar => "RPAR"
  | .rsqb => "RSQB"
  | .semi => "SEMICOLON"
  | .slash => "SLASH"
  | .star => "STAR"
  | .tilde => "TILDE"
  | .bar => "VBAR"
  | .ellipsis => if l = java then "VARARGS" else "REST"
  | .strictEq => "__ANON_12"
  | .strictNe => "__ANON_13"
  | .nullishAssign => "__ANON_6"
  | .orAssign => "__ANON_7"
  | .andAssign => "__ANON_8"
  | .fatArrow => "__ANON_0"
  | .addAssign => if l = java then "__ANON_0" else "__ANON_1"
  | .subAssign => if l = java then "__ANON_1" else "__ANON_2"
  | .mulAssign => if l = java then "__ANON_2" else "__ANON_3"
  | .divAssign => if l = java then "__ANON_3" else "__ANON_4"
  | .remAssign => if l = java then "__ANON_4" else "__ANON_5"
  | .bitAndAssign => "__ANON_5"
  | .bitOrAssign => "__ANON_6"
  | .bitXorAssign => "__ANON_7"
  | .barBar => if l = java then "__ANON_8" else "__ANON_10"
  | .ampAmp => if l = java then "__ANON_9" else "__ANON_11"
  | .eqEq => if l = java then "__ANON_10" else "__ANON_14"
  | .bangEq => if l = java then "__ANON_11" else "__ANON_15"
  | .le => if l = java then "__ANON_12" else "__ANON_16"
  | .ge => if l = java then "__ANON_13" else "__ANON_17"
  | .starStar => "__ANON_18"
  | .plusPlus => if l = java then "__ANON_14" else "__ANON_19"
  | .minusMinus => if l = java then "__ANON_15" else "__ANON_20"
  | .thinArrow => "__ANON_16"
  | .questionDot => "__ANON_21"
  | .questionQuestion => "__ANON_9"
  | t => t.spelling.toUpper

def label (l : Language) : Terminal → String
  | .number => "a number"
  | .name => "a name"
  | .string => "a string literal"
  | .character => "a character literal"
  | .template => "a template literal"
  | .semi => "a semicolon ';'"
  | .rsqb => "a closing bracket ']'"
  | .lsqb => "an opening bracket '['"
  | .rpar => "a closing parenthesis ')'"
  | .lpar => "an opening parenthesis '('"
  | .rbrace => "a closing brace '\x7d'"
  | .lbrace => "an opening brace '\x7b'"
  | .assign => "an equals sign '='"
  | .comma => "a comma ','"
  | .colon => "a colon ':'"
  | t => l.markLabel t

end Language

end Blackboard
