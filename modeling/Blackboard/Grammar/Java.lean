import Blackboard.Grammar.Rule

/-!
The subset of Java that is understood. A program is a compilation unit or a loose run of
statements and methods.
-/
namespace Blackboard.Grammar.Java

open Category Terminal Pattern Rule

def declarations : List Rule := [ node program [[many [topLevel]]],
  spliced topLevel [[classDeclaration], [interfaceDeclaration], [enumDeclaration], [methodDeclaration], [statement]],
  node modifiers [[many [oneOf [modifier, marker]]]],
  verbatim modifier [kPublic, kPrivate, kProtected, kStatic, kFinal, kAbstract, kSynchronized,
    kNative, kTransient, kVolatile, kStrictfp],
  node marker [[at_, qualifiedName, opt [lpar, opt [separated expression comma], rpar]]],
  node qualifiedName [[keep name, many [dot, keep name]]],
  node classDeclaration [[modifiers, kClass, keep name, opt [typeParameters], opt [superclass],
    opt [interfaces], classBody]],
  node superclass [[kExtends, classType]],
  node interfaces [[kImplements, separated classType comma]],
  node classBody [[lbrace, many [classMember], rbrace]],
  spliced classMember [[fieldDeclaration], [methodDeclaration], [constructorDeclaration],
    [classDeclaration], [interfaceDeclaration], [enumDeclaration], [initializerBlock], [semi]],
  node initializerBlock [[opt [kStatic], block]],
  node fieldDeclaration [[modifiers, typeUse, variableDeclarators, semi]],
  node methodDeclaration [[modifiers, opt [typeParameters], resultType, keep name,
    formalParameters, many [arrayDim], opt [throwsClause], oneOf [block, semi]]],
  node constructorDeclaration [[modifiers, opt [typeParameters], keep name, formalParameters,
    opt [throwsClause], block]],
  spliced resultType [[typeUse], [voidType]],
  verbatim voidType [kVoid],
  node throwsClause [[kThrows, separated classType comma]],
  node formalParameters [[lpar, opt [separated formalParameter comma], rpar]],
  node formalParameter [[modifiers, typeUse, opt [keep ellipsis], keep name, many [arrayDim]]],
  node interfaceDeclaration [[modifiers, kInterface, keep name, opt [typeParameters],
    opt [interfaceExtends], classBody]],
  node interfaceExtends [[kExtends, separated classType comma]],
  node enumDeclaration [[modifiers, kEnum, keep name, opt [interfaces], lbrace,
    opt [separated enumConstant comma], opt [comma], opt [enumBody], rbrace]],
  node enumConstant [[many [marker], keep name, opt [arguments], opt [classBody]]],
  node enumBody [[semi, many [classMember]]],
  node typeParameters [[lt, separated typeParameter comma, gt]],
  node typeParameter [[keep name, opt [kExtends, separated classType amp]]]]

def types : List Rule := [ node typeUse [[oneOf [primitiveType, classType], many [arrayDim]]],
  verbatim primitiveType [kInt, kLong, kShort, kByte, kDouble, kFloat, kChar, kBoolean],
  node classType [[qualifiedName, opt [typeArguments]]],
  node typeArguments [[lt, opt [separated typeArgument comma], gt]],
  spliced typeArgument [[typeUse], [wildcard]],
  node wildcard [[question, opt [oneOf [kExtends, kSuper], typeUse]]],
  node arrayDim [[lsqb, rsqb]],
  spliced variableDeclarators [[separated variableDeclarator comma]],
  node variableDeclarator [[keep name, many [arrayDim], opt [assign, variableInitializer]]],
  spliced variableInitializer [[expression], [arrayInitializer]],
  node arrayInitializer [[lbrace, opt [separated variableInitializer comma], opt [comma], rbrace]]]

def statements : List Rule := [
  spliced statement [[block], [localVariable], [ifStatement], [whileStatement], [doStatement],
    [forStatement], [forEachStatement], [switchStatement], [returnStatement], [breakStatement],
    [continueStatement], [throwStatement], [tryStatement], [expressionStatement],
    [emptyStatement]],
  node block [[lbrace, many [statement], rbrace]],
  node localVariable [[modifiers, typeUse, variableDeclarators, semi]],
  node ifStatement [[kIf, lpar, expression, rpar, statement, opt [kElse, statement]]],
  node whileStatement [[kWhile, lpar, expression, rpar, statement]],
  node doStatement [[kDo, statement, kWhile, lpar, expression, rpar, semi]],
  node forStatement [[kFor, lpar, opt [forInit], semi, opt [forCondition], semi, opt [forUpdate], rpar, statement]],
  node forInit [[forInitDeclaration], [separated expression comma]],
  node forInitDeclaration [[modifiers, typeUse, variableDeclarators]],
  node forCondition [[expression]],
  node forUpdate [[separated expression comma]],
  node forEachStatement [[kFor, lpar, modifiers, typeUse, keep name, colon, expression, rpar, statement]],
  node switchStatement [[kSwitch, lpar, expression, rpar, lbrace, many [switchItem], rbrace]],
  spliced switchItem [[caseLabel], [defaultLabel], [statement]],
  node caseLabel [[kCase, expression, colon]],
  node defaultLabel [[keep kDefault, colon]],
  node returnStatement [[keep kReturn, opt [expression], semi]],
  node breakStatement [[keep kBreak, opt [keep name], semi]],
  node continueStatement [[keep kContinue, opt [keep name], semi]],
  node throwStatement [[kThrow, expression, semi]],
  node tryStatement [[kTry, opt [resourceSpecification], block, many [catchClause], opt [finallyClause]]],
  node resourceSpecification [[lpar, separated resource semi, opt [semi], rpar]],
  node resource [[modifiers, typeUse, keep name, assign, expression]],
  node catchClause [[kCatch, lpar, modifiers, separated classType bar, keep name, rpar, block]],
  node finallyClause [[kFinally, block]],
  node expressionStatement [[statementExpression, semi]],
  spliced statementExpression [[assignment], [prefixUpdate], [postfixUpdate], [call], [newObject]],
  node emptyStatement [[semi]]]

def expressions : List Rule := [ collapsed expression [[assignment], [conditional], [lambdaExpression]],
  node assignment [[lvalue, assignOp, expression]],
  spliced lvalue [[nameUse], [fieldAccess], [arrayAccess]],
  verbatim assignOp [assign, addAssign, subAssign, mulAssign, divAssign, remAssign,
    bitAndAssign, bitOrAssign, bitXorAssign],
  (collapsed conditional [[logicalOr]]).withCase conditionalExpression
    [logicalOr, question, expression, colon, conditional],
  binaryLevel logicalOr logicalOrOp logicalAnd,
  verbatim logicalOrOp [barBar],
  binaryLevel logicalAnd logicalAndOp bitwiseOr,
  verbatim logicalAndOp [ampAmp],
  binaryLevel bitwiseOr bitwiseOrOp bitwiseXor,
  verbatim bitwiseOrOp [bar],
  binaryLevel bitwiseXor bitwiseXorOp bitwiseAnd,
  verbatim bitwiseXorOp [caret],
  binaryLevel bitwiseAnd bitwiseAndOp equality,
  verbatim bitwiseAndOp [amp],
  binaryLevel equality equalityOp relational,
  verbatim equalityOp [eqEq, bangEq],
  (binaryLevel relational relationalOp additive).withCase instanceofExpression [relational, kInstanceof, typeUse],
  verbatim relationalOp [lt, gt, le, ge],
  binaryLevel additive additiveOp multiplicative,
  verbatim additiveOp [plus, minus],
  binaryLevel multiplicative multiplicativeOp unary,
  verbatim multiplicativeOp [star, slash, percent],
  { category := unary, shape := .collapsed, alternatives := [
      { body := postfixExpression },
      { body := all [unaryOp, unary], label := some unaryExpression },
      { body := prefixUpdate }, { body := postfixUpdate }, { body := castExpression }] },
  verbatim unaryOp [bang, minus, plus, tilde],
  node prefixUpdate [[updateOp, lvalue]],
  node postfixUpdate [[lvalue, updateOp]],
  verbatim updateOp [plusPlus, minusMinus],
  node castExpression [[lpar, primitiveType, many [arrayDim], rpar, unary],
    [lpar, classType, many [arrayDim], rpar, postfixExpression]],
  collapsed postfixExpression [[primary], [fieldAccess], [arrayAccess], [call]],
  node fieldAccess [[postfixExpression, dot, keep name]],
  node arrayAccess [[postfixExpression, lsqb, expression, rsqb]],
  node call [[postfixExpression, arguments]],
  node arguments [[lpar, opt [separated expression comma], rpar]],
  collapsed primary [[literal], [nameUse], [thisExpression], [superExpression],
    [lpar, expression, rpar], [newObject], [newArray]],
  node nameUse [[keep name]],
  node thisExpression [[keep kThis]],
  node superExpression [[keep kSuper]],
  node newObject [[kNew, classType, arguments, opt [classBody]]],
  node newArray [[kNew, oneOf [primitiveType, classType], some1 [dimExpression], many [arrayDim]],
    [kNew, oneOf [primitiveType, classType], some1 [arrayDim], arrayInitializer]],
  node dimExpression [[lsqb, expression, rsqb]],
  node lambdaExpression [[lambdaParameters, thinArrow, oneOf [expression, block]]],
  node lambdaParameters [[keep name], [lpar, opt [separated lambdaParameter comma], rpar]],
  node lambdaParameter [[modifiers, typeUse, keep name], [keep name]],
  collapsed literal [[keep number], [keep string], [keep character], [keep kTrue], [keep kFalse], [keep kNull]]]

def rules : List Rule := declarations ++ types ++ statements ++ expressions

end Blackboard.Grammar.Java
