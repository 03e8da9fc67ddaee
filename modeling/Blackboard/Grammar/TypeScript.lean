import Blackboard.Grammar.Rule

/-!
The subset of TypeScript and plain JavaScript that is understood. Semicolons are optional.
A declaration of an accessor and a block after an arrow are preferred to their other readings.
-/
namespace Blackboard.Grammar.TypeScript

open Category Terminal Pattern Rule

def statements : List Rule := [ node program [[many [topLevel]]], spliced topLevel [[statement], [exportDeclaration]],
  node exportDeclaration [[kExport, opt [keep kDefault], declaration]],
  spliced declaration [[functionDeclaration], [classDeclaration], [interfaceDeclaration],
    [enumDeclaration], [typeAliasDeclaration], [namespaceDeclaration], [variableStatement]],
  spliced statement [[block], [variableStatement], [destructuringStatement],
    [functionDeclaration], [classDeclaration], [interfaceDeclaration], [enumDeclaration],
    [typeAliasDeclaration], [namespaceDeclaration], [ifStatement], [whileStatement],
    [doStatement], [forStatement], [forOfStatement], [forInStatement], [switchStatement],
    [returnStatement], [breakStatement], [continueStatement], [throwStatement], [tryStatement],
    [expressionStatement], [emptyStatement]],
  node block [[lbrace, many [statement], rbrace]],
  node variableStatement [[varKind, variableBindings, opt [semi]]],
  verbatim varKind [kLet, kConst, kVar],
  spliced variableBindings [[separated variableBinding comma]],
  node variableBinding [[keep name, opt [typeNote], opt [assign, expression]]],
  node destructuringStatement [[varKind, oneOf [arrayPattern, objectPattern], opt [typeNote],
    assign, expression, opt [semi]]],
  node arrayPattern [[lsqb, opt [separated (keep name) comma], rsqb]],
  node objectPattern [[lbrace, opt [separated (keep name) comma], opt [comma], rbrace]],
  node ifStatement [[kIf, lpar, expression, rpar, statement, opt [kElse, statement]]],
  node whileStatement [[kWhile, lpar, expression, rpar, statement]],
  node doStatement [[kDo, statement, kWhile, lpar, expression, rpar, opt [semi]]],
  node forStatement [[kFor, lpar, opt [forInit], semi, opt [forCondition], semi, opt [forUpdate], rpar, statement]],
  node forInit [[forInitDeclaration], [separated expression comma]],
  node forInitDeclaration [[varKind, variableBindings]],
  node forCondition [[expression]],
  node forUpdate [[separated expression comma]],
  node forOfStatement [[kFor, lpar, opt [varKind], keep name, opt [typeNote], kOf, expression, rpar, statement]],
  node forInStatement [[kFor, lpar, opt [varKind], keep name, kIn, expression, rpar, statement]],
  node switchStatement [[kSwitch, lpar, expression, rpar, lbrace, many [switchItem], rbrace]],
  spliced switchItem [[caseLabel], [defaultLabel], [statement]],
  node caseLabel [[kCase, expression, colon]],
  node defaultLabel [[keep kDefault, colon]],
  node returnStatement [[keep kReturn, opt [expression], opt [semi]]],
  node breakStatement [[keep kBreak, opt [keep name], opt [semi]]],
  node continueStatement [[keep kContinue, opt [keep name], opt [semi]]],
  node throwStatement [[kThrow, expression, opt [semi]]],
  node tryStatement [[kTry, block, opt [catchClause], opt [finallyClause]]],
  node catchClause [[kCatch, opt [lpar, keep name, opt [typeNote], rpar], block]],
  node finallyClause [[kFinally, block]],
  node expressionStatement [[statementExpression, opt [semi]]],
  spliced statementExpression [[assignment], [prefixUpdate], [postfixUpdate], [call],
    [optionalCall], [newExpression], [awaitExpression]],
  node emptyStatement [[semi]]]

def declarations : List Rule := [ node decorator [[at_, qualifiedName, opt [arguments]]],
  node qualifiedName [[keep name, many [dot, keep name]]],
  node functionDeclaration [[many [decorator], opt [keep kAsync], kFunction, keep name,
    opt [typeParameters], parameterList, opt [typeNote], block]],
  node parameterList [[lpar, opt [separated parameter comma], opt [comma], rpar]],
  node parameter [[many [decorator], many [paramModifier], opt [keep ellipsis], keep name,
    opt [optionalMarker], opt [typeNote], opt [assign, expression]]],
  verbatim paramModifier [kPublic, kPrivate, kProtected, kReadonly],
  node optionalMarker [[question]],
  node classDeclaration [[many [decorator], many [classModifier], kClass, keep name,
    opt [typeParameters], opt [extendsClause], opt [implementsClause], lbrace,
    many [classElement], rbrace]],
  verbatim classModifier [kAbstract, kDeclare],
  node extendsClause [[kExtends, typeReference]],
  node implementsClause [[kImplements, separated typeReference comma]],
  spliced classElement [[classProperty], [classMethod], [accessorDeclaration], [semi]],
  verbatim memberModifier [kPublic, kPrivate, kProtected, kStatic, kReadonly, kAbstract, kOverride, kDeclare],
  node classProperty [[many [decorator], many [memberModifier], keep name, opt [optionalMarker],
    opt [typeNote], opt [assign, expression], opt [semi]]],
  node classMethod [[many [decorator], many [memberModifier], opt [keep kAsync], keep name,
    opt [optionalMarker], opt [typeParameters], parameterList, opt [typeNote],
    oneOf [block, semi]]],
  { node accessorDeclaration [[many [decorator], many [memberModifier], keep name, keep name,
      parameterList, opt [typeNote], block]] with priority := 2 },
  node interfaceDeclaration [[kInterface, keep name, opt [typeParameters], opt [interfaceExtends], objectType]],
  node interfaceExtends [[kExtends, separated typeReference comma]],
  node typeAliasDeclaration [[kType, keep name, opt [typeParameters], assign, tsType, opt [semi]]],
  node enumDeclaration [[opt [kConst], kEnum, keep name, lbrace,
    opt [separated enumMember comma], opt [comma], rbrace]],
  node enumMember [[oneOf [keep name, keep string], opt [assign, expression]]],
  node namespaceDeclaration [[kNamespace, qualifiedName, lbrace, many [statement], rbrace]],
  node typeParameters [[lt, separated typeParameter comma, gt]],
  node typeParameter [[keep name, opt [kExtends, tsType], opt [assign, tsType]]]]

def types : List Rule := [ node typeNote [[colon, tsType]], collapsed tsType [[nonUnionType], [unionType]],
  node unionType [[opt [bar], nonUnionType, some1 [bar, nonUnionType]]],
  spliced nonUnionType [[intersectionType], [arrayOrPrimaryType]],
  node intersectionType [[arrayOrPrimaryType, some1 [amp, arrayOrPrimaryType]]],
  spliced arrayOrPrimaryType [[arrayType], [primaryType]],
  node arrayType [[arrayOrPrimaryType, lsqb, rsqb]],
  spliced primaryType [[typeReference], [functionType], [objectType], [tupleType],
    [literalType], [typeofType], [lpar, tsType, rpar]],
  node typeReference [[qualifiedName, opt [typeArguments]]],
  node typeArguments [[lt, separated tsType comma, gt]],
  node functionType [[parameterList, fatArrow, tsType]],
  node objectType [[lbrace, many [typeMember, opt [oneOf [semi, comma]]], rbrace]],
  spliced typeMember [[propertySignature], [methodSignature], [indexSignature]],
  node propertySignature [[opt [kReadonly], keep name, opt [optionalMarker], typeNote]],
  node methodSignature [[keep name, opt [optionalMarker], opt [typeParameters], parameterList, opt [typeNote]]],
  node indexSignature [[lsqb, keep name, colon, tsType, rsqb, typeNote]],
  node tupleType [[lsqb, opt [separated tsType comma], rsqb]],
  node literalType [[keep string], [keep number], [keep kTrue], [keep kFalse], [keep kNull]],
  node typeofType [[kTypeof, qualifiedName]]]

def expressions : List Rule := [ collapsed expression [[assignment], [conditional], [arrowFunction]],
  node assignment [[lvalue, assignOp, expression]],
  spliced lvalue [[nameUse], [memberAccess], [indexAccess]],
  verbatim assignOp [assign, addAssign, subAssign, mulAssign, divAssign, remAssign,
    nullishAssign, orAssign, andAssign],
  (collapsed conditional [[nullish]]).withCase conditionalExpression
    [nullish, question, expression, colon, conditional],
  binaryLevel nullish nullishOp logicalOr,
  verbatim nullishOp [questionQuestion],
  binaryLevel logicalOr logicalOrOp logicalAnd,
  verbatim logicalOrOp [barBar],
  binaryLevel logicalAnd logicalAndOp bitwiseOr,
  verbatim logicalAndOp [ampAmp],
  binaryLevel bitwiseOr bitwiseOrOp bitwiseXor,
  verbatim bitwiseOrOp [bar],
  binaryLevel bitwiseXor bitwiseXorOp bitwiseAnd,
  verbatim bitwiseXorOp [caret],
  binaryLevel bitwiseAnd bitwiseAndOp equality,
  verbatim bitwiseAndOp [amp],
  binaryLevel equality equalityOp relational,
  verbatim equalityOp [strictEq, strictNe, eqEq, bangEq],
  ((binaryLevel relational relationalOp additive).withCase instanceofExpression
    [relational, kInstanceof, additive]).withCase asExpression [relational, kAs, tsType],
  verbatim relationalOp [lt, gt, le, ge],
  binaryLevel additive additiveOp multiplicative,
  verbatim additiveOp [plus, minus],
  binaryLevel multiplicative multiplicativeOp unary,
  verbatim multiplicativeOp [star, slash, percent, starStar],
  { category := unary, shape := .collapsed, alternatives := [
      { body := postfixExpression },
      { body := all [unaryOp, unary], label := some unaryExpression },
      { body := prefixUpdate }, { body := postfixUpdate }, { body := awaitExpression }] },
  verbatim unaryOp [bang, minus, plus, tilde, kTypeof],
  node prefixUpdate [[updateOp, lvalue]],
  node postfixUpdate [[lvalue, updateOp]],
  verbatim updateOp [plusPlus, minusMinus],
  node awaitExpression [[kAwait, unary]],
  collapsed postfixExpression [[primary], [memberAccess], [indexAccess], [call], [optionalCall]],
  (node memberAccess [[postfixExpression, dot, memberName]]).withCase optionalMemberAccess
    [postfixExpression, questionDot, memberName],
  node indexAccess [[postfixExpression, lsqb, expression, rsqb]],
  node call [[postfixExpression, arguments]],
  node optionalCall [[postfixExpression, questionDot, arguments]],
  node arguments [[lpar, opt [separated argument comma], opt [comma], rpar]],
  spliced argument [[expression], [spreadElement]],
  node spreadElement [[keep ellipsis, expression]],
  spliced memberName [[keep name], [keywordName]],
  verbatim keywordName [kCatch, kFinally, kNew, kType, kOf, kIn, kDelete, kDefault, kReturn],
  collapsed primary [[literal], [nameUse], [thisExpression], [superExpression],
    [lpar, expression, rpar], [arrayLiteral], [objectLiteral], [keep template],
    [newExpression], [functionExpression]],
  node nameUse [[keep name]],
  node thisExpression [[keep kThis]],
  node superExpression [[keep kSuper]],
  node newExpression [[kNew, typeReference, arguments]],
  node arrayLiteral [[lsqb, opt [separated arrayElement comma], opt [comma], rsqb]],
  spliced arrayElement [[expression], [spreadElement]],
  node objectLiteral [[lbrace, opt [separated property comma], opt [comma], rbrace]],
  spliced property [[keyedProperty], [shorthandProperty], [spreadElement]],
  node keyedProperty [[oneOf [keep name, keep string, keep number, keywordName], colon, expression]],
  node shorthandProperty [[keep name]],
  node functionExpression [[opt [keep kAsync], kFunction, opt [keep name],
    opt [typeParameters], parameterList, opt [typeNote], block]],
  node arrowFunction [[opt [keep kAsync], arrowParameters, opt [typeNote], fatArrow, arrowBody]],
  node arrowParameters [[keep name], [parameterList]],
  spliced arrowBody [[arrowBlock], [expression]],
  { node arrowBlock [[lbrace, many [statement], rbrace]] with priority := 2 },
  collapsed literal [[keep number], [keep string], [keep kTrue], [keep kFalse], [keep kNull]]]

def rules : List Rule := statements ++ declarations ++ types ++ expressions

end Blackboard.Grammar.TypeScript
