/-!
The syntactic categories of the two languages. A category names the constructs a rule describes,
and a node of a parse tree carries the category it was read as; some categories occur only there.
-/
namespace Blackboard.Grammar

inductive Category where
  -- programs and statements
  | program | topLevel | statement | block | emptyStatement | expressionStatement
  | statementExpression | ifStatement | whileStatement | doStatement | forStatement | forInit
  | forInitDeclaration | forCondition | forUpdate | forEachStatement | forOfStatement
  | forInStatement | switchStatement | switchItem | caseLabel | defaultLabel | returnStatement
  | breakStatement | continueStatement | throwStatement | tryStatement | resourceSpecification
  | resource | catchClause | finallyClause | localVariable | variableStatement | varKind
  | variableBindings | variableBinding | destructuringStatement | arrayPattern | objectPattern
  -- declarations
  | exportDeclaration | declaration | modifiers | modifier | marker | decorator | qualifiedName
  | classDeclaration | superclass | interfaces | classBody | classMember | classElement
  | initializerBlock | fieldDeclaration | methodDeclaration | constructorDeclaration | resultType
  | voidType | throwsClause | formalParameters | formalParameter | parameterList | parameter
  | paramModifier | optionalMarker | classModifier | extendsClause | implementsClause
  | memberModifier | classProperty | classMethod | accessorDeclaration | functionDeclaration
  | interfaceDeclaration | interfaceExtends | enumDeclaration | enumConstant | enumBody
  | enumMember | typeAliasDeclaration | namespaceDeclaration | typeParameters | typeParameter
  | variableDeclarators | variableDeclarator | variableInitializer | arrayInitializer
  -- types
  | typeUse | primitiveType | classType | typeArguments | typeArgument | wildcard | arrayDim
  | typeNote | tsType | unionType | nonUnionType | intersectionType | arrayOrPrimaryType
  | arrayType | primaryType | typeReference | functionType | objectType | typeMember
  | propertySignature | methodSignature | indexSignature | tupleType | literalType | typeofType
  -- expressions
  | expression | assignment | lvalue | assignOp | conditional | conditionalExpression | nullish
  | nullishOp | logicalOr | logicalOrOp | logicalAnd | logicalAndOp | bitwiseOr | bitwiseOrOp
  | bitwiseXor | bitwiseXorOp | bitwiseAnd | bitwiseAndOp | equality | equalityOp | relational
  | relationalOp | additive | additiveOp | multiplicative | multiplicativeOp | binaryExpression
  | instanceofExpression | asExpression | unary | unaryOp | unaryExpression | prefixUpdate
  | postfixUpdate | updateOp | castExpression | awaitExpression | postfixExpression | fieldAccess
  | memberAccess | optionalMemberAccess | memberName | keywordName | arrayAccess | indexAccess
  | call | optionalCall | arguments | argument | spreadElement | primary | nameUse
  | thisExpression | superExpression | newObject | newArray | newExpression | dimExpression
  | arrayLiteral | arrayElement | objectLiteral | property | keyedProperty | shorthandProperty
  | lambdaExpression | lambdaParameters | lambdaParameter | functionExpression | arrowFunction
  | arrowParameters | arrowBody | arrowBlock | literal
deriving DecidableEq, Repr

end Blackboard.Grammar
