import Lox.Diagnostic
import Lox.Parsing.Program
import Lox.Resolution
import Lox.Failure

/-!
# The diagnostics of errors

Every error of the language as a diagnostic: its code, and the context that its message needs.

## Contents
- `LexicalError.diagnostic`, `SyntaxError.diagnostic`, `SourceError.diagnostic`: source texts.
- `StaticError.diagnostic`: static rules.
- `RuntimeError.diagnostic`, `InternalError.diagnostic`: runs.
-/

namespace Lox

/-- The diagnostic for a code. -/
def Code.diagnostic (code : Code) (origin : Origin) (context : List (String × Datum))
    (location : Option Location) : Diagnostic :=
  ⟨origin, code.definition, ⟨context⟩, location⟩

/-- The code of a lexical error and its context. -/
def LexicalError.Cause.report : LexicalError.Cause → Code × List (String × Datum)
  | .unexpected unit => (.unexpectedCharacter, [("char", .string (Text.spellUnit unit))])
  | .unterminated => (.unterminatedString, [])
  | .badNumber lexeme => (.invalidNumber, [("lexeme", .string lexeme)])

def LexicalError.diagnostic (e : LexicalError) : Diagnostic :=
  e.cause.report.1.diagnostic .lexer e.cause.report.2 (some e.location)

/-- The code of a syntax error and its context. -/
def SyntaxError.Cause.report : SyntaxError.Cause → Code × List (String × Datum)
  | .noExpression => (.noExpression, [])
  | .expected what => (.missingToken, [("expected", .string what)])
  | .badTarget => (.badTarget, [])
  | .tooMany what =>
    (.tooMany, [("max", .number (Decimal.value Parsing.maxArity 0)), ("what", .string what)])
  | .tooNested => (.tooNested, [])

def SyntaxError.diagnostic (e : SyntaxError) : Diagnostic :=
  e.cause.report.1.diagnostic (.parse e.found) e.cause.report.2 (some e.location)

def SourceError.diagnostic : SourceError → Diagnostic
  | .lexical e => e.diagnostic
  | .syntactic e => e.diagnostic

/-- The code of a static error and its context. -/
def StaticError.Cause.report : StaticError.Cause → Code × List (String × Datum)
  | .ownInitializer => (.ownInitializer, [])
  | .alreadyDeclared name => (.alreadyDeclared, [("name", .string name)])
  | .returnOutsideFunction => (.returnOutsideFunction, [])
  | .returnFromInitializer => (.returnFromInitializer, [])
  | .jumpOutsideLoop keyword => (.jumpOutsideLoop, [("keyword", .string keyword)])
  | .thisOutsideClass => (.thisOutsideClass, [])
  | .superOutsideClass => (.superOutsideClass, [])
  | .superWithoutSuperclass => (.superWithoutSuperclass, [])
  | .inheritsFromItself => (.inheritsFromItself, [])

def StaticError.diagnostic (e : StaticError) : Diagnostic :=
  e.cause.report.1.diagnostic .static e.cause.report.2 (some e.location)

/-- The code of a runtime error and its context. -/
def RuntimeError.Cause.report : RuntimeError.Cause → Code × List (String × Datum)
  | .undefinedVariable name => (.undefinedVariable, [("name", .string name)])
  | .undefinedProperty name => (.undefinedProperty, [("name", .string name)])
  | .operandNotNumber => (.operandNotNumber, [])
  | .operandsNotNumbers => (.operandsNotNumbers, [])
  | .operandsNotAddable => (.operandsNotAddable, [])
  | .notCallable => (.notCallable, [])
  | .wrongArity expected actual =>
    (.wrongArity,
      [("expected", .number (Decimal.value expected 0)),
       ("actual", .number (Decimal.value actual 0))])
  | .propertyOfNonInstance => (.propertyOfNonInstance, [])
  | .fieldOfNonInstance => (.fieldOfNonInstance, [])
  | .superclassNotClass => (.superclassNotClass, [])
  | .stackOverflow => (.stackOverflow, [])
  | .rejectedArguments name reason =>
    (.rejectedArguments, [("name", .string name), ("reason", .string reason)])

def RuntimeError.diagnostic (e : RuntimeError) : Diagnostic :=
  e.cause.report.1.diagnostic .runtime e.cause.report.2 e.location

/-- What is wrong with the interpreter. -/
def Defect.reason : Defect → String
  | .chainTooShort depth => "scope depth " ++ toString depth ++ " exceeds environment chain"
  | .nameMissing name depth => "'" ++ name ++ "' not found at scope depth " ++ toString depth
  | .unresolvedSuper => "unresolved 'super' expression"
  | .brokenSuper => "'super' scope does not hold a class and instance"
  | .escapedBody jump function => "'" ++ jump ++ "' escaped the body of " ++ function
  | .escapedTopLevel jump => "'" ++ jump ++ "' escaped to top level"

def InternalError.diagnostic (e : InternalError) : Diagnostic :=
  Code.defect.diagnostic .internal [("reason", .string e.defect.reason)] e.location

end Lox
