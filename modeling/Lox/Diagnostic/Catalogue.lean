import Lox.Datum

/-!
# The catalogue of errors

Every kind of error has an identifier such as `LOX-P001`, whose letter tells its category, a short
description, and a template for its message.

## Contents
- `Category`: lexical, syntactic, static, runtime and internal errors.
- `Definition`, `Catalogue.build`: a catalogue of definitions with fitting, distinct identifiers.
- `Code`, `Code.definition`: the errors of the language.
-/

namespace Lox

/-- What an error is about. -/
inductive Category
  | lexer
  | parse
  | static
  | runtime
  | internal
deriving DecidableEq, Repr

namespace Category

def all : List Category := [.lexer, .parse, .static, .runtime, .internal]

def name : Category → String
  | .lexer => "lexer"
  | .parse => "parse"
  | .static => "static"
  | .runtime => "runtime"
  | .internal => "internal"

/-- The letter of a category in identifiers. -/
def letter : Category → Char
  | .lexer => 'L'
  | .parse => 'P'
  | .static => 'S'
  | .runtime => 'R'
  | .internal => 'I'

/-- The category with the given name. -/
def ofName? (name : String) : Option Category := all.find? fun c => c.name == name

end Category

/-- An entry of a catalogue. The category is kept as it was given. -/
structure Definition where
  id : String
  category : String
  description : String
  template : String
deriving DecidableEq, Repr

/-- Definitions with distinct identifiers, in the order in which they were given. -/
structure Catalogue where
  definitions : List Definition

/-- Why definitions do not form a catalogue. -/
inductive CatalogueError
  | misfit (id category : String)
  | duplicate (id : String)
deriving DecidableEq, Repr

def CatalogueError.message : CatalogueError → String
  | .misfit id category => "Error ID " ++ id ++ " does not fit category " ++ category
  | .duplicate id => "Duplicate error ID: " ++ id

namespace Catalogue

/-- The letter of an identifier: `LOX-`, a capital letter and three digits. -/
def letter? (id : String) : Option Char :=
  match id.toList with
  | ['L', 'O', 'X', '-', letter, a, b, c] =>
    if 'A' ≤ letter && letter ≤ 'Z' && [a, b, c].all Decimal.isDigit then some letter else none
  | _ => none

/-- Whether an identifier may be used in a category. A category without a letter takes exactly the
identifiers without one, except that the names which every context answers are no categories. -/
def fits (id category : String) : Bool :=
  letter? id == (Category.ofName? category).map (·.letter) && (inheritedText? category).isNone

/-- The definition of an identifier. -/
def get? (c : Catalogue) (id : String) : Option Definition :=
  c.definitions.find? fun d => d.id == id

/-- The definitions of a category, in order. -/
def ofCategory (c : Catalogue) (category : String) : List Definition :=
  c.definitions.filter fun d => d.category == category

/-- Adds definitions one by one. -/
def buildFrom (c : Catalogue) : List Definition → Except CatalogueError Catalogue
  | [] => .ok c
  | d :: ds =>
    if !fits d.id d.category then .error (.misfit d.id d.category)
    else if (c.get? d.id).isSome then .error (.duplicate d.id)
    else buildFrom ⟨c.definitions ++ [d]⟩ ds

/-- The catalogue of some definitions. -/
def build (definitions : List Definition) : Except CatalogueError Catalogue :=
  buildFrom ⟨[]⟩ definitions

end Catalogue

/-- The errors of the language. -/
inductive Code
  | unexpectedCharacter | unterminatedString | invalidNumber
  | noExpression | missingToken | badTarget | tooMany | tooNested
  | ownInitializer | alreadyDeclared | returnOutsideFunction | returnFromInitializer
  | jumpOutsideLoop | thisOutsideClass | superOutsideClass | superWithoutSuperclass
  | inheritsFromItself
  | undefinedVariable | undefinedProperty | operandNotNumber | operandsNotNumbers
  | operandsNotAddable | notCallable | wrongArity | propertyOfNonInstance | fieldOfNonInstance
  | superclassNotClass | stackOverflow | rejectedArguments
  | defect
deriving DecidableEq, Repr

namespace Code

/-- All errors of the language, in the order of the catalogue. -/
def all : List Code :=
  [.unexpectedCharacter, .unterminatedString, .invalidNumber, .noExpression, .missingToken,
   .badTarget, .tooMany, .tooNested, .ownInitializer, .alreadyDeclared, .returnOutsideFunction,
   .returnFromInitializer, .jumpOutsideLoop, .thisOutsideClass, .superOutsideClass,
   .superWithoutSuperclass, .inheritsFromItself, .undefinedVariable, .undefinedProperty,
   .operandNotNumber, .operandsNotNumbers, .operandsNotAddable, .notCallable, .wrongArity,
   .propertyOfNonInstance, .fieldOfNonInstance, .superclassNotClass, .stackOverflow,
   .rejectedArguments, .defect]

/-- What an error is about. -/
def category : Code → Category
  | .unexpectedCharacter | .unterminatedString | .invalidNumber => .lexer
  | .noExpression | .missingToken | .badTarget | .tooMany | .tooNested => .parse
  | .ownInitializer | .alreadyDeclared | .returnOutsideFunction | .returnFromInitializer
  | .jumpOutsideLoop | .thisOutsideClass | .superOutsideClass | .superWithoutSuperclass
  | .inheritsFromItself => .static
  | .undefinedVariable | .undefinedProperty | .operandNotNumber | .operandsNotNumbers
  | .operandsNotAddable | .notCallable | .wrongArity | .propertyOfNonInstance
  | .fieldOfNonInstance | .superclassNotClass | .stackOverflow | .rejectedArguments => .runtime
  | .defect => .internal

/-- The identifier, the description and the template of an error. -/
def entry : Code → String × String × String
  | .unexpectedCharacter =>
    ("LOX-L001", "Unexpected character", "Unexpected character '\x7bchar\x7d'.")
  | .unterminatedString => ("LOX-L002", "Unterminated string literal", "Unterminated string.")
  | .invalidNumber => ("LOX-L003", "Invalid number literal", "Invalid number '\x7blexeme\x7d'.")
  | .noExpression => ("LOX-P001", "Expected an expression", "Expect expression.")
  | .missingToken => ("LOX-P002", "Missing expected token", "Expect \x7bexpected\x7d.")
  | .badTarget => ("LOX-P003", "Invalid assignment target", "Invalid assignment target.")
  | .tooMany =>
    ("LOX-P004", "Too many arguments or parameters",
      "Can't have more than \x7bmax\x7d \x7bwhat\x7d.")
  | .tooNested => ("LOX-P005", "Nesting too deep", "Too much nesting.")
  | .ownInitializer =>
    ("LOX-S001", "Variable read in its own initializer",
      "Can't read local variable in its own initializer.")
  | .alreadyDeclared =>
    ("LOX-S002", "Duplicate declaration in scope",
      "Already a variable named '\x7bname\x7d' in this scope.")
  | .returnOutsideFunction =>
    ("LOX-S003", "Return outside function", "Can't return from top-level code.")
  | .returnFromInitializer =>
    ("LOX-S004", "Value returned from initializer", "Can't return a value from an initializer.")
  | .jumpOutsideLoop =>
    ("LOX-S005", "Loop control outside loop", "Can't use '\x7bkeyword\x7d' outside of a loop.")
  | .thisOutsideClass => ("LOX-S006", "this outside class", "Can't use 'this' outside of a class.")
  | .superOutsideClass =>
    ("LOX-S007", "super outside class", "Can't use 'super' outside of a class.")
  | .superWithoutSuperclass =>
    ("LOX-S008", "super without superclass", "Can't use 'super' in a class with no superclass.")
  | .inheritsFromItself =>
    ("LOX-S009", "Class inherits from itself", "A class can't inherit from itself.")
  | .undefinedVariable =>
    ("LOX-R001", "Undefined variable", "Undefined variable '\x7bname\x7d'.")
  | .undefinedProperty =>
    ("LOX-R002", "Undefined property", "Undefined property '\x7bname\x7d'.")
  | .operandNotNumber =>
    ("LOX-R003", "Unary operand not a number", "Operand must be a number.")
  | .operandsNotNumbers =>
    ("LOX-R004", "Binary operands not numbers", "Operands must be numbers.")
  | .operandsNotAddable =>
    ("LOX-R005", "Invalid operands for +", "Operands must be two numbers or two strings.")
  | .notCallable =>
    ("LOX-R006", "Value is not callable", "Can only call functions and classes.")
  | .wrongArity =>
    ("LOX-R007", "Wrong argument count",
      "Expected \x7bexpected\x7d arguments but got \x7bactual\x7d.")
  | .propertyOfNonInstance =>
    ("LOX-R008", "Property read on non-instance", "Only instances have properties.")
  | .fieldOfNonInstance =>
    ("LOX-R009", "Field write on non-instance", "Only instances have fields.")
  | .superclassNotClass =>
    ("LOX-R010", "Superclass is not a class", "Superclass must be a class.")
  | .stackOverflow => ("LOX-R011", "Call depth limit exceeded", "Stack overflow.")
  | .rejectedArguments =>
    ("LOX-R012", "Native function rejected its arguments", "\x7bname\x7d: \x7breason\x7d")
  | .defect =>
    ("LOX-I001", "Interpreter invariant violated", "Internal error: \x7breason\x7d")

/-- The definition of an error. -/
def definition (c : Code) : Definition :=
  ⟨c.entry.1, c.category.name, c.entry.2.1, c.entry.2.2⟩

end Code

/-- The catalogue of the language. -/
def Catalogue.standard : Catalogue := ⟨Code.all.map Code.definition⟩

/-- The errors of the language form a catalogue. -/
theorem Catalogue.build_standard :
    (Catalogue.build (Code.all.map Code.definition)).toOption.map (·.definitions) =
      some Catalogue.standard.definitions := by decide +kernel

end Lox
