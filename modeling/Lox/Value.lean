import Lox.Syntax
import Lox.Table
import Lox.Decimal.Numeral

/-!
# Values

The values of a running program. Functions, classes and instances have an identity: a number that no
other object of the same session has. What can change, the bindings of a scope and the fields of an
instance, lies in the memory of the session; values refer to it by number.

## Contents
- `Chain`: the scopes that a piece of program sees.
- `Closure`, `Class`, `Instance`, `Native`, `Value`: the values.
- `Value.isTruthy`, `Value.equals`, `Value.typeName`, `Value.text`: truth, equality, type and
  display.
- `Class.findMethod?`, `Value.callable?`, `Callable.arity`: what can be called, and with how much.
-/

namespace Lox

/-- The scopes that a piece of program sees, innermost first, by their numbers. -/
abbrev Chain := List Nat

/-- A function with the scopes around its declaration. -/
structure Closure where
  declaration : FunctionDecl
  chain : Chain
  /-- Whether it initializes instances, and therefore always yields its receiver. -/
  isInitializer : Bool

/-- A class. Its methods are in the order of their first declarations. -/
structure Class where
  id : Nat
  name : String
  superclass : Option Class
  methods : List (String × Closure)

/-- An object made by a class; its fields lie in memory under its number. -/
structure Instance where
  id : Nat
  ofClass : Class

/-- The functions that are defined from the start. -/
inductive Builtin
  | clock | type | round | rand | randint | help | exit | quit | dir
deriving DecidableEq, Repr

/-- What a native function does. -/
inductive Native.Body
  | builtin (b : Builtin)
  /-- Provided by the host under the name of the function. -/
  | host
deriving DecidableEq, Repr

/-- A function that is not written in the language. Its name identifies it. -/
structure Native where
  name : String
  arity : Nat
  description : String
  body : Native.Body
deriving DecidableEq, Repr

/-- Values. -/
inductive Value
  | nil
  | bool (b : Bool)
  | number (x : Float)
  | string (s : String)
  | function (id : Nat) (closure : Closure)
  | «class» (c : Class)
  /-- A method with the instance that it was read from. -/
  | method (id : Nat) (closure : Closure) (receiver : Instance)
  | native (n : Native)
  | «instance» (i : Instance)

instance : Inhabited Value := ⟨.nil⟩

/-- The value of a literal. -/
def Value.ofLiteral : Literal → Value
  | .nil => .nil
  | .bool b => .bool b
  | .number x => .number x
  | .string s => .string s

/-! ## Methods and callables -/

/-- A method of the class, or else of the nearest superclass that has it. -/
def Class.findMethod? : Class → String → Option Closure
  | ⟨_, _, superclass, methods⟩, name =>
    match Table.find? name methods with
    | some closure => some closure
    | none =>
      match superclass with
      | some c => c.findMethod? name
      | none => none

/-- The name of a function. -/
def Closure.name (c : Closure) : String := c.declaration.name

/-- The number of parameters of a function. -/
def Closure.arity (c : Closure) : Nat := c.declaration.params.length

/-- What can be called. -/
inductive Callable
  | function (closure : Closure)
  | method (closure : Closure) (receiver : Instance)
  | «class» (c : Class)
  | native (n : Native)

/-- The number of arguments that a call has to supply. A class takes those of its initializer. -/
def Callable.arity : Callable → Nat
  | .function closure => closure.arity
  | .method closure _ => closure.arity
  | .class c => ((c.findMethod? initializerName).map (·.arity)).getD 0
  | .native n => n.arity

/-- The name of a callable. -/
def Callable.name : Callable → String
  | .function closure => closure.name
  | .method closure _ => closure.name
  | .class c => c.name
  | .native n => n.name

/-- What is shown for callables without a description. -/
def noDescription : String := "No documentation available."

/-- What is shown about a callable. -/
def Callable.description : Callable → String
  | .native n => n.description
  | _ => noDescription

namespace Value

/-- A value as something to call. -/
def callable? : Value → Option Callable
  | .function _ closure => some (.function closure)
  | .class c => some (.class c)
  | .method _ closure receiver => some (.method closure receiver)
  | .native n => some (.native n)
  | _ => none

/-! ## Truth, equality, type and display -/

/-- Only `nil` and `false` are not true. -/
def isTruthy : Value → Bool
  | .nil => false
  | .bool b => b
  | _ => true

/-- Values of different kinds are never equal; numbers compare as doubles, texts by their
characters, and objects by identity. -/
def equals : Value → Value → Bool
  | .nil, .nil => true
  | .bool a, .bool b => a == b
  | .number x, .number y => x == y
  | .string s, .string t => s == t
  | .function i _, .function j _ => i == j
  | .class c, .class d => c.id == d.id
  | .method i _ _, .method j _ _ => i == j
  | .native m, .native n => m.name == n.name
  | .instance i, .instance j => i.id == j.id
  | _, _ => false

/-- The name of the type of a value. -/
def typeName : Value → String
  | .nil => "nil"
  | .bool _ => "bool"
  | .number _ => "number"
  | .string _ => "string"
  | .function _ _ | .method _ _ _ | .native _ => "fn"
  | .class _ => "class"
  | .instance _ => "instance"

/-- What `print` shows for a value. -/
def text : Value → String
  | .nil => "nil"
  | .bool b => if b then "true" else "false"
  | .number x => Decimal.text x
  | .string s => s
  | .function _ closure | .method _ closure _ => "<fn " ++ closure.name ++ ">"
  | .native n => "<native fn " ++ n.name ++ ">"
  | .class c => c.name
  | .instance i => i.ofClass.name ++ " instance"

end Value

end Lox
