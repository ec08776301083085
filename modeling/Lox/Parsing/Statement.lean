import Lox.Parsing.Expression

/-!
# Statements and declarations

Every production is given the parsers of its parts; only statements and declarations recur. A
statement counts as a nesting level. A declaration is where the parse goes on after an error.

## Contents
- `declarations`: declarations up to a closing brace or the end.
- `function`, `classDeclaration`, `varDeclaration`: the declarations.
- `forStatement` and the other statements. A `for` becomes a block with a loop.
- `statement`, `declaration`: the recursive productions. Their argument bounds the recursion as for
  expressions.
-/

namespace Lox.Parsing

/-! ## Declarations -/

/-- Declarations up to a token for which `closes` holds. Each one passes a token, so the number of
tokens still to come bounds the repetition. -/
def declarationsFrom (declaration : Parser (Option Decl)) (closes : Option Token.Kind → Bool) :
    Nat → Parser (List Decl)
  | 0 => pure []
  | n + 1 => do
    if closes (← peek?) then pure []
    else
      let first ← declaration
      let others ← declarationsFrom declaration closes n
      pure (first.toList ++ others)

/-- Whether a body ends in front of a token: at a closing brace or at the end of the source. -/
def closesBody : Option Token.Kind → Bool
  | none => true
  | some kind => kind == .rightBrace

/-- The declarations of a body with its closing brace. -/
def body (declaration : Parser (Option Decl)) : Parser (List Decl) := do
  let decls ← declarationsFrom declaration closesBody (← remaining)
  let _ ← expect .rightBrace "'\x7d' after block"
  pure decls

/-- A parameter; `count` parameters came before it. -/
def parameter (mode : Mode) (count : Nat) : Parser Param := do
  checkCount mode "parameters" count
  let name ← expect .identifier "parameter name"
  pure ⟨name.lexeme, name.span⟩

/-- A function from its name on; `kind` is the word for it in errors. -/
def function (mode : Mode) (declaration : Parser (Option Decl)) (kind : String)
    (start : Location) : Parser FunctionDecl := do
  let name ← expect .identifier (kind ++ " name")
  let _ ← expect .leftParen ("'(' after " ++ kind ++ " name")
  let params ← if ← check .rightParen then pure [] else items (parameter mode)
  let _ ← expect .rightParen "')' after parameters"
  let _ ← expect .leftBrace ("'\x7b' before " ++ kind ++ " body")
  let decls ← body declaration
  pure ⟨name.lexeme, params, decls, ← spanFrom start⟩

/-- The methods of a class up to its closing brace. -/
def methodsFrom (method : Location → Parser FunctionDecl) : Nat → Parser (List FunctionDecl)
  | 0 => pure []
  | n + 1 => do
    if closesBody (← peek?) then pure []
    else
      let first ← method (← here)
      let others ← methodsFrom method n
      pure (first :: others)

/-- The superclass of a class, if one is named. -/
def superclassClause : Parser (Option NameUse) := do
  if ← accept .less then
    let name ← expect .identifier "superclass name"
    pure (some ⟨name.lexeme, none, name.span⟩)
  else pure none

/-- A class from its name on. -/
def classDeclaration (mode : Mode) (declaration : Parser (Option Decl)) (start : Location) :
    Parser Decl := do
  let name ← expect .identifier "class name"
  let superclass ← superclassClause
  let _ ← expect .leftBrace "'\x7b' before class body"
  let methods ← methodsFrom (function mode declaration "method") (← remaining)
  let _ ← expect .rightBrace "'\x7d' after class body"
  pure (.class name.lexeme superclass methods (← spanFrom start))

/-- A variable from its name on. -/
def varDeclaration (expression : Parser Expr) (start : Location) : Parser Decl := do
  let name ← expect .identifier "variable name"
  let initial ← if ← accept .equal then some <$> expression else pure none
  let _ ← expect .semicolon "';' after variable declaration"
  pure (.var name.lexeme initial (← spanFrom start))

/-! ## Statements -/

/-- An expression followed by a semicolon. -/
def expressionStatement (expression : Parser Expr) : Parser Stmt := do
  let start ← here
  let value ← expression
  let _ ← expect .semicolon "';' after expression"
  pure (.expression value (← spanFrom start))

/-- A `print` statement from its expression on. -/
def printStatement (expression : Parser Expr) (start : Location) : Parser Stmt := do
  let value ← expression
  let _ ← expect .semicolon "';' after value"
  pure (.print value (← spanFrom start))

/-- A block from its first declaration on. -/
def blockStatement (declaration : Parser (Option Decl)) (start : Location) : Parser Stmt := do
  let decls ← body declaration
  pure (.block decls (← spanFrom start))

/-- An `if` statement from its condition on. An `else` belongs to the nearest `if`. -/
def ifStatement (expression : Parser Expr) (statement : Parser Stmt) (start : Location) :
    Parser Stmt := do
  let _ ← expect .leftParen "'(' after 'if'"
  let condition ← expression
  let _ ← expect .rightParen "')' after if condition"
  let thenBranch ← statement
  let elseBranch ← if ← accept .else then some <$> statement else pure none
  pure (.ifThenElse condition thenBranch elseBranch (← spanFrom start))

/-- A `while` statement from its condition on. -/
def whileStatement (expression : Parser Expr) (statement : Parser Stmt) (start : Location) :
    Parser Stmt := do
  let _ ← expect .leftParen "'(' after 'while'"
  let condition ← expression
  let _ ← expect .rightParen "')' after condition"
  let loopBody ← statement
  pure (.whileLoop condition loopBody none (← spanFrom start))

/-- The first clause of a `for` statement, with its semicolon. -/
def forInitializer (expression : Parser Expr) : Parser (Option Decl) := do
  let start ← here
  match ← peek? with
  | some .semicolon =>
    advance
    pure none
  | some .var =>
    advance
    some <$> varDeclaration expression start
  | _ => (fun s => some (.stmt s)) <$> expressionStatement expression

/-- An expression, unless the next token is of the given kind. -/
def optionalBefore (kind : Token.Kind) (expression : Parser Expr) : Parser (Option Expr) := do
  if ← check kind then pure none else some <$> expression

/-- The block that a `for` statement stands for: its first clause, and a loop that keeps the
increment. A missing condition is true. -/
def forBlock (initial : Option Decl) (condition : Option Expr) (increment : Option Expr)
    (loopBody : Stmt) (span : Span) : Stmt :=
  .block
    (initial.toList ++
      [.stmt (.whileLoop (condition.getD (.literal (.bool true) span)) loopBody increment span)])
    span

/-- A `for` statement from its clauses on. -/
def forStatement (expression : Parser Expr) (statement : Parser Stmt) (start : Location) :
    Parser Stmt := do
  let _ ← expect .leftParen "'(' after 'for'"
  let initial ← forInitializer expression
  let condition ← optionalBefore .semicolon expression
  let _ ← expect .semicolon "';' after loop condition"
  let increment ← optionalBefore .rightParen expression
  let _ ← expect .rightParen "')' after for clauses"
  let loopBody ← statement
  pure (forBlock initial condition increment loopBody (← spanFrom start))

/-- A `return` statement from its value on. -/
def returnStatement (expression : Parser Expr) (start : Location) : Parser Stmt := do
  let value ← optionalBefore .semicolon expression
  let _ ← expect .semicolon "';' after return value"
  pure (.return value (← spanFrom start))

/-- A `break` statement from its semicolon on. -/
def breakStatement (start : Location) : Parser Stmt := do
  let _ ← expect .semicolon "';' after 'break'"
  pure (.break (← spanFrom start))

/-- A `continue` statement from its semicolon on. -/
def continueStatement (start : Location) : Parser Stmt := do
  let _ ← expect .semicolon "';' after 'continue'"
  pure (.continue (← spanFrom start))

/-- A statement, chosen by its first token. -/
def statementWith (expression : Parser Expr) (statement : Parser Stmt)
    (declaration : Parser (Option Decl)) : Parser Stmt := do
  let start ← here
  match ← peek? with
  | some .print => do advance; printStatement expression start
  | some .leftBrace => do advance; blockStatement declaration start
  | some .if => do advance; ifStatement expression statement start
  | some .while => do advance; whileStatement expression statement start
  | some .for => do advance; forStatement expression statement start
  | some .return => do advance; returnStatement expression start
  | some .break => do advance; breakStatement start
  | some .continue => do advance; continueStatement start
  | _ => expressionStatement expression

/-- A declaration, chosen by its first token. -/
def declarationWith (mode : Mode) (expression : Parser Expr) (statement : Parser Stmt)
    (declaration : Parser (Option Decl)) : Parser Decl := do
  let start ← here
  match ← peek? with
  | some .class => do advance; classDeclaration mode declaration start
  | some .fun => do advance; .function <$> function mode declaration "function" start
  | some .var => do advance; varDeclaration expression start
  | _ => .stmt <$> statement

/-! ## Recursion -/

mutual

/-- A statement. -/
def statement (mode : Mode) : Nat → Parser Stmt
  | 0 => fail .tooNested
  | n + 1 =>
    nested (statementWith (assignment mode n) (statement mode n) (declaration mode n))

/-- A declaration; none when an error was recorded in its place. -/
def declaration (mode : Mode) : Nat → Parser (Option Decl)
  | 0 => fail .tooNested
  | n + 1 =>
    recovered mode
      (declarationWith mode (assignment mode n) (statement mode n) (declaration mode n))

end

end Lox.Parsing
