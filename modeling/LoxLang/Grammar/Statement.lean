import LoxLang.Grammar.Expression

/-!
Reading statements and whole programs. A declaration that fails is skipped up to the next place where a
statement may begin, and one during which any error was recorded is left out of the program, so that
one reading reports every independent mistake.
-/

namespace LoxLang.Grammar

/-- The words that begin a statement. -/
def statementWords : List Token.Kind :=
  [.class, .fun, .var, .for, .if, .while, .print, .return]

/-- Past the next semicolon, or up to a word that begins a statement, or to the end. -/
def nextStatement : List Token → List Token
  | [] => []
  | token :: rest =>
      if token.kind = .endOfInput then token :: rest
      else if token.kind = .semicolon then rest
      else if statementWords.contains token.kind then token :: rest
      else nextStatement rest

def Cursor.synchronize : Cursor → Cursor
  | ⟨ahead, errors⟩ => ⟨nextStatement ahead, errors⟩

/-- A declaration's result: nothing if it failed or recorded an error. -/
def recovering (declaration : Reader Stmt) : Reader (Option Stmt) :=
  fun cursor =>
    let before := cursor.errors.size
    match declaration cursor with
    | .ok stmt next => .ok (if before < next.errors.size then none else some stmt) next
    | .error .failed next => .ok none next.synchronize
    | .error .tooDeep next => .error .tooDeep next

/-- A loop with an initializer runs in a scope of its own. -/
def forLoop (initializer : Option Stmt) (condition : Option Expr) (increment : Option Expr)
    (body : Stmt) : Stmt :=
  let loop := .while (condition.getD (.literal (.bool true))) body increment
  match initializer with
  | none => loop
  | some initializer => .block [initializer, loop]

variable (rounds : Nat)

def optionally {α : Type} (skip : Reader Bool) (reader : Reader α) : Reader (Option α) := do
  if ← skip then return none else return some (← reader)

def expressionStatement : (depth : Nat) → Reader Stmt
  | 0 => tooDeep
  | depth + 1 => do
      let value ← expression rounds depth
      let _ ← expect .semicolon .expressionEnd
      return .expression value

def printStatement : (depth : Nat) → Reader Stmt
  | 0 => tooDeep
  | depth + 1 => do
      let value ← expression rounds depth
      let _ ← expect .semicolon .printEnd
      return .print value

def returnStatement (keyword : Token) : (depth : Nat) → Reader Stmt
  | 0 => tooDeep
  | depth + 1 => do
      let value ← optionally (isNext .semicolon) (expression rounds depth)
      let _ ← expect .semicolon .returnEnd
      return .return keyword value

def varDeclaration : (depth : Nat) → Reader Stmt
  | 0 => tooDeep
  | depth + 1 => do
      let name ← expect .identifier .variableName
      let initializer ←
        optionally (return !(← accepts .equal)) (expression rounds depth)
      let _ ← expect .semicolon .variableEnd
      return .var name initializer

/-- What stands before the first semicolon of a `for`. -/
def forInitializer (depth : Nat) : Reader (Option Stmt) := do
  if ← accepts .semicolon then return none
  else if ← accepts .var then return some (← varDeclaration rounds depth)
  else return some (← expressionStatement rounds depth)

def parameters : Reader (List Token) := do
  if ← isNext .rightParen then return []
  else commaList rounds (expect .identifier .parameterName) .tooManyParameters

mutual

def declaration : (depth : Nat) → Reader (Option Stmt)
  | 0 => tooDeep
  | depth + 1 => recovering do
      if ← accepts .class then classDeclaration depth
      else if ← accepts .fun then return .function (← function .function depth)
      else if ← accepts .var then varDeclaration rounds depth
      else statement depth

def classDeclaration : (depth : Nat) → Reader Stmt
  | 0 => tooDeep
  | depth + 1 => do
      let name ← expect .identifier .className
      let superclass ←
        optionally (return !(← accepts .less)) (expect .identifier .superclassName)
      let _ ← expect .leftBrace .classBodyStart
      let methods ← iterate (fun (methods : Array FunctionDecl) => do
        if ← closes then return none
        else return some (methods.push (← function .method depth))) rounds #[]
      let _ ← expect .rightBrace .classBodyEnd
      return .class name (superclass.map .unmarked) methods.toList

def function (form : FunctionForm) : (depth : Nat) → Reader FunctionDecl
  | 0 => tooDeep
  | depth + 1 => do
      let name ← expect .identifier (.functionName form)
      let _ ← expect .leftParen (.parametersStart form)
      let params ← parameters rounds
      let _ ← expect .rightParen .parametersEnd
      let _ ← expect .leftBrace (.functionBodyStart form)
      return ⟨name, params, ← block depth⟩

/-- The statements up to a closing brace, the opening one being read. -/
def block : (depth : Nat) → Reader (List Stmt)
  | 0 => tooDeep
  | depth + 1 => do
      let statements ← iterate (fun (statements : Array Stmt) => do
        if ← closes then return none
        else match ← declaration depth with
          | some stmt => return some (statements.push stmt)
          | none => return some statements) rounds #[]
      let _ ← expect .rightBrace .blockEnd
      return statements.toList

def statement : (depth : Nat) → Reader Stmt
  | 0 => tooDeep
  | depth + 1 => do
      let keyword ← peek
      match keyword.kind with
      | .for => advance; forStatement depth
      | .if => advance; ifStatement depth
      | .print => advance; printStatement rounds depth
      | .return => advance; returnStatement rounds keyword depth
      | .while => advance; whileStatement depth
      | .break =>
          advance
          let _ ← expect .semicolon .breakEnd
          return .break keyword
      | .continue =>
          advance
          let _ ← expect .semicolon .continueEnd
          return .continue keyword
      | .leftBrace => advance; return .block (← block depth)
      | _ => expressionStatement rounds depth

def forStatement : (depth : Nat) → Reader Stmt
  | 0 => tooDeep
  | depth + 1 => do
      let _ ← expect .leftParen .forStart
      let initializer ← forInitializer rounds depth
      let condition ← optionally (isNext .semicolon) (expression rounds depth)
      let _ ← expect .semicolon .forConditionEnd
      let increment ← optionally (isNext .rightParen) (expression rounds depth)
      let _ ← expect .rightParen .forClausesEnd
      return forLoop initializer condition increment (← statement depth)

def ifStatement : (depth : Nat) → Reader Stmt
  | 0 => tooDeep
  | depth + 1 => do
      let _ ← expect .leftParen .ifStart
      let condition ← expression rounds depth
      let _ ← expect .rightParen .ifConditionEnd
      let thenBranch ← statement depth
      let elseBranch ← optionally (return !(← accepts .else)) (statement depth)
      return .if condition thenBranch elseBranch

def whileStatement : (depth : Nat) → Reader Stmt
  | 0 => tooDeep
  | depth + 1 => do
      let _ ← expect .leftParen .whileStart
      let condition ← expression rounds depth
      let _ ← expect .rightParen .whileConditionEnd
      return .while condition (← statement depth) none

end

/-- The declarations up to the end. When one is nested too deeply the rest is skipped. -/
def declarations (depth : Nat) : (remaining : Nat) → Array Stmt → Cursor → Array Stmt × Cursor
  | 0, statements, cursor => (statements, cursor)
  | remaining + 1, statements, cursor =>
      if cursor.atEnd then (statements, cursor)
      else match declaration rounds depth cursor with
        | .ok (some stmt) next => declarations depth remaining (statements.push stmt) next
        | .ok none next => declarations depth remaining statements next
        | .error _ next => (statements, next.report next.peek .nesting)

end LoxLang.Grammar

namespace LoxLang

/-- The statements read from a list of tokens, and the errors found on the way. -/
structure Program where
  statements : List Stmt
  errors : List SyntaxError

/-- Reads a program whose rules may nest `depth` levels deep. -/
def Program.ofTokens (depth : Nat) (tokens : List Token) : Program :=
  let rounds := tokens.length
  let (statements, cursor) := Grammar.declarations rounds depth rounds #[] ⟨tokens, #[]⟩
  ⟨statements.toList, cursor.errors.toList⟩

end LoxLang
