import LoxLang.Diagnostic

/-!
Readers of a list of tokens. A cursor holds the tokens that are still ahead and the errors found so
far. A reader either yields a result, or fails at an error that it has recorded, or gives up because
its rules nest too deeply; in each case the cursor stays where it has got to.
-/

namespace LoxLang

/-- The two ways to write a function, which differ in what errors call them. -/
inductive FunctionForm where
  | function | method
  deriving DecidableEq

def FunctionForm.text : FunctionForm → String
  | .function => "function"
  | .method => "method"

/-- A list of parameters or arguments has at most this many entries. -/
def maxArguments : Nat := 255

inductive SyntaxError.Cause where
  | className | superclassName | classBodyStart | classBodyEnd
  | functionName (form : FunctionForm)
  | parametersStart (form : FunctionForm)
  | parameterName | tooManyParameters | parametersEnd
  | functionBodyStart (form : FunctionForm)
  | breakEnd | continueEnd | blockEnd
  | forStart | forConditionEnd | forClausesEnd
  | ifStart | ifConditionEnd
  | expressionEnd | printEnd | returnEnd
  | variableName | variableEnd
  | whileStart | whileConditionEnd
  | assignmentTarget
  | propertyName | tooManyArguments | argumentsEnd | groupingEnd
  | superDot | superMethodName
  | expression
  | nesting
  deriving DecidableEq

def SyntaxError.Cause.message : SyntaxError.Cause → String
  | .className => "Expect class name."
  | .superclassName => "Expect superclass name."
  | .classBodyStart => "Expect '\x7b' before class body."
  | .classBodyEnd => "Expect '\x7d' after class body."
  | .functionName form => s!"Expect {form.text} name."
  | .parametersStart form => s!"Expect '(' after {form.text} name."
  | .parameterName => "Expect parameter name."
  | .tooManyParameters => s!"Can't have more than {maxArguments} parameters."
  | .parametersEnd => "Expect ')' after parameters."
  | .functionBodyStart form => s!"Expect '\x7b' before {form.text} body."
  | .breakEnd => "Expect ';' after 'break'."
  | .continueEnd => "Expect ';' after 'continue'."
  | .blockEnd => "Expect '\x7d' after block."
  | .forStart => "Expect '(' after 'for'."
  | .forConditionEnd => "Expect ';' after loop condition."
  | .forClausesEnd => "Expect ')' after for clauses."
  | .ifStart => "Expect '(' after 'if'."
  | .ifConditionEnd => "Expect ')' after if condition."
  | .expressionEnd => "Expect ';' after expression."
  | .printEnd => "Expect ';' after value."
  | .returnEnd => "Expect ';' after return value."
  | .variableName => "Expect variable name."
  | .variableEnd => "Expect ';' after variable declaration."
  | .whileStart => "Expect '(' after 'while'."
  | .whileConditionEnd => "Expect ')' after condition."
  | .assignmentTarget => "Invalid assignment target."
  | .propertyName => "Expect property name after '.'."
  | .tooManyArguments => s!"Can't have more than {maxArguments} arguments."
  | .argumentsEnd => "Expect ')' after arguments."
  | .groupingEnd => "Expect ')' after expression."
  | .superDot => "Expect '.' after 'super'."
  | .superMethodName => "Expect superclass method name."
  | .expression => "Expect expression."
  | .nesting => "Too much nesting."

structure SyntaxError where
  cause : SyntaxError.Cause
  token : Token
  deriving DecidableEq

def SyntaxError.diagnostic (error : SyntaxError) : Diagnostic :=
  .located .reading error.token error.cause.message

namespace Grammar

structure Cursor where
  ahead : List Token
  errors : Array SyntaxError

namespace Cursor

def peek (cursor : Cursor) : Token :=
  cursor.ahead.headD (.final 1)

def atEnd (cursor : Cursor) : Bool :=
  cursor.peek.kind = .endOfInput

/-- Past the current token; the final token is never passed. -/
def advance : Cursor → Cursor
  | ⟨ahead, errors⟩ =>
      match ahead with
      | [] => ⟨[], errors⟩
      | token :: rest =>
          if token.kind = .endOfInput then ⟨token :: rest, errors⟩ else ⟨rest, errors⟩

def report : Cursor → Token → SyntaxError.Cause → Cursor
  | ⟨ahead, errors⟩, token, cause => ⟨ahead, errors.push ⟨cause, token⟩⟩

end Cursor

inductive Stop where
  | failed | tooDeep
  deriving DecidableEq

abbrev Reader := EStateM Stop Cursor

def tooDeep {α : Type} : Reader α :=
  throw .tooDeep

/-- Fails at the current token. -/
def fail {α : Type} (cause : SyntaxError.Cause) : Reader α :=
  fun cursor => .error .failed (cursor.report cursor.peek cause)

/-- Records an error without failing. -/
def report (token : Token) (cause : SyntaxError.Cause) : Reader Unit :=
  fun cursor => .ok () (cursor.report token cause)

def peek : Reader Token :=
  fun cursor => .ok cursor.peek cursor

def advance : Reader Unit :=
  fun cursor => .ok () cursor.advance

/-- Takes the current token if it is of one of the given kinds. -/
def acceptAny (kinds : List Token.Kind) : Reader (Option Token) :=
  fun cursor =>
    let token := cursor.peek
    if kinds.contains token.kind then .ok (some token) cursor.advance else .ok none cursor

def accept (kind : Token.Kind) : Reader (Option Token) :=
  acceptAny [kind]

def accepts (kind : Token.Kind) : Reader Bool :=
  return (← accept kind).isSome

/-- Takes a token of the given kind or fails. -/
def expect (kind : Token.Kind) (cause : SyntaxError.Cause) : Reader Token := do
  match ← accept kind with
  | some token => return token
  | none => fail cause

def isNext (kind : Token.Kind) : Reader Bool :=
  return (← peek).kind = kind

/-- Whether no further entry of a braced list can follow. -/
def closes : Reader Bool := do
  let kind := (← peek).kind
  return kind = .rightBrace || kind = .endOfInput

/-- Repeats a round until it yields nothing, at most `rounds` times. A round that yields something
takes a token, so the number of tokens is enough. -/
def iterate {α : Type} (round : α → Reader (Option α)) : (rounds : Nat) → α → Reader α
  | 0, state => return state
  | rounds + 1, state => do
      match ← round state with
      | some next => iterate round rounds next
      | none => return state

/-- Reads entries divided by commas, reporting each one past the largest number. -/
def commaList {α : Type} (rounds : Nat) (entry : Reader α) (tooMany : SyntaxError.Cause) :
    Reader (List α) := do
  let first ← entry
  let entries ← iterate (fun (entries : Array α) => do
    if ← accepts .comma then
      if maxArguments ≤ entries.size then report (← peek) tooMany
      return some (entries.push (← entry))
    else
      return none) rounds (Array.singleton first)
  return entries.toList

end Grammar

end LoxLang
