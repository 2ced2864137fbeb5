import LoxLang.Grammar.Cursor
import LoxLang.Program.Basic

/-!
Reading expressions. Every rule may call others `depth` levels deep; a rule that has none left gives
up. To look at a token, to take it or to report it is no rule and needs no level. `rounds` bounds the
length of every list within an expression.
-/

namespace LoxLang.Grammar

/-- The levels of binary operators, from the loosest to the tightest. -/
inductive Level where
  | or | and | equality | comparison | term | factor

namespace Level

def operators : Level → List Token.Kind
  | .or => [.or]
  | .and => [.and]
  | .equality => [.bangEqual, .equalEqual]
  | .comparison => [.greater, .greaterEqual, .less, .lessEqual]
  | .term => [.minus, .plus]
  | .factor => [.slash, .star]

/-- The level of the operands, which of the tightest level are unary expressions. -/
def tighter? : Level → Option Level
  | .or => some .and
  | .and => some .equality
  | .equality => some .comparison
  | .comparison => some .term
  | .term => some .factor
  | .factor => none

def combine (level : Level) (left : Expr) (operator : Token) (right : Expr) : Expr :=
  match level with
  | .or | .and => .logical left operator right
  | _ => .binary left operator right

end Level

def constant (literal : Token.Literal) : Constant :=
  match literal with
  | .none => .nil
  | .text value => .text value
  | .number value => .number value

variable (rounds : Nat)

mutual

def expression : (depth : Nat) → Reader Expr
  | 0 => tooDeep
  | depth + 1 => assignment depth

/-- An assignment is recognised at its equals sign, after its target was read as an expression. -/
def assignment : (depth : Nat) → Reader Expr
  | 0 => tooDeep
  | depth + 1 => do
      let target ← operation .or depth
      match ← accept .equal with
      | none => return target
      | some equals =>
          let value ← assignment depth
          match target with
          | .variable use => return .assign use value
          | .get object name => return .set object name value
          | _ =>
              report equals .assignmentTarget
              return target

def operation (level : Level) : (depth : Nat) → Reader Expr
  | 0 => tooDeep
  | depth + 1 => do
      let operand := match level.tighter? with
        | some tighter => operation tighter depth
        | none => unary depth
      let first ← operand
      iterate (fun left => do
        match ← acceptAny level.operators with
        | some operator => return some (level.combine left operator (← operand))
        | none => return none) rounds first

def unary : (depth : Nat) → Reader Expr
  | 0 => tooDeep
  | depth + 1 => do
      match ← acceptAny [.bang, .minus] with
      | some operator => return .unary operator (← unary depth)
      | none => call depth

def call : (depth : Nat) → Reader Expr
  | 0 => tooDeep
  | depth + 1 => do
      let callee ← primary depth
      iterate (fun callee => do
        if ← accepts .leftParen then
          return some (← finishCall callee depth)
        else if ← accepts .dot then
          return some (.get callee (← expect .identifier .propertyName))
        else
          return none) rounds callee

def finishCall (callee : Expr) : (depth : Nat) → Reader Expr
  | 0 => tooDeep
  | depth + 1 => do
      let arguments ←
        if ← isNext .rightParen then pure []
        else commaList rounds (expression depth) .tooManyArguments
      let paren ← expect .rightParen .argumentsEnd
      return .call callee paren arguments

def primary : (depth : Nat) → Reader Expr
  | 0 => tooDeep
  | depth + 1 => do
      let token ← peek
      match token.kind with
      | .false => advance; return .literal (.bool false)
      | .true => advance; return .literal (.bool true)
      | .nil => advance; return .literal .nil
      | .number | .string => advance; return .literal (constant token.literal)
      | .leftParen =>
          advance
          let inner ← expression depth
          let _ ← expect .rightParen .groupingEnd
          return .grouping inner
      | .super =>
          advance
          let _ ← expect .dot .superDot
          return .super (.unmarked token) (← expect .identifier .superMethodName)
      | .this => advance; return .this (.unmarked token)
      | .identifier => advance; return .variable (.unmarked token)
      | _ => fail .expression

end

end LoxLang.Grammar
