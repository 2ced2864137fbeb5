import LoxLang.Grammar.Statement

/-!
The grammar as rules. `Phrase` derives expressions and `Clause` derives declarations and statements: each
relates a text, as a list of tokens, to the tree that it stands for, and the tokens in the tree are those of
the text. An `else` belongs to the nearest `if`, so what stands before an `else` never ends in an `if`
that has none; a clause records whether its text ends in such an `if`.
-/

namespace LoxLang.Grammar

/-- The rules for expressions. A chain of operators of one level is a rule for each level. -/
inductive Rule where
  | expression
  | operation (level : Level)
  | unary | call | primary

/-- What stands between two operators of a level. -/
def Level.operand (level : Level) : Rule :=
  match level.tighter? with
  | some tighter => .operation tighter
  | none => .unary

/-- The value that a single token writes down. -/
def constant? (token : Token) : Option Constant :=
  match token.kind with
  | .false => some (.bool false)
  | .true => some (.bool true)
  | .nil => some .nil
  | .number | .string => some (constant token.literal)
  | _ => none

/-- Texts divided by commas. -/
inductive Listing : List (List Token) → List Token → Prop
  | none : Listing [] []
  | one {entry : List Token} : Listing [entry] entry
  | more {entries : List (List Token)} {text entry : List Token} {comma : Token} :
      entries ≠ [] → Listing entries text → comma.kind = .comma →
      Listing (entries ++ [entry]) (text ++ comma :: entry)

inductive Phrase : Rule → List Token → Expr → Prop
  | assign {name equals : Token} {text : List Token} {value : Expr} :
      name.kind = .identifier → equals.kind = .equal → Phrase .expression text value →
      Phrase .expression (name :: equals :: text) (.assign (.unmarked name) value)
  | set {text valueText : List Token} {object value : Expr} {dot name equals : Token} :
      Phrase .call text object → dot.kind = .dot → name.kind = .identifier →
      equals.kind = .equal → Phrase .expression valueText value →
      Phrase .expression (text ++ dot :: name :: equals :: valueText) (.set object name value)
  | operation {text : List Token} {expr : Expr} :
      Phrase (.operation .or) text expr → Phrase .expression text expr
  | operator {level : Level} {leftText rightText : List Token} {left right : Expr}
      {operator : Token} :
      Phrase (.operation level) leftText left → operator.kind ∈ level.operators →
      Phrase level.operand rightText right →
      Phrase (.operation level) (leftText ++ operator :: rightText)
        (level.combine left operator right)
  | operand {level : Level} {text : List Token} {expr : Expr} :
      Phrase level.operand text expr → Phrase (.operation level) text expr
  | sign {operator : Token} {text : List Token} {right : Expr} :
      operator.kind ∈ [Token.Kind.bang, .minus] → Phrase .unary text right →
      Phrase .unary (operator :: text) (.unary operator right)
  | unsigned {text : List Token} {expr : Expr} :
      Phrase .call text expr → Phrase .unary text expr
  | application {text listing : List Token} {callee : Expr} {opening closing : Token}
      {arguments : List (List Token × Expr)} :
      Phrase .call text callee → opening.kind = .leftParen →
      Listing (arguments.map Prod.fst) listing →
      (∀ argument ∈ arguments, Phrase .expression argument.1 argument.2) →
      arguments.length ≤ maxArguments → closing.kind = .rightParen →
      Phrase .call (text ++ opening :: (listing ++ [closing]))
        (.call callee closing (arguments.map Prod.snd))
  | property {text : List Token} {object : Expr} {dot name : Token} :
      Phrase .call text object → dot.kind = .dot → name.kind = .identifier →
      Phrase .call (text ++ [dot, name]) (.get object name)
  | atom {text : List Token} {expr : Expr} :
      Phrase .primary text expr → Phrase .call text expr
  | literal {token : Token} {value : Constant} :
      constant? token = some value → Phrase .primary [token] (.literal value)
  | name {name : Token} :
      name.kind = .identifier → Phrase .primary [name] (.variable (.unmarked name))
  | this {keyword : Token} :
      keyword.kind = .this → Phrase .primary [keyword] (.this (.unmarked keyword))
  | super {keyword dot method : Token} :
      keyword.kind = .super → dot.kind = .dot → method.kind = .identifier →
      Phrase .primary [keyword, dot, method] (.super (.unmarked keyword) method)
  | grouping {opening closing : Token} {text : List Token} {inner : Expr} :
      opening.kind = .leftParen → Phrase .expression text inner →
      closing.kind = .rightParen →
      Phrase .primary (opening :: (text ++ [closing])) (.grouping inner)

/-- A phrase that may be left out. -/
inductive OptionalPhrase : List Token → Option Expr → Prop
  | absent : OptionalPhrase [] none
  | present {text : List Token} {expr : Expr} :
      Phrase .expression text expr → OptionalPhrase text (some expr)

/-- What follows the word `var`. -/
inductive VariableText : List Token → Stmt → Prop
  | plain {name semicolon : Token} :
      name.kind = .identifier → semicolon.kind = .semicolon →
      VariableText [name, semicolon] (.var name none)
  | initialized {name equals semicolon : Token} {text : List Token} {value : Expr} :
      name.kind = .identifier → equals.kind = .equal → Phrase .expression text value →
      semicolon.kind = .semicolon →
      VariableText (name :: equals :: (text ++ [semicolon])) (.var name (some value))

inductive ExpressionText : List Token → Stmt → Prop
  | expression {text : List Token} {expr : Expr} {semicolon : Token} :
      Phrase .expression text expr → semicolon.kind = .semicolon →
      ExpressionText (text ++ [semicolon]) (.expression expr)

/-- What stands before the first semicolon of a `for`, that semicolon included. -/
inductive InitializerText : List Token → Option Stmt → Prop
  | absent {semicolon : Token} :
      semicolon.kind = .semicolon → InitializerText [semicolon] none
  | variable {word : Token} {text : List Token} {stmt : Stmt} :
      word.kind = .var → VariableText text stmt → InitializerText (word :: text) (some stmt)
  | expression {text : List Token} {stmt : Stmt} :
      ExpressionText text stmt → InitializerText text (some stmt)

/-- The text of a function from its name on. The statements of its body are given each with its text. -/
structure FunctionText where
  name : Token
  opening : Token
  params : List Token
  listing : List Token
  closing : Token
  start : Token
  body : List (List Token × Stmt)
  stop : Token
  name_kind : name.kind = .identifier
  opening_kind : opening.kind = .leftParen
  param_kind : ∀ param ∈ params, param.kind = .identifier
  listing_params : Listing (params.map ([·])) listing
  length_params : params.length ≤ maxArguments
  closing_kind : closing.kind = .rightParen
  start_kind : start.kind = .leftBrace
  stop_kind : stop.kind = .rightBrace

namespace FunctionText

def tokens (text : FunctionText) : List Token :=
  text.name :: text.opening ::
    (text.listing ++ text.closing :: text.start :: (text.body.flatMap Prod.fst ++ [text.stop]))

def declaration (text : FunctionText) : FunctionDecl :=
  ⟨text.name, text.params, text.body.map Prod.snd⟩

end FunctionText

/-- What follows the name of a class that has a superclass, or has none. -/
inductive SuperclassText : List Token → Option NameUse → Prop
  | absent : SuperclassText [] none
  | present {less name : Token} :
      less.kind = .less → name.kind = .identifier →
      SuperclassText [less, name] (some (.unmarked name))

/-- The rules for statements. A statement dangles if its text ends in an `if` without `else`. -/
inductive Form where
  | declaration
  | statement (dangles : Bool)

inductive Clause : Form → List Token → Stmt → Prop
  | class {word name start stop : Token} {superText : List Token}
      {superclass : Option NameUse} {methods : List FunctionText} :
      word.kind = .class → name.kind = .identifier → SuperclassText superText superclass →
      start.kind = .leftBrace →
      (∀ method ∈ methods, ∀ piece ∈ method.body, Clause .declaration piece.1 piece.2) →
      stop.kind = .rightBrace →
      Clause .declaration
        (word :: name ::
          (superText ++ start :: (methods.flatMap FunctionText.tokens ++ [stop])))
        (.class name superclass (methods.map FunctionText.declaration))
  | function {word : Token} {text : FunctionText} :
      word.kind = .fun →
      (∀ piece ∈ text.body, Clause .declaration piece.1 piece.2) →
      Clause .declaration (word :: text.tokens) (.function text.declaration)
  | variable {word : Token} {text : List Token} {stmt : Stmt} :
      word.kind = .var → VariableText text stmt → Clause .declaration (word :: text) stmt
  | statement {dangles : Bool} {text : List Token} {stmt : Stmt} :
      Clause (.statement dangles) text stmt → Clause .declaration text stmt
  | for {word opening semicolon closing : Token}
      {initText conditionText incrementText bodyText : List Token}
      {initializer : Option Stmt} {condition increment : Option Expr} {body : Stmt}
      {dangles : Bool} :
      word.kind = .for → opening.kind = .leftParen → InitializerText initText initializer →
      OptionalPhrase conditionText condition → semicolon.kind = .semicolon →
      OptionalPhrase incrementText increment → closing.kind = .rightParen →
      Clause (.statement dangles) bodyText body →
      Clause (.statement dangles)
        (word :: opening ::
          (initText ++ (conditionText ++ semicolon ::
            (incrementText ++ closing :: bodyText))))
        (forLoop initializer condition increment body)
  | if {word opening closing : Token} {conditionText thenText : List Token}
      {condition : Expr} {thenBranch : Stmt} {dangles : Bool} :
      word.kind = .if → opening.kind = .leftParen →
      Phrase .expression conditionText condition → closing.kind = .rightParen →
      Clause (.statement dangles) thenText thenBranch →
      Clause (.statement true) (word :: opening :: (conditionText ++ closing :: thenText))
        (.if condition thenBranch none)
  | ifElse {word opening closing otherwise : Token}
      {conditionText thenText elseText : List Token} {condition : Expr}
      {thenBranch elseBranch : Stmt} {dangles : Bool} :
      word.kind = .if → opening.kind = .leftParen →
      Phrase .expression conditionText condition → closing.kind = .rightParen →
      Clause (.statement false) thenText thenBranch → otherwise.kind = .else →
      Clause (.statement dangles) elseText elseBranch →
      Clause (.statement dangles)
        (word :: opening ::
          (conditionText ++ closing :: (thenText ++ otherwise :: elseText)))
        (.if condition thenBranch (some elseBranch))
  | print {word semicolon : Token} {text : List Token} {expr : Expr} :
      word.kind = .print → Phrase .expression text expr → semicolon.kind = .semicolon →
      Clause (.statement false) (word :: (text ++ [semicolon])) (.print expr)
  | return {word semicolon : Token} {text : List Token} {value : Option Expr} :
      word.kind = .return → OptionalPhrase text value → semicolon.kind = .semicolon →
      Clause (.statement false) (word :: (text ++ [semicolon])) (.return word value)
  | while {word opening closing : Token} {conditionText bodyText : List Token}
      {condition : Expr} {body : Stmt} {dangles : Bool} :
      word.kind = .while → opening.kind = .leftParen →
      Phrase .expression conditionText condition → closing.kind = .rightParen →
      Clause (.statement dangles) bodyText body →
      Clause (.statement dangles) (word :: opening :: (conditionText ++ closing :: bodyText))
        (.while condition body none)
  | break {word semicolon : Token} :
      word.kind = .break → semicolon.kind = .semicolon →
      Clause (.statement false) [word, semicolon] (.break word)
  | continue {word semicolon : Token} :
      word.kind = .continue → semicolon.kind = .semicolon →
      Clause (.statement false) [word, semicolon] (.continue word)
  | block {opening closing : Token} {pieces : List (List Token × Stmt)} :
      opening.kind = .leftBrace →
      (∀ piece ∈ pieces, Clause .declaration piece.1 piece.2) →
      closing.kind = .rightBrace →
      Clause (.statement false) (opening :: (pieces.flatMap Prod.fst ++ [closing]))
        (.block (pieces.map Prod.snd))
  | expression {text : List Token} {stmt : Stmt} :
      ExpressionText text stmt → Clause (.statement false) text stmt

/-- A text made of declarations, and the statements that they stand for. -/
def Sentence (text : List Token) (statements : List Stmt) : Prop :=
  ∃ pieces : List (List Token × Stmt),
    (∀ piece ∈ pieces, Clause .declaration piece.1 piece.2) ∧
      pieces.flatMap Prod.fst = text ∧ pieces.map Prod.snd = statements

end LoxLang.Grammar
