import LoxLang.Text.Printable

/-!
Quoted text: a text between two marks. A backslash, the mark in use and the three layout controls are written with a
backslash, and so is the code of any other character that is not printable, in two, four or eight digits of base
sixteen.
-/

namespace LoxLang.Text.Quoted

/-- Single marks, unless the text holds a single mark and no double one. -/
def mark (text : List Char) : Char :=
  if text.contains '\x27' && !text.contains '\x22' then '\x22' else '\x27'

/-- So many digits of base sixteen, the lowest ones of the code. -/
def digits : (count : Nat) → (code : Nat) → List Char
  | 0, _ => []
  | count + 1, code => digits count (code / 16) ++ [Nat.digitChar (code % 16)]

/-- The letter that stands before a code, and the number of its digits. -/
def codeForm (code : Nat) : Char × Nat :=
  if code < 0x100 then ('x', 2) else if code < 0x10000 then ('u', 4) else ('U', 8)

def coded (code : Nat) : List Char :=
  let (letter, count) := codeForm code
  '\\' :: letter :: digits count code

def escape (mark : Char) (character : Char) : List Char :=
  if character = '\\' then ['\\', '\\']
  else if character = mark then ['\\', character]
  else if character = '\n' then ['\\', 'n']
  else if character = '\t' then ['\\', 't']
  else if character = '\r' then ['\\', 'r']
  else if isPrintable character then [character]
  else coded character.toNat

def encode (text : List Char) : List Char :=
  mark text :: (text.flatMap (escape (mark text)) ++ [mark text])

end LoxLang.Text.Quoted

namespace LoxLang.Text

def quoted (text : String) : String :=
  .ofList (Quoted.encode text.toList)

end LoxLang.Text
