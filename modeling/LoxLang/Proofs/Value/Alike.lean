import LoxLang.Value.Operation
import LoxLang.Value.Text

/-!
Values that are alike to operators and in print. The functions may have other bodies and the classes other methods, since
all that is compared or printed are their stamps and their names.
-/

namespace LoxLang.Value

inductive Alike : Value → Value → Prop
  | nil : Alike .nil .nil
  | bool {value : Bool} : Alike (.bool value) (.bool value)
  | number {value : Float} : Alike (.number value) (.number value)
  | text {value : String} : Alike (.text value) (.text value)
  | function {closure other : Closure} : other.stamp = closure.stamp →
      other.declaration.name.lexeme = closure.declaration.name.lexeme →
      Alike (.function closure) (.function other)
  | class {kind other : ClassValue} : other.own.stamp = kind.own.stamp → other.own.name = kind.own.name →
      Alike (.class kind) (.class other)
  | instance {object other : Instance} : other.index = object.index →
      other.kind.own.name = object.kind.own.name → Alike (.instance object) (.instance other)
  | native {index : Nat} : Alike (.native index) (.native index)

namespace Alike

variable {value other left left' right right' : Value}

theorem isTruthy (h : value.Alike other) : other.isTruthy = value.isTruthy := by
  cases h <;> rfl

theorem isEqual (hleft : left.Alike left') (hright : right.Alike right') :
    left'.isEqual right' = left.isEqual right := by
  cases hleft with
  | nil | bool | number | text | native => cases hright <;> rfl
  | function stamp =>
      cases hright with
      | function stamp' => rw [Value.isEqual, Value.isEqual, stamp, stamp']
      | _ => rfl
  | «class» stamp =>
      cases hright with
      | «class» stamp' => rw [Value.isEqual, Value.isEqual, stamp, stamp']
      | _ => rfl
  | «instance» index =>
      cases hright with
      | «instance» index' => rw [Value.isEqual, Value.isEqual, index, index']
      | _ => rfl

theorem toText (h : value.Alike other) : other.toText = value.toText := by
  cases h with
  | nil | bool | number | text | native => rfl
  | function _ name => rw [Value.toText, Value.toText, name]
  | «class» _ name => exact name
  | «instance» _ name => rw [Value.toText, Value.toText, name]

theorem settles {operator operator' : Token} (h : value.Alike other) (kind : operator'.kind = operator.kind) :
    other.settles operator' = value.settles operator := by
  rw [Value.settles, Value.settles, kind, h.isTruthy]

theorem applyUnary (h : value.Alike other) (operator : Token) :
    other.applyUnary operator = value.applyUnary operator := by
  unfold Value.applyUnary
  rw [h.isTruthy]
  cases h <;> rfl

theorem onNumbers (hleft : left.Alike left') (hright : right.Alike right') (operator : Token)
    (apply : Float → Float → Value) :
    Value.onNumbers operator left' right' apply = Value.onNumbers operator left right apply := by
  cases hleft <;> cases hright <;> rfl

theorem plus (hleft : left.Alike left') (hright : right.Alike right') (operator : Token) :
    Value.plus operator left' right' = Value.plus operator left right := by
  cases hleft <;> cases hright <;> rfl

theorem applyBinary (hleft : left.Alike left') (hright : right.Alike right') (operator : Token) :
    left'.applyBinary operator right' = left.applyBinary operator right := by
  unfold Value.applyBinary
  rw [hleft.isEqual hright]
  simp only [hleft.onNumbers hright, hleft.plus hright]

end Alike

end LoxLang.Value
