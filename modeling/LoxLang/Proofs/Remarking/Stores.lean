import LoxLang.Proofs.Remarking.Trees
import LoxLang.Store.Basic
import LoxLang.Value.Operation
import LoxLang.Value.Text

/-!
Values and stores marked anew. The trees that they hold are marked anew; what is looked up, bound or compared is then
the same but for these marks.
-/

namespace LoxLang

namespace Bindings

variable {α β : Type}

/-- The same names, bound to what a function makes of their values. -/
def map (f : α → β) (bindings : Bindings α) : Bindings β :=
  ⟨bindings.entries.map fun entry => (entry.1, f entry.2)⟩

variable (f : α → β)

@[simp] theorem get?_map (bindings : Bindings α) (name : String) :
    (bindings.map f).get? name = (bindings.get? name).map f := by
  obtain ⟨entries⟩ := bindings
  unfold map get?
  dsimp only
  induction entries with
  | nil => rfl
  | cons entry rest ih =>
      rw [List.map_cons, List.lookup_cons, List.lookup_cons, ih]
      cases name == entry.1 <;> rfl

@[simp] theorem contains_map (bindings : Bindings α) (name : String) :
    (bindings.map f).contains name = bindings.contains name := by
  rw [contains, get?_map, Option.isSome_map, contains]

theorem map_set (bindings : Bindings α) (name : String) (value : α) :
    (bindings.set name value).map f = (bindings.map f).set name (f value) := by
  obtain ⟨entries⟩ := bindings
  unfold map set
  refine congrArg _ ?_
  dsimp only
  induction entries with
  | nil => rfl
  | cons entry rest ih =>
      obtain ⟨other, old⟩ := entry
      rw [setEntry, List.map_cons, setEntry]
      split
      · rfl
      · rw [List.map_cons, ih]

theorem map_ofList (entries : List (String × α)) :
    (ofList entries).map f = ofList (entries.map fun entry => (entry.1, f entry.2)) := by
  have all (bindings : Bindings α) :
      (entries.foldl (fun bindings entry => bindings.set entry.1 entry.2) bindings).map f =
        (entries.map fun entry => (entry.1, f entry.2)).foldl
          (fun bindings entry => bindings.set entry.1 entry.2) (bindings.map f) := by
    induction entries generalizing bindings with
    | nil => rfl
    | cons entry rest ih => rw [List.foldl_cons, List.map_cons, List.foldl_cons, ih, map_set]
  exact all .empty

end Bindings

variable (f g : Remarking)

/-! ## Values -/

def Closure.remark : Closure → Closure
  | ⟨stamp, declaration, scope, isInitializer⟩ =>
      ⟨stamp, declaration.remark f, scope, isInitializer⟩

def Layer.remark : Layer → Layer
  | ⟨stamp, name, methods⟩ => ⟨stamp, name, methods.map (Closure.remark f)⟩

def ClassValue.remark : ClassValue → ClassValue
  | ⟨own, above⟩ => ⟨own.remark f, above.map (Layer.remark f)⟩

def Instance.remark : Instance → Instance
  | ⟨index, kind⟩ => ⟨index, kind.remark f⟩

def Value.remark : Value → Value
  | .function closure => .function (closure.remark f)
  | .class value => .class (value.remark f)
  | .instance value => .instance (value.remark f)
  | .nil => .nil
  | .bool value => .bool value
  | .number value => .number value
  | .text value => .text value
  | .native index => .native index

namespace ClassValue

theorem layers_remark (kind : ClassValue) :
    (kind.remark f).layers = kind.layers.map (Layer.remark f) :=
  rfl

@[simp] theorem method?_remark (kind : ClassValue) (name : String) :
    (kind.remark f).method? name = (kind.method? name).map (Closure.remark f) := by
  rw [method?, method?, layers_remark]
  induction kind.layers with
  | nil => rfl
  | cons layer rest ih =>
      have found : (layer.remark f).methods.get? name =
          (layer.methods.get? name).map (Closure.remark f) := Bindings.get?_map ..
      rw [List.map_cons, List.findSome?_cons, List.findSome?_cons, found, ih]
      cases layer.methods.get? name <;> rfl

@[simp] theorem searched_remark (kind : ClassValue) (name : String) :
    (kind.remark f).searched name = kind.searched name := by
  rw [searched, searched, layers_remark]
  refine congrArg (· + 1) ?_
  induction kind.layers with
  | nil => rfl
  | cons layer rest ih =>
      have holds : (layer.remark f).methods.contains name = layer.methods.contains name :=
        Bindings.contains_map ..
      rw [List.map_cons, List.takeWhile_cons, List.takeWhile_cons, holds]
      split
      · rw [List.length_cons, List.length_cons, ih]
      · rfl

@[simp] theorem arity_remark (kind : ClassValue) : (kind.remark f).arity = kind.arity := by
  rw [arity, arity, method?_remark]
  cases kind.method? "init" with
  | none => rfl
  | some initializer => exact congrArg List.length (initializer.declaration.params_remark f)

end ClassValue

namespace Value

@[simp] theorem isTruthy_remark (value : Value) : (value.remark f).isTruthy = value.isTruthy := by
  cases value <;> rfl

@[simp] theorem isEqual_remark (left right : Value) :
    (left.remark f).isEqual (right.remark f) = left.isEqual right := by
  cases left <;> cases right <;> rfl

@[simp] theorem toText_remark (value : Value) : (value.remark f).toText = value.toText := by
  cases value with
  | function closure =>
      have name := closure.declaration.name_remark f
      rw [remark, toText, toText, Closure.remark]
      dsimp only
      rw [name]
  | _ => rfl

@[simp] theorem ofConstant_remark (value : Constant) :
    (ofConstant value).remark f = ofConstant value := by
  cases value <;> rfl

@[simp] theorem settles_remark (operator : Token) (value : Value) :
    (value.remark f).settles operator = value.settles operator := by
  rw [settles, settles, isTruthy_remark]

theorem applyUnary_remark (operator : Token) (value : Value) :
    (value.remark f).applyUnary operator = (value.applyUnary operator).map (Value.remark f) := by
  unfold applyUnary
  rw [isTruthy_remark]
  cases operator.kind <;> cases value <;> rfl

theorem onNumbers_remark (operator : Token) (left right : Value) {apply : Float → Float → Value}
    (plain : ∀ first second, (apply first second).remark f = apply first second) :
    onNumbers operator (left.remark f) (right.remark f) apply =
      (onNumbers operator left right apply).map (Value.remark f) := by
  cases left <;> cases right <;> first
    | rfl
    | exact congrArg Except.ok (plain _ _).symm

theorem applyBinary_remark (operator : Token) (left right : Value) :
    (left.remark f).applyBinary operator (right.remark f) =
      (left.applyBinary operator right).map (Value.remark f) := by
  rw [applyBinary, applyBinary, isEqual_remark]
  cases operator.kind with
  | plus => cases left <;> cases right <;> rfl
  | greater | greaterEqual | less | lessEqual | minus | slash | star =>
      exact onNumbers_remark f operator left right fun _ _ => rfl
  | _ => rfl

end Value

/-! ## Stores -/

def Scope.remark : Scope → Scope
  | ⟨bindings, enclosing⟩ => ⟨bindings.map (Value.remark f), enclosing⟩

def Forest.remark : Forest → Forest
  | ⟨scopes⟩ => ⟨scopes.map (Scope.remark f)⟩

namespace Forest

variable (forest : Forest)

@[simp] theorem next_remark : (forest.remark f).next = forest.next :=
  Array.size_map

@[simp] theorem bindings_remark (id : ScopeId) :
    (forest.remark f).bindings id = (forest.bindings id).map (Value.remark f) := by
  obtain ⟨scopes⟩ := forest
  rw [remark, bindings, bindings]
  dsimp only
  rw [Array.getElem?_map]
  cases scopes[id]? <;> rfl

@[simp] theorem enclosing?_remark (id : ScopeId) :
    (forest.remark f).enclosing? id = forest.enclosing? id := by
  obtain ⟨scopes⟩ := forest
  rw [remark, enclosing?, enclosing?]
  dsimp only
  rw [Array.getElem?_map]
  cases scopes[id]? <;> rfl

theorem remark_add (enclosing : Option ScopeId) (bindings : Bindings Value) :
    (forest.add enclosing bindings).remark f =
      (forest.remark f).add enclosing (bindings.map (Value.remark f)) :=
  congrArg mk (Array.map_push ..)

theorem remark_define (id : ScopeId) (name : String) (value : Value) :
    (forest.define id name value).remark f =
      (forest.remark f).define id name (value.remark f) := by
  obtain ⟨scopes⟩ := forest
  refine congrArg mk (Array.ext_getElem? fun other => ?_)
  rw [Array.getElem?_map, Array.getElem?_modify, Array.getElem?_modify, Array.getElem?_map]
  split
  · cases scopes[other]? with
    | none => rfl
    | some scope => exact congrArg some (congrArg (Scope.mk · _) (Bindings.map_set ..))
  · rfl

@[simp] theorem holder?_remark (name : String) (id : ScopeId) :
    (forest.remark f).holder? name id = forest.holder? name id := by
  induction id using Nat.strongRecOn with
  | _ id ih =>
      rw [holder?, holder?, bindings_remark, Bindings.contains_map, enclosing?_remark]
      split
      · rfl
      · cases forest.enclosing? id with
        | none => rfl
        | some outer =>
            dsimp only
            split
            · next inside => exact ih outer inside
            · rfl

@[simp] theorem ancestor?_remark (id : ScopeId) (distance : Nat) :
    (forest.remark f).ancestor? id distance = forest.ancestor? id distance := by
  induction distance generalizing id with
  | zero => rfl
  | succ distance ih =>
      rw [ancestor?, ancestor?, enclosing?_remark]
      cases forest.enclosing? id with
      | none => rfl
      | some outer => exact ih outer

@[simp] theorem ancestor_remark (id : ScopeId) (distance : Int) :
    (forest.remark f).ancestor id distance = forest.ancestor id distance := by
  rw [ancestor, ancestor, ancestor?_remark]

@[simp] theorem find_remark (id : ScopeId) (name : Token) :
    (forest.remark f).find id name = forest.find id name := by
  rw [find, find, holder?_remark]

@[simp] theorem findAt_remark (id : ScopeId) (distance : Int) (name : Token) :
    (forest.remark f).findAt id distance name = forest.findAt id distance name := by
  rw [findAt, findAt, ancestor_remark]
  simp only [bindings_remark, Bindings.contains_map]

theorem get_remark (id : ScopeId) (name : Token) :
    (forest.remark f).get id name = (forest.get id name).map (Value.remark f) := by
  rw [get, get, find_remark]
  cases forest.find id name with
  | error interruption => rfl
  | ok holder =>
      simp only [bindings_remark, Bindings.get?_map, Bind.bind, Except.bind]
      cases (forest.bindings holder).get? name.lexeme <;> rfl

theorem getAt_remark (id : ScopeId) (distance : Int) (name : String) :
    (forest.remark f).getAt id distance name =
      (forest.getAt id distance name).map (Value.remark f) := by
  rw [getAt, getAt, ancestor_remark]
  cases forest.ancestor id distance with
  | error interruption => rfl
  | ok outer =>
      simp only [bindings_remark, Bindings.get?_map, Bind.bind, Except.bind]
      cases (forest.bindings outer).get? name <;> rfl

end Forest

def Store.remark : Store → Store
  | ⟨forest, fields, stamp, printed⟩ =>
      ⟨forest.remark f, fields.map (Bindings.map (Value.remark f)), stamp, printed⟩

namespace Store

variable (store : Store)

@[simp] theorem forest_remark : (store.remark f).forest = store.forest.remark f := rfl

@[simp] theorem stamp_remark : (store.remark f).stamp = store.stamp := rfl

@[simp] theorem printed_remark : (store.remark f).printed = store.printed := rfl

@[simp] theorem size_fields_remark : (store.remark f).fields.size = store.fields.size :=
  Array.size_map

theorem remark_define (id : ScopeId) (name : String) (value : Value) :
    (store.define id name value).remark f = (store.remark f).define id name (value.remark f) :=
  congrArg (Store.mk · _ _ _) (store.forest.remark_define f id name value)

theorem remark_addScope (enclosing : ScopeId) (bindings : List (String × Value)) :
    (store.addScope enclosing bindings).remark f =
      (store.remark f).addScope enclosing
        (bindings.map fun entry => (entry.1, entry.2.remark f)) := by
  refine congrArg (Store.mk · _ _ _) ?_
  rw [Forest.remark_add, Bindings.map_ofList]

theorem remark_takeStamps (count : Nat) :
    (store.takeStamps count).remark f = (store.remark f).takeStamps count :=
  rfl

theorem remark_addInstance : store.addInstance.remark f = (store.remark f).addInstance :=
  congrArg (Store.mk _ · _ _) (Array.map_push ..)

theorem remark_setField (index : Nat) (name : String) (value : Value) :
    (store.setField index name value).remark f =
      (store.remark f).setField index name (value.remark f) := by
  refine congrArg (Store.mk _ · _ _) (Array.ext_getElem? fun other => ?_)
  rw [Array.getElem?_map, Array.getElem?_modify, Array.getElem?_modify, Array.getElem?_map]
  split
  · cases store.fields[other]? with
    | none => rfl
    | some bindings => exact congrArg some (Bindings.map_set ..)
  · rfl

theorem field?_remark (index : Nat) (name : String) :
    (store.remark f).field? index name = (store.field? index name).map (Value.remark f) := by
  obtain ⟨forest, fields, stamp, printed⟩ := store
  rw [remark, field?, field?]
  dsimp only
  rw [Array.getElem?_map]
  cases fields[index]? with
  | none => rfl
  | some bindings => exact Bindings.get?_map ..

end Store

/-! ## One after the other -/

theorem Bindings.map_map {α β γ : Type} (first : α → β) (second : β → γ) (bindings : Bindings α) :
    (bindings.map first).map second = bindings.map (second ∘ first) :=
  congrArg mk (List.map_map ..)

theorem Closure.remark_remark (closure : Closure) :
    (closure.remark f).remark g = closure.remark (g ∘ f) :=
  congrArg (Closure.mk _ · _ _) (closure.declaration.remark_remark f g)

theorem Layer.remark_remark (layer : Layer) : (layer.remark f).remark g = layer.remark (g ∘ f) := by
  have each : Closure.remark g ∘ Closure.remark f = Closure.remark (g ∘ f) :=
    funext (Closure.remark_remark f g)
  exact congrArg (Layer.mk _ _) ((Bindings.map_map ..).trans (congrArg (layer.methods.map ·) each))

theorem ClassValue.remark_remark (kind : ClassValue) :
    (kind.remark f).remark g = kind.remark (g ∘ f) := by
  have each : Layer.remark g ∘ Layer.remark f = Layer.remark (g ∘ f) :=
    funext (Layer.remark_remark f g)
  exact congrArg₂ ClassValue.mk (kind.own.remark_remark f g)
    (List.map_map.trans (congrArg (kind.above.map ·) each))

theorem Value.remark_remark (value : Value) : (value.remark f).remark g = value.remark (g ∘ f) := by
  cases value with
  | function closure => exact congrArg Value.function (closure.remark_remark f g)
  | «class» kind => exact congrArg Value.class (kind.remark_remark f g)
  | «instance» object =>
      exact congrArg (fun kind => Value.instance ⟨object.index, kind⟩)
        (object.kind.remark_remark f g)
  | _ => rfl

theorem Value.map_remark_map_remark (bindings : Bindings Value) :
    (bindings.map (remark f)).map (remark g) = bindings.map (remark (g ∘ f)) := by
  have each : remark g ∘ remark f = remark (g ∘ f) := funext (remark_remark f g)
  exact (Bindings.map_map ..).trans (congrArg (bindings.map ·) each)

theorem Store.remark_remark (store : Store) : (store.remark f).remark g = store.remark (g ∘ f) := by
  obtain ⟨⟨scopes⟩, fields, stamp, printed⟩ := store
  have scope (scope : Scope) : (scope.remark f).remark g = scope.remark (g ∘ f) :=
    congrArg (Scope.mk · _) (Value.map_remark_map_remark f g scope.bindings)
  refine congrArg₂ (fun scopes fields => Store.mk ⟨scopes⟩ fields stamp printed) ?_ ?_
  · rw [Array.map_map]
    exact congrArg (Array.map · scopes) (funext scope)
  · rw [Array.map_map]
    exact congrArg (Array.map · fields) (funext (Value.map_remark_map_remark f g))

end LoxLang
