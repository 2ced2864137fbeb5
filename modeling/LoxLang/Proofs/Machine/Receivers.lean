import LoxLang.Proofs.Machine.Contents
import LoxLang.Proofs.Machine.Globals
import LoxLang.Proofs.Machine.Memory

/-!
What `this` stands for, whatever the marks of a program are. Its own code gives no other value that name, so it stands
for an instance in every scope that binds it, and in the scope of every initializer that can be called.
-/

namespace LoxLang

open Scoping

/-! ## Code as it was read -/

/-- A node that was read from a text, but for its marks. -/
def Scoping.Node.Read : Node → Prop
  | .expr part => part.unmark.WellFormed
  | .stmt part => part.unmark.WellFormed
  | .statements parts => ∀ part ∈ parts, part.unmark.WellFormed
  | .function declaration => declaration.unmark.WellFormed

namespace Scoping.Node.Read

theorem statements_of_unmark {statements : List Stmt} (h : ∀ stmt ∈ unmarkStmts statements, stmt.WellFormed) :
    (Node.statements statements).Read := by
  intro stmt member
  rw [unmarkStmts_eq_map] at h
  exact h _ (List.mem_map_of_mem member)

theorem body {declaration : FunctionDecl} (h : (Node.function declaration).Read) :
    (Node.statements declaration.body).Read := by
  cases declaration
  exact statements_of_unmark (FunctionDecl.WellFormed.body h)

theorem param {declaration : FunctionDecl} (h : (Node.function declaration).Read) {param : Token}
    (member : param ∈ declaration.params) : param.Names := by
  cases declaration
  exact FunctionDecl.WellFormed.params h param member

theorem block {statements : List Stmt} (h : (Node.stmt (.block statements)).Read) :
    (Node.statements statements).Read := by
  change (Stmt.block statements).unmark.WellFormed at h
  rw [Stmt.unmark] at h
  cases h with
  | block each => exact statements_of_unmark each

theorem method {name : Token} {superclass : Option NameUse} {methods : List FunctionDecl}
    (h : (Node.stmt (.class name superclass methods)).Read) {method : FunctionDecl} (member : method ∈ methods) :
    (Node.function method).Read := by
  change (Stmt.class name superclass methods).unmark.WellFormed at h
  rw [Stmt.unmark] at h
  cases h with
  | «class» _ _ params body =>
      have inside : method.unmark ∈ unmarkFunctions methods := by
        rw [unmarkFunctions_eq_map]
        exact List.mem_map_of_mem member
      exact ⟨params _ inside, body _ inside⟩

theorem part {whole part : Expr} (h : (Node.expr whole).Read) (member : part ∈ whole.parts) :
    (Node.expr part).Read := by
  change whole.unmark.WellFormed at h
  change part.unmark.WellFormed
  cases whole with
  | call callee paren arguments =>
      rw [Expr.unmark] at h
      cases h with
      | call first rest =>
          rcases List.mem_cons.mp member with rfl | member
          · exact first
          · refine rest _ ?_
            rw [unmarkExprs_eq_map]
            exact List.mem_map_of_mem member
  | binary | logical | set =>
      rw [Expr.unmark] at h
      simp only [Expr.parts, List.mem_cons, List.not_mem_nil, or_false] at member
      cases h
      rcases member with rfl | rfl <;> assumption
  | assign | get | grouping | unary =>
      rw [Expr.unmark] at h
      cases List.mem_singleton.mp member
      cases h
      assumption
  | literal | super | this | «variable» => cases member

theorem exprOf {stmt : Stmt} {part : Expr} (h : (Node.stmt stmt).Read) (member : part ∈ stmt.exprs) :
    (Node.expr part).Read := by
  change stmt.unmark.WellFormed at h
  change part.unmark.WellFormed
  have within {value : Option Expr} (read : WellFormedExpr? (value.map Expr.unmark)) (inside : part ∈ value.toList) :
      part.unmark.WellFormed := by
    rw [Option.mem_toList.mp inside] at read
    exact read _ rfl
  cases stmt with
  | expression | print =>
      rw [Stmt.unmark] at h
      cases List.mem_singleton.mp member
      cases h
      assumption
  | «if» condition thenBranch elseBranch =>
      rw [Stmt.unmark] at h
      cases List.mem_singleton.mp member
      cases h
      assumption
  | «return» keyword value =>
      rw [Stmt.unmark] at h
      cases h with
      | «return» read => exact within read member
  | «while» condition body increment =>
      rw [Stmt.unmark] at h
      cases h with
      | «while» first _ _ read =>
          rcases List.mem_cons.mp member with rfl | member
          · exact first
          · exact within read member
  | block | «break» | «class» | «continue» | function | var => cases member

theorem includes {whole part : Node} (h : whole.Read) (includes : whole.Includes part) : part.Read := by
  cases includes with
  | @branch stmt _ member =>
      have tame : stmt.Tame ((stmt.declared?.map Token.lexeme).toList) := ⟨h, fun name declared => by simp [declared]⟩
      exact (tame.branch member).read
  | expr member => exact Read.part h member
  | exprOf member => exact Read.exprOf h member
  | @function declaration =>
      change (Stmt.function declaration).unmark.WellFormed at h
      rw [Stmt.unmark] at h
      cases h with
      | function _ params body => exact ⟨params, body⟩
  | head => exact h _ List.mem_cons_self
  | tail => exact fun stmt member => h stmt (List.mem_cons_of_mem _ member)
  | @initializer name value =>
      change (Stmt.var name (some value)).unmark.WellFormed at h
      rw [Stmt.unmark] at h
      cases h with
      | var _ read => exact read _ rfl
  | @superclass name use methods =>
      change (Stmt.class name (some use) methods).unmark.WellFormed at h
      rw [Stmt.unmark] at h
      cases h with
      | «class» _ names _ _ => exact .variable (names _ rfl)

theorem definesNames {node : Node} (h : node.Read) : node.DefinesNames := by
  cases node with
  | expr part =>
      cases part with
      | assign target value =>
          change (Expr.assign target value).unmark.WellFormed at h
          rw [Expr.unmark] at h
          cases h with
          | assign names _ => exact names.2
      | _ => trivial
  | stmt part =>
      change part.unmark.WellFormed at h
      intro name declared
      rw [← Stmt.declared?_unmark] at declared
      cases read : part.unmark <;> rw [read] at h declared <;> cases declared <;> cases h <;> assumption
  | statements | function => trivial

end Scoping.Node.Read

/-! ## Stores -/

/-- A value that is an instance, or stands for `this` already. -/
def Store.Receives (store : Store) (receiver : Value) : Prop :=
  (∃ id, (store.forest.bindings id).get? "this" = some receiver) ∨ ∃ object, receiver = .instance object

/-- A later store: instances stay there, and `this` stands for no value that it did not stand for, unless for an
instance. -/
structure Store.Advances (before after : Store) : Prop where
  fields : before.fields.size ≤ after.fields.size
  receivers : ∀ id receiver, (after.forest.bindings id).get? "this" = some receiver → before.Receives receiver

namespace Store.Advances

variable {before middle after store : Store}

theorem of_forest (same : after.forest = before.forest) (le : before.fields.size ≤ after.fields.size) :
    before.Advances after :=
  ⟨le, fun id _ found => .inl ⟨id, same ▸ found⟩⟩

theorem refl (store : Store) : store.Advances store :=
  .of_forest rfl (Nat.le_refl _)

theorem trans (first : before.Advances middle) (second : middle.Advances after) : before.Advances after where
  fields := Nat.le_trans first.fields second.fields
  receivers := by
    intro id receiver found
    rcases second.receivers id receiver found with ⟨other, there⟩ | object
    · exact first.receivers other receiver there
    · exact .inr object

theorem define (store : Store) (id : ScopeId) {name : Token} (names : name.Names) (value : Value) :
    store.Advances (store.define id name.lexeme value) where
  fields := Nat.le_refl _
  receivers := by
    intro other receiver found
    change ((store.forest.define id name.lexeme value).bindings other).get? "this" = some receiver at found
    rw [Forest.bindings_define] at found
    split at found
    · rw [Bindings.get?_set, if_neg names.ne_this.symm] at found
      exact .inl ⟨id, found⟩
    · exact .inl ⟨other, found⟩

theorem addScope (h : before.Advances store) (enclosing : ScopeId) {bindings : List (String × Value)}
    (receives : ∀ entry ∈ bindings, entry.1 = "this" → before.Receives entry.2) :
    before.Advances (store.addScope enclosing bindings) where
  fields := h.fields
  receivers := by
    intro id receiver found
    change ((store.forest.add (some enclosing) (.ofList bindings)).bindings id).get? "this" = some receiver at found
    rw [Forest.bindings_add] at found
    split at found
    · exact receives _ (Bindings.mem_of_get?_ofList found) rfl
    · exact h.receivers id receiver found

theorem takeStamps (store : Store) (count : Nat) : store.Advances (store.takeStamps count) :=
  .of_forest rfl (Nat.le_refl _)

theorem addInstance (store : Store) : store.Advances store.addInstance :=
  .of_forest rfl (by simp [Store.addInstance])

theorem setField (store : Store) (index : Nat) (name : String) (value : Value) :
    store.Advances (store.setField index name value) :=
  .of_forest rfl (by simp [Store.setField])

end Store.Advances

/-! ## Values that were read -/

/-- The methods of the class and of those above it were read from texts. -/
def ClassValue.Read (kind : ClassValue) : Prop :=
  ∀ layer ∈ kind.layers, ∀ name method, layer.methods.get? name = some method →
    (Node.function method.declaration).Read

theorem ClassValue.Read.method {kind : ClassValue} (h : kind.Read) {name : String} {method : Closure}
    (found : kind.method? name = some method) : (Node.function method.declaration).Read := by
  obtain ⟨layer, member, there⟩ := List.exists_of_findSome?_eq_some found
  exact h layer member name method there

def Value.Read : Value → Prop
  | .function closure => (Node.function closure.declaration).Read
  | .class kind => kind.Read
  | .instance object => object.kind.Read
  | _ => True

theorem Value.Read.runs {callee : Value} (h : callee.Read) {declaration : FunctionDecl}
    (runs : callee.Runs declaration) : (Node.function declaration).Read := by
  cases runs with
  | function => exact h
  | initializer found => exact ClassValue.Read.method h found

namespace Machine

variable {machine : Machine} {q : ScopeId → Node → Prop} {before after : Store}

/-- A method is bound to an instance, or to what `this` is already. -/
theorem receives_of_finds {method : Closure} {receiver : Value} (h : machine.Finds method receiver) :
    machine.store.Receives receiver := by
  cases h with
  | get | initializer => exact .inr ⟨_, rfl⟩
  | super _ holds =>
      obtain ⟨hops, -, -, atThis⟩ := of_superReceiver holds
      obtain ⟨id, -, bound⟩ := Forest.exists_of_getAt atThis
      exact .inl ⟨id, bound⟩

/-- The callee of the call that is next was read from a text. -/
def CallsRead (machine : Machine) : Prop :=
  ∀ callee arguments, machine.call? = some (callee, arguments) → callee.Read

theorem Change.advances (h : machine.Change q before after)
    (names : ∀ scope node, q scope node → node.DefinesNames) (calls : machine.CallsRead)
    (far : machine.store.Advances before) : machine.store.Advances after := by
  cases h with
  | declare held declared => exact far.trans (.define _ _ (names _ _ held _ declared) _)
  | assign held => exact far.trans (.define _ _ (names _ _ held) _)
  | block => exact far.addScope _ (List.forall_mem_nil _)
  | superclass _ kind =>
      refine far.addScope _ fun entry member this => ?_
      obtain rfl := List.mem_singleton.mp member
      exact absurd (show ("super" : String) = "this" from this) (by decide)
  | receiver finds =>
      refine far.addScope _ fun entry member _ => ?_
      obtain rfl := List.mem_singleton.mp member
      exact receives_of_finds finds
  | parameters calling runs =>
      refine far.addScope _ fun entry member this => ?_
      obtain ⟨param, inside, same⟩ := List.mem_map.mp (List.of_mem_zip member).1
      exact absurd (same.trans this) (((calls _ _ calling).runs runs).param inside).ne_this
  | «instance» => exact far.trans (.addInstance _)
  | field => exact far.trans (.setField _ _ _ _)
  | print => exact far.trans (.of_forest rfl (Nat.le_refl _))
  | stamps => exact far.trans (.takeStamps _ _)

theorem Changes.advances (h : machine.Changes q machine.store after)
    (names : ∀ scope node, q scope node → node.DefinesNames) (calls : machine.CallsRead) :
    machine.store.Advances after := by
  induction h with
  | refl => exact .refl _
  | tail _ change ih => exact change.advances names calls ih

theorem advances_step (host : Host) (h : machine.Codes q) (names : ∀ scope node, q scope node → node.DefinesNames)
    (calls : machine.CallsRead) : machine.store.Advances (step host machine).store :=
  (changes_step host h).advances names calls

end Machine

end LoxLang
