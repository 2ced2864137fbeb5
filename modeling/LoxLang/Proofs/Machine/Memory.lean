import LoxLang.Proofs.Machine.Changes

/-!
No step changes what `this` and `super` stand for in a scope, since what a program defines has other names.
-/

namespace LoxLang

open Scoping

/-- What a node defines itself has a proper name. -/
def Scoping.Node.DefinesNames : Node → Prop
  | .expr (.assign target _) => target.name.Names
  | .stmt part => ∀ name, part.declared? = some name → name.Names
  | _ => True

namespace Machine

variable {machine : Machine} {q : ScopeId → Node → Prop} {before after : Store}

theorem Change.remembers (h : machine.Change q before after)
    (names : ∀ scope node, q scope node → node.DefinesNames) : before.forest.Remembers after.forest := by
  cases h with
  | declare held declared => exact .define _ _ (names _ _ held _ declared) _
  | assign held => exact .define _ _ (names _ _ held) _
  | block | superclass | receiver | parameters => exact .add _ _ _
  | «instance» | field | print | stamps => exact .refl _

theorem Changes.remembers (h : machine.Changes q before after)
    (names : ∀ scope node, q scope node → node.DefinesNames) : before.forest.Remembers after.forest := by
  induction h with
  | refl => exact .refl _
  | tail _ change ih => exact ih.trans (change.remembers names)

theorem remembers_step (host : Host) (h : machine.Codes q)
    (names : ∀ scope node, q scope node → node.DefinesNames) :
    machine.store.forest.Remembers (step host machine).store.forest :=
  (changes_step host h).remembers names

end Machine

end LoxLang
