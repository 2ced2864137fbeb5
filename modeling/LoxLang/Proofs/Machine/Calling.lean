import LoxLang.Machine.Step

/-!
What becomes of a call once its callee and arguments are known. It fails where it stands, or what is called begins with
as many arguments as it takes; all that is known of calls follows from these cases.
-/

namespace LoxLang.Machine

variable {host : Host}

theorem ofValue?_congr {host' : Host} (natives : host'.natives = host.natives) (value : Value) :
    Callable.ofValue? host' value = Callable.ofValue? host value := by
  cases value with
  | native index => rw [Callable.ofValue?, Callable.ofValue?, natives]
  | _ => rfl

theorem exists_of_ofValue?_native {index : Nat} {callable : Callable}
    (found : Callable.ofValue? host (.native index) = some callable) :
    ∃ native, host.natives[index]? = some native ∧ callable = .native native := by
  obtain ⟨native, located, same⟩ := Option.map_eq_some_iff.mp found
  exact ⟨native, located, same.symm⟩

theorem exceeds_class (host : Host) (height : Nat) (kind : ClassValue) :
    (Callable.class kind).exceeds host height = true ↔ host.heightLimit < height + kind.searched "init" :=
  decide_eq_true_iff

/-- What a call leads to. -/
inductive Called (host : Host) (arguments : List Value) (frames : List Frame) (scope : ScopeId) (height : Nat)
    (store : Store) : Value → Machine → Prop
  | fails {callee : Value} (error : RuntimeError) :
      Called host arguments frames scope height store callee ⟨.failed (.error error), frames, scope, height, store⟩
  | function {closure : Closure} : arguments.length = closure.arity →
      Called host arguments frames scope height store (.function closure)
        (activate closure arguments (functionYield closure) frames scope height store)
  | class {kind : ClassValue} : arguments.length = kind.arity →
      Called host arguments frames scope height store (.class kind)
        (construct kind arguments frames scope height store)
  | native {index : Nat} {native : Native} :
      host.natives[index]? = some native → arguments.length = native.arity →
      Called host arguments frames scope height store (.native index)
        ⟨.value (native.answer host.now arguments), frames, scope, height, store⟩

theorem called_call (host : Host) (callee : Value) (paren : Token) (arguments : List Value) (frames : List Frame)
    (scope : ScopeId) (height : Nat) (store : Store) :
    Called host arguments frames scope height store callee
      (call host callee paren arguments frames scope height store) := by
  unfold call
  split
  · exact .fails _
  next callable found =>
  split
  · exact .fails _
  split
  case isFalse => exact .fails _
  case isTrue count =>
  cases callee with
  | function closure =>
      cases found
      exact .function count
  | «class» kind =>
      cases found
      exact .class count
  | native index =>
      obtain ⟨native, known, rfl⟩ := exists_of_ofValue?_native found
      exact .native known count
  | nil | bool _ | number _ | text _ | «instance» _ => cases found

theorem construct_of_init {kind : ClassValue} {initializer : Closure}
    (found : kind.method? "init" = some initializer) (arguments : List Value)
    (frames : List Frame) (scope : ScopeId) (height : Nat) (store : Store) :
    construct kind arguments frames scope height store =
      activate (bind store.addInstance initializer (.instance ⟨store.fields.size, kind⟩)).1
        arguments (.constructed ⟨store.fields.size, kind⟩) frames scope height
        (bind store.addInstance initializer (.instance ⟨store.fields.size, kind⟩)).2 := by
  simp only [construct, found]

end LoxLang.Machine
