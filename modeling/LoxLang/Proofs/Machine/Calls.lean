import LoxLang.Proofs.Machine.Calling
import LoxLang.Proofs.Machine.Frames

/-!
Calls and class declarations keep a machine sound: each new scope agrees with the region that it is made for.
-/

namespace LoxLang.Machine

open Scoping

variable {programs : List (List Stmt)} {host : Host} {store after : Store} {scope : ScopeId}
  {regions : Regions} {frames : List Frame} {height : Nat}

/-! ## Going on -/

theorem sound_value {value : Value} (h : store.Sound programs)
    (hvalue : value.Sound programs store.forest) (agrees : store.forest.Agrees scope regions)
    (rest : Frames programs store.forest frames ⟨scope, regions, .value⟩) :
    (Machine.mk (.value value) frames scope height store).Sound programs :=
  ⟨h, hvalue, regions, agrees, rest⟩

theorem sound_done {completion : Completion} (h : store.Sound programs)
    (hcompletion : completion.Sound programs store.forest)
    (agrees : store.forest.Agrees scope regions)
    (rest : Frames programs store.forest frames ⟨scope, regions, .completion⟩) :
    (Machine.mk (.done completion) frames scope height store).Sound programs :=
  ⟨h, hcompletion, regions, agrees, rest⟩

theorem sound_failed {interruption : Interruption} (h : store.Sound programs)
    (herror : interruption.IsError) :
    (Machine.mk (.failed interruption) frames scope height store).Sound programs :=
  ⟨h, herror⟩

theorem sound_yields {control : Control} (follows : Follows programs store after)
    (yields : control.Yields programs after.forest) (agrees : store.forest.Agrees scope regions)
    (rest : Frames programs store.forest frames ⟨scope, regions, .value⟩) :
    (Machine.mk control frames scope height after).Sound programs := by
  cases control with
  | value value =>
      exact sound_value follows.sound yields (agrees.grow follows.grows) (rest.grow follows.grows)
  | failed interruption => exact sound_failed follows.sound yields
  | eval _ | exec _ | done _ => exact yields.elim

/-! ## Calls -/

theorem sound_activate {closure : Closure} {arguments : List Value} {yield : Yield}
    (h : store.Sound programs) (hclosure : closure.Sound programs store.forest)
    (harguments : ∀ argument ∈ arguments, argument.Sound programs store.forest)
    (count : arguments.length = closure.arity)
    (receiver : ∀ scope, yield = .receiver scope → store.forest.Holds scope "this")
    (constructed : ∀ object, yield = .constructed object →
      object.kind.Sound programs store.forest)
    (agrees : store.forest.Agrees scope regions)
    (rest : Frames programs store.forest frames ⟨scope, regions, .value⟩) :
    (activate closure arguments yield frames scope height store).Sound programs := by
  obtain ⟨inner, stands, hscope, -⟩ := hclosure
  let names := closure.declaration.params.map Token.lexeme
  have grows := Forest.grows_add store.forest (some closure.scope) (.ofList (names.zip arguments))
  have bodyAgrees : (store.forest.add (some closure.scope) (.ofList (names.zip arguments))).Agrees
      store.forest.next (.inside (.block (.ofList names)) inner) := by
    refine hscope.add fun name member => Forest.holds_add (Bindings.contains_ofList ?_) _
    have enough : names.length ≤ arguments.length := by
      rw [count, List.length_map]
      exact Nat.le_refl _
    rw [List.map_fst_zip enough]
    exact member
  have bound : ∀ entry ∈ names.zip arguments, entry.2.Sound programs store.forest := by
    intro ⟨name, value⟩ member
    exact harguments value (List.of_mem_zip member).2
  have activation : (Frame.activation yield).Leads programs store.forest
      ⟨scope, regions, .completion⟩ ⟨scope, regions, .value⟩ :=
    .activation receiver constructed
  have body : (Frame.block closure.declaration.body scope).Leads programs
      (store.forest.add (some closure.scope) (.ofList (names.zip arguments)))
      ⟨store.forest.next, .inside (.block (.ofList names)) inner, .completion⟩
      ⟨scope, regions, .completion⟩ :=
    .block (stands.part .body) (agrees.grow grows)
  exact sound_done (h.addScope bound) .normal bodyAgrees
    (.cons body (.cons (activation.later grows) (rest.grow grows)))

theorem sound_construct {kind : ClassValue} {arguments : List Value} (h : store.Sound programs)
    (hkind : kind.Sound programs store.forest)
    (harguments : ∀ argument ∈ arguments, argument.Sound programs store.forest)
    (count : arguments.length = kind.arity) (agrees : store.forest.Agrees scope regions)
    (rest : Frames programs store.forest frames ⟨scope, regions, .value⟩) :
    (construct kind arguments frames scope height store).Sound programs := by
  have made : Follows programs store store.addInstance := ⟨h.addInstance, .refl _⟩
  unfold construct
  cases hinit : kind.method? "init" with
  | none => exact sound_value made.sound hkind agrees rest
  | some initializer =>
      have hmethod : initializer.SoundMethod programs store.addInstance.forest := hkind.method hinit
      have receiver : (Value.instance ⟨store.fields.size, kind⟩).Sound programs
          store.addInstance.forest := hkind
      obtain ⟨follows, hbound⟩ := bind_sound made.sound hmethod receiver
      have arity : arguments.length =
          (bind store.addInstance initializer (.instance ⟨store.fields.size, kind⟩)).1.arity := by
        rw [count, ClassValue.arity, hinit]
        rfl
      refine sound_activate follows.sound hbound ?_ arity nofun ?_ (agrees.grow follows.grows)
        (rest.grow follows.grows)
      · exact fun argument member => (harguments argument member).grow follows.grows
      · intro object same
        cases same
        exact ClassValue.Sound.later hkind (List.Subset.refl _) follows.grows

theorem sound_call {callee : Value} {paren : Token} {arguments : List Value}
    (natives : ∀ native ∈ host.natives, native.Sound) (h : store.Sound programs)
    (hcallee : callee.Sound programs store.forest)
    (harguments : ∀ argument ∈ arguments, argument.Sound programs store.forest)
    (agrees : store.forest.Agrees scope regions)
    (rest : Frames programs store.forest frames ⟨scope, regions, .value⟩) :
    (call host callee paren arguments frames scope height store).Sound programs := by
  have called := called_call host callee paren arguments frames scope height store
  generalize call host callee paren arguments frames scope height store = next at called ⊢
  cases called with
  | fails error => exact sound_failed h ⟨error, rfl⟩
  | @function closure count =>
      have bindsThis : closure.isInitializer = true → store.forest.Holds closure.scope "this" := by
        obtain ⟨-, -, -, this⟩ := hcallee
        exact this
      refine sound_activate h hcallee harguments count ?_ ?_ agrees rest
      · intro outer same
        unfold functionYield at same
        split at same
        · next init =>
          cases same
          exact bindsThis init
        · cases same
      · intro object same
        unfold functionYield at same
        split at same <;> cases same
  | «class» count => exact sound_construct h hcallee harguments count agrees rest
  | @native _ native known =>
      have answer := natives native (Array.mem_of_getElem? known) programs store.forest host.now arguments harguments
      exact sound_value h answer agrees rest

theorem sound_callWith {callee : Value} {paren : Token} {before : List Value} {rest : List Expr}
    (natives : ∀ native ∈ host.natives, native.Sound) (h : store.Sound programs)
    (hcallee : callee.Sound programs store.forest)
    (hbefore : ∀ value ∈ before, value.Sound programs store.forest)
    (parts : ∀ part ∈ rest, StandsIn programs ⟨regions, .expr part⟩)
    (agrees : store.forest.Agrees scope regions)
    (going : Frames programs store.forest frames ⟨scope, regions, .value⟩) :
    (callWith host callee paren before rest frames scope height store).Sound programs := by
  cases rest with
  | nil =>
      refine sound_call natives h hcallee (fun argument member => ?_) agrees going
      exact hbefore argument (List.mem_reverse.mp member)
  | cons argument rest =>
      refine ⟨h, regions, agrees, parts argument List.mem_cons_self, .cons ?_ going⟩
      exact .argument hcallee hbefore fun part member => parts part (List.mem_cons_of_mem _ member)

/-! ## Classes -/

theorem sound_methodTable {forest : Forest} {stamp : Nat} {methods : List FunctionDecl}
    (agrees : forest.Agrees scope regions)
    (stands : ∀ method ∈ methods,
      StandsIn programs ⟨.inside .receiver regions, .function method⟩)
    {name : String} {closure : Closure}
    (found : (methodTable stamp scope methods).get? name = some closure) :
    closure.SoundMethod programs forest := by
  obtain ⟨index, inside, same⟩ := List.mem_mapIdx.mp (Bindings.mem_of_get?_ofList found)
  cases same
  exact ⟨regions, stands _ (List.getElem_mem inside), agrees⟩

theorem follows_define {id : ScopeId} {name : String} {value : Value} (h : store.Sound programs)
    (notSuper : name ≠ "super") (sound : value.Sound programs store.forest) :
    Follows programs store (store.define id name value) :=
  have grows := Forest.grows_define store.forest id notSuper value
  ⟨h.define notSuper (sound.grow grows), grows⟩

/-- A class is sound if its methods stand in regions that their scope agrees with. -/
theorem sound_class {forest : Forest} {stamp methodStamp : Nat} {name : String}
    {methods : List FunctionDecl} {above : List Layer} (agrees : forest.Agrees scope regions)
    (stands : ∀ method ∈ methods,
      StandsIn programs ⟨.inside .receiver regions, .function method⟩)
    (parents : ∀ layer ∈ above, ∀ name closure, layer.methods.get? name = some closure →
      closure.SoundMethod programs forest) :
    (Value.class ⟨⟨stamp, name, methodTable methodStamp scope methods⟩, above⟩).Sound programs
      forest := by
  intro layer member other closure found
  rcases List.mem_cons.mp member with rfl | member
  · exact sound_methodTable agrees stands found
  · exact parents layer member other closure found

theorem follows_declareClass (h : store.Sound programs) {name : Token} (names : name.Names)
    {use : Option NameUse} {superclass : Option ClassValue} {methods : List FunctionDecl}
    (same : use.isSome = superclass.isSome)
    (parent : ∀ kind, superclass = some kind → kind.Sound programs store.forest)
    (stands : StandsIn programs ⟨regions, .stmt (.class name use methods)⟩)
    (agrees : store.forest.Agrees scope regions) :
    Follows programs store (declareClass store scope name superclass methods) ∧
      (declareClass store scope name superclass methods).forest.Agrees scope
        (regions.hold name.lexeme) := by
  have inner (method : FunctionDecl) (member : method ∈ methods) :
      StandsIn programs ⟨(regions.hold name.lexeme).ofMethods use, .function method⟩ :=
    stands.part (.method member)
  let middle := store.define scope name.lexeme .nil
  have nil : Value.nil.Sound programs store.forest := trivial
  have first : Follows programs store middle := follows_define h names.ne_super nil
  have held : middle.forest.Agrees scope (regions.hold name.lexeme) :=
    agrees.define names.ne_super .nil
  cases superclass with
  | none =>
      cases use with
      | some use => cases same
      | none =>
          have kind : (Value.class
              ⟨⟨middle.stamp, name.lexeme, methodTable (middle.stamp + 1) scope methods⟩,
                []⟩).Sound programs middle.forest :=
            sound_class held inner fun _ absurd => nomatch absurd
          have last : Follows programs (middle.takeStamps (methods.length + 1))
              (declareClass store scope name none methods) :=
            follows_define first.sound.takeStamps names.ne_super kind
          exact ⟨first.trans ⟨last.sound, last.grows⟩, held.grow last.grows⟩
  | some superclass =>
      cases use with
      | none => cases same
      | some use =>
          let inside := middle.addScope scope [("super", .class superclass)]
          have hsuper : superclass.Sound programs middle.forest :=
            (parent superclass rfl).later (List.Subset.refl _) first.grows
          have grows : middle.forest.Grows inside.forest := Forest.grows_add _ _ _
          have second : Follows programs middle inside := by
            refine ⟨first.sound.addScope fun entry member => ?_, grows⟩
            rw [List.mem_singleton.mp member]
            exact hsuper
          have carries : inside.forest.Carries middle.forest.next .superclass := by
            refine ⟨superclass, ?_⟩
            rw [Store.forest_addScope, Forest.bindings_add, if_pos rfl]
            rfl
          have kind : (Value.class
              ⟨⟨inside.stamp, name.lexeme,
                methodTable (inside.stamp + 1) middle.forest.next methods⟩,
                superclass.layers⟩).Sound programs inside.forest :=
            sound_class (held.add carries) inner
              (hsuper.later (List.Subset.refl _) grows)
          have last : Follows programs (inside.takeStamps (methods.length + 1))
              (declareClass store scope name (some superclass) methods) :=
            follows_define second.sound.takeStamps names.ne_super kind
          refine ⟨first.trans (second.trans ⟨last.sound, last.grows⟩), ?_⟩
          exact (held.grow grows).grow last.grows

end LoxLang.Machine
