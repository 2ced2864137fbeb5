import LoxLang.Proofs.Session.Completions
import LoxLang.Proofs.Variation.Moving
import LoxLang.Proofs.Variation.Sessions

/-!
Texts run in one piece or in two. A text that is run below another one does what it does when it is run after the other
one, on lines that are further down.
-/

namespace LoxLang

open Scoping

/-! ## The end of the first program -/

namespace Machine

/-- Of the program only its frame is left, and nothing in it. -/
def Ended (machine : Machine) : Prop :=
  (∃ completion, machine.control = .done completion) ∧ machine.frames = [.program []]

variable {host host' : Host} {machine other : Machine}

theorem Ended.next (ended : machine.Ended) (host : Host) :
    (machine.step host).isFinal = true ∧ (machine.step host).control.interruption? = none ∧
      (machine.step host).store = machine.store := by
  obtain ⟨control, frames, scope, height, store⟩ := machine
  obtain ⟨⟨completion, rfl⟩, rfl⟩ := ended
  exact ⟨rfl, rfl, rfl⟩

theorem not_isFinal_of_ended (ended : machine.Ended) : machine.isFinal = false := by
  obtain ⟨control, frames, scope, height, store⟩ := machine
  obtain ⟨⟨completion, rfl⟩, rfl⟩ := ended
  rfl

/-- Behind the end of the program nothing changes. -/
theorem Ended.iterate {steps fuel : Nat} (ended : ((step host)^[steps] machine).Ended)
    (bound : steps < fuel) :
    (step host)^[fuel] machine = (step host)^[steps + 1] machine := by
  obtain ⟨more, rfl⟩ := Nat.exists_eq_add_of_lt bound
  have final := (ended.next host).1
  rw [← Function.iterate_succ_apply' (step host)] at final
  rw [show steps + more + 1 = more + (steps + 1) by omega, Function.iterate_add_apply,
    iterate_of_isFinal host final]

theorem Ended.unique {steps others : Nat} (ended : ((step host)^[steps] machine).Ended)
    (again : ((step host)^[others] machine).Ended) : steps = others := by
  have later {steps others : Nat} (ended : ((step host)^[steps] machine).Ended)
      (again : ((step host)^[others] machine).Ended) : ¬ steps < others := by
    intro before
    have final := (ended.next host).1
    rw [← Function.iterate_succ_apply' (step host), ← ended.iterate before, not_isFinal_of_ended again] at final
    cases final
  exact Nat.le_antisymm (Nat.not_lt.mp (later again ended)) (Nat.not_lt.mp (later ended again))

variable {r : Respelling} {outline : Outline} {before : Array String} {tail : List Stmt}

/-- The other machine is about to begin with what more there is in its program. -/
theorem Varies.of_ended (h : machine.Varies r outline before tail other) (ended : machine.Ended) :
    ∃ completion, other = ⟨.done completion, [.program tail], Forest.globals, 1, other.store⟩ := by
  obtain ⟨control, frames, scope, height, store⟩ := machine
  obtain ⟨control', frames', scope', height', store'⟩ := other
  obtain ⟨⟨completion, rfl⟩, rfl⟩ := ended
  obtain ⟨⟨levels, awaited, leads, hcontrol, hframes⟩, rfl, rfl, hstore⟩ := h
  cases hframes with
  | program rest =>
      cases rest
      cases hcontrol
      exact ⟨_, rfl⟩
  | cons _ hframe _ => cases hframe

/-- How the statement before ended does not matter. -/
theorem run?_program (host : Host) (fuel : Nat) (completion : Completion) (statements : List Stmt)
    (store : Store) :
    run? host fuel ⟨.done completion, [.program statements], Forest.globals, 1, store⟩ =
      run? host fuel (.load statements store) := by
  cases fuel with
  | zero => rfl
  | succ fuel =>
      rw [run?_eq, run?_eq, Function.iterate_succ_apply, Function.iterate_succ_apply]
      have same : step host ⟨.done completion, [.program statements], Forest.globals, 1, store⟩ =
          step host (.load statements store) := by
        cases statements <;> rfl
      rw [same]

/-- A program that another one begins with does the same, and then goes on as its rest does by itself. -/
theorem run?_append {ready readyBelow : Machine → Prop} {below : Host} {store : Store} {fuel : Nat}
    {statements part others : List Stmt} {last : Machine}
    (run : (step host)^[fuel] (.load statements store) = last)
    (echoed : Echoed ready host host') (hready : ready (.load statements store))
    (echoedBelow : Echoed readyBelow below host')
    (hreadyBelow : readyBelow (.load part last.store.takePrinted.2))
    (varies : store.Varies r outline #[] store)
    (same : Node.Varies r.variation [false] (.statements statements) (.statements statements))
    (vary : Node.Varies r.variation [false] (.statements part) (.statements others))
    (final : last.isFinal = true) (clean : last.control.interruption? = none) :
    ∃ steps outline, ((step host)^[steps] (.load statements store)).Ended ∧ ∀ more,
      Option.Rel (Follow r outline last.store.printed [])
        (run? below more (.load part last.store.takePrinted.2))
        (run? host' (steps + more) (.load (statements ++ others) store)) := by
  subst run
  obtain ⟨steps, completion, bound, control, frames, outline, -, follow⟩ :=
    reaches_end echoed hready (Session.varies_load varies others same) ⟨statements, rfl⟩ final clean
  have ended : ((step host)^[steps] (.load statements store)).Ended := ⟨⟨_, control⟩, frames⟩
  have store_eq : ((step host)^[fuel] (.load statements store)).store =
      ((step host)^[steps] (.load statements store)).store := by
    rw [ended.iterate bound, Function.iterate_succ_apply']
    exact (ended.next host).2.2
  refine ⟨steps, outline, ended, fun more => ?_⟩
  obtain ⟨completion', reached⟩ := follow.of_ended ended
  rw [store_eq] at hreadyBelow ⊢
  have stores := follow.store
  have whole : run? host' (steps + more) (.load (statements ++ others) store) =
      run? host' more (.load others ((step host')^[steps] (.load (statements ++ others) store)).store) := by
    rw [← run?_program host' more completion', ← reached, run?_eq, run?_eq, Nat.add_comm,
      Function.iterate_add_apply]
  generalize (step host)^[steps] (.load statements store) = machine at *
  generalize (step host')^[steps] (.load (statements ++ others) store) = other at *
  have start := Session.varies_load stores.takePrinted_left [] vary
  rw [List.append_nil] at start
  rw [whole]
  exact run?_varies echoedBelow hreadyBelow start more

end Machine

/-! ## Natives and the time -/

/-- The answer does not depend on the time. -/
def Native.Timeless (native : Native) : Prop :=
  ∀ now now' arguments, native.answer now arguments = native.answer now' arguments

theorem Machine.Varies.call? {r : Respelling} {outline : Outline} {before : Array String}
    {tail : List Stmt} {machine other : Machine} (h : machine.Varies r outline before tail other)
    {index : Nat} {arguments : List Value} (calls : other.call? = some (.native index, arguments)) :
    ∃ arguments, machine.call? = some (.native index, arguments) := by
  obtain ⟨control, frames, scope, height, store⟩ := machine
  obtain ⟨control', frames', scope', height', store'⟩ := other
  obtain ⟨⟨levels, awaited, leads, hcontrol, hframes⟩, rfl, rfl, hstore⟩ := h
  dsimp only at leads hcontrol hframes hstore
  cases hcontrol with
  | value value =>
      cases hframes with
      | nil => cases calls
      | cons _ hframe _ =>
          cases hframe with
          | callee paren ahead =>
              cases ahead with
              | nil =>
                  cases calls
                  cases value
                  exact ⟨_, rfl⟩
              | cons _ _ => cases calls
          | argument callee paren done ahead =>
              cases ahead with
              | nil =>
                  cases calls
                  cases callee
                  exact ⟨_, rfl⟩
              | cons _ _ => cases calls
          | _ => cases calls
  | _ => cases calls

namespace Session

variable {session : Session} {limit : Nat} {statements others : List Stmt} {r : Respelling}
  {outline : Outline}

/-- No native whose answer depends on the time is called while some statements run. -/
def CalmWhile (session : Session) (limit : Nat) (statements : List Stmt) : Prop :=
  ∀ machine, session.Runs limit statements machine → ∀ index arguments native,
    machine.call? = some (.native index, arguments) → session.natives[index]? = some native →
    native.Timeless

theorem CalmWhile.echoed (calm : session.CalmWhile limit statements)
    (uniform : ∀ native ∈ session.natives, native.Uniform) (now now' : Float) :
    Machine.Echoed (session.Runs limit statements) ⟨session.natives, limit, now⟩
      ⟨session.natives, limit, now'⟩ where
  agree := ⟨rfl, rfl⟩
  kept _ runs := runs.step now
  answers := by
    intro machine r outline index native arguments runs calls found given given' related
    rw [← calm machine runs index arguments native calls found now now' given']
    exact answersVary_of_getElem? uniform found now given given' related

/-- What varies from a program that is calm is calm. -/
theorem CalmWhile.varies (calm : session.CalmWhile limit statements)
    (uniform : ∀ native ∈ session.natives, native.Uniform)
    (h : session.store.Varies r outline #[] session.store)
    (vary : Node.Varies r.variation [false] (.statements statements) (.statements others)) :
    session.CalmWhile limit others := by
  have alike (other : Machine) (runs : session.Runs limit others other) :
      ∃ machine, session.Runs limit statements machine ∧
        Machine.Follow r outline #[] [] machine other := by
    induction runs with
    | load =>
        have start := varies_load h [] vary
        rw [List.append_nil] at start
        exact ⟨_, .load, start.follow⟩
    | step now _ ih =>
        obtain ⟨machine, runs, more, subset, follow⟩ := ih
        refine ⟨_, runs.step now, ?_⟩
        exact (Machine.step_varies ⟨rfl, rfl⟩ follow
          (fun _ _ _ _ found => answersVary_of_getElem? uniform found now)
          fun _ _ _ => rfl).earlier subset
  intro other runs index arguments native calls found
  obtain ⟨machine, runs, more, -, follow⟩ := alike other runs
  obtain ⟨arguments, calls⟩ := follow.call? calls
  exact calm machine runs index arguments native calls found

end Session

/-! ## What is told -/

/-- The same error, on a line further down if it is at a word of the program. -/
inductive RuntimeError.Moved (lines : Nat) (program : List Stmt) (earlier : List (List Stmt)) :
    RuntimeError → RuntimeError → Prop
  | nowhere {cause : RuntimeError.Cause} : Moved lines program earlier ⟨cause, none⟩ ⟨cause, none⟩
  | inside {cause : RuntimeError.Cause} {token : Token} :
      token ∈ tokensOfStmts program →
      Moved lines program earlier ⟨cause, some token⟩ ⟨cause, some (token.moved lines)⟩
  | outside {cause : RuntimeError.Cause} {token : Token} {other : List Stmt} :
      other ∈ earlier → token ∈ tokensOfStmts other →
      Moved lines program earlier ⟨cause, some token⟩ ⟨cause, some token⟩

/-- The errors that a run ends with, or the fault. -/
inductive ErrorsMoved (lines : Nat) (program : List Stmt) (earlier : List (List Stmt)) :
    Except Fault (List Error) → Except Fault (List Error) → Prop
  | none : ErrorsMoved lines program earlier (.ok []) (.ok [])
  | runtime {error other : RuntimeError} :
      error.Moved lines program earlier other →
      ErrorsMoved lines program earlier (.ok [.runtime error]) (.ok [.runtime other])
  | fault {fault : Fault} : ErrorsMoved lines program earlier (.error fault) (.error fault)

/-- What a text shows below another one, where by itself it shows something after the other one. -/
structure Report.Below (lines : Nat) (program : List Stmt) (earlier : List (List Stmt))
    (above : Report) (alone whole : Report × Session) : Prop where
  printed : whole.1.printed = above.printed ++ alone.1.printed
  errors : ErrorsMoved lines program earlier alone.1.errors whole.1.errors
  globals : alone.2.Alike whole.2

section

variable {r : Respelling}

theorem Respelling.spell_eq (same : r.old = r.new) (level : Bool) (name : String) :
    r.spell level name = name := by
  cases level with
  | false => rfl
  | true =>
      change Equiv.swap r.old r.new name = name
      rw [same, Equiv.swap_self]
      rfl

theorem Respelling.plain_of_named (same : r.old = r.new) {level : Bool} {token other : Token}
    (h : r.named level token other) : r.plain token other := by
  obtain ⟨middle, plain, -, rfl⟩ := h
  rwa [spell_eq same]

/-- Where no name is respelled an interruption is the same, or at a word that stands for another one. -/
theorem Interruption.Varies.cases_plain (same : r.old = r.new)
    {interruption other : Interruption} (h : interruption.Varies r other) :
    (∃ cause token word, r.plain token word ∧ interruption = .located token cause ∧
      other = .located word cause) ∨
    other = interruption ∧ (interruption = .stackOverflow ∨ ∃ fault, interruption = .fault fault) := by
  cases h with
  | located named => exact .inl ⟨_, _, _, Respelling.plain_of_named same named, rfl, rfl⟩
  | undefinedVariable named =>
      have plain := Respelling.plain_of_named same named
      refine .inl ⟨_, _, _, plain, rfl, ?_⟩
      rw [Forest.undefinedVariable, r.lexeme plain]
  | stackOverflow => exact .inr ⟨rfl, .inl rfl⟩
  | fault fault =>
      cases fault with
      | same => exact .inr ⟨rfl, .inr ⟨_, rfl⟩⟩
      | notDefinedThere _ =>
          rw [Respelling.spell_eq same]
          exact .inr ⟨rfl, .inr ⟨_, rfl⟩⟩

end

/-- The words of a program are further down, those of earlier programs are where they were. -/
def Respelling.moving (lines : Nat) (program : List Stmt) (earlier : List (List Stmt)) :
    Respelling :=
  .telling (fun token other => token ∈ tokensOfStmts program ∧ other = token.moved lines ∨
      (∃ before ∈ earlier, token ∈ tokensOfStmts before) ∧ other = token)
    (by rintro token other (⟨-, rfl⟩ | ⟨-, rfl⟩) <;> exact ⟨rfl, rfl⟩) "" (by decide) (by decide)

/-- All words are the same. -/
def Respelling.same : Respelling :=
  .telling Eq (by rintro token other rfl; exact ⟨rfl, rfl⟩) "" (by decide) (by decide)

namespace Session

variable {session middle : Session} {limit : Nat} {outline : Outline} {before : Array String}
  {programs earlier : List (List Stmt)}

theorem below_of_varies {lines : Nat} {program : List Stmt} {above : Report} {machine other : Machine}
    (h : machine.Varies (.moving lines program earlier) outline above.printed [] other)
    (host host' : Host) :
    Report.Below lines program earlier above (outcome host machine) (outcome host' other) where
  printed := h.store.printed
  errors := by
    refine h.errors (ErrorsMoved lines program earlier) .none (fun _ _ interruption => ?_) host host'
    rcases interruption.cases_plain rfl with
      ⟨cause, token, word, stands, rfl, rfl⟩ | ⟨rfl, rfl | ⟨fault, rfl⟩⟩
    · rcases stands with ⟨inside, rfl⟩ | ⟨⟨other, member, outside⟩, rfl⟩
      · exact .runtime (.inside inside)
      · exact .runtime (.outside member outside)
    · exact .runtime .nowhere
    · exact .fault
  globals := h.alike host host'

theorem errors_of_varies {machine other : Machine}
    (h : machine.Varies .same outline before [] other) (host host' : Host) :
    (outcome host' other).1.errors = (outcome host machine).1.errors := by
  refine h.errors (fun first second => second = first) rfl (fun _ _ interruption => ?_) host host'
  rcases interruption.cases_plain rfl with ⟨cause, token, word, rfl, rfl, rfl⟩ | ⟨rfl, -⟩
  · rfl
  · rfl

/-- No native whose answer depends on the time is called while a source runs. -/
def Calm (session : Session) (limit : Nat) (source : String) : Prop :=
  ∀ statements, prepare limit source = .ok statements → session.CalmWhile limit statements

/-- A source that is not accepted has an error. -/
theorem prepare_ne_error_nil (limit : Nat) (source : String) : prepare limit source ≠ .error [] := by
  intro h
  simp only [prepare] at h
  split at h
  · split at h
    · cases h
    · next some =>
      exact some (List.map_eq_nil_iff.mp (Except.error.inj h))
  · next some => exact some (Except.error.inj h)

/-- A source that was run without errors was accepted, and ran to its end. -/
theorem machine_of_run? {now : Float} {fuel : Nat} {source : String} {report : Report}
    (ran : session.run? ⟨limit, now, fuel⟩ source = some (report, middle))
    (clean : report.errors = .ok []) :
    ∃ statements machine, prepare limit source = .ok statements ∧
      (Machine.step ⟨session.natives, limit, now⟩)^[fuel] (.load statements session.store) =
        machine ∧
      machine.isFinal = true ∧ machine.control.interruption? = none ∧
      report.printed = machine.store.printed ∧
      middle = ⟨session.natives, machine.store.takePrinted.2⟩ := by
  cases accepted : prepare limit source with
  | error errors =>
      unfold run? at ran
      dsimp only at ran
      rw [accepted] at ran
      cases ran
      cases clean
      exact absurd accepted (prepare_ne_error_nil limit source)
  | ok statements =>
      rw [run?_of_prepare accepted, Machine.run?_eq] at ran
      refine ⟨statements, _, rfl, rfl, ?_⟩
      generalize (Machine.step ⟨session.natives, limit, now⟩)^[fuel]
        (.load statements session.store) = machine at ran ⊢
      split at ran
      · next final =>
        cases ran
        refine ⟨final, ?_, rfl, rfl⟩
        change LoxLang.Run.errors ⟨machine.store.printed, machine.control.interruption?⟩ = _ at clean
        cases ended : machine.control.interruption? with
        | none => rfl
        | some interruption =>
            rw [ended] at clean
            cases interruption <;> cases clean
      · cases ran

theorem Runs.iterate {statements : List Stmt} {machine : Machine}
    (runs : session.Runs limit statements machine) (now : Float) (steps : Nat) :
    session.Runs limit statements
      ((Machine.step ⟨session.natives, limit, now⟩)^[steps] machine) := by
  induction steps generalizing machine with
  | zero => exact runs
  | succ steps ih => exact ih (runs.step now)

/-- A session does not depend on how its text is cut. Where a source has run without errors and another one is accepted,
both in one text, one below the other, print what they print when they are run one after the other, and
leave the same globals. The errors are the same, but that the lines of the second source are further down by
those of the first: they are the errors that the second source has where it stands on these lines. This holds for
every number of steps, so that one text runs forever if the other does. -/
theorem run_below (after : After programs session) {fuel : Nat} {now : Float}
    {first second : String} {above : Report} {others : List Stmt}
    (ran : session.run? ⟨limit, now, fuel⟩ first = some (above, middle))
    (clean : above.errors = .ok []) (accepted : prepare limit second = .ok others)
    (calm : session.Calm limit first) (calmBelow : middle.Calm limit second)
    (between last : Float) :
    ∃ statements, prepare limit first = .ok statements ∧ ∃ steps, ∀ more,
      Option.Rel
        (Report.Below (1 + first.toList.count '\n') others (statements :: programs) above)
        (middle.run? ⟨limit, between, more⟩ second)
        (session.run? ⟨limit, last, steps + more⟩ (below first second)) ∧
      (session.run? ⟨limit, last, steps + more⟩ (below first second)).map (·.1.errors) =
        (middle.run? ⟨limit, between, more⟩
          (below (blankLines (first.toList.count '\n')) second)).map (·.1.errors) := by
  obtain ⟨statements, machine, prepared, run, final, finished, printed, rfl⟩ :=
    machine_of_run? ran clean
  refine ⟨statements, prepared, ?_⟩
  have uniform := after.uniform
  have afterFirst : After (statements :: programs) ⟨session.natives, machine.store.takePrinted.2⟩ :=
    .run now after (run ▸ Runs.load.iterate now fuel) final
  have echoed := (calm statements prepared).echoed uniform now last
  have belowFirst := prepare_below prepared accepted
  generalize first.toList.count '\n' = lines at belowFirst ⊢
  have belowBlank := prepare_below
    (prepare_blankLines (limit_pos_of_prepare accepted) lines) accepted
  rw [count_blankLines, List.nil_append] at belowBlank
  -- Beside the text as it is, the words of the second one are further down.
  have moved : Node.Varies
      (Respelling.moving (1 + lines) others (statements :: programs)).variation [false]
      (.statements others) (.statements (movedStmts (1 + lines) others)) :=
    varies_moved fun token member =>
      have plain := .inl ⟨member, rfl⟩
      ⟨plain, Respelling.named_of_plain plain⟩
  have stays (program : List Stmt) (member : program ∈ statements :: programs) (token : Token)
      (inside : token ∈ tokensOfStmts program) :
      (Respelling.moving (1 + lines) others (statements :: programs)).plain token token :=
    .inr ⟨⟨program, member, inside⟩, rfl⟩
  obtain ⟨outline, varies⟩ := after.varies fun program member =>
    stays program (List.mem_cons_of_mem _ member)
  obtain ⟨steps, outline, ended, goes⟩ := Machine.run?_append run echoed .load
    ((calmBelow others accepted).echoed uniform between last) .load varies
    (varies_self (stays statements List.mem_cons_self)) moved final finished
  -- Beside the text on the lines that it has below the first one, all words are the same.
  obtain ⟨plainOutline, plainly⟩ := after.varies (r := .same) fun _ _ _ _ => rfl
  obtain ⟨plainOutline', plainly'⟩ := afterFirst.varies (r := .moving (1 + lines) others
    (statements :: programs)) stays
  have calmBlank := (calmBelow others accepted).varies uniform plainly' moved
  obtain ⟨again, sameOutline, endedAgain, goesAgain⟩ := Machine.run?_append run echoed .load
    (calmBlank.echoed uniform between last) .load plainly
    (varies_self fun _ _ => rfl) (varies_self fun _ _ => rfl) final finished
  obtain rfl := ended.unique endedAgain
  refine ⟨steps, fun more => ?_⟩
  rw [run?_of_prepare accepted, run?_of_prepare belowFirst, run?_of_prepare belowBlank]
  constructor
  · exact rel_map (goes more) fun alone whole ⟨_, _, vary⟩ =>
      below_of_varies (printed ▸ vary) _ _
  · have same := goesAgain more
    generalize Machine.run? _ more _ = alone at same ⊢
    generalize Machine.run? _ (steps + more) _ = whole at same ⊢
    cases same with
    | none => rfl
    | some follow =>
        obtain ⟨_, _, vary⟩ := follow
        exact congrArg some (errors_of_varies vary _ _)

/-- A global name and a line to print. -/
def upperSource : String :=
  "var a = \x22x\x22;\nprint a;"

/-- The name is used, and one that there is not. -/
def lowerSource : String :=
  "print a;\nb;"

/-- Runs a source after one that ends without errors. -/
def runAfter? (setting : Setting) (session : Session) (first second : String) :
    Option (Report × Session) :=
  (session.run? setting first).bind fun ran =>
    match ran.1.errors with
    | .ok [] => ran.2.run? setting second
    | _ => none

theorem run_below_undefined :
    ∃ statements others above middle alone steps whole,
      (Session.mk #[] .initial).run? ⟨40, 0, 20⟩ upperSource = some (above, middle) ∧
      middle.run? ⟨40, 0, 20⟩ lowerSource = some alone ∧
      (Session.mk #[] .initial).run? ⟨40, 0, steps + 20⟩ (below upperSource lowerSource) =
        some whole ∧
      Report.Below 2 others [statements] above alone whole := by
  let session : Session := ⟨#[], .initial⟩
  have reaches : (session.runAfter? ⟨40, 0, 20⟩ upperSource lowerSource).isSome = true := by
    decide +kernel
  obtain ⟨alone, reached⟩ := Option.isSome_iff_exists.mp reaches
  obtain ⟨⟨above, middle⟩, ran, goes⟩ := Option.bind_eq_some_iff.mp reached
  dsimp only at goes
  split at goes
  · next clean =>
    have accepted : (prepare 40 lowerSource).toOption.isSome = true := by decide +kernel
    obtain ⟨others, prepared⟩ := Option.isSome_iff_exists.mp accepted
    have natives : middle.natives = #[] := by
      obtain ⟨_, _, _, -, -, -, -, rfl⟩ := machine_of_run? ran clean
      rfl
    have calm : session.Calm 40 upperSource :=
      fun _ _ _ _ _ _ _ _ found => by cases found
    have calmBelow : middle.Calm 40 lowerSource := by
      intro _ _ _ _ _ _ _ _ found
      rw [natives] at found
      cases found
    obtain ⟨statements, -, steps, same⟩ := run_below .new ran clean (eq_ok_of_toOption prepared)
      calm calmBelow 0 0
    obtain ⟨together, -⟩ := same 20
    have lines : upperSource.toList.count '\n' = 1 := by decide +kernel
    rw [goes, lines] at together
    generalize whole_eq : session.run? _ (below upperSource lowerSource) = whole at together
    cases together with
    | some lower =>
        exact ⟨statements, others, above, middle, alone, steps, _, ran, goes, whole_eq, lower⟩
  · cases goes

end Session

end LoxLang
