import LoxLang.Proofs.Expansion.Levels
import LoxLang.Proofs.Expansion.Sessions
import LoxLang.Proofs.Machine.Rounds
import LoxLang.Proofs.Session.Limit

/-!
Loops in a session. A `for` does what the blocks do that it stands for, unless its body ends with a `continue`: then it
still runs its increment, which the blocks pass by.
-/

namespace LoxLang

open Scoping

/-! ## Programs -/

/-- An expansion of a program is marked without errors, too, where the limit leaves room for what it has more. -/
theorem exists_marked_of_expands {limit more : Nat} {program statements expanded : List Stmt}
    (wellFormed : ∀ stmt ∈ program, stmt.WellFormed) (marked : mark? limit program = some ⟨statements, []⟩)
    (expands : Node.Expands True [0] (.statements program) (.statements expanded))
    (levels : stmtsLevels expanded ≤ stmtsLevels program + more) :
    ∃ others, (∀ depth, limit + more ≤ depth → mark? depth expanded = some ⟨others, []⟩) ∧
      (∀ depth found, mark? depth expanded = some found → found = ⟨others, []⟩) ∧
      Node.Expands True [0] (.statements statements) (.statements others) := by
  have room : stmtsLevels expanded < limit + more := by
    have fits := mark?_isSome_iff.mp (Option.isSome_of_mem marked)
    omega
  obtain ⟨⟨others, errors⟩, made⟩ := Option.isSome_iff_exists.mp (mark?_isSome_iff.mpr room)
  obtain ⟨none, both⟩ := expands_of_mark? wellFormed expands marked made
  cases none
  refine ⟨others, fun depth bound => mark?_deepens bound made, fun depth found other => ?_, both⟩
  have deep := mark?_deepens (Nat.le_max_left depth (limit + more)) other
  rw [mark?_deepens (Nat.le_max_right depth (limit + more)) made] at deep
  exact (Option.some.inj deep).symm

/-! ## What is seen -/

def Showing.printed : Showing → Array String
  | .ended report _ => report.printed
  | .going printed => printed

/-- What runs ends with the error that tells that there was no place left. -/
def RunsFull (course : Nat → Showing) : Prop :=
  ∃ fuel report globals, course fuel = .ended report globals ∧ report.errors = .ok Session.overflow

/-- Of two that run, either both end, with the same to show, or neither does, and both print the same forever. -/
structure SeenAlike (course other : Nat → Showing) : Prop where
  ended : ∀ fuel report globals, course fuel = .ended report globals →
    ∃ more, other more = .ended report globals
  ended_of_ended : ∀ fuel report globals, other fuel = .ended report globals →
    ∃ more, course more = .ended report globals
  printed : ∀ fuel, ∃ more, fuel ≤ more ∧ (other more).printed = (course fuel).printed

section

variable {free : Prop} {layout : Layout} {machine other : Machine}

theorem Machine.Expands.texts (h : machine.Expands free layout other) (host host' : Host) :
    (Session.outcome host' other).2.texts = (Session.outcome host machine).2.texts := by
  have same : List.Forall₂ (fun text text' => text' = text)
      ((Session.outcome host machine).2.texts) (Session.outcome host' other).2.texts := by
    refine List.forall₂_map_left_iff.mpr (List.forall₂_map_right_iff.mpr ?_)
    exact h.store.bindings_globals.imp fun _ _ ⟨name, value⟩ => Prod.ext name value.alike.toText
  rw [← List.forall₂_eq_eq_eq]
  exact same.flip

theorem Machine.Expands.report (h : machine.Expands free layout other)
    (calm : ∀ fault, machine.control ≠ .failed (.fault fault)) (host host' : Host) :
    (Session.outcome host' other).1 = (Session.outcome host machine).1 := by
  have told : other.control.interruption? = machine.control.interruption? := by
    cases h with
    | running control _ _ => cases control <;> rfl
    | ended _ => rfl
    | failed interruptions _ =>
        cases interruptions with
        | error => rfl
        | fault => exact absurd rfl (calm _)
  have printed := h.store.printed
  change Report.mk other.store.printed (LoxLang.Run.errors ⟨other.store.printed, _⟩) =
    Report.mk machine.store.printed (LoxLang.Run.errors ⟨machine.store.printed, _⟩)
  rw [told, printed]

end

namespace Session

variable {session : Session} {limit wide fuel : Nat} {now : Float} {statements others : List Stmt}

theorem showing_of_isFinal {machine : Machine}
    (reaches : (Machine.step ⟨session.natives, limit, now⟩)^[fuel] (.load statements session.store) = machine)
    (final : machine.isFinal = true) :
    (session.progressOf ⟨limit, now, fuel⟩ statements).showing =
      .ended (outcome ⟨session.natives, limit, now⟩ machine).1
        (outcome ⟨session.natives, limit, now⟩ machine).2.texts := by
  rw [progressOf_eq]
  dsimp only
  rw [reaches, if_pos final]
  rfl

theorem printed_showing (session : Session) (limit : Nat) (now : Float) (fuel : Nat) (statements : List Stmt) :
    (session.progressOf ⟨limit, now, fuel⟩ statements).showing.printed =
      ((Machine.step ⟨session.natives, limit, now⟩)^[fuel] (.load statements session.store)).store.printed := by
  rw [progressOf_eq]
  dsimp only
  split <;> rfl

theorem isFinal_of_showing {report : Report} {globals : List (String × String)}
    (ended : (session.progressOf ⟨limit, now, fuel⟩ statements).showing = .ended report globals) :
    ((Machine.step ⟨session.natives, limit, now⟩)^[fuel] (.load statements session.store)).isFinal = true := by
  rw [progressOf_eq] at ended
  dsimp only at ended
  split at ended
  · assumption
  · cases ended

theorem runsFull_of_overflowed
    (full : ((Machine.step ⟨session.natives, limit, now⟩)^[fuel] (.load statements session.store)).Overflowed) :
    RunsFull fun fuel => (session.progressOf ⟨limit, now, fuel⟩ statements).showing := by
  obtain ⟨more, report, next, ended, told⟩ := exists_progressOf_of_overflowed full
  exact ⟨more, report, next.texts, congrArg Progress.showing ended, told⟩

theorem seenAlike_of_expands {layout : Layout} (h : session.Expands layout)
    (expands : Node.Expands True [0] (.statements statements) (.statements others))
    (calm : ∀ machine, session.Runs limit statements machine →
      ∀ fault, machine.control ≠ .failed (.fault fault))
    (wide : Nat) (now : Float) :
    RunsFull (fun fuel => (session.progressOf ⟨limit, now, fuel⟩ statements).showing) ∨
      RunsFull (fun fuel => (session.progressOf ⟨wide, now, fuel⟩ others).showing) ∨
      SeenAlike (fun fuel => (session.progressOf ⟨limit, now, fuel⟩ statements).showing)
        (fun fuel => (session.progressOf ⟨wide, now, fuel⟩ others).showing) := by
  let host : Host := ⟨session.natives, limit, now⟩
  let host' : Host := ⟨session.natives, wide, now⟩
  by_cases room : ∃ steps, ((Machine.step host)^[steps] (.load statements session.store)).Overflowed
  · obtain ⟨steps, full⟩ := room
    exact .inl (runsFull_of_overflowed full)
  by_cases room' : ∃ steps, ((Machine.step host')^[steps] (.load others session.store)).Overflowed
  · obtain ⟨steps, full⟩ := room'
    exact .inr (.inl (runsFull_of_overflowed full))
  have shares : host.Shares host' := ⟨rfl, rfl⟩
  have load := expands_load (h.store.mono fun absurd => absurd.elim) expands
  have calmAt (fuel : Nat) := calm _ (Runs.load.iterate now fuel)
  have room := not_exists.mp room
  have room' := not_exists.mp room'
  refine .inr (.inr ⟨fun fuel report globals ended => ?_, fun fuel report globals ended => ?_, fun fuel => ?_⟩)
  · have final := isFinal_of_showing ended
    obtain ⟨more, later, final', last⟩ := Machine.exists_end shares h.natives load room room' final
    refine ⟨more, ?_⟩
    rw [← ended]
    rw [showing_of_isFinal rfl final, showing_of_isFinal rfl final', last.report (calmAt fuel) host host',
      last.texts host host']
  · have final' := isFinal_of_showing ended
    obtain ⟨fewer, later, final, last⟩ := Machine.exists_end_of_final shares h.natives load room room' final'
    refine ⟨fewer, ?_⟩
    rw [← ended]
    rw [showing_of_isFinal rfl final, showing_of_isFinal rfl final', last.report (calmAt fewer) host host',
      last.texts host host']
  · obtain ⟨more, later, -, last⟩ := Machine.iterate_expands shares h.natives load room room' fuel
    refine ⟨fuel + more, Nat.le_add_right fuel more, ?_⟩
    rw [printed_showing, printed_showing]
    exact last.store.printed

theorem seenAlike_of_accepted {natives : List Native} (honest : ∀ native ∈ natives, native.Sound)
    (indifferent : ∀ native ∈ natives, native.Indifferent) {programs : List (List Stmt)}
    (reached : Reached natives programs session) {source : String}
    (accepted : prepare limit source = .ok statements)
    (expands : Node.Expands True [0] (.statements statements) (.statements others)) (wide : Nat)
    (now : Float) :
    RunsFull (fun fuel => (session.progress ⟨limit, now, fuel⟩ source).showing) ∨
      RunsFull (fun fuel => (session.progressOf ⟨wide, now, fuel⟩ others).showing) ∨
      SeenAlike (fun fuel => (session.progress ⟨limit, now, fuel⟩ source).showing)
        (fun fuel => (session.progressOf ⟨wide, now, fuel⟩ others).showing) := by
  obtain ⟨layout, h⟩ := reached.expands indifferent
  obtain ⟨sound, before⟩ := reached.sound honest
  have faultless (machine : Machine) (runs : session.Runs limit statements machine) :=
    no_fault_of_sound (runs.sound sound (accepted_cons accepted before))
  simp only [progress_eq_progressOf accepted]
  exact seenAlike_of_expands h expands faultless wide now

/-- A `for` means what it is spelled out to. Where the blocks that it stands for take its place in a program, and no
`continue` passes the increment by, the program is marked without errors again, and whatever it is run in, the same
lines are printed, the same errors told and the same globals left, unless one of the two runs out of places. And
whatever the body of a loop, its increment is run once, and at once, after each round that ends normally or by
`continue`, and then its condition is tested; after any other round neither is. -/
theorem for_spelled {natives : List Native} (honest : ∀ native ∈ natives, native.Sound)
    (indifferent : ∀ native ∈ natives, native.Indifferent) {programs : List (List Stmt)}
    (reached : Reached natives programs session) {source : String}
    (accepted : prepare limit source = .ok statements) {initializer : Option Stmt}
    {condition increment : Option Expr} {body : Stmt} {expanded : List Stmt}
    (replaces : Node.Replaces (Grammar.forLoop initializer condition increment body)
      (Grammar.spelledLoop initializer condition increment body)
      (.statements (Program.ofTokens limit (Tokens.ofText source).tokens).statements) (.statements expanded)) :
    (body.continues = false → ∃ others,
      (∀ depth, limit + 5 ≤ depth → mark? depth expanded = some ⟨others, []⟩) ∧
      (∀ depth found, mark? depth expanded = some found → found = ⟨others, []⟩) ∧
      ∀ wide now,
        RunsFull (fun fuel => (session.progress ⟨limit, now, fuel⟩ source).showing) ∨
          RunsFull (fun fuel => (session.progressOf ⟨wide, now, fuel⟩ others).showing) ∨
          SeenAlike (fun fuel => (session.progress ⟨limit, now, fuel⟩ source).showing)
            (fun fuel => (session.progressOf ⟨wide, now, fuel⟩ others).showing)) ∧
    ∀ host (test next : Expr) (round : Stmt) frames scope height store,
      let events (fuel : Nat) := Machine.loopEvents host frames.length fuel (Machine.step host
        ⟨.exec (.while test round (some next)), frames, scope, height, store⟩)
      (∀ fuel, (.increment next :: events fuel).IsChain (LoopEvent.Leads test next)) ∧
        ∀ fuel completion, completion.GoesOn → (events fuel).getLast? = some (.round completion) →
          events (fuel + 1) = events fuel ++ [.increment next] := by
  refine ⟨fun calm => ?_, fun host test next round frames scope height store => ?_⟩
  · obtain ⟨-, program, read, marked⟩ := prepare_eq_ok_iff.mp accepted
    have wellFormed := Program.wellFormed_ofTokens limit (Tokens.spelled_ofText source)
    have expands := replaces.expands wellFormed (fun well => expands_forLoop well calm) []
    have levels := replaces.levels (levels_spelledLoop initializer condition increment body)
    rw [read] at wellFormed expands levels
    obtain ⟨others, deep, only, both⟩ := exists_marked_of_expands wellFormed marked expands levels
    refine ⟨others, deep, only, fun wide now => ?_⟩
    exact seenAlike_of_accepted honest indifferent reached accepted both wide now
  · have after := Machine.after_exec host test next round frames scope height store
    refine ⟨after.isChain_loopEvents host, fun fuel completion goesOn last => ?_⟩
    refine after.loopEvents_succ_of_goesOn goesOn ?_
    rw [List.getLast?_cons, last]
    rfl

/-- A loop with all its clauses, and its name, condition and increment. -/
def onceSource : String :=
  "for (var a; !a; a = true) print a;"

def onceName : NameUse :=
  ⟨⟨.identifier, "a", .none, 1⟩, none⟩

def onceCondition : Expr :=
  .unary ⟨.bang, "!", .none, 1⟩ (.variable onceName)

def onceIncrement : Expr :=
  .assign onceName (.literal (.bool true))

theorem tokens_onceSource : (Tokens.ofText onceSource).tokens =
    [⟨.for, "for", .none, 1⟩, ⟨.leftParen, "(", .none, 1⟩, ⟨.var, "var", .none, 1⟩, onceName.name,
      ⟨.semicolon, ";", .none, 1⟩, ⟨.bang, "!", .none, 1⟩, onceName.name, ⟨.semicolon, ";", .none, 1⟩,
      onceName.name, ⟨.equal, "=", .none, 1⟩, ⟨.true, "true", .none, 1⟩, ⟨.rightParen, ")", .none, 1⟩,
      ⟨.print, "print", .none, 1⟩, onceName.name, ⟨.semicolon, ";", .none, 1⟩, .final 1] := by
  decide +kernel

theorem for_spelled_once :
    ∃ statements others, prepare 40 onceSource = .ok statements ∧
      mark? 45 [.block [.var onceName.name none, .while onceCondition
        (.block [.print (.variable onceName), .expression onceIncrement]) none]] = some ⟨others, []⟩ ∧
      ∀ now,
        RunsFull (fun fuel => ((start []).progress ⟨40, now, fuel⟩ onceSource).showing) ∨
          RunsFull (fun fuel => ((start []).progressOf ⟨45, now, fuel⟩ others).showing) ∨
          SeenAlike (fun fuel => ((start []).progress ⟨40, now, fuel⟩ onceSource).showing)
            (fun fuel => ((start []).progressOf ⟨45, now, fuel⟩ others).showing) := by
  have replaces : Node.Replaces
      (Grammar.forLoop (some (.var onceName.name none)) (some onceCondition) (some onceIncrement)
        (.print (.variable onceName)))
      (Grammar.spelledLoop (some (.var onceName.name none)) (some onceCondition) (some onceIncrement)
        (.print (.variable onceName)))
      (.statements (Program.ofTokens 40 (Tokens.ofText onceSource).tokens).statements)
      (.statements [Grammar.spelledLoop (some (.var onceName.name none)) (some onceCondition)
        (some onceIncrement) (.print (.variable onceName))]) := by
    rw [tokens_onceSource]
    exact .head .here
  have accepted : (prepare 40 onceSource).toBool = true := by decide +kernel
  cases prepared : prepare 40 onceSource with
  | error errors =>
      rw [prepared] at accepted
      cases accepted
  | ok statements =>
      have spelled := for_spelled (List.forall_mem_nil _) (List.forall_mem_nil _) .start prepared replaces
      obtain ⟨others, deep, -, alike⟩ := spelled.1 rfl
      exact ⟨statements, others, rfl, deep 45 (Nat.le_refl 45), fun now => alike 45 now⟩

end Session

end LoxLang
