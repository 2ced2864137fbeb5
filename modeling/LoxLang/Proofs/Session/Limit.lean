import LoxLang.Proofs.Limit.Marking
import LoxLang.Proofs.Limit.Reading
import LoxLang.Proofs.Limit.Running
import LoxLang.Proofs.Session.Joining
import LoxLang.Proofs.Session.Progress

/-!
The limit in a session. How deep programs and calls may nest is noticed only when it is exceeded: sources that never
report that do the same, step by step, under every wider limit.
-/

namespace LoxLang

open Scoping

/-- An error that tells that the limit was exceeded. -/
def Error.Exhausts (error : Error) : Prop :=
  error.diagnostic.message = "Too much nesting." ∨ error.diagnostic.message = "Stack overflow."

def Report.Exhausts (report : Report) : Prop :=
  ∃ errors, report.errors = .ok errors ∧ ∃ error ∈ errors, error.Exhausts

/-! ## Accepting -/

/-- Unless a source nests too deeply it is accepted or rejected alike under a wider limit. -/
theorem prepare_widens {limit wide : Nat} (bound : limit ≤ wide) (source : String) :
    (∃ errors, prepare limit source = .error errors ∧ ∃ error ∈ errors, error.Exhausts) ∨
      prepare wide source = prepare limit source := by
  unfold prepare
  dsimp only
  generalize Tokens.ofText source = tokens
  rcases Program.ofTokens_deepens bound tokens.tokens with ⟨found, member, nesting⟩ | same
  · left
    have mapped := List.mem_map_of_mem (f := Error.grammar) member
    cases all : tokens.errors.map Error.scan ++
        (Program.ofTokens limit tokens.tokens).errors.map Error.grammar with
    | nil =>
        rw [(List.append_eq_nil_iff.mp all).2] at mapped
        cases mapped
    | cons first rest =>
        refine ⟨first :: rest, rfl, .grammar found, ?_, .inl ?_⟩
        · rw [← all]
          exact List.mem_append_right _ mapped
        · change found.cause.message = _
          rw [nesting]
          rfl
  · rw [same]
    cases tokens.errors.map Error.scan ++
        (Program.ofTokens limit tokens.tokens).errors.map Error.grammar with
    | cons first rest => exact .inr rfl
    | nil =>
        dsimp only
        rcases mark_deepens bound tokens.final (Program.ofTokens limit tokens.tokens).statements
          with ⟨found, member, nesting⟩ | same
        · left
          generalize (mark limit tokens.final _).errors = errors at member ⊢
          cases errors with
          | nil => cases member
          | cons first rest =>
              refine ⟨(first :: rest).map .resolution, rfl, .resolution found,
                List.mem_map_of_mem member, .inl ?_⟩
              change found.cause.message = _
              rw [nesting]
              rfl
        · rw [same]
          exact .inr rfl

/-! ## Running -/

/-- A source that has come to its end without exceeding the limit. -/
def Progress.isCalm : Progress → Bool
  | .ended report _ =>
      match report.errors with
      | .ok errors => errors.all fun error =>
          error.diagnostic.message ≠ "Too much nesting." ∧
            error.diagnostic.message ≠ "Stack overflow."
      | .error _ => true
  | .going _ => false

theorem Progress.ended_of_isCalm {progress : Progress} (calm : progress.isCalm = true) :
    ∃ report next, progress = .ended report next ∧ ¬ report.Exhausts := by
  cases progress with
  | going printed => cases calm
  | ended report next =>
      refine ⟨report, next, rfl, ?_⟩
      rintro ⟨errors, told, error, member, exhausts⟩
      rw [isCalm, told] at calm
      have other := of_decide_eq_true (List.all_eq_true.mp calm error member)
      rcases exhausts with nesting | overflow
      · exact other.1 nesting
      · exact other.2 overflow

namespace Session

/-- No native whose answer depends on the time is called, whichever of the sources is running. -/
def CalmAlong (limit : Nat) (session : Session) : List String → Prop
  | [] => True
  | source :: rest => session.Calm limit source ∧ ∀ now fuel report next,
      session.progress ⟨limit, now, fuel⟩ source = .ended report next → next.CalmAlong limit rest

variable {session next : Session} {limit wide fuel more : Nat} {now : Float} {source : String}
  {report : Report}

theorem not_exhausts_of_all_isCalm {sources : List String}
    (calm : (session.proceed (Setting.each ⟨limit, now, fuel⟩ sources)).all Progress.isCalm = true) (more : Nat)
    (report : Report) (next : Session)
    (member : .ended report next ∈ session.proceed (Setting.each ⟨limit, now, more⟩ sources)) :
    ¬ report.Exhausts := by
  have all := List.all_eq_true.mp calm
  have same := proceed_of_le (Nat.le_max_left fuel more) fun progress member => by
    obtain ⟨report, next, same, -⟩ := Progress.ended_of_isCalm (all progress member)
    exact ⟨report, next, same⟩
  have later := mem_proceed_of_le (Nat.le_max_right fuel more) member
  rw [same] at later
  obtain ⟨_, _, ended, quiet⟩ := Progress.ended_of_isCalm (all _ later)
  cases ended
  exact quiet

/-- Without natives nothing depends on the time. -/
theorem calmAlong_of_natives_eq (none : session.natives = #[]) (limit : Nat)
    (sources : List String) : session.CalmAlong limit sources := by
  induction sources generalizing session with
  | nil => trivial
  | cons source rest ih =>
      refine ⟨fun statements accepted machine runs index arguments native calls found => ?_,
        fun now fuel report next ended => ih ?_⟩
      · rw [none] at found
        cases found
      · cases prepared : prepare limit source with
        | error errors =>
            rw [progress_of_error prepared] at ended
            cases ended
            exact none
        | ok statements =>
            rw [progress_of_ok prepared] at ended
            dsimp only at ended
            split at ended
            · cases ended
              exact none
            · cases ended

/-! ## Running out of places -/

/-- The error with which a program ends that has run out of places. -/
def overflow : List Error :=
  [.runtime ⟨.stackOverflow, none⟩]

theorem errors_of_overflowed {machine : Machine} (full : machine.Overflowed) (host : Host) :
    (outcome host machine).1.errors = .ok overflow := by
  change LoxLang.Run.errors ⟨_, machine.control.interruption?⟩ = _
  rw [full]
  rfl

/-- When a machine has run out of places, its statements end with the error that tells so, and no other. -/
theorem exists_progressOf_of_overflowed {statements : List Stmt}
    (full : ((Machine.step ⟨session.natives, limit, now⟩)^[fuel]
      (.load statements session.store)).Overflowed) :
    ∃ more report next, session.progressOf ⟨limit, now, more⟩ statements = .ended report next ∧
      report.errors = .ok overflow := by
  let host : Host := ⟨session.natives, limit, now⟩
  obtain ⟨later, final⟩ : ∃ later, ((Machine.step host)^[later] ((Machine.step host)^[fuel]
      (.load statements session.store))).isFinal = true := by
    generalize (Machine.step host)^[fuel] (.load statements session.store) = machine at full
    obtain ⟨control, frames, scope, height, store⟩ := machine
    cases full
    obtain ⟨last, lowest, dropped⟩ :=
      Machine.exists_dropped host .stackOverflow frames scope height store
    exact ⟨_, by rw [dropped]; rfl⟩
  have last := Machine.interruption?_iterate full host later
  rw [← Function.iterate_add_apply] at final last
  have ended := progressOf_eq session limit now (later + fuel) statements
  dsimp only at ended
  rw [if_pos final] at ended
  exact ⟨_, _, _, ended, errors_of_overflowed last host⟩

theorem exists_progress_of_overflowed {statements : List Stmt}
    (accepted : prepare limit source = .ok statements)
    (full : ((Machine.step ⟨session.natives, limit, now⟩)^[fuel]
      (.load statements session.store)).Overflowed) :
    ∃ more report next, session.progress ⟨limit, now, more⟩ source = .ended report next ∧
      report.errors = .ok overflow := by
  obtain ⟨more, report, next, ended, told⟩ := exists_progressOf_of_overflowed full
  exact ⟨more, report, next, (progress_eq_progressOf accepted now more).trans ended, told⟩

theorem exhausts_of_overflow (told : report.errors = .ok overflow) : report.Exhausts :=
  ⟨_, told, _, List.mem_singleton_self _, .inr rfl⟩

/-! ## Wider limits -/

theorem progress_widens (bound : limit ≤ wide) (calm : session.Calm limit source)
    (never : ∀ fuel report next,
      session.progress ⟨limit, now, fuel⟩ source = .ended report next → ¬ report.Exhausts)
    (fuel : Nat) (later : Float) :
    session.progress ⟨wide, later, fuel⟩ source = session.progress ⟨limit, now, fuel⟩ source := by
  rcases prepare_widens bound source with ⟨errors, rejected, exhausts⟩ | same
  · exact absurd ⟨errors, rfl, exhausts⟩ (never 0 _ _ (progress_of_error rejected now 0))
  cases prepared : prepare limit source with
  | error errors =>
      rw [prepared] at same
      rw [progress_of_error same, progress_of_error prepared]
  | ok statements =>
      rw [prepared] at same
      have widens : Host.Widens ⟨session.natives, limit, now⟩ ⟨session.natives, wide, later⟩ :=
        ⟨rfl, bound⟩
      rcases Machine.iterate_widens widens (session.Runs limit statements)
          (fun machine runs => runs.step now)
          (fun machine runs index arguments native calls found =>
            calm statements prepared machine runs index arguments native calls found now later
              arguments) .load fuel with full | alike
      · obtain ⟨more, report, next, ended, told⟩ := exists_progress_of_overflowed prepared full
        exact absurd (exhausts_of_overflow told) (never more report next ended)
      · rw [progress_of_ok same, progress_of_ok prepared]
        dsimp only
        rw [alike]
        rfl

theorem proceed_widens (bound : limit ≤ wide) {sources : List String}
    (calm : session.CalmAlong limit sources)
    (never : ∀ fuel report next,
      .ended report next ∈ session.proceed (Setting.each ⟨limit, now, fuel⟩ sources) → ¬ report.Exhausts)
    (fuel : Nat) (later : Float) :
    session.proceed (Setting.each ⟨wide, later, fuel⟩ sources) =
      session.proceed (Setting.each ⟨limit, now, fuel⟩ sources) := by
  induction sources generalizing session with
  | nil => rfl
  | cons source rest ih =>
      obtain ⟨calmFirst, calmRest⟩ := calm
      have first (fuel : Nat) (report : Report) (next : Session)
          (ended : session.progress ⟨limit, now, fuel⟩ source = .ended report next) :
          ¬ report.Exhausts := by
        refine never fuel report next ?_
        rw [Setting.each_cons, proceed_of_ended ended]
        exact List.mem_cons_self
      rw [Setting.each_cons, Setting.each_cons, proceed, proceed,
        progress_widens bound calmFirst first fuel later]
      cases ended : session.progress ⟨limit, now, fuel⟩ source with
      | going printed => rfl
      | ended report next =>
          refine congrArg _ (ih (calmRest now fuel report next ended) fun more told last member => ?_)
          -- What the rest shows after some steps it shows, at the latest, where the first source has ended.
          refine never (fuel + more) told last ?_
          rw [Setting.each_cons, proceed_of_ended (progress_of_le (Nat.le_add_right fuel more) ended)]
          exact List.mem_cons_of_mem _ (mem_proceed_of_le (Nat.le_add_left more fuel) member)

/-- The limit is noticed only when it is exceeded. Where no source of a session ever reports that it nests too deeply
or that the stack has overflowed, all sources do the same under every wider limit: after each number of steps they have
come as far, with the same lines printed, the same errors and the same session, its globals included. And nothing hides
that a running program has exceeded the limit: it ends with this error. -/
theorem wider_limit_unnoticed (bound : limit ≤ wide) {sources : List String}
    (calm : session.CalmAlong limit sources)
    (never : ∀ fuel report next,
      .ended report next ∈ session.proceed (Setting.each ⟨limit, now, fuel⟩ sources) → ¬ report.Exhausts) :
    (∀ fuel later,
      session.proceed (Setting.each ⟨wide, later, fuel⟩ sources) =
        session.proceed (Setting.each ⟨limit, now, fuel⟩ sources)) ∧
    ∀ (session : Session) source statements fuel, prepare limit source = .ok statements →
      ((Machine.step ⟨session.natives, limit, now⟩)^[fuel]
        (.load statements session.store)).Overflowed →
      ∃ more report next, session.progress ⟨limit, now, more⟩ source = .ended report next ∧
        report.errors = .ok overflow :=
  ⟨proceed_widens bound calm never, fun _ _ _ _ => exists_progress_of_overflowed⟩

/-- A function that calls another one, and a name that there is not. -/
def nestedSources : List String :=
  ["fun f()\x7bprint \x22a\x22;\x7d fun g()\x7bf();\x7d", "g(); b;"]

theorem wider_limit_unnoticed_calls :
    ((Session.mk #[] .initial).proceed (Setting.each ⟨30, 0, 60⟩ nestedSources)).all Progress.isCalm = true ∧
      (Session.mk #[] .initial).proceed (Setting.each ⟨20000, 1, 60⟩ nestedSources) =
        (Session.mk #[] .initial).proceed (Setting.each ⟨30, 0, 60⟩ nestedSources) := by
  have calm : ((Session.mk #[] .initial).proceed (Setting.each ⟨30, 0, 60⟩ nestedSources)).all
      Progress.isCalm = true := by
    decide +kernel
  have never := not_exhausts_of_all_isCalm calm
  have calmAlong : CalmAlong 30 ⟨#[], .initial⟩ nestedSources :=
    calmAlong_of_natives_eq rfl 30 nestedSources
  have unnoticed := wider_limit_unnoticed (show 30 ≤ 20000 by decide) calmAlong never
  exact ⟨calm, unnoticed.1 60 1⟩

end Session

end LoxLang
