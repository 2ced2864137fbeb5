import LoxLang.CommandLine.Basic
import LoxLang.Proofs.Session.Joining
import LoxLang.Proofs.Session.Progress

/-!
The stages of a source. A source is read, then its scopes are resolved, then it runs, and only errors of one of these
come up. A source that is rejected before it runs shows nothing else and leaves the session as it was, so that the
other sources of the session do what they do without it.
-/

namespace LoxLang

open CommandLine

/-- What is done with a source, in this order. -/
inductive Stage where
  | text
  | scopes
  | run

def Error.stage : Error → Stage
  | .scan _ | .grammar _ => .text
  | .resolution _ => .scopes
  | .runtime _ => .run

/-- How a source ends: its text has errors, or its scopes have, or it runs and ends with an error or without one. -/
inductive Verdict where
  | misread (scanned : List ScanError) (parsed : List SyntaxError)
  | misscoped (errors : List ResolutionError)
  | failed (error : RuntimeError)
  | completed

namespace Verdict

def errors : Verdict → List Error
  | .misread scanned parsed => scanned.map .scan ++ parsed.map .grammar
  | .misscoped errors => errors.map .resolution
  | .failed error => [.runtime error]
  | .completed => []

/-- A rejected source has at least one error. -/
def Proper : Verdict → Prop
  | .misread scanned parsed => scanned ≠ [] ∨ parsed ≠ []
  | .misscoped errors => errors ≠ []
  | .failed _ | .completed => True

/-- The stage at which the source ends early. -/
def stage? : Verdict → Option Stage
  | .misread .. => some .text
  | .misscoped _ => some .scopes
  | .failed _ => some .run
  | .completed => none

/-- Whether the source is rejected before it runs. -/
def isStatic : Verdict → Bool
  | .misread .. | .misscoped _ => true
  | .failed _ | .completed => false

def status : Verdict → Nat
  | .misread .. | .misscoped _ => 65
  | .failed _ => 70
  | .completed => 0

/-- The errors are all those of one stage, and the stages before it have none. -/
def Stems (limit : Nat) (source : String) : Verdict → Prop
  | .misread scanned parsed =>
      scanned = (Tokens.ofText source).errors ∧
        parsed = (Program.ofTokens limit (Tokens.ofText source).tokens).errors
  | .misscoped errors =>
      ∃ program, (Tokens.ofText source).errors = [] ∧
        Program.ofTokens limit (Tokens.ofText source).tokens = ⟨program, []⟩ ∧
        errors = (Scoping.mark limit (Tokens.ofText source).final program).errors
  | .failed _ | .completed => ∃ statements, prepare limit source = .ok statements

/-- What a source shows is what the verdict tells. -/
structure Explains (verdict : Verdict) (report : Report) : Prop where
  proper : verdict.Proper
  errors : report.errors = .ok verdict.errors

/-! ## Only one verdict -/

theorem misread_inj {scanned scanned' : List ScanError} {parsed parsed' : List SyntaxError}
    (same : (misread scanned parsed).errors = (misread scanned' parsed').errors) :
    misread scanned parsed = misread scanned' parsed' := by
  have grammar : Function.Injective Error.grammar := by
    intro _ _ same
    exact Error.grammar.inj same
  induction scanned generalizing scanned' with
  | nil =>
      cases scanned' with
      | nil => rw [List.map_injective_iff.mpr grammar same]
      | cons => cases parsed <;> cases same
  | cons first rest ih =>
      cases scanned' with
      | nil => cases parsed' <;> cases same
      | cons first' rest' =>
          obtain ⟨head, tail⟩ := List.cons.inj same
          cases Error.scan.inj head
          cases ih tail
          rfl

theorem stage_of_mem {verdict : Verdict} {error : Error} (member : error ∈ verdict.errors) :
    verdict.stage? = some error.stage := by
  cases verdict with
  | misread scanned parsed =>
      rcases List.mem_append.mp member with member | member <;>
        (obtain ⟨found, -, rfl⟩ := List.mem_map.mp member; rfl)
  | misscoped found =>
      obtain ⟨found, -, rfl⟩ := List.mem_map.mp member
      rfl
  | failed found =>
      cases List.mem_singleton.mp member
      rfl
  | completed => cases member

/-- All errors come from one stage, and the first of them tells which. -/
theorem stage?_eq {verdict : Verdict} (proper : verdict.Proper) :
    verdict.stage? = verdict.errors.head?.map Error.stage := by
  cases first : verdict.errors.head? with
  | some error => exact stage_of_mem (List.mem_of_head? first)
  | none =>
      rw [List.head?_eq_none_iff] at first
      cases verdict with
      | misread scanned parsed =>
          obtain ⟨noneScanned, noneParsed⟩ := List.append_eq_nil_iff.mp first
          rcases proper with some | some
          · exact absurd (List.map_eq_nil_iff.mp noneScanned) some
          · exact absurd (List.map_eq_nil_iff.mp noneParsed) some
      | misscoped found => exact absurd (List.map_eq_nil_iff.mp first) proper
      | failed found => cases first
      | completed => rfl

/-- Different verdicts tell different errors. -/
theorem eq_of_errors {verdict other : Verdict} (proper : verdict.Proper) (otherProper : other.Proper)
    (same : verdict.errors = other.errors) : verdict = other := by
  have stages := stage?_eq proper
  rw [same, ← stage?_eq otherProper] at stages
  cases verdict <;> cases other <;> try cases stages
  · exact misread_inj same
  · have resolution : Function.Injective Error.resolution := by
      intro _ _ same
      exact Error.resolution.inj same
    rw [List.map_injective_iff.mpr resolution same]
  · cases same
    rfl
  · rfl

theorem errors_ne_nil {verdict : Verdict} (proper : verdict.Proper) (static : verdict.isStatic = true) :
    verdict.errors ≠ [] := by
  intro none
  have stage := stage?_eq proper
  rw [none] at stage
  cases verdict with
  | misread | misscoped => cases stage
  | failed | completed => cases static

/-- A script exits with the status of its verdict. -/
theorem status_ofErrors {verdict : Verdict} (proper : verdict.Proper) :
    Status.ofErrors verdict.errors = verdict.status := by
  have static (static : verdict.isStatic = true) : Status.ofErrors verdict.errors = 65 := by
    have some := errors_ne_nil proper static
    have notRun (error : Error) (member : error ∈ verdict.errors) : error.stage ≠ .run := by
      intro run
      have stage := stage_of_mem member
      rw [run] at stage
      cases verdict with
      | misread | misscoped => cases stage
      | failed | completed => cases static
    generalize verdict.errors = errors at some notRun
    cases errors with
    | nil => exact absurd rfl some
    | cons first rest =>
        refine if_neg ?_
        rw [List.any_eq_true]
        rintro ⟨error, member, runs⟩
        cases error with
        | runtime found => exact notRun _ member rfl
        | scan _ | grammar _ | resolution _ => cases runs
  cases verdict with
  | failed | completed => rfl
  | misread | misscoped => exact static rfl

end Verdict

/-! ## Rejected sources -/

/-- Whether a source is run at all. -/
def accepts (limit : Nat) (source : String) : Bool :=
  (prepare limit source).isOk

theorem accepts_eq_true_iff {limit : Nat} {source : String} :
    accepts limit source = true ↔ ∃ statements, prepare limit source = .ok statements := by
  unfold accepts
  cases prepare limit source with
  | error errors => simp [Except.isOk, Except.toBool]
  | ok statements => exact ⟨fun _ => ⟨statements, rfl⟩, fun _ => rfl⟩

/-- A source that is not run has errors of its text or, if there are none, errors of its scopes. -/
theorem exists_verdict_of_error {limit : Nat} {source : String} {errors : List Error}
    (rejected : prepare limit source = .error errors) :
    ∃ verdict : Verdict, verdict.isStatic = true ∧ verdict.Proper ∧ verdict.Stems limit source ∧
      verdict.errors = errors := by
  have some : errors ≠ [] := by
    rintro rfl
    exact Session.prepare_ne_error_nil limit source rejected
  unfold prepare at rejected
  dsimp only at rejected
  split at rejected
  · next none =>
    obtain ⟨noneScanned, noneParsed⟩ := List.append_eq_nil_iff.mp none
    split at rejected
    · cases rejected
    · cases rejected
      refine ⟨.misscoped _, rfl, fun nothing => some ?_, ⟨_, List.map_eq_nil_iff.mp noneScanned, ?_, rfl⟩, rfl⟩
      · rw [nothing]
        rfl
      · rw [← List.map_eq_nil_iff.mp noneParsed]
  · cases rejected
    refine ⟨.misread _ _, rfl, ?_, ⟨rfl, rfl⟩, rfl⟩
    by_contra nothing
    rw [Verdict.Proper, not_or, not_not, not_not] at nothing
    apply some
    rw [nothing.1, nothing.2]
    rfl

namespace Session

variable {session next : Session} {limit : Nat} {source : String} {report : Report}
  {rest : List (Setting × String)}

/-- Whatever a source shows that has come to its end, exactly one verdict explains it. -/
theorem exists_verdict_of_run? {setting : Setting}
    (ran : session.run? setting source = some (report, next))
    (sound : ∃ errors, report.errors = .ok errors) :
    ∃ verdict : Verdict, verdict.Explains report ∧ verdict.Stems setting.depthLimit source ∧
      (verdict.isStatic = true → report.printed = #[] ∧ next = session) := by
  obtain ⟨limit, now, fuel⟩ := setting
  cases prepared : prepare limit source with
  | error errors =>
      rw [← progress_eq_ended_iff, progress_of_error prepared] at ran
      cases ran
      obtain ⟨verdict, -, proper, stems, rfl⟩ := exists_verdict_of_error prepared
      exact ⟨verdict, ⟨proper, rfl⟩, stems, fun _ => ⟨rfl, rfl⟩⟩
  | ok statements =>
      rw [run?_of_prepare prepared] at ran
      obtain ⟨machine, -, ended⟩ := Option.map_eq_some_iff.mp ran
      cases ended
      obtain ⟨errors, told⟩ := sound
      change LoxLang.Run.errors ⟨_, machine.control.interruption?⟩ = _ at told
      cases interrupted : machine.control.interruption? with
      | none =>
          exact ⟨.completed, ⟨trivial, rfl⟩, ⟨statements, prepared⟩, by rintro ⟨⟩⟩
      | some interruption =>
          cases interruption with
          | fault fault =>
              rw [interrupted] at told
              cases told
          | error found =>
              exact ⟨.failed found, ⟨trivial, rfl⟩, ⟨statements, prepared⟩, by rintro ⟨⟩⟩

/-! ## Leaving sources out -/

/-- The session after sources that have come so far, if all have come to their ends. -/
def finish? (session : Session) : List Progress → Option Session
  | [] => some session
  | .ended _ next :: rest => next.finish? rest
  | .going _ :: _ => none

/-- Whether a source is run at all under its setting. -/
def runs (entry : Setting × String) : Bool :=
  accepts entry.1.depthLimit entry.2

/-- How far those sources have come that are run. -/
def proceedRun (session : Session) (entries : List (Setting × String)) : List Progress :=
  ((entries.zip (session.proceed entries)).filter fun entry => runs entry.1).map Prod.snd

theorem progress_of_not_accepts {setting : Setting}
    (rejected : accepts setting.depthLimit source = false) :
    ∃ report, session.progress setting source = .ended report session := by
  obtain ⟨limit, now, fuel⟩ := setting
  cases prepared : prepare limit source with
  | error errors => exact ⟨_, progress_of_error prepared now fuel⟩
  | ok statements =>
      rw [accepts_eq_true_iff.mpr ⟨statements, prepared⟩] at rejected
      cases rejected

/-- Sources that are not run can be left out. -/
theorem proceed_filter (entries : List (Setting × String)) :
    session.proceed (entries.filter runs) = session.proceedRun entries := by
  induction entries generalizing session with
  | nil => rfl
  | cons entry rest ih =>
      obtain ⟨setting, source⟩ := entry
      cases accepted : runs (setting, source) with
      | true =>
          rw [List.filter_cons_of_pos accepted, proceedRun]
          cases first : session.progress setting source with
          | going printed =>
              rw [proceed_of_going first, proceed_of_going first]
              simp [accepted]
          | ended report next =>
              rw [proceed_of_ended first, proceed_of_ended first, ih, proceedRun]
              simp [accepted]
      | false =>
          obtain ⟨report, first⟩ : ∃ report, session.progress setting source = .ended report session :=
            progress_of_not_accepts accepted
          rw [List.filter_cons_of_neg (by rw [accepted]; decide), proceedRun, proceed_of_ended first, ih,
            proceedRun]
          simp [accepted]

theorem finish?_filter (entries : List (Setting × String)) :
    session.finish? (session.proceed (entries.filter runs)) =
      session.finish? (session.proceed entries) := by
  induction entries generalizing session with
  | nil => rfl
  | cons entry rest ih =>
      obtain ⟨setting, source⟩ := entry
      cases accepted : runs (setting, source) with
      | true =>
          rw [List.filter_cons_of_pos accepted]
          cases first : session.progress setting source with
          | going printed => rw [proceed_of_going first, proceed_of_going first]
          | ended report next =>
              rw [proceed_of_ended first, proceed_of_ended first]
              exact ih
      | false =>
          obtain ⟨report, first⟩ : ∃ report, session.progress setting source = .ended report session :=
            progress_of_not_accepts accepted
          rw [List.filter_cons_of_neg (by rw [accepted]; decide), proceed_of_ended first]
          exact ih

/-! ## The command line -/

/-- What the prompt writes while it answers lines, and the errors, if all lines come to their ends. -/
def transcript? (paint : Painting) : List Progress → Option (String × String)
  | [] => some (promptMark ++ "\n", "")
  | .ended ⟨printed, .ok found⟩ _ :: rest =>
      (transcript? paint rest).map fun (output, errors) =>
        (promptMark ++ printedText printed ++ output, displayAll paint found ++ errors)
  | _ => none

def prompted (written : String × String) : Outcome :=
  ⟨written.1, written.2, .exit Status.ok⟩

theorem answerLines?_eq {natives : List Native} (honest : ∀ native ∈ natives, native.Sound)
    {programs : List (List Stmt)} (reached : Reached natives programs session) (paint : Painting) (setting : Setting)
    (output errors : String) (lines : List String) :
    answerLines? paint setting session output errors lines =
      (transcript? paint (session.proceed (setting.each lines))).map fun written =>
        ⟨output ++ written.1, errors ++ written.2, .exit Status.ok⟩ := by
  induction lines generalizing session programs output errors with
  | nil => simp [answerLines?, proceed, transcript?, String.append_assoc]
  | cons line rest ih =>
      rw [answerLines?, Setting.each_cons]
      cases first : session.progress setting line with
      | going printed =>
          rw [proceed_of_going first, run?_of_going first]
          rfl
      | ended report next =>
          rw [proceed_of_ended first]
          have ran := progress_eq_ended_iff.mp first
          obtain ⟨⟨found, told⟩, later, reachedNext⟩ :=
            reached.run? honest ran
          obtain ⟨printed, errors⟩ := report
          cases told
          rw [ran, transcript?]
          dsimp only
          rw [ih reachedNext, Option.map_map]
          congr 1
          funext written
          simp [String.append_assoc]

theorem runPrompt?_eq (paint : Painting) (setting : Setting) (input : String) :
    runPrompt? paint setting input =
      (transcript? paint ((start []).proceed (setting.each (inputLines input)))).map prompted := by
  refine (answerLines?_eq (fun _ => List.not_mem_nil.elim) .start paint setting "" "" _).trans ?_
  congr 1

theorem filter_each (setting : Setting) (lines : List String) :
    (setting.each lines).filter runs = setting.each (lines.filter (accepts setting.depthLimit)) := by
  rw [Setting.each, List.filter_map]
  rfl

end Session

/-- What a script shows is what the verdict tells: nothing is printed unless the script has run. -/
structure Verdict.Shown (paint : Painting) (verdict : Verdict) (outcome : Outcome) : Prop where
  errors : outcome.errors = displayAll paint verdict.errors
  ending : outcome.ending = .exit verdict.status
  silent : verdict.isStatic = true → outcome.output = ""

namespace Session

theorem exists_verdict_of_runSource? {paint : Painting} {setting : Setting} {source : String} {outcome : Outcome}
    (ran : runSource? paint setting source = some outcome) :
    ∃ verdict : Verdict, verdict.Proper ∧ verdict.Stems setting.depthLimit source ∧
      verdict.Shown paint outcome := by
  obtain ⟨⟨report, next⟩, ended, rfl⟩ := Option.map_eq_some_iff.mp ran
  have sound := (Reached.start.run? (fun _ => List.not_mem_nil.elim) ended).1
  obtain ⟨verdict, ⟨proper, told⟩, stems, silent⟩ := exists_verdict_of_run? ended sound
  obtain ⟨printed, errors⟩ := report
  cases told
  refine ⟨verdict, proper, stems, rfl, congrArg _ (Verdict.status_ofErrors proper), fun static => ?_⟩
  obtain ⟨rfl, -⟩ := silent static
  rfl

/-- Errors are of one stage only, and those before the run are all there is of a source. Whatever came before in the
session, exactly one verdict explains what a source shows. If it is a static one, nothing is printed and the session
is what it was; such a source always comes to its end. So these sources can be left out: all others come as far,
show the same, and leave the same sessions, at the prompt, too. A script exits as its verdict tells. -/
theorem stages_apart {natives : List Native} (honest : ∀ native ∈ natives, native.Sound)
    {programs : List (List Stmt)} {session : Session} (reached : Reached natives programs session) :
    (∀ setting source report next, session.run? setting source = some (report, next) →
      ∃ verdict : Verdict, verdict.Explains report ∧
        (∀ other : Verdict, other.Explains report → other = verdict) ∧
        verdict.Stems setting.depthLimit source ∧
        (verdict.isStatic = true → report.printed = #[] ∧ next = session)) ∧
    (∀ limit source, accepts limit source = false →
      ∃ verdict : Verdict, verdict.isStatic = true ∧ verdict.Proper ∧ verdict.Stems limit source ∧
        ∀ now fuel,
          session.run? ⟨limit, now, fuel⟩ source = some (⟨#[], .ok verdict.errors⟩, session)) ∧
    (∀ entries, session.proceed (entries.filter runs) = session.proceedRun entries ∧
      session.finish? (session.proceed (entries.filter runs)) =
        session.finish? (session.proceed entries)) ∧
    (∀ paint setting input shorter,
      inputLines shorter = (inputLines input).filter (accepts setting.depthLimit) →
      runPrompt? paint setting input =
        (transcript? paint ((start []).proceed (setting.each (inputLines input)))).map prompted ∧
      runPrompt? paint setting shorter =
        (transcript? paint ((start []).proceedRun (setting.each (inputLines input)))).map prompted) ∧
    ∀ paint setting name content source, decodeScript? content = some source →
      (∀ outcome, runScript? paint setting name (.ok content) = some outcome →
        ∃ verdict : Verdict, verdict.Proper ∧ verdict.Stems setting.depthLimit source ∧
          verdict.Shown paint outcome) ∧
      (accepts setting.depthLimit source = false →
        ∃ verdict : Verdict, verdict.isStatic = true ∧ verdict.Proper ∧
          runScript? paint setting name (.ok content) =
            some ⟨"", displayAll paint verdict.errors, .exit verdict.status⟩) := by
  have rejects (session : Session) {limit : Nat} {source : String}
      (rejected : accepts limit source = false) :
      ∃ verdict : Verdict, verdict.isStatic = true ∧ verdict.Proper ∧ verdict.Stems limit source ∧
        ∀ now fuel,
          session.run? ⟨limit, now, fuel⟩ source = some (⟨#[], .ok verdict.errors⟩, session) := by
    cases prepared : prepare limit source with
    | ok statements =>
        rw [accepts_eq_true_iff.mpr ⟨statements, prepared⟩] at rejected
        cases rejected
    | error errors =>
        obtain ⟨verdict, static, proper, stems, rfl⟩ := exists_verdict_of_error prepared
        exact ⟨verdict, static, proper, stems, fun now fuel =>
          progress_eq_ended_iff.mp (progress_of_error prepared now fuel)⟩
  refine ⟨fun setting source report next ran => ?_, fun limit source => rejects session, fun entries =>
    ⟨proceed_filter entries, finish?_filter entries⟩, fun paint setting input shorter same => ?_,
    fun paint setting name content source decoded => ?_⟩
  · obtain ⟨verdict, explains, stems, silent⟩ :=
      exists_verdict_of_run? ran (reached.run? honest ran).1
    refine ⟨verdict, explains, fun other otherExplains => ?_, stems, silent⟩
    refine Verdict.eq_of_errors otherExplains.proper explains.proper ?_
    exact Except.ok.inj (otherExplains.errors.symm.trans explains.errors)
  · refine ⟨runPrompt?_eq paint setting input, ?_⟩
    rw [runPrompt?_eq, same, ← filter_each, proceed_filter]
  · have script : runScript? paint setting name (.ok content) = runSource? paint setting source := by
      rw [runScript?, decoded]
    rw [script]
    refine ⟨fun outcome => exists_verdict_of_runSource?, fun rejected => ?_⟩
    obtain ⟨verdict, static, proper, -, ran⟩ := rejects (start []) rejected
    refine ⟨verdict, static, proper, ?_⟩
    rw [runSource?, ran, ← Verdict.status_ofErrors proper]
    rfl

/-- Sources with an error in the text of one and in the scopes of another; the last one fails when it runs. -/
def mixedSources : List String :=
  ["var a = 1;", "1 +;", "\x7bvar a; var a;\x7d", "print a; b;"]

theorem stages_apart_mixed :
    mixedSources.filter (accepts 30) = ["var a = 1;", "print a; b;"] ∧
      (start []).proceed (Setting.each ⟨30, 0, 60⟩ ["var a = 1;", "print a; b;"]) =
        (start []).proceedRun (Setting.each ⟨30, 0, 60⟩ mixedSources) := by
  have run : mixedSources.filter (accepts 30) = ["var a = 1;", "print a; b;"] := by decide +kernel
  have apart := (stages_apart (fun _ => List.not_mem_nil.elim) .start).2.2.1
  refine ⟨run, ?_⟩
  rw [← (apart (Setting.each ⟨30, 0, 60⟩ mixedSources)).1, filter_each, run]

end Session

end LoxLang
