import LoxLang.Proofs.Remarking.Numbering
import LoxLang.Proofs.Remarking.Steps
import LoxLang.Proofs.Session.Progress
import Mathlib.Logic.Relation

/-!
Nodes in a session. Where the marks of all nodes of a session stand in one table, under the numbers of the nodes, each
source that is read brings new nodes, and closures hold those of earlier sources. A node keeps its mark as long as
anything refers to it; so a program that was read once does, each time, what the source does that is read anew.
-/

namespace LoxLang

open Relation

/-- A session in which nodes carry numbers, and what is known of the nodes. -/
structure NodeSession extends Session where
  table : Table
  /-- The number of the next node. -/
  next : Nat

namespace NodeSession

def start (natives : List Native) : NodeSession :=
  ⟨.start natives, fun _ => none, 0⟩

/-- The session in which each node carries the mark that is known of it. -/
def marked (session : NodeSession) : Session :=
  ⟨session.natives, session.store.remark session.table.find⟩

/-- Reads a source. All its nodes are new, and the marks of these are added to what is known. -/
def read (limit : Nat) (session : NodeSession) (source : String) :
    Except (List Error) (List Stmt × NodeSession) :=
  (prepare limit source).map fun statements =>
    let marks := hopsOfStmts statements
    (numberStmts session.next statements,
      ⟨session.toSession, session.table.update (distances session.next marks),
        session.next + marks.length⟩)

/-- Executes statements that have been read. -/
def execute (setting : Setting) (session : NodeSession) (numbered : List Stmt) :
    Showing × Option NodeSession :=
  let host : Host := ⟨session.natives, setting.depthLimit, setting.now⟩
  let machine :=
    (Machine.stepBy session.table.find host)^[setting.fuel] (.load numbered session.store)
  if machine.isFinal then
    let (report, last) := Session.outcome host machine
    (.ended report last.texts, some ⟨last, session.table, session.next⟩)
  else (.going machine.store.printed, none)

/-- Reads a source and executes it. -/
def run (setting : Setting) (session : NodeSession) (source : String) :
    Showing × Option NodeSession :=
  match session.read setting.depthLimit source with
  | .error errors => (.ended ⟨#[], .ok errors⟩ session.texts, some session)
  | .ok (numbered, read) => read.execute setting numbered

/-- What is shown when something is done again and again, up to the first time that does not come to its end. -/
def each (act : Setting → NodeSession → Showing × Option NodeSession) (session : NodeSession) :
    List Setting → List Showing
  | [] => []
  | setting :: rest =>
      match act setting session with
      | (shown, some next) => shown :: each act next rest
      | (shown, none) => [shown]

/-! ## Marked sessions -/

theorem texts_remark (f : Remarking) (session : Session) :
    Session.texts ⟨session.natives, session.store.remark f⟩ = session.texts := by
  rw [Session.texts, Session.texts, Session.globals, Session.globals, Store.forest_remark,
    Forest.bindings_remark, Bindings.map, List.map_map]
  refine List.map_congr_left fun entry _ => ?_
  exact congrArg (Prod.mk entry.1) (entry.2.toText_remark f)

theorem outcome_remark (f : Remarking) (host : Host) (machine : Machine) :
    Session.outcome host (machine.remark f) =
      ((Session.outcome host machine).1,
        ⟨host.natives, (Session.outcome host machine).2.store.remark f⟩) := by
  obtain ⟨control, frames, scope, height, store⟩ := machine
  cases control <;> rfl

section Execution

variable {session : NodeSession} {limit : Nat} {source : String} {statements numbered : List Stmt}

/-- Whatever nodes a program has, it does what the marked program does, if their marks are known. -/
theorem execute_marked (blind : ∀ native ∈ session.natives, native.Blind)
    (accepted : prepare limit source = .ok statements)
    (known : remarkStmts session.table.find numbered = statements) (now : Float) (fuel : Nat) :
    (∃ report store, session.execute ⟨limit, now, fuel⟩ numbered =
        (.ended report (Session.texts ⟨session.natives, store⟩),
          some ⟨⟨session.natives, store⟩, session.table, session.next⟩) ∧
      session.marked.progress ⟨limit, now, fuel⟩ source =
        .ended report ⟨session.natives, store.remark session.table.find⟩) ∨
    ∃ printed, session.execute ⟨limit, now, fuel⟩ numbered = (.going printed, none) ∧
      session.marked.progress ⟨limit, now, fuel⟩ source = .going printed := by
  let host : Host := ⟨session.natives, limit, now⟩
  have same := Machine.iterate_stepBy_remark session.table.find session.table.find (h := id) rfl
    (show ∀ native ∈ host.natives, native.Blind from blind) (.load numbered session.store) fuel
  rw [Machine.stepBy_id, show (Machine.load numbered session.store).remark session.table.find =
    .load statements session.marked.store from congrArg (Machine.load · _) known] at same
  rw [Session.progress_of_ok accepted, execute]
  dsimp only
  rw [show session.marked.natives = session.natives from rfl, same, Machine.isFinal_remark]
  generalize (Machine.stepBy session.table.find ⟨session.natives, limit, now⟩)^[fuel]
    (.load numbered session.store) = machine
  cases machine.isFinal with
  | true =>
      left
      rw [if_pos rfl, if_pos rfl, outcome_remark]
      exact ⟨_, _, rfl, rfl⟩
  | false =>
      right
      exact ⟨_, rfl, rfl⟩

/-- Executing what was read once, again and again, shows what running the source in the marked session shows. -/
theorem each_execute (blind : ∀ native ∈ session.natives, native.Blind)
    (accepted : prepare limit source = .ok statements)
    (known : remarkStmts session.table.find numbered = statements) (times : List (Float × Nat)) :
    each (fun setting session => session.execute setting numbered) session
        (times.map fun time => ⟨limit, time.1, time.2⟩) =
      (session.marked.proceed (times.map fun time => (⟨limit, time.1, time.2⟩, source))).map
        Progress.showing := by
  induction times generalizing session with
  | nil => rfl
  | cons time rest ih =>
      rw [List.map_cons, List.map_cons, each]
      rcases execute_marked blind accepted known time.1 time.2 with
        ⟨report, store, executed, ended⟩ | ⟨printed, executed, going⟩
      · rw [executed, Session.proceed_of_ended ended, List.map_cons]
        refine congrArg₂ List.cons ?_ ?_
        · exact congrArg (Showing.ended report) (texts_remark _ ⟨session.natives, store⟩).symm
        · exact @ih ⟨⟨session.natives, store⟩, session.table, session.next⟩ blind known
      · rw [executed, Session.proceed_of_going going]
        rfl

end Execution

/-! ## Nodes that are referred to -/

/-- The programs that are kept and the values of the session refer to no other nodes than these. -/
structure Within (keep : Nat → Bool) (held : List (List Stmt)) (session : NodeSession) : Prop where
  store : session.store.remark (Option.filter keep) = session.store
  held : ∀ program ∈ held, remarkStmts (Option.filter keep) program = program

/-- A node is referred to if something would change without it. -/
def Refers (held : List (List Stmt)) (session : NodeSession) (number : Nat) : Prop :=
  ¬ session.Within (· != number) held

/-- The machines that come up while statements are executed. Time may pass between any two steps. -/
inductive Runs (session : NodeSession) (limit : Nat) (numbered : List Stmt) : Machine → Prop
  | load : Runs session limit numbered (.load numbered session.store)
  | step {machine : Machine} (now : Float) :
      Runs session limit numbered machine →
      Runs session limit numbered
        (machine.stepBy session.table.find ⟨session.natives, limit, now⟩)

/-- What may be done with a session and the programs that are kept: a source is read, or a program that is kept is
executed to its end, or programs are no longer kept, or the marks of nodes are forgotten to which nothing refers. -/
inductive Acts : List (List Stmt) × NodeSession → List (List Stmt) × NodeSession → Prop
  | read {held : List (List Stmt)} {session next : NodeSession} {limit : Nat} {source : String}
      {numbered : List Stmt} :
      session.read limit source = .ok (numbered, next) →
      Acts (held, session) (numbered :: held, next)
  | run {held : List (List Stmt)} {session : NodeSession} {limit : Nat} {numbered : List Stmt}
      {machine : Machine} :
      numbered ∈ held → session.Runs limit numbered machine → machine.isFinal = true →
      Acts (held, session)
        (held, ⟨⟨session.natives, machine.store.takePrinted.2⟩, session.table, session.next⟩)
  | drop {held fewer : List (List Stmt)} {session : NodeSession} :
      fewer ⊆ held → Acts (held, session) (fewer, session)
  | forget {held : List (List Stmt)} {session : NodeSession} (keep : Nat → Bool) :
      session.Within keep held →
      Acts (held, session) (held, ⟨session.toSession, session.table.forget keep, session.next⟩)

end NodeSession

namespace Machine

theorem filter_comp_filter (keep : Nat → Bool) :
    Option.filter keep ∘ Option.filter keep = Option.filter keep := by
  funext number
  rw [Function.comp_apply, Option.filter_filter]
  simp

/-- A step refers to no other nodes than its machine does. -/
theorem within_stepBy {keep : Nat → Bool} {host : Host}
    (blind : ∀ native ∈ host.natives, native.Blind) (f : Remarking) {machine : Machine}
    (within : machine.remark (Option.filter keep) = machine) :
    (machine.stepBy f host).remark (Option.filter keep) = machine.stepBy f host := by
  have twice : (f ∘ Option.filter keep) ∘ Option.filter keep = f ∘ Option.filter keep := by
    rw [Function.comp_assoc, filter_comp_filter]
  have alike := stepBy_congr f (Option.filter keep) twice host machine
  have commutes := stepBy_remark (f ∘ Option.filter keep) (Option.filter keep) twice blind machine
  rw [within] at alike commutes
  rw [← alike]
  exact commutes.symm

end Machine

namespace NodeSession

variable {held : List (List Stmt)} {session next : NodeSession} {limit : Nat} {source : String}
  {numbered : List Stmt} {machine : Machine} {keep : Nat → Bool}

theorem Runs.within (blind : ∀ native ∈ session.natives, native.Blind)
    (within : session.Within keep held) (member : numbered ∈ held)
    (runs : session.Runs limit numbered machine) :
    machine.remark (Option.filter keep) = machine := by
  induction runs with
  | load => exact congrArg₂ Machine.load (within.held numbered member) within.store
  | step now _ ih => exact Machine.within_stepBy blind _ ih

theorem Runs.within_left (blind : ∀ native ∈ session.natives, native.Blind)
    (within : session.Within keep held) (member : numbered ∈ held)
    (runs : session.Runs limit numbered machine) :
    Within keep held
      ⟨⟨session.natives, machine.store.takePrinted.2⟩, session.table, session.next⟩ where
  store := congrArg (fun machine => machine.store.takePrinted.2) (runs.within blind within member)
  held := within.held

theorem read_eq_ok_iff : session.read limit source = .ok (numbered, next) ↔
    ∃ statements, prepare limit source = .ok statements ∧
      numbered = numberStmts session.next statements ∧
      next = ⟨session.toSession,
        session.table.update (distances session.next (hopsOfStmts statements)),
        session.next + (hopsOfStmts statements).length⟩ := by
  rw [read]
  cases prepare limit source with
  | error errors => simp [Except.map]
  | ok statements =>
      constructor
      · intro same
        cases same
        exact ⟨statements, rfl, rfl, rfl⟩
      · rintro ⟨_, same, rfl, rfl⟩
        cases same
        rfl

/-- A program that is read has new nodes only. -/
theorem within_number {start : Nat} {statements : List Stmt}
    (kept : ∀ number, start ≤ number → number < start + (hopsOfStmts statements).length →
      keep number = true) :
    remarkStmts (Option.filter keep) (numberStmts start statements) =
      numberStmts start statements := by
  refine remark_numberStmts_self statements fun index mark found => ?_
  have inside := (List.getElem?_eq_some_iff.mp found).1
  exact Option.filter_some_pos (kept _ (Nat.le_add_right _ _) (Nat.add_lt_add_left inside _))

/-- Fewer nodes are referred to. -/
theorem Within.mono {more : Nat → Bool} (within : session.Within keep held)
    (wider : ∀ number, keep number = true → more number = true) : session.Within more held := by
  have same : Option.filter more ∘ Option.filter keep = Option.filter keep := by
    funext number
    rw [Function.comp_apply, Option.filter_filter]
    refine congrArg (Option.filter · number) (funext fun number => ?_)
    cases kept : keep number with
    | true => rw [wider number kept]; rfl
    | false => rfl
  refine ⟨?_, fun program member => ?_⟩
  · rw [← within.store, Store.remark_remark, same]
  · rw [← within.held program member, remarkStmts_remarkStmts, same]

/-- All nodes that are referred to have been numbered, and nothing is known of further ones. -/
structure Tidy (held : List (List Stmt)) (session : NodeSession) : Prop where
  natives : ∀ native ∈ session.natives, native.Blind
  within : session.Within (decide <| · < session.next) held
  table : ∀ number, session.next ≤ number → session.table number = none

/-- Natives hold no nodes. -/
theorem remark_foldl {f : Remarking} {session : Session}
    (same : session.store.remark f = session.store) (natives : List Native) :
    (natives.foldl Session.addNative session).store.remark f =
      (natives.foldl Session.addNative session).store := by
  induction natives generalizing session with
  | nil => exact same
  | cons native rest ih =>
      refine ih ?_
      change (session.store.define _ _ (.native session.natives.size)).remark f = _
      rw [Store.remark_define, same]
      rfl

theorem tidy_start {natives : List Native} (blind : ∀ native ∈ natives, native.Blind) :
    Tidy [] (start natives) where
  natives := by
    intro native member
    rcases Session.mem_natives_foldl member with nothing | member
    · exact absurd nothing (Array.not_mem_empty native)
    · rcases List.mem_cons.mp member with rfl | member
      · exact fun _ _ _ => rfl
      · exact blind native member
  within := by
    have initial (f : Remarking) : Store.initial.remark f = .initial := by
      simp [Store.initial, Store.remark, Forest.remark, Forest.single, Scope.remark, Bindings.map,
        Bindings.empty]
    exact ⟨remark_foldl (initial _) (Session.clock :: natives),
      fun program nothing => absurd nothing List.not_mem_nil⟩
  table _ _ := rfl

theorem Acts.tidy {first last : List (List Stmt) × NodeSession} (acts : Acts first last)
    (tidy : Tidy first.1 first.2) : Tidy last.1 last.2 := by
  cases acts with
  | @read held session next limit source numbered accepted =>
      obtain ⟨statements, -, rfl, rfl⟩ := read_eq_ok_iff.mp accepted
      have within : session.Within (decide <| · < session.next + (hopsOfStmts statements).length)
          held := tidy.within.mono fun number before =>
        decide_eq_true (Nat.lt_add_right _ (of_decide_eq_true before))
      refine ⟨tidy.natives, ⟨within.store, ?_⟩, fun number new => ?_⟩
      · refine List.forall_mem_cons.mpr ⟨?_, within.held⟩
        exact within_number fun number _ below => decide_eq_true below
      · have new : session.next + (hopsOfStmts statements).length ≤ number := new
        have outside : (hopsOfStmts statements)[number - session.next]? = none :=
          List.getElem?_eq_none (by omega)
        change ((distances _ _).lookup number).or (session.table number) = none
        have before : session.next ≤ number := by omega
        rw [lookup_distances, outside, tidy.table number before]
        split <;> rfl
  | run member runs final =>
      exact ⟨tidy.natives, runs.within_left tidy.natives tidy.within member, tidy.table⟩
  | drop fewer =>
      exact ⟨tidy.natives, ⟨tidy.within.store, fun program member =>
        tidy.within.held program (fewer member)⟩, tidy.table⟩
  | forget keep =>
      refine ⟨tidy.natives, ⟨tidy.within.store, tidy.within.held⟩, fun number new => ?_⟩
      change (if keep number = true then _ else none) = none
      rw [tidy.table number new, ite_self]

/-! ## Running anew -/

/-- Reading a source leaves the marks of all other nodes as they are. -/
theorem Tidy.marked_read (tidy : session.Tidy held)
    (accepted : session.read limit source = .ok (numbered, next)) : next.marked = session.marked := by
  obtain ⟨statements, -, rfl, rfl⟩ := read_eq_ok_iff.mp accepted
  let marks := hopsOfStmts statements
  have same : (session.table.update (distances session.next marks)).find ∘
      Option.filter (decide <| · < session.next) =
        session.table.find ∘ Option.filter (decide <| · < session.next) := by
    rw [← Table.find_forget, ← Table.find_forget]
    refine congrArg Table.find (funext fun number => ?_)
    by_cases before : number < session.next
    · rw [Table.forget, Table.forget, session.table.update_of_lt before]
    · rw [Table.forget, Table.forget, if_neg (by simpa using before), if_neg (by simpa using before)]
  refine congrArg (Session.mk _) ?_
  change session.store.remark (session.table.update (distances session.next marks)).find =
    session.store.remark session.table.find
  rw [← tidy.within.store, Store.remark_remark, same, ← Store.remark_remark, tidy.within.store]

theorem Tidy.known_read {statements : List Stmt} (tidy : session.Tidy held)
    (accepted : prepare limit source = .ok statements)
    (read : session.read limit source = .ok (numbered, next)) :
    remarkStmts next.table.find numbered = statements := by
  obtain ⟨_, same, rfl, rfl⟩ := read_eq_ok_iff.mp read
  cases accepted.symm.trans same
  exact remark_numberStmts statements (session.table.finds_update _ tidy.table)

theorem Runs.iterate (now : Float) (steps : Nat) : session.Runs limit numbered
    ((Machine.stepBy session.table.find ⟨session.natives, limit, now⟩)^[steps]
      (.load numbered session.store)) := by
  induction steps with
  | zero => exact .load
  | succ steps ih =>
      rw [Function.iterate_succ_apply']
      exact ih.step now

theorem acts_of_execute {setting : Setting} {shown : Showing} (member : numbered ∈ held)
    (executed : session.execute setting numbered = (shown, some next)) :
    Acts (held, session) (held, next) := by
  obtain ⟨limit, now, fuel⟩ := setting
  rw [execute] at executed
  dsimp only at executed
  split at executed
  · next final =>
    cases executed
    exact .run member (Runs.iterate now fuel) final
  · cases executed

/-- Running a source again and again, each time with new nodes, shows what the marked session shows. -/
theorem Tidy.each_run (tidy : session.Tidy held) {statements : List Stmt}
    (accepted : prepare limit source = .ok statements) (times : List (Float × Nat)) :
    each (fun setting session => session.run setting source) session
        (times.map fun time => ⟨limit, time.1, time.2⟩) =
      (session.marked.proceed (times.map fun time => (⟨limit, time.1, time.2⟩, source))).map
        Progress.showing := by
  induction times generalizing session held with
  | nil => rfl
  | cons time rest ih =>
      obtain ⟨numbered, next, reading⟩ : ∃ numbered next,
          session.read limit source = .ok (numbered, next) := by
        rw [read, accepted]
        exact ⟨_, _, rfl⟩
      have acts : Acts (held, session) (numbered :: held, next) := .read reading
      have tidyNext := acts.tidy tidy
      have running : session.run ⟨limit, time.1, time.2⟩ source =
          next.execute ⟨limit, time.1, time.2⟩ numbered := by
        rw [run]
        dsimp only
        rw [reading]
      rw [List.map_cons, List.map_cons, each, running, ← tidy.marked_read reading]
      rcases execute_marked tidyNext.natives accepted (tidy.known_read accepted reading) time.1 time.2
        with ⟨report, store, executed, ended⟩ | ⟨printed, executed, going⟩
      · have tidyLast := (acts_of_execute List.mem_cons_self executed).tidy tidyNext
        rw [executed, Session.proceed_of_ended ended, List.map_cons]
        refine congrArg₂ List.cons ?_ (ih tidyLast)
        exact congrArg (Showing.ended report) (texts_remark _ ⟨next.natives, store⟩).symm
      · rw [executed, Session.proceed_of_going going]
        rfl

/-! ## Nodes keep their marks -/

/-- What is done changes the marks of no numbered node to which anything refers afterwards, and nothing comes to refer
to a numbered node that did not do so before. -/
theorem Acts.keeps {first last : List (List Stmt) × NodeSession} (acts : Acts first last)
    (blind : ∀ native ∈ first.2.natives, native.Blind) {number : Nat}
    (numbered : number < first.2.next) :
    last.2.natives = first.2.natives ∧ number < last.2.next ∧
      (last.2.Refers last.1 number →
        first.2.Refers first.1 number ∧ last.2.table number = first.2.table number) := by
  cases acts with
  | @read held session next limit source program accepted =>
      obtain ⟨statements, -, rfl, rfl⟩ := read_eq_ok_iff.mp accepted
      refine ⟨rfl, Nat.lt_add_right _ numbered, fun refers => ⟨fun within => refers ?_, ?_⟩⟩
      · refine ⟨within.store, List.forall_mem_cons.mpr ⟨?_, within.held⟩⟩
        exact within_number fun other later _ => bne_iff_ne.mpr (Nat.ne_of_gt (Nat.lt_of_lt_of_le numbered later))
      · exact session.table.update_of_lt numbered _
  | run member runs final =>
      exact ⟨rfl, numbered, fun refers =>
        ⟨fun within => refers (runs.within_left blind within member), rfl⟩⟩
  | drop fewer =>
      refine ⟨rfl, numbered, fun refers => ⟨fun within => refers ⟨within.store, ?_⟩, rfl⟩⟩
      exact fun program member => within.held program (fewer member)
  | forget keep within =>
      refine ⟨rfl, numbered, fun refers => ⟨fun other => refers ⟨other.store, other.held⟩, ?_⟩⟩
      refine if_pos (Classical.not_not.mp fun gone => refers ?_)
      have kept : Within (· != number) _ _ := within.mono fun other kept =>
        bne_iff_ne.mpr fun same => gone (same ▸ kept)
      exact ⟨kept.store, kept.held⟩

theorem keeps_of_acts {first last : List (List Stmt) × NodeSession}
    (acts : ReflTransGen Acts first last) (blind : ∀ native ∈ first.2.natives, native.Blind)
    {number : Nat} (numbered : number < first.2.next) :
    last.2.natives = first.2.natives ∧ number < last.2.next ∧
      (last.2.Refers last.1 number →
        first.2.Refers first.1 number ∧ last.2.table number = first.2.table number) := by
  induction acts with
  | refl => exact ⟨rfl, numbered, fun refers => ⟨refers, rfl⟩⟩
  | tail _ acts ih =>
      obtain ⟨natives, middle, earlier⟩ := ih
      obtain ⟨same, later, keeps⟩ := acts.keeps (natives ▸ blind) middle
      refine ⟨same.trans natives, later, fun refers => ?_⟩
      obtain ⟨before, table⟩ := keeps refers
      exact ⟨(earlier before).1, table.trans (earlier before).2⟩

theorem tidy_of_acts {first last : List (List Stmt) × NodeSession}
    (acts : ReflTransGen Acts first last) (tidy : Tidy first.1 first.2) : Tidy last.1 last.2 := by
  induction acts with
  | refl => exact tidy
  | tail _ acts ih => exact acts.tidy ih

/-- A mark belongs to its node alone. Whatever was done in a session, a source that is read once and then executed again
and again shows, each time, the same lines, errors and globals as the source that is run again and again with new
nodes, and both show what it shows in the session in which nodes carry their marks. And whatever is done later, each
node keeps its mark, or remains without one, as long as anything refers to it. -/
theorem marks_stay {natives : List Native} (blind : ∀ native ∈ natives, native.Blind)
    {held : List (List Stmt)} {session : NodeSession}
    (acts : ReflTransGen Acts ([], start natives) (held, session)) :
    (∀ limit source statements, prepare limit source = .ok statements →
      ∃ numbered next, session.read limit source = .ok (numbered, next) ∧
        ∀ times : List (Float × Nat),
          let settings := times.map fun time => (⟨limit, time.1, time.2⟩ : Setting)
          each (fun setting session => session.execute setting numbered) next settings =
              each (fun setting session => session.run setting source) session settings ∧
            each (fun setting session => session.run setting source) session settings =
              (session.marked.proceed (settings.map fun setting => (setting, source))).map
                Progress.showing) ∧
    session.Within (decide <| · < session.next) held ∧
    ∀ later last, ReflTransGen Acts (held, session) (later, last) →
      ∀ number < session.next, last.Refers later number →
        last.table number = session.table number := by
  have tidy := tidy_of_acts acts (tidy_start blind)
  refine ⟨fun limit source statements accepted => ?_, tidy.within,
    fun later last acts number numbered refers =>
      ((keeps_of_acts acts tidy.natives numbered).2.2 refers).2⟩
  obtain ⟨numbered, next, reading⟩ : ∃ numbered next,
      session.read limit source = .ok (numbered, next) := by
    rw [read, accepted]
    exact ⟨_, _, rfl⟩
  refine ⟨numbered, next, reading, fun times => ?_⟩
  have anew := tidy.each_run accepted times
  have again := each_execute (Acts.tidy (.read reading) tidy).natives accepted
    (tidy.known_read accepted reading) times
  dsimp only
  rw [List.map_map]
  refine ⟨?_, anew⟩
  rw [again, anew, tidy.marked_read reading]

/-- A closure whose node for `a` is a local one. -/
def closingSource : String := "\x7bvar a = 1; fun f()\x7bprint a;\x7d f();\x7d"

theorem marks_stay_closing :
    ∃ numbered next, (start []).read 30 closingSource = .ok (numbered, next) ∧
      each (fun setting session => session.execute setting numbered) next [⟨30, 0, 60⟩, ⟨30, 1, 60⟩] =
        each (fun setting session => session.run setting closingSource) (start [])
          [⟨30, 0, 60⟩, ⟨30, 1, 60⟩] := by
  have accepted : (prepare 30 closingSource).toBool = true := by decide +kernel
  cases prepared : prepare 30 closingSource with
  | error errors =>
      rw [prepared] at accepted
      cases accepted
  | ok statements =>
      have acts : ReflTransGen Acts ([], start []) ([], start []) := .refl
      obtain ⟨numbered, next, reading, shows⟩ :=
        (marks_stay (fun _ => List.not_mem_nil.elim) acts).1 30 closingSource statements prepared
      exact ⟨numbered, next, reading, (shows [(0, 60), (1, 60)]).1⟩

end NodeSession

end LoxLang
