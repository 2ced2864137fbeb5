import LoxLang.Proofs.Variation.Sessions

/-!
Progress in a session: how far each of several sources has come that are run one after the other.
-/

namespace LoxLang

/-- How far a source has come: to its end, with what it shows and the session after it, or not yet, with what it has
printed. -/
inductive Progress where
  | ended (report : Report) (session : Session)
  | going (printed : Array String)

/-- What can be seen of a source that has come so far. -/
inductive Showing where
  | ended (report : Report) (globals : List (String × String))
  | going (printed : Array String)

/-- The names of the globals and the texts of their values. -/
def Session.texts (session : Session) : List (String × String) :=
  session.globals.map fun entry => (entry.1, entry.2.toText)

def Progress.showing : Progress → Showing
  | .ended report session => .ended report session.texts
  | .going printed => .going printed

/-- The same sources, all run under one setting. -/
def Setting.each (setting : Setting) (sources : List String) : List (Setting × String) :=
  sources.map (setting, ·)

@[simp] theorem Setting.each_nil (setting : Setting) : setting.each [] = [] := rfl

@[simp] theorem Setting.each_cons (setting : Setting) (source : String) (rest : List String) :
    setting.each (source :: rest) = (setting, source) :: setting.each rest := rfl

namespace Session

/-- How far statements have come. -/
def progressOf (setting : Setting) (session : Session) (statements : List Stmt) : Progress :=
  let host : Host := ⟨session.natives, setting.depthLimit, setting.now⟩
  let machine := Machine.advance host setting.fuel (.load statements session.store)
  if machine.isFinal then .ended (outcome host machine).1 (outcome host machine).2
  else .going machine.store.printed

def progress (setting : Setting) (session : Session) (source : String) : Progress :=
  match prepare setting.depthLimit source with
  | .error errors => .ended ⟨#[], .ok errors⟩ session
  | .ok statements =>
      let host : Host := ⟨session.natives, setting.depthLimit, setting.now⟩
      let machine := Machine.advance host setting.fuel (.load statements session.store)
      if machine.isFinal then .ended (outcome host machine).1 (outcome host machine).2
      else .going machine.store.printed

/-- How far sources come one after the other, up to the first that has not come to its end. -/
def proceed (session : Session) : List (Setting × String) → List Progress
  | [] => []
  | (setting, source) :: rest =>
      match session.progress setting source with
      | .ended report next => .ended report next :: next.proceed rest
      | .going printed => [.going printed]

variable {session next : Session} {limit fuel more : Nat} {now : Float} {source : String}
  {report : Report} {rest : List (Setting × String)}

theorem progress_of_error {errors : List Error} (rejected : prepare limit source = .error errors)
    (now : Float) (fuel : Nat) :
    session.progress ⟨limit, now, fuel⟩ source = .ended ⟨#[], .ok errors⟩ session := by
  rw [progress]
  dsimp only
  rw [rejected]

theorem progressOf_eq (session : Session) (limit : Nat) (now : Float) (fuel : Nat) (statements : List Stmt) :
    session.progressOf ⟨limit, now, fuel⟩ statements =
      let host : Host := ⟨session.natives, limit, now⟩
      let machine := (Machine.step host)^[fuel] (.load statements session.store)
      if machine.isFinal then .ended (outcome host machine).1 (outcome host machine).2
      else .going machine.store.printed := by
  rw [progressOf]
  dsimp only
  rw [Machine.advance_eq_iterate]

/-- A source without errors has come as far as its statements have. -/
theorem progress_eq_progressOf {statements : List Stmt} (accepted : prepare limit source = .ok statements)
    (now : Float) (fuel : Nat) :
    session.progress ⟨limit, now, fuel⟩ source = session.progressOf ⟨limit, now, fuel⟩ statements := by
  rw [progress]
  dsimp only
  rw [accepted]
  rfl

theorem progress_of_ok {statements : List Stmt}
    (accepted : prepare limit source = .ok statements) (now : Float) (fuel : Nat) :
    session.progress ⟨limit, now, fuel⟩ source =
      let host : Host := ⟨session.natives, limit, now⟩
      let machine := (Machine.step host)^[fuel] (.load statements session.store)
      if machine.isFinal then .ended (outcome host machine).1 (outcome host machine).2
      else .going machine.store.printed :=
  (progress_eq_progressOf accepted now fuel).trans (progressOf_eq session limit now fuel statements)

/-- A source has come to its end as it does when it is run. -/
theorem progress_eq_ended_iff {setting : Setting} :
    session.progress setting source = .ended report next ↔
      session.run? setting source = some (report, next) := by
  obtain ⟨limit, now, fuel⟩ := setting
  cases prepared : prepare limit source with
  | error errors =>
      rw [progress_of_error prepared, run?]
      dsimp only
      rw [prepared]
      simp
  | ok statements =>
      rw [progress_of_ok prepared, run?_of_prepare prepared, Machine.run?_eq]
      dsimp only
      split
      · simp [Prod.ext_iff]
      · simp

theorem run?_of_going {setting : Setting} {printed : Array String}
    (going : session.progress setting source = .going printed) :
    session.run? setting source = none := by
  cases ran : session.run? setting source with
  | none => rfl
  | some result =>
      rw [progress_eq_ended_iff.mpr ran] at going
      cases going

theorem proceed_of_ended {setting : Setting}
    (ended : session.progress setting source = .ended report next) :
    session.proceed ((setting, source) :: rest) = .ended report next :: next.proceed rest := by
  rw [proceed, ended]

theorem proceed_of_going {setting : Setting} {printed : Array String}
    (going : session.progress setting source = .going printed) :
    session.proceed ((setting, source) :: rest) = [.going printed] := by
  rw [proceed, going]

/-! ## More steps -/

theorem progress_of_le (bound : fuel ≤ more)
    (ended : session.progress ⟨limit, now, fuel⟩ source = .ended report next) :
    session.progress ⟨limit, now, more⟩ source = .ended report next := by
  cases prepared : prepare limit source with
  | error errors =>
      rw [progress_of_error prepared] at ended ⊢
      exact ended
  | ok statements =>
      obtain ⟨later, rfl⟩ := Nat.exists_eq_add_of_le' bound
      rw [progress_of_ok prepared] at ended ⊢
      dsimp only at ended ⊢
      split at ended
      · next final =>
        rw [Function.iterate_add_apply, Machine.iterate_of_isFinal _ final, if_pos final, ended]
      · cases ended

/-- What has come to its end has come there after more steps, too. -/
theorem mem_proceed_of_le (bound : fuel ≤ more) {sources : List String}
    (member : .ended report next ∈ session.proceed (Setting.each ⟨limit, now, fuel⟩ sources)) :
    .ended report next ∈ session.proceed (Setting.each ⟨limit, now, more⟩ sources) := by
  induction sources generalizing session with
  | nil => exact member
  | cons source rest ih =>
      rw [Setting.each_cons] at member ⊢
      cases first : session.progress ⟨limit, now, fuel⟩ source with
      | going printed =>
          rw [proceed_of_going first] at member
          cases List.mem_singleton.mp member
      | ended report middle =>
          rw [proceed_of_ended first] at member
          rw [proceed_of_ended (progress_of_le bound first)]
          rcases List.mem_cons.mp member with same | later
          · rw [same]
            exact List.mem_cons_self
          · exact List.mem_cons_of_mem _ (ih later)

/-- Sources that have all come to their ends stay there. -/
theorem proceed_of_le (bound : fuel ≤ more) {sources : List String}
    (ended : ∀ progress ∈ session.proceed (Setting.each ⟨limit, now, fuel⟩ sources),
      ∃ report next, progress = .ended report next) :
    session.proceed (Setting.each ⟨limit, now, more⟩ sources) =
      session.proceed (Setting.each ⟨limit, now, fuel⟩ sources) := by
  induction sources generalizing session with
  | nil => rfl
  | cons source rest ih =>
      rw [Setting.each_cons] at ended
      rw [Setting.each_cons, Setting.each_cons]
      cases first : session.progress ⟨limit, now, fuel⟩ source with
      | going printed =>
          rw [proceed_of_going first] at ended
          obtain ⟨report, next, same⟩ := ended _ (List.mem_singleton_self _)
          cases same
      | ended report next =>
          rw [proceed_of_ended first] at ended
          rw [proceed_of_ended first, proceed_of_ended (progress_of_le bound first)]
          exact congrArg _ (ih fun progress member => ended progress (List.mem_cons_of_mem _ member))

end Session

end LoxLang
