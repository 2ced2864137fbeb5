import LoxLang.Proofs.Grammar.Reading

/-!
Readers that succeed. `Yields` states what a reader yields and where it stops, for every depth: it either gets
there or gives up, and does not give up if the depth is enough. A loop is followed from round to round, since
the rules of the grammar that loops read have the earlier rounds on their left.
-/

namespace LoxLang.Grammar

variable {α β : Type} {enough wide : Prop} {cursor middle next last : Cursor}

/-- A result is `value` at `next`, unless the reader gave up, which it does only without `enough` depth. -/
def Yields (enough : Prop) (value : α) (next : Cursor) :
    EStateM.Result Stop Cursor α → Prop
  | .ok result last => result = value ∧ last = next
  | .error .failed _ => False
  | .error .tooDeep _ => ¬enough

namespace Yields

theorem ok {value : α} {result : EStateM.Result Stop Cursor α} (h : result = .ok value next) :
    Yields enough value next result := by
  rw [h]
  exact ⟨rfl, rfl⟩

theorem tooDeep {value : α} (h : ¬enough) :
    Yields enough value next ((Grammar.tooDeep : Reader α) cursor) :=
  h

theorem mono {value : α} {result : EStateM.Result Stop Cursor α}
    (h : Yields enough value next result) (bound : wide → enough) :
    Yields wide value next result := by
  match result, h with
  | .ok _ _, h => exact h
  | .error .tooDeep _, h => exact fun deep => h (bound deep)

theorem bind {reader : Reader α} {rest : α → Reader β} {value : α} {result : β}
    (first : Yields enough value middle (reader cursor)) (bound : wide → enough)
    (second : Yields wide result next (rest value middle)) :
    Yields wide result next ((reader >>= rest) cursor) := by
  cases hreader : reader cursor with
  | ok found last =>
      rw [hreader] at first
      obtain ⟨rfl, rfl⟩ := first
      rw [bind_ok hreader]
      exact second
  | error stop last =>
      rw [hreader] at first
      rw [bind_error hreader]
      cases stop with
      | failed => exact first
      | tooDeep => exact fun deep => first (bound deep)

theorem after {reader : Reader α} {rest : α → Reader β} {value : α} {result : β}
    (first : reader cursor = .ok value middle)
    (second : Yields enough result next (rest value middle)) :
    Yields enough result next ((reader >>= rest) cursor) := by
  rw [bind_ok first]
  exact second

theorem map {reader : Reader α} {make : α → β} {value : α}
    (first : Yields enough value next (reader cursor)) :
    Yields enough (make value) next ((do return make (← reader)) cursor) :=
  first.bind id (.ok rfl)

theorem eq_ok {value : α} {result : EStateM.Result Stop Cursor α}
    (h : Yields enough value next result) (deep : enough) : result = .ok value next := by
  match result, h with
  | .ok _ _, ⟨rfl, rfl⟩ => rfl
  | .error .tooDeep _, h => exact absurd deep h

end Yields

theorem headKind_append {text : List Token} (h : text ≠ []) (rest : List Token) :
    headKind (text ++ rest) = headKind text := by
  cases text with
  | nil => exact absurd rfl h
  | cons token text => rfl

theorem length_le_flatMap (text : α → List Token) {item : α} {items : List α}
    (member : item ∈ items) : (text item).length ≤ (items.flatMap text).length :=
  (List.sublist_flatten_of_mem (List.mem_map_of_mem member)).length_le

/-! ## Single tokens -/

section

variable {token : Token} {rest : List Token} {errors : Array SyntaxError} {kind : Token.Kind}

theorem peek_cons :
    peek ⟨token :: rest, errors⟩ = .ok token ⟨token :: rest, errors⟩ := rfl

theorem advance_ok (inside : token.kind ≠ .endOfInput) :
    advance ⟨token :: rest, errors⟩ = .ok () ⟨rest, errors⟩ :=
  congrArg (EStateM.Result.ok ()) (advance_cons inside)

theorem acceptAny_cons {kinds : List Token.Kind} (member : token.kind ∈ kinds)
    (inside : token.kind ≠ .endOfInput) :
    acceptAny kinds ⟨token :: rest, errors⟩ = .ok (some token) ⟨rest, errors⟩ := by
  have hpeek : (Cursor.peek ⟨token :: rest, errors⟩).kind ∈ kinds := member
  rw [acceptAny_of_mem hpeek, advance_cons inside]
  rfl

theorem accepts_cons (h : token.kind = kind) (inside : kind ≠ .endOfInput) :
    accepts kind ⟨token :: rest, errors⟩ = .ok true ⟨rest, errors⟩ := by
  have hpeek : (Cursor.peek ⟨token :: rest, errors⟩).kind = kind := h
  rw [accepts_of_kind hpeek, advance_cons (h ▸ inside)]

theorem expect_cons {cause : SyntaxError.Cause} (h : token.kind = kind)
    (inside : kind ≠ .endOfInput) :
    expect kind cause ⟨token :: rest, errors⟩ = .ok token ⟨rest, errors⟩ := by
  have hpeek : (Cursor.peek ⟨token :: rest, errors⟩).kind = kind := h
  rw [expect_of_kind hpeek, advance_cons (h ▸ inside)]
  rfl

theorem skips_cons (h : token.kind = kind) (inside : kind ≠ .endOfInput) :
    (do return !(← accepts kind) : Reader Bool) ⟨token :: rest, errors⟩ =
      .ok false ⟨rest, errors⟩ := by
  rw [bind_ok (accepts_cons h inside)]
  rfl

theorem skips_of_ne (h : headKind cursor.ahead ≠ kind) :
    (do return !(← accepts kind) : Reader Bool) cursor = .ok true cursor := by
  rw [bind_ok (accepts_of_ne h)]
  rfl

end

/-! ## Optional parts -/

theorem optionally_skipped {skip : Reader Bool} {reader : Reader α}
    (h : skip cursor = .ok true middle) : optionally skip reader cursor = .ok none middle := by
  rw [optionally, bind_ok h]
  rfl

theorem Yields.present {skip : Reader Bool} {reader : Reader α} {value : α}
    (h : skip cursor = .ok false middle) (reads : Yields enough value next (reader middle)) :
    Yields enough (some value) next (optionally skip reader cursor) := by
  rw [optionally, bind_ok h]
  exact reads.map

/-! ## Loops -/

/-- A reader comes to its loop in some state, with a round left for every token ahead. -/
def Arrives (enough : Prop) (reader : Reader α) (round : α → Reader (Option α))
    (cursor : Cursor) (state : α) (middle : Cursor) : Prop :=
  ∃ rounds, middle.ahead.length ≤ rounds ∧ ∀ (wide : Prop) (value : α) (next : Cursor),
    (wide → enough) → Yields wide value next (iterate round rounds state middle) →
      Yields wide value next (reader cursor)

namespace Arrives

variable {reader : Reader α} {round : α → Reader (Option α)} {state following : α}

theorem start {first : Reader β} (make : β → α) {value : β} {rounds : Nat}
    (h : Yields enough value middle (first cursor)) (bound : middle.ahead.length ≤ rounds) :
    Arrives enough (first >>= fun found => iterate round rounds (make found)) round cursor
      (make value) middle :=
  ⟨rounds, bound, fun _ _ _ deep rest => h.bind deep rest⟩

theorem step (arrives : Arrives enough reader round cursor state middle)
    (bound : wide → enough)
    (h : Yields wide (some following) last (round state middle))
    (shorter : last.ahead.length < middle.ahead.length) :
    Arrives wide reader round cursor following last := by
  obtain ⟨rounds, hrounds, goes⟩ := arrives
  obtain ⟨rounds, rfl⟩ : ∃ fewer, rounds = fewer + 1 := ⟨rounds - 1, by omega⟩
  refine ⟨rounds, by omega, fun further value next deep rest => ?_⟩
  exact goes further value next (fun given => bound (deep given)) (h.bind deep rest)

theorem finish (arrives : Arrives enough reader round cursor state middle)
    (h : round state middle = .ok none middle) :
    Yields enough state middle (reader cursor) := by
  obtain ⟨rounds, -, goes⟩ := arrives
  refine goes enough state middle id ?_
  cases rounds with
  | zero => exact .ok rfl
  | succ rounds => exact .after h (.ok rfl)

end Arrives

def commaRound (entry : Reader α) (tooMany : SyntaxError.Cause) (entries : Array α) :
    Reader (Option (Array α)) := do
  if ← accepts .comma then
    if maxArguments ≤ entries.size then report (← peek) tooMany
    return some (entries.push (← entry))
  else
    return none

/-- A loop that reads one piece in each round. No piece begins with `else`, which some of them end at. -/
theorem Yields.pieces {round : Array β → Reader (Option (Array β))}
    {pieces : List (List Token × β)} {rest : List Token} {errors : Array SyntaxError}
    (limit : Nat) (heads : ∀ piece ∈ pieces, piece.1 ≠ [] ∧ headKind piece.1 ≠ .else)
    (step : ∀ piece ∈ pieces, ∀ made after, (piece.1 ++ after).length ≤ limit →
      headKind after ≠ .else → Yields enough (some (Array.push made piece.2)) ⟨after, errors⟩
        (round made ⟨piece.1 ++ after, errors⟩))
    (hrest : headKind rest ≠ .else)
    (stop : ∀ made, round made ⟨rest, errors⟩ = .ok none ⟨rest, errors⟩)
    (rounds : Nat) (made : Array β)
    (bound : (pieces.flatMap Prod.fst ++ rest).length ≤ limit)
    (fuel : (pieces.flatMap Prod.fst).length ≤ rounds) :
    Yields enough (made ++ (pieces.map Prod.snd).toArray) ⟨rest, errors⟩
      (iterate round rounds made ⟨pieces.flatMap Prod.fst ++ rest, errors⟩) := by
  induction pieces generalizing rounds made with
  | nil =>
      rw [List.flatMap_nil, List.nil_append, List.map_nil, Array.append_empty]
      cases rounds with
      | zero => exact .ok rfl
      | succ rounds => exact .after (stop made) (.ok rfl)
  | cons piece others ih =>
      obtain ⟨hsome, -⟩ := heads piece List.mem_cons_self
      have hpositive := List.length_pos_iff.mpr hsome
      rw [List.flatMap_cons, List.append_assoc] at bound ⊢
      rw [List.flatMap_cons, List.length_append] at fuel
      have hafter : headKind (others.flatMap Prod.fst ++ rest) ≠ .else := by
        cases others with
        | nil => exact hrest
        | cons other more =>
            obtain ⟨hother, hhead⟩ := heads other (by simp)
            rw [List.flatMap_cons, List.append_assoc, headKind_append hother]
            exact hhead
      obtain ⟨rounds, rfl⟩ : ∃ fewer, rounds = fewer + 1 := ⟨rounds - 1, by omega⟩
      refine (step piece List.mem_cons_self made _ bound hafter).bind id ?_
      have rest' := ih (fun other member => heads other (List.mem_cons_of_mem _ member))
        (fun other member => step other (List.mem_cons_of_mem _ member)) rounds
        (made.push piece.2) (by rw [List.length_append] at bound; omega) (by omega)
      have hmade : made ++ ((piece :: others).map Prod.snd).toArray =
          made.push piece.2 ++ (others.map Prod.snd).toArray := by simp
      rw [hmade]
      exact rest'

end LoxLang.Grammar
