import MacroLisp.Evaluation
import Mathlib.Logic.Relation

/-!
# The rounds of an expansion

`expandFrom_list` is the loop of an expansion as a step on states: the head of a form is evaluated,
and if it denotes a macro, the macro is called on the unevaluated arguments and its result is the
form of the next round. `Round` is one such round and `Stop` a last look at a form, and
`expandFrom_step` says that an expansion is a chain of rounds with a stop at its end.
-/

namespace MacroLisp

open Eval

theorem recordIf_bind {β : Type} (tracing : Bool) (step : ExpansionStep) (next : Unit → Eval β)
    (s : EvalState) : (recordIf tracing step >>= next) s = next () (recordIf tracing step s).2 := by
  cases tracing <;> rfl

@[simp] theorem recordIf_store (tracing : Bool) (step : ExpansionStep) (s : EvalState) :
    (recordIf tracing step s).2.store = s.store := by
  cases tracing <;> rfl

/-- To evaluate a form is to expand it and to evaluate the expansion. -/
theorem eval_eq_expand_bind (options : EvalOptions) (depth : Nat) (node : Node) (scope : Scope) :
    eval options (depth + 2) node scope =
      expand options (depth + 1) node scope >>= fun expansion =>
        evalExpanded options (depth + 1) expansion scope := by
  cases node <;> rfl

section Atoms

variable (options : EvalOptions) (depth : Nat) (span : Span) (scope : Scope) (s : EvalState)

theorem eval_symbol (name : String) :
    eval options (depth + 1) (.symbol name span) scope s =
      match s.store.get? scope name with
      | some value => (.value (value.withSpan span), s)
      | none => (.fault (.located (.unbound name) s.source span), s) := by
  show (match s.store.get? scope name with
    | some value => pure (value.withSpan span)
    | none => fail (.unbound name) span : Eval Node) s = _
  cases s.store.get? scope name <;> rfl

theorem eval_atom_state (value : Atom) : (eval options depth (.atom value span) scope s).2 = s := by
  cases depth with
  | zero => rfl
  | succ depth =>
    cases value with
    | symbol name =>
      rw [eval_symbol]
      cases s.store.get? scope name <;> rfl
    | _ => rfl

end Atoms

variable {options : EvalOptions} {ev : Evaluator} {scope : Scope}

theorem expandFrom_list {head : Node} (plain : head.specialForm? = none) (fuel steps : Nat)
    (tail : List Node) (span : Span) (s : EvalState) :
    expandFrom options ev (fuel + 1) steps (.list (head :: tail) span) scope s =
      match ev head scope s with
      | (.value (.atom (.expander callable) _), t) =>
        match options.exceeded? steps with
        | some limit => (.fault (.located (.expansionLimit limit head.pretty) t.source span), t)
        | none =>
          match callable.apply ev tail scope span t with
          | (.value output, u) =>
            expandFrom options ev fuel (steps + 1) output scope
              (recordIf options.tracing ⟨head.pretty, .list (head :: tail) span, output⟩ u).2
          | (.fault f, u) => (.fault f, u)
          | (.unfinished, u) => (.unfinished, u)
      | (.value _, t) => (.value (.list (head :: tail) span), t)
      | (.fault f, t) => (.fault f, t)
      | (.unfinished, t) => (.unfinished, t) := by
  rw [expandFrom, plain]
  show (ev head scope >>= _) s = _
  rw [bind_apply]
  rcases ev head scope s with ⟨value | f | _, t⟩
  · rcases value with ⟨_ | _ | _ | _ | _ | _ | callable, place⟩ | ⟨items, place⟩
    case atom.expander =>
      show (match options.exceeded? steps with
        | some limit => _
        | none => _ : Eval Node) t = _
      cases options.exceeded? steps with
      | some limit => rfl
      | none =>
        show (callable.apply ev tail scope span >>= _) t = _
        rw [bind_apply]
        dsimp only
        rcases callable.apply ev tail scope span t with ⟨output | f | _, u⟩
        · exact recordIf_bind _ _ _ _
        · rfl
        · rfl
    all_goals rfl
  · rfl
  · rfl

/-- One round, with the states before and after it. -/
inductive Round (options : EvalOptions) (ev : Evaluator) (scope : Scope) :
    Node × EvalState → Node × EvalState → Prop where
  | intro {head : Node} {tail : List Node} {span : Span} {callable : Callable} {place : Span}
      {output : Node} {s t u : EvalState} (plain : head.specialForm? = none)
      (probe : ev head scope s = (.value (.atom (.expander callable) place), t))
      (call : callable.apply ev tail scope span t = (.value output, u)) :
      Round options ev scope (.list (head :: tail) span, s)
        (output, (recordIf options.tracing ⟨head.pretty, .list (head :: tail) span, output⟩ u).2)

/-- How an expansion that has made so many steps ends at a form, with the state before, the outcome
and the state after. -/
inductive Stop (options : EvalOptions) (ev : Evaluator) (scope : Scope) (steps : Nat) :
    Node × EvalState → Outcome Node × EvalState → Prop where
  | still {node : Node} {s : EvalState}
      (h : ∀ head tail span, node = .list (head :: tail) span → head.specialForm?.isSome) :
      Stop options ev scope steps (node, s) (.value node, s)
  | probe {head : Node} {tail : List Node} {span : Span} {o : Outcome Node} {s t : EvalState}
      (plain : head.specialForm? = none) (probe : ev head scope s = (o, t))
      (h : ∀ callable place, o ≠ .value (.atom (.expander callable) place)) :
      Stop options ev scope steps (.list (head :: tail) span, s)
        (o.map fun _ => .list (head :: tail) span, t)
  | limit {head : Node} {tail : List Node} {span : Span} {callable : Callable} {place : Span}
      {limit : Nat} {s t : EvalState} (plain : head.specialForm? = none)
      (probe : ev head scope s = (.value (.atom (.expander callable) place), t))
      (h : options.exceeded? steps = some limit) :
      Stop options ev scope steps (.list (head :: tail) span, s)
        (.fault (.located (.expansionLimit limit head.pretty) t.source span), t)
  | call {head : Node} {tail : List Node} {span : Span} {callable : Callable} {place : Span}
      {o : Outcome Node} {s t u : EvalState} (plain : head.specialForm? = none)
      (probe : ev head scope s = (.value (.atom (.expander callable) place), t))
      (within : options.exceeded? steps = none)
      (call : callable.apply ev tail scope span t = (o, u)) (h : ∀ output, o ≠ .value output) :
      Stop options ev scope steps (.list (head :: tail) span, s) (o, u)

theorem expandFrom_step (fuel steps : Nat) (node : Node) (s : EvalState) :
    Stop options ev scope steps (node, s) (expandFrom options ev (fuel + 1) steps node scope s) ∨
      options.exceeded? steps = none ∧ ∃ next, Round options ev scope (node, s) next ∧
        expandFrom options ev (fuel + 1) steps node scope s =
          expandFrom options ev fuel (steps + 1) next.1 scope next.2 := by
  match node with
  | .atom _ _ | .list [] _ => exact Or.inl (.still fun _ _ _ h => by cases h)
  | .list (head :: tail) span =>
    cases plain : head.specialForm? with
    | some form =>
      rw [expandFrom, plain]
      refine Or.inl (.still fun _ _ _ h => ?_)
      cases h
      rw [plain]
      rfl
    | none =>
      rw [expandFrom_list plain]
      rcases probe : ev head scope s with ⟨value | f | _, t⟩
      · rcases value with ⟨_ | _ | _ | _ | _ | _ | callable, place⟩ | ⟨items, place⟩
        case atom.expander =>
          dsimp only
          cases hlimit : options.exceeded? steps with
          | some limit => exact Or.inl (.limit plain probe hlimit)
          | none =>
            dsimp only
            rcases hcall : callable.apply ev tail scope span t with ⟨output | f | _, u⟩
            · exact Or.inr ⟨rfl, _, .intro plain probe hcall, rfl⟩
            · exact Or.inl (.call plain probe hlimit hcall fun _ h => by cases h)
            · exact Or.inl (.call plain probe hlimit hcall fun _ h => by cases h)
        all_goals exact Or.inl (.probe plain probe fun _ _ h => by cases h)
      · exact Or.inl (.probe plain probe fun _ _ h => by cases h)
      · exact Or.inl (.probe plain probe fun _ _ h => by cases h)

abbrev Rounds (options : EvalOptions) (ev : Evaluator) (scope : Scope) :
    Node × EvalState → Node × EvalState → Prop :=
  Relation.ReflTransGen (Round options ev scope)

end MacroLisp
