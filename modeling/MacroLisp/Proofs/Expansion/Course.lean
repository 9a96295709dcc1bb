import MacroLisp.Proofs.Evaluation.Convergence
import MacroLisp.Proofs.Evaluation.Round

/-!
# The course of an expansion

An expansion that succeeds makes a number of rounds and then stops at a form, which is its result.
`RoundsIn` counts the rounds. The steps that were made before and the limit only decide whether a
round is allowed; what it does, and where an expansion stops with a result, does not depend on them.
-/

namespace MacroLisp

open Eval

def Node.isExpander : Node → Bool
  | atom (.expander _) _ => true
  | _ => false

section Course

variable {options : EvalOptions} {ev : Evaluator} {scope : Scope} {p q : Node × EvalState}

/-- So many rounds, one after another. -/
inductive RoundsIn (options : EvalOptions) (ev : Evaluator) (scope : Scope) :
    Nat → Node × EvalState → Node × EvalState → Prop where
  | zero (p : Node × EvalState) : RoundsIn options ev scope 0 p p
  | succ {k : Nat} {p q r : Node × EvalState} (first : Round options ev scope p q)
      (rest : RoundsIn options ev scope k q r) : RoundsIn options ev scope (k + 1) p r

theorem RoundsIn.split {k : Nat} (h : RoundsIn options ev scope k p q) {i : Nat} (hi : i < k) :
    ∃ m next, RoundsIn options ev scope i p m ∧ Round options ev scope m next := by
  induction h generalizing i with
  | zero p => omega
  | @succ k p m q first rest ih =>
    cases i with
    | zero => exact ⟨p, m, .zero p, first⟩
    | succ i =>
      obtain ⟨m', next, hrounds, hround⟩ := ih (Nat.lt_of_succ_lt_succ hi)
      exact ⟨m', next, .succ first hrounds, hround⟩

theorem Round.expandFrom_eq (h : Round options ev scope p q) {steps : Nat}
    (hlimit : options.exceeded? steps = none) (fuel : Nat) :
    expandFrom options ev (fuel + 1) steps p.1 scope p.2 =
      expandFrom options ev fuel (steps + 1) q.1 scope q.2 := by
  cases h with
  | intro plain probe call =>
    rw [expandFrom_list plain]
    simp only [probe, hlimit, call]

theorem RoundsIn.expandFrom_eq {k : Nat} (h : RoundsIn options ev scope k p q) {steps : Nat}
    (hlimit : ∀ i < steps + k, options.exceeded? i = none) (fuel : Nat) :
    expandFrom options ev (fuel + k) steps p.1 scope p.2 =
      expandFrom options ev fuel (steps + k) q.1 scope q.2 := by
  induction h generalizing steps with
  | zero p => rfl
  | @succ k p m r first rest ih =>
    have hhere : options.exceeded? steps = none := hlimit steps (by omega)
    have hlater : expandFrom options ev (fuel + k) (steps + 1) m.1 scope m.2 =
        expandFrom options ev fuel (steps + 1 + k) r.1 scope r.2 :=
      ih fun i hi => hlimit i (by omega)
    rw [← Nat.add_assoc, first.expandFrom_eq hhere, hlater]
    congr 1
    omega

/-- An expansion finds no macro call in a form, in the state before and the state after the look at
its head. -/
inductive Settles (ev : Evaluator) (scope : Scope) : Node × EvalState → EvalState → Prop where
  | still {node : Node} {s : EvalState}
      (h : ∀ head tail span, node = .list (head :: tail) span → head.specialForm?.isSome) :
      Settles ev scope (node, s) s
  | probe {head : Node} {tail : List Node} {span : Span} {value : Node} {s t : EvalState}
      (plain : head.specialForm? = none) (probe : ev head scope s = (.value value, t))
      (h : value.isExpander = false) : Settles ev scope (.list (head :: tail) span, s) t

theorem Settles.expandFrom_eq {node : Node} {s t : EvalState} (h : Settles ev scope (node, s) t)
    (fuel steps : Nat) :
    expandFrom options ev (fuel + 1) steps node scope s = (.value node, t) := by
  cases h with
  | still h =>
    match node with
    | .atom _ _ | .list [] _ => rfl
    | .list (head :: tail) span =>
      rw [expandFrom, if_pos (h head tail span rfl)]
      rfl
  | @probe head tail span value _ _ plain probe hvalue =>
    rw [expandFrom_list plain, probe]
    rcases value with ⟨_ | _ | _ | _ | _ | _ | callable, place⟩ | ⟨items, place⟩
    case atom.expander => cases hvalue
    all_goals rfl

theorem Stop.settles {node r : Node} {steps : Nat} {s t : EvalState} {o : Outcome Node}
    (h : Stop options ev scope steps (node, s) (o, t)) (ho : o = .value r) :
    r = node ∧ Settles ev scope (node, s) t := by
  cases h with
  | still h =>
    cases ho
    exact ⟨rfl, .still h⟩
  | @probe _ _ _ o _ _ plain probe hvalue =>
    cases o with
    | value value =>
      cases ho
      refine ⟨rfl, .probe plain probe ?_⟩
      rcases value with ⟨_ | _ | _ | _ | _ | _ | callable, place⟩ | ⟨items, place⟩
      case atom.expander => exact absurd rfl (hvalue callable place)
      all_goals rfl
    | fault f => cases ho
    | unfinished => cases ho
  | limit => cases ho
  | call _ _ _ _ h => exact absurd ho (h r)

/-- What succeeds has made rounds up to its result. -/
theorem expandFrom_value {fuel steps : Nat} {node r : Node} {s t : EvalState}
    (h : expandFrom options ev fuel steps node scope s = (.value r, t)) :
    ∃ k u, RoundsIn options ev scope k (node, s) (r, u) ∧ Settles ev scope (r, u) t := by
  induction fuel generalizing steps node s with
  | zero => cases h
  | succ fuel ih =>
    rcases expandFrom_step fuel steps node s with hstop | ⟨-, ⟨output, u⟩, hround, hrest⟩
    · rw [h] at hstop
      obtain ⟨rfl, hsettles⟩ := hstop.settles rfl
      exact ⟨0, s, .zero _, hsettles⟩
    · rw [hrest] at h
      -- one round is behind, in front of those that the rest of the loop makes
      obtain ⟨k, v, hrounds, hsettles⟩ := ih h
      exact ⟨k + 1, v, .succ hround hrounds, hsettles⟩

end Course

section Depth

variable {o : EvalOptions} {scope : Scope} {d d' : Nat} {p q : Node × EvalState}

theorem callable_deepens (o : EvalOptions) (callable : Callable) (args : List Node) (scope : Scope)
    (call : Span) : Deepens fun d => callable.apply (eval o d) args scope call :=
  deepens_of_follows fun _ _ hd =>
    callable_follows (eval_follows o.follow_self hd) callable args scope call

theorem Round.deepen (h : Round o (eval o d) scope p q) (hd : d ≤ d') :
    Round o (eval o d') scope p q := by
  cases h with
  | @intro head tail span callable _ _ _ _ _ plain probe call =>
    exact .intro plain ((eval_deepens o scope head).reach probe trivial hd)
      ((callable_deepens o callable tail scope span).reach call trivial hd)

theorem RoundsIn.deepen {k : Nat} (h : RoundsIn o (eval o d) scope k p q) (hd : d ≤ d') :
    RoundsIn o (eval o d') scope k p q := by
  induction h with
  | zero p => exact .zero p
  | succ first _ ih => exact .succ (first.deepen hd) ih

theorem Settles.deepen {t : EvalState} (h : Settles (eval o d) scope p t) (hd : d ≤ d') :
    Settles (eval o d') scope p t := by
  cases h with
  | still h => exact .still h
  | @probe head _ _ _ _ _ plain probe hvalue =>
    exact .probe plain ((eval_deepens o scope head).reach probe trivial hd) hvalue

/-- Within some depth, the expansion makes so many rounds. -/
def MakesRounds (o : EvalOptions) (scope : Scope) (k : Nat) (p q : Node × EvalState) : Prop :=
  ∃ d, RoundsIn o (eval o d) scope k p q

def ComesToRest (o : EvalOptions) (scope : Scope) (p : Node × EvalState) (t : EvalState) : Prop :=
  ∃ d, Settles (eval o d) scope p t

theorem MakesRounds.expand_converges {k : Nat} {t : EvalState} (h : MakesRounds o scope k p q)
    (hrest : ComesToRest o scope q t) (hlimit : ∀ i < k, o.exceeded? i = none) :
    Converges (fun d => expand o d p.1 scope) p.2 (.value q.1) t := by
  obtain ⟨d, hrounds⟩ := h
  obtain ⟨d', hsettles⟩ := hrest
  refine ⟨trivial, (d + d') + 1 + k, ?_⟩
  have hrounds' : RoundsIn o (eval o (d + d' + 1 + k)) scope k p q := hrounds.deepen (by omega)
  have hsettles' : Settles (eval o (d + d' + 1 + k)) scope (q.1, q.2) t :=
    hsettles.deepen (by omega)
  show expandFrom o (eval o (d + d' + 1 + k)) (d + d' + 1 + k) 0 p.1 scope p.2 = _
  rw [hrounds'.expandFrom_eq (fun i hi => hlimit i (by omega)), hsettles'.expandFrom_eq]

end Depth

end MacroLisp
