import MacroLisp.Proofs.Evaluation.Convergence
import MacroLisp.Proofs.Evaluation.Logs
import MacroLisp.Proofs.Evaluation.Round

/-!
# The trace of an expansion

Whatever runs only adds to the trace, and what it adds are steps of expansions that were really
made. With tracing on, an expansion adds one step for each of its rounds, behind the steps of the
expansions that were started meanwhile: by the look at the head of a form and by the call of the
macro. `nestedSteps` are these other steps. The round's own step comes last, so a call that fails
and a round beyond the limit have none.
-/

namespace MacroLisp

open Eval

/-- The steps that the computation records on its own. -/
def Eval.recorded {α : Type} (x : Eval α) (s : EvalState) : List ExpansionStep :=
  (x { s with trace := #[] }).2.trace.toList

theorem Eval.IgnoresLogs.trace_eq {α : Type} {x : Eval α} (hx : Eval.IgnoresLogs x)
    (s : EvalState) : (x s).2.trace.toList = s.trace.toList ++ x.recorded s := by
  have h := hx #[] s.trace { s with trace := #[] }
  have hs : EvalState.behind #[] s.trace { s with trace := #[] } = s := by
    simp only [EvalState.behind, Array.empty_append, Array.append_empty]
  rw [hs] at h
  rw [h, recorded, EvalState.behind, Array.toList_append]

def Node.headText : Node → String
  | .list (head :: _) _ => head.pretty
  | _ => ""

namespace ExpansionStep

def ofCall (input output : Node) : ExpansionStep := ⟨input.headText, input, output⟩

/-- The input of the step is a list, with the head that the step names. -/
def Headed (step : ExpansionStep) : Prop :=
  ∃ head tail span, step.input = .list (head :: tail) span ∧ step.head = head.pretty

/-- The step is a round of some expansion. -/
def Made (options : EvalOptions) (step : ExpansionStep) : Prop :=
  step.Headed ∧ ∃ depth scope s t,
    Round options (eval options depth) scope (step.input, s) (step.output, t)

end ExpansionStep

/-- Every step starts from the output of the one before it, and the first one from the first form;
the last form is the output of the last one. -/
def Linked : Node → List ExpansionStep → Node → Prop
  | first, [], last => first = last
  | first, step :: steps, last => step.input = first ∧ step.Headed ∧ Linked step.output steps last

section Records

variable {options : EvalOptions} {α : Type}

def EvalState.Grows (options : EvalOptions) (s t : EvalState) : Prop :=
  ∃ steps, t.trace.toList = s.trace.toList ++ steps ∧ ∀ step ∈ steps, step.Made options

theorem EvalState.Grows.trans {s t u : EvalState} (hfirst : s.Grows options t)
    (hrest : t.Grows options u) : s.Grows options u := by
  obtain ⟨first, ht, hfirst⟩ := hfirst
  obtain ⟨rest, hu, hrest⟩ := hrest
  refine ⟨first ++ rest, ?_, List.forall_mem_append.2 ⟨hfirst, hrest⟩⟩
  rw [hu, ht, List.append_assoc]

def Eval.RecordsMade (options : EvalOptions) (x : Eval α) : Prop :=
  ∀ s : EvalState, s.Grows options (x s).2

theorem Eval.RecordsMade.recorded {x : Eval α} (hx : x.RecordsMade options) (s : EvalState) :
    ∀ step ∈ x.recorded s, step.Made options := by
  obtain ⟨steps, hsteps, hmade⟩ := hx { s with trace := #[] }
  rw [Eval.recorded, hsteps]
  exact hmade

theorem recordsMade_of_trace_eq {x : Eval α} (h : ∀ s, (x s).2.trace = s.trace) :
    x.RecordsMade options := fun s =>
  ⟨[], by rw [h, List.append_nil], List.forall_mem_nil _⟩

theorem recordsMade_bind {β : Type} {x : Eval α} {f : α → Eval β} (hx : x.RecordsMade options)
    (hf : ∀ a, (f a).RecordsMade options) : (x >>= f).RecordsMade options := by
  intro s
  have hfirst := hx s
  rw [bind_apply]
  generalize x s = r at hfirst ⊢
  obtain ⟨a | e | _, t⟩ := r
  · exact hfirst.trans (hf a t)
  · exact hfirst
  · exact hfirst

theorem recordsMade_act {scope : Scope} {x : Eval α} (h : Act scope x) :
    x.RecordsMade options := by
  cases h <;> exact recordsMade_of_trace_eq fun _ => rfl

theorem recordsMade_passable :
    Passable (fun _ : Unit => Door.plain) fun _ _ x => (x ()).RecordsMade options where
  act := recordsMade_act
  unreadable _ := recordsMade_of_trace_eq fun _ => rfl
  bind := recordsMade_bind
  inChild _ _ _ := recordsMade_bind (recordsMade_of_trace_eq fun _ => rfl)
  enter closure _ hx s := hx { s with source := closure.source }

theorem callable_recordsMade {ev : Evaluator}
    (hev : ∀ node scope, (ev node scope).RecordsMade options) (callable : Callable)
    (args : List Node) (scope : Scope) (call : Span) :
    (callable.apply ev args scope call).RecordsMade options :=
  @callable_family _ _ recordsMade_passable (fun _ => ev) hev scope callable args scope call

end Records

section Rounds

variable {options : EvalOptions} {ev : Evaluator} {scope : Scope} {n : Nat}
  {p q : Node × EvalState}

theorem Round.headed (h : Round options ev scope p q) :
    (ExpansionStep.ofCall p.1 q.1).Headed := by
  cases h with
  | @intro head tail span => exact ⟨head, tail, span, rfl, rfl⟩

/-- The steps that the call of a macro records, if the look at the head has found one and the limit
allows the call. -/
def calledSteps (options : EvalOptions) (ev : Evaluator) (scope : Scope) (n : Nat)
    (tail : List Node) (span : Span) : Outcome Node × EvalState → List ExpansionStep
  | (.value (.atom (.expander callable) _), t) =>
    if (options.exceeded? n).isSome then []
    else (callable.apply ev tail scope span).recorded t
  | _ => []

/-- The steps of other expansions that are recorded while an expansion, after `n` rounds, is at a
form: by the look at the head of the form and by the call of the macro that is found there. -/
def nestedSteps (options : EvalOptions) (ev : Evaluator) (scope : Scope) (n : Nat) :
    Node × EvalState → List ExpansionStep
  | (.list (head :: tail) span, s) =>
    if head.specialForm?.isSome then []
    else (ev head scope).recorded s ++ calledSteps options ev scope n tail span (ev head scope s)
  | _ => []

theorem nestedSteps_list {head : Node} {tail : List Node} {span : Span} {s t : EvalState}
    {o : Outcome Node} (plain : head.specialForm? = none) (probe : ev head scope s = (o, t)) :
    nestedSteps options ev scope n (.list (head :: tail) span, s) =
      (ev head scope).recorded s ++ calledSteps options ev scope n tail span (o, t) := by
  simp [nestedSteps, plain, probe]

section Recording

variable (hev : ev.IgnoresLogs)

include hev

theorem probe_trace_eq {head : Node} {s t : EvalState} {o : Outcome Node}
    (probe : ev head scope s = (o, t)) :
    t.trace.toList = s.trace.toList ++ (ev head scope).recorded s := by
  rw [← (hev head scope).trace_eq s, probe]

theorem call_trace_eq {head : Node} {tail : List Node} {span place : Span} {callable : Callable}
    {s t u : EvalState} {o : Outcome Node} (plain : head.specialForm? = none)
    (probe : ev head scope s = (.value (.atom (.expander callable) place), t))
    (hwithin : options.exceeded? n = none) (call : callable.apply ev tail scope span t = (o, u)) :
    u.trace.toList =
      s.trace.toList ++ nestedSteps options ev scope n (.list (head :: tail) span, s) := by
  have hcalled : u.trace.toList =
      t.trace.toList ++ (callable.apply ev tail scope span).recorded t := by
    rw [← (callable_ignoresLogs hev callable tail scope span).trace_eq t, call]
  rw [nestedSteps_list plain probe, hcalled, probe_trace_eq hev probe, List.append_assoc,
    calledSteps, hwithin]
  rfl

/-- A round records the nested steps and then, with tracing on, its own one. -/
theorem Round.trace_eq (h : Round options ev scope p q) (hwithin : options.exceeded? n = none) :
    q.2.trace.toList = p.2.trace.toList ++ (nestedSteps options ev scope n p ++
      if options.tracing then [.ofCall p.1 q.1] else []) := by
  cases h with
  | @intro head tail span callable place output s t u plain probe call =>
    let own := ExpansionStep.ofCall (.list (head :: tail) span) output
    have hown : (recordIf options.tracing own u).2.trace.toList =
        u.trace.toList ++ if options.tracing then [own] else [] := by
      cases options.tracing with
      | false => exact (List.append_nil _).symm
      | true => exact Array.toList_push
    rw [← List.append_assoc, ← call_trace_eq hev plain probe hwithin call]
    exact hown

theorem Stop.trace_eq {node : Node} {s t : EvalState} {o : Outcome Node}
    (h : Stop options ev scope n (node, s) (o, t)) :
    t.trace.toList = s.trace.toList ++ nestedSteps options ev scope n (node, s) := by
  cases h with
  | still h =>
    match node with
    | .atom _ _ | .list [] _ => exact (List.append_nil _).symm
    | .list (head :: tail) span => simp [nestedSteps, h head tail span rfl]
  | @probe head tail span o _ _ plain probe h =>
    have hnone : calledSteps options ev scope n tail span (o, t) = [] := by
      unfold calledSteps
      split
      · next heq =>
        cases heq
        exact absurd rfl (h _ _)
      · rfl
    rw [nestedSteps_list plain probe, hnone, List.append_nil, probe_trace_eq hev probe]
  | limit plain probe h =>
    rw [nestedSteps_list plain probe, calledSteps, h, probe_trace_eq hev probe]
    exact congrArg _ (List.append_nil _).symm
  | call plain probe hwithin call => exact call_trace_eq hev plain probe hwithin call

end Recording

theorem Stop.value_eq {node r : Node} {s t : EvalState} {o : Outcome Node}
    (h : Stop options ev scope n (node, s) (o, t)) (ho : o = .value r) : node = r := by
  cases h with
  | still => exact Outcome.value.inj ho
  | @probe _ _ _ o =>
    cases o with
    | value value => exact Outcome.value.inj ho
    | fault f => cases ho
    | unfinished => cases ho
  | limit => cases ho
  | call _ _ _ _ h => exact absurd ho (h r)

end Rounds

section Made

variable {options : EvalOptions} {ev : Evaluator} {scope : Scope} {n : Nat}

theorem nestedSteps_made (hev : ∀ node scope, (ev node scope).RecordsMade options)
    (p : Node × EvalState) : ∀ step ∈ nestedSteps options ev scope n p, step.Made options := by
  obtain ⟨node, s⟩ := p
  match node with
  | .atom _ _ | .list [] _ => exact List.forall_mem_nil _
  | .list (head :: tail) span =>
    simp only [nestedSteps]
    split
    · exact List.forall_mem_nil _
    · refine List.forall_mem_append.2 ⟨(hev head scope).recorded s, ?_⟩
      unfold calledSteps
      split
      · split
        · exact List.forall_mem_nil _
        · exact (callable_recordsMade hev _ tail scope span).recorded _
      · exact List.forall_mem_nil _

theorem expandFrom_recordsMade {depth : Nat}
    (hmade : ∀ node scope, (eval options depth node scope).RecordsMade options) (fuel n : Nat)
    (node : Node) (scope : Scope) :
    (expandFrom options (eval options depth) fuel n node scope).RecordsMade options := by
  have hev := eval_ignoresLogs options depth
  induction fuel generalizing n node with
  | zero => exact recordsMade_of_trace_eq fun _ => rfl
  | succ fuel ih =>
    intro s
    rcases expandFrom_step fuel n node s with hstop | ⟨hwithin, next, hround, hrest⟩
    · exact ⟨_, hstop.trace_eq hev, nestedSteps_made hmade _⟩
    · have hown : ∀ step ∈ if options.tracing then [ExpansionStep.ofCall node next.1] else [],
          step.Made options := by
        split
        · exact List.forall_mem_singleton.2 ⟨hround.headed, depth, scope, s, next.2, hround⟩
        · exact List.forall_mem_nil _
      have hgrows : s.Grows options next.2 := ⟨_, hround.trace_eq hev hwithin,
        List.forall_mem_append.2 ⟨nestedSteps_made hmade _, hown⟩⟩
      rw [hrest]
      exact hgrows.trans (ih (n + 1) next.1 next.2)

theorem eval_recordsMade (depth : Nat) (node : Node) (scope : Scope) :
    (eval options depth node scope).RecordsMade options := by
  induction depth generalizing node scope with
  | zero => exact recordsMade_of_trace_eq fun _ => rfl
  | succ depth ih =>
    have hex := expandFrom_recordsMade ih depth 0
    exact @evalWith_family _ _ recordsMade_passable (fun _ => eval options depth)
      (fun _ => expandFrom options (eval options depth) depth 0) ih hex node scope

end Made

section Course

variable {options : EvalOptions} {ev : Evaluator} {scope : Scope} {n : Nat}
  {p q : Node × EvalState}

/-- The rounds of an expansion, each with the nested steps and its own step. -/
inductive TracedRounds (options : EvalOptions) (ev : Evaluator) (scope : Scope) :
    Nat → Node × EvalState → List (List ExpansionStep × ExpansionStep) → Node × EvalState →
      Prop where
  | nil {n : Nat} {p : Node × EvalState} : TracedRounds options ev scope n p [] p
  | cons {n : Nat} {p q r : Node × EvalState} {rounds : List (List ExpansionStep × ExpansionStep)}
      (within : options.exceeded? n = none) (first : Round options ev scope p q)
      (rest : TracedRounds options ev scope (n + 1) q rounds r) :
      TracedRounds options ev scope n p
        ((nestedSteps options ev scope n p, .ofCall p.1 q.1) :: rounds) r

theorem TracedRounds.trace_eq {rounds : List (List ExpansionStep × ExpansionStep)}
    (h : TracedRounds options ev scope n p rounds q) (hev : ev.IgnoresLogs)
    (htracing : options.tracing = true) :
    q.2.trace.toList = p.2.trace.toList ++ rounds.flatMap fun round => round.1 ++ [round.2] := by
  induction h with
  | nil => exact (List.append_nil _).symm
  | cons within first _ ih =>
    rw [ih, first.trace_eq hev within, htracing, List.flatMap_cons, List.append_assoc]
    rfl

theorem TracedRounds.linked {rounds : List (List ExpansionStep × ExpansionStep)}
    (h : TracedRounds options ev scope n p rounds q) : Linked p.1 (rounds.map (·.2)) q.1 := by
  induction h with
  | nil => rfl
  | cons _ first _ ih => exact ⟨rfl, first.headed, ih⟩

theorem TracedRounds.made {rounds : List (List ExpansionStep × ExpansionStep)}
    (h : TracedRounds options ev scope n p rounds q)
    (hev : ∀ node scope, (ev node scope).RecordsMade options) :
    ∀ round ∈ rounds, ∀ step ∈ round.1, step.Made options := by
  induction h with
  | nil => exact List.forall_mem_nil _
  | cons _ _ _ ih => exact List.forall_mem_cons.2 ⟨nestedSteps_made hev _, ih⟩

theorem expandFrom_traced {fuel : Nat} {node : Node} {s t : EvalState} {o : Outcome Node}
    (h : expandFrom options ev fuel n node scope s = (o, t)) (hfin : o.Finished) :
    ∃ rounds form u, TracedRounds options ev scope n (node, s) rounds (form, u) ∧
      Stop options ev scope (n + rounds.length) (form, u) (o, t) := by
  induction fuel generalizing n node s with
  | zero =>
    cases h
    exact hfin.elim
  | succ fuel ih =>
    rcases expandFrom_step fuel n node s with hstop | ⟨hwithin, next, hround, hrest⟩
    · exact ⟨[], node, s, .nil, h ▸ hstop⟩
    · rw [hrest] at h
      -- the rest of the loop counts the round that has been made among its steps
      obtain ⟨rounds, form, u, hrounds, hstop⟩ := ih h
      refine ⟨_ :: rounds, form, u, .cons hwithin hround hrounds, ?_⟩
      rwa [List.length_cons, Nat.add_comm rounds.length, ← Nat.add_assoc]

end Course

/-- Evaluations and expansions, finished or not, only add to the trace, and what they add are rounds
of expansions. With tracing on, an expansion that finishes has made rounds from the given form to a
last one, which is the result if it succeeds. Every round adds the nested steps and then its own
one, and the last form adds nested steps only, so the whole trace is known. The own steps are
linked: each names the printed head of its input, and its output is the next input. -/
theorem trace_is_faithful (options : EvalOptions) (depth : Nat) (scope : Scope) (s : EvalState) :
    (∀ node, s.Grows options (eval options depth node scope s).2) ∧
    (∀ node, s.Grows options (expand options depth node scope s).2) ∧
    ∀ node o t, options.tracing = true → expand options depth node scope s = (o, t) →
      o.Finished → ∃ rounds form u,
        TracedRounds options (eval options depth) scope 0 (node, s) rounds (form, u) ∧
        Stop options (eval options depth) scope rounds.length (form, u) (o, t) ∧
        (let last := nestedSteps options (eval options depth) scope rounds.length (form, u)
        t.trace.toList =
          s.trace.toList ++ rounds.flatMap (fun round => round.1 ++ [round.2]) ++ last ∧
        Linked node (rounds.map (·.2)) form ∧ (∀ r, o = .value r → form = r) ∧
        (∀ round ∈ rounds, ∀ step ∈ round.1, step.Made options) ∧
        ∀ step ∈ last, step.Made options) := by
  have hev := eval_ignoresLogs options depth
  have hmade : ∀ node scope, (eval options depth node scope).RecordsMade options :=
    eval_recordsMade depth
  refine ⟨fun node => hmade node scope s,
    fun node => expandFrom_recordsMade hmade depth 0 node scope s,
    fun node o t htracing h hfin => ?_⟩
  obtain ⟨rounds, form, u, hrounds, hstop⟩ := expandFrom_traced h hfin
  rw [Nat.zero_add] at hstop
  exact ⟨rounds, form, u, hrounds, hstop,
    by rw [hstop.trace_eq hev, hrounds.trace_eq hev htracing], hrounds.linked,
    fun r ho => hstop.value_eq ho, hrounds.made hmade, nestedSteps_made hmade _⟩

/-- The macro `m` calls the macro `n` in its body, and its result is a call of `n` again: the step
of the call in the body comes before the own steps of the two rounds. With a limit of one the second
round is not made. -/
theorem trace_is_faithful_nested :
    let p : Span := ⟨0, 0⟩
    let list (items : List Node) := Node.list items p
    let symbol (name : String) := Node.symbol name p
    let body := list [symbol "n", symbol "list", list [symbol "quote", symbol "n"], .string "a" p]
    let m : Closure := ⟨⟨[], none, p⟩, [body], ⟨0, []⟩, p, ⟨"t", ""⟩⟩
    let s : EvalState :=
      ⟨⟨#[⟨[("list", .atom (.function (.primitive .list)) p),
        ("n", .atom (.expander (.primitive .list)) p),
        ("m", .atom (.expander (.closure 0)) p)]⟩], #[m]⟩, ⟨"u", ""⟩, #[], #[]⟩
    let scope : Scope := ⟨0, []⟩
    let call := list [symbol "m"]
    let second := list [symbol "n", .string "a" p]
    let result := list [.string "a" p]
    let nested : ExpansionStep :=
      ⟨"n", body, list [symbol "list", list [symbol "quote", symbol "n"], .string "a" p]⟩
    (∃ t, expand ⟨some 2, true⟩ 6 call scope s = (.value result, t) ∧
      t.trace.toList = [nested, ⟨"m", call, second⟩, ⟨"n", second, result⟩] ∧
      ∃ (rounds : List (List ExpansionStep × ExpansionStep)) (last : List ExpansionStep),
        Linked call (rounds.map (·.2)) result ∧
        t.trace.toList = rounds.flatMap (fun round => round.1 ++ [round.2]) ++ last) ∧
    ∃ f t, expand ⟨some 1, true⟩ 6 call scope s = (.fault f, t) ∧
      t.trace.toList = [nested, ⟨"m", call, second⟩] := by
  intro p list symbol body m s scope call second result nested
  let t := (expand ⟨some 2, true⟩ 6 call scope s).2
  have h : expand ⟨some 2, true⟩ 6 call scope s = (.value result, t) := rfl
  obtain ⟨-, -, hfaithful⟩ := trace_is_faithful ⟨some 2, true⟩ 6 scope s
  obtain ⟨rounds, form, u, -, -, htrace, hlinked, hvalue, -⟩ :=
    hfaithful call (.value result) t rfl h trivial
  rw [hvalue result rfl] at hlinked
  exact ⟨⟨t, h, rfl, rounds, _, hlinked, htrace⟩, _, _, rfl, rfl⟩

end MacroLisp
