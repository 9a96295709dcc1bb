import MacroLisp.Engine
import MacroLisp.Proofs.Likeness.Evaluation

/-!
# Spans do not matter

Two runs that have everything in common but spans and sources come to the same outcome, print the
same and leave the same bindings, up to spans. So the form that `read` makes out of a string, all of
it at the span of the call, is evaluated as the form that stands in the string.
-/

namespace MacroLisp

/-- Everything is the same in both runs but spans, sources, and where frames and closures are. -/
def Comparison.upToSpans (frames closures : Pairing) : Comparison where
  located := False
  logged := True
  names _ := True
  frames := frames
  closures := closures
  word _ := trivial
  rest _ _ _ := trivial

abbrev Comparison.sameButSpans : Comparison :=
  .upToSpans (.identity True) (.identity True)

section Same

variable {store : Store}

theorem Callable.like_same (f : Callable) :
    f.Like (Comparison.sameButSpans.likeness store) f := by
  cases f with
  | primitive p => exact .primitive p
  | closure id => exact .closure ⟨rfl, Or.inr trivial⟩

theorem Atom.like_same (value : Atom) :
    value.Like (Comparison.sameButSpans.likeness store) value := by
  cases value with
  | nil => exact .nil
  | bool b => exact .bool b
  | number x => exact .number x
  | string s => exact .string s
  | symbol name => exact .symbol trivial
  | function f => exact .function f.like_same
  | expander f => exact .expander f.like_same

mutual

theorem Node.like_same (node : Node) : node.Like (Comparison.sameButSpans.likeness store) node :=
  match node with
  | .atom value _ => .atom value.like_same fun _ => rfl
  | .list items _ => like_list (items_like_same items) fun _ => rfl

theorem Node.items_like_same (items : List Node) :
    List.Forall₂ (Node.Like (Comparison.sameButSpans.likeness store)) items items :=
  match items with
  | [] => .nil
  | item :: items => .cons item.like_same (items_like_same items)

end

theorem Scope.like_same (scope : Scope) :
    scope.Like (Comparison.sameButSpans.likeness store) scope :=
  List.forall₂_same.2 fun _ _ => ⟨rfl, Or.inr trivial⟩

theorem Frame.like_same (frame : Frame) :
    frame.Like (Comparison.sameButSpans.likeness store) frame where
  names _ _ := trivial
  values name := by
    cases frame.get? name with
    | some value => exact .some value.like_same
    | none => exact .none

theorem Closure.like_same (closure : Closure) :
    closure.Like (Comparison.sameButSpans.likeness store) closure where
  params := ⟨rfl, rfl, fun _ => rfl, fun _ _ => trivial⟩
  body := Node.items_like_same closure.body
  scope := closure.scope.like_same
  span _ := rfl
  source _ := rfl

theorem links_same {α : Type} {R : α → α → Prop} (hR : ∀ x, R x x) (xs : Array α) :
    Links (.identity True) R xs xs where
  ahead _ := rfl
  each i j hij := by
    obtain ⟨rfl, -⟩ := hij
    cases xs[i]? with
    | some x => exact .some (hR x)
    | none => exact .none

theorem EvalState.like_same (s : EvalState) (source : Source) :
    s.Like .sameButSpans { s with source } where
  store := ⟨links_same Frame.like_same _, links_same Closure.like_same _⟩
  source := nofun
  emitted _ := List.forall₂_same.2 fun _ _ => ⟨rfl, fun _ => rfl⟩
  trace _ := List.forall₂_same.2 fun step _ => ⟨rfl, step.input.like_same, step.output.like_same⟩

end Same

/-- Like values that print the same, faults of one kind that say the same, or no outcome yet. -/
inductive Outcome.SameButSpans (L : Likeness) : Outcome Node → Outcome Node → Prop where
  | value {v v' : Node} (hlike : v.Like L v') (hprinted : v.pretty = v'.pretty) :
      SameButSpans L (.value v) (.value v')
  | fault {f f' : Fault} (hkind : f.kind = f'.kind) (hmessage : f.cause.message = f'.cause.message)
      (hhelp : f.help = f'.help) : SameButSpans L (.fault f) (.fault f')
  | unfinished : SameButSpans L .unfinished .unfinished

/-- The results of two runs that nothing but spans and sources tells apart. -/
structure SameButSpans (c : Comparison) (r r' : Outcome Node × EvalState) : Prop where
  outcome : r.1.SameButSpans (c.likeness r.2.store) r'.1
  emitted : r.2.emitted.toList.map (·.text) = r'.2.emitted.toList.map (·.text)
  bindings : r.2.store.Like c r'.2.store
  trace : List.Forall₂ (ExpansionStep.Like (c.likeness r.2.store)) r.2.trace.toList
    r'.2.trace.toList

theorem sameButSpans_of_like {c : Comparison} {L : Likeness} {x y : Eval Node} {s t : EvalState}
    (h : Eval.Like c L Node.Like x y) (hlogged : c.logged) (hst : s.Like c t)
    (hL : L.Within (c.likeness s.store)) : SameButSpans c (x s) (y t) := by
  obtain ⟨houtcome, hstate, -⟩ := h s t hst hL
  refine ⟨?_, ?_, hstate.store, hstate.trace hlogged⟩
  · generalize (y t).1 = o' at houtcome ⊢
    generalize (x s).1 = o at houtcome ⊢
    cases houtcome with
    | value h => exact .value h h.pretty_eq
    | fault h =>
      exact .fault (congrArg Cause.kind h.cause) (congrArg Cause.message h.cause)
        (by rw [Fault.help, Fault.help, h.note, h.cause])
    | unfinished => exact .unfinished
  · have hemitted := hstate.emitted hlogged
    generalize (x s).2.emitted.toList = es at hemitted ⊢
    generalize (y t).2.emitted.toList = es' at hemitted ⊢
    induction hemitted with
    | nil => rfl
    | cons he _ ih => rw [List.map_cons, List.map_cons, he.text, ih]

/-- Evaluations of forms that are the same up to spans, in states that are, have results that are:
the outcome, what was printed, all bindings and the trace. Which frames and closures stand for each
other may be chosen, if it is one to one. In particular the form that `read` makes out of a string
is evaluated as the form in the string, in the same scope. -/
theorem eval_sameButSpans (options : EvalOptions) (depth : Nat) :
    (∀ (frames closures : Pairing) (s t : EvalState) (node node' : Node) (scope scope' : Scope),
      s.Like (.upToSpans frames closures) t →
      node.Like ((Comparison.upToSpans frames closures).likeness s.store) node' →
      scope.Like ((Comparison.upToSpans frames closures).likeness s.store) scope' →
        SameButSpans (.upToSpans frames closures) (eval options depth node scope s)
          (eval options depth node' scope' t)) ∧
    ∀ (name text : String) (form : Node), Reader.readOne ⟨name, text⟩ = .ok form →
      ∀ (place call : Span) (scope : Scope) (s : EvalState),
        Primitive.read.apply (eval options depth) [.string text place] scope call s =
            (.value (form.collapse call), s) ∧
          SameButSpans .sameButSpans (eval options depth (form.collapse call) scope s)
            (eval options depth form scope s) := by
  refine ⟨fun frames closures s t node node' scope scope' hst hnode hscope => ?_,
    fun name text form hform place call scope s => ⟨?_, ?_⟩⟩
  · exact sameButSpans_of_like (eval_like options depth hnode hscope) trivial hst (.refl _)
  · exact Primitive.read_apply_of_parse (Reader.readOne_eq_ok_iff.1 hform) _ place scope call s
  · have hlike : (form.collapse call).Like (Comparison.sameButSpans.likeness s.store) form :=
      form.like_same.collapse_left nofun
    exact sameButSpans_of_like (eval_like options depth hlike scope.like_same) trivial
      (s.like_same s.source) (.refl _)

theorem eval_sameButSpans_quoted :
    let options : EvalOptions := ⟨none, true⟩
    let engine := Engine.new none
    let s := engine.initialState ⟨"first", ""⟩
    let t := engine.initialState ⟨"second", ""⟩
    let node (a b : Nat) := Node.form "quote" [.nil ⟨a + 1, b⟩] ⟨a, b⟩
    let call : Span := ⟨7, 9⟩
    (s.Like .sameButSpans t ∧ (node 0 4).Like (Comparison.sameButSpans.likeness s.store) (node 5 9) ∧
      engine.global.Like (Comparison.sameButSpans.likeness s.store) engine.global ∧
      SameButSpans .sameButSpans (eval options 2 (node 0 4) engine.global s)
        (eval options 2 (node 5 9) engine.global t)) ∧
    Reader.readOne ⟨"t", "'nil"⟩ = .ok (node 0 4) ∧
      Primitive.read.apply (eval options 2) [.string "'nil" call] engine.global call s =
        (.value ((node 0 4).collapse call), s) := by
  intro options engine s t node call
  have hst : s.Like .sameButSpans t := s.like_same ⟨"second", ""⟩
  have hnode : (node 0 4).Like (Comparison.sameButSpans.likeness s.store) (node 5 9) :=
    Node.like_form trivial (.cons (.atom .nil nofun) .nil) nofun
  have hglobal : engine.global.Like (Comparison.sameButSpans.likeness s.store) engine.global :=
    engine.global.like_same
  have hparse : Reader.parse "'nil" = .ok [node 0 4] := by
    have htokens : Token.scan "'nil".toList =
        [⟨.trigger .quote, 0, 1⟩, ⟨.word ['n', 'i', 'l'], 1, 4⟩] := by decide +kernel
    rw [Reader.parse, if_neg (by decide), htokens]
    exact (Reader.Brackets.prefixed (.word .nil .nil)).formsOf_eq _
  have hread : Reader.readOne ⟨"t", "'nil"⟩ = .ok (node 0 4) := Reader.readOne_eq_ok_iff.2 hparse
  have heval := eval_sameButSpans options 2
  exact ⟨⟨hst, hnode, hglobal, heval.1 _ _ s t _ _ _ _ hst hnode hglobal⟩, hread,
    (heval.2 "t" "'nil" _ hread call call engine.global s).1⟩

end MacroLisp
