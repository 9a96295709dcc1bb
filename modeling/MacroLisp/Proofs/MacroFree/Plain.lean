import MacroLisp.Proofs.Evaluation.Convergence
import MacroLisp.Proofs.MacroFree.Tracking
import MacroLisp.Proofs.Scope.Confinement

/-!
# Evaluation without expansion

The plain evaluator never expands a form that it evaluates. Expanding a form first makes no
difference if its head is no list and no macro: the head is evaluated once more than it is in any
case, which fails as it fails there and changes nothing. So in a region without macros the evaluator
and the plain evaluator agree, as long as no form is evaluated that is headed by a list or defines a
macro. What such a form is put to is said by an evaluator that raises an alarm on it.
-/

namespace MacroLisp

open Eval

/-- The evaluator that expands nothing: a special form by its head, and else the value of the head
applied to the values of the arguments. `macroexpand` still expands what it is asked to, without a
limit. -/
def evalPlain : Nat → Evaluator
  | 0, _, _ => Eval.unfinished
  | depth + 1, node, scope =>
    evalExpandedWith (evalPlain depth) (expandFrom ⟨none, false⟩ (evalPlain depth) depth 0) node scope

/-- The evaluator that fails with the given fault on forms of one sort. -/
def evalUnless (stop : Node → Bool) (alarm : Fault) (options : EvalOptions) : Nat → Evaluator
  | 0, _, _ => Eval.unfinished
  | depth + 1, node, scope =>
    if stop node then Eval.throw alarm
    else
      evalWith (evalUnless stop alarm options depth)
        (expandFrom options (evalUnless stop alarm options depth) depth 0) node scope

/-- A form that is headed by a list, or that defines a macro. -/
def Node.isBarred (node : Node) : Bool := node.isHeadedByList || node.isHeadedBy "defmacro"

theorem evalUnless_follows (stop : Node → Bool) (alarm : Fault) (options : EvalOptions)
    {depth depth' : Nat} (h : depth ≤ depth') :
    Evaluator.Follows (fun _ => False) Eq (evalUnless stop alarm options depth)
      (evalUnless stop alarm options depth') := by
  induction depth generalizing depth' with
  | zero => exact fun node scope => follows_unfinished _
  | succ depth ih =>
    obtain ⟨depth', rfl⟩ : ∃ m, depth' = m + 1 := ⟨depth' - 1, by omega⟩
    have hev := ih (Nat.le_of_succ_le_succ h)
    have hex := expandFrom_follows options.follow_self hev (Nat.le_of_succ_le_succ h) 0
    intro node scope
    unfold evalUnless
    split
    · exact follows_throw alarm
    · exact evalWith_follows hev hex node scope

section Heads

variable {R : Region} {ev ex : Evaluator} {scope : Scope} {s : EvalState}

theorem evalExpandedWith_atom {value : Atom} {span : Span} (hnode : (Node.atom value span).Tame R)
    (hscope : scope.Inside R) (hs : s.store.Tame R) :
    ∃ o, evalExpandedWith ev ex (.atom value span) scope s = (o, s) ∧ o.Yields (·.Tame R) := by
  cases value with
  | symbol name =>
    cases hfound : s.store.get? scope name with
    | none =>
      refine ⟨.fault (.located (.unbound name) s.source span), ?_, trivial⟩
      simp only [evalExpandedWith, bind_apply, lookup, hfound, fail]
    | some value =>
      refine ⟨.value (value.withSpan span), ?_, (hs.get? hscope hfound).withSpan span⟩
      simp only [evalExpandedWith, bind_apply, lookup, hfound, pure_apply]
  | nil | bool | number | string | function | expander => exact ⟨_, rfl, hnode⟩

theorem expandFrom_bind_eq (options : EvalOptions) (fuel steps : Nat) {node : Node}
    (hhead : ∀ head tail span, node = .list (head :: tail) span →
      ∃ o, ev head scope s = (o, s) ∧ o.Yields (·.Tame R)) :
    (expandFrom options ev (fuel + 1) steps node scope >>= fun expanded =>
      evalExpandedWith ev ex expanded scope) s = evalExpandedWith ev ex node scope s := by
  unfold expandFrom
  split
  · next head tail span =>
    split
    · rfl
    · next hspecial =>
      -- the look at the head changes nothing, so evaluating the head comes to the same once more
      obtain ⟨o, hprobe, hyields⟩ := hhead head tail span rfl
      have hnone : head.specialForm? = none := Option.not_isSome_iff_eq_none.1 hspecial
      rw [bind_assoc, bind_apply, hprobe]
      cases o with
      | value v =>
        dsimp only
        split
        · exact hyields.not_expander.elim
        · rfl
      | fault f =>
        simp only [evalExpandedWith, hnone, bind_apply, hprobe]
      | unfinished =>
        simp only [evalExpandedWith, hnone, bind_apply, hprobe]
  · rfl

end Heads

section Comparisons

variable {R : Region} (alarm : Fault) (options : EvalOptions)

theorem isHeadedBy_of_not_isBarred {node : Node} (h : node.isBarred = false) :
    node.isHeadedBy "defmacro" = false :=
  (Bool.or_eq_false_iff.1 h).2

theorem evalUnless_of_isBarred (depth : Nat) {node : Node} (h : node.isBarred = true)
    (scope : Scope) :
    evalUnless Node.isBarred alarm options (depth + 1) node scope = Eval.throw alarm := by
  rw [evalUnless, if_pos h]

theorem evalUnless_of_not_isBarred (depth : Nat) {node : Node} (h : node.isBarred = false)
    (scope : Scope) :
    evalUnless Node.isBarred alarm options (depth + 1) node scope =
      evalWith (evalUnless Node.isBarred alarm options depth)
        (expandFrom options (evalUnless Node.isBarred alarm options depth) depth 0) node scope := by
  rw [evalUnless, h, if_neg Bool.false_ne_true]

theorem evalUnless_atom (depth : Nat) {value : Atom} {span : Span} {scope : Scope} {s : EvalState}
    (hnode : (Node.atom value span).Tame R) (hscope : scope.Inside R) (hs : s.store.Tame R) :
    ∃ o, evalUnless Node.isBarred alarm options (depth + 1) (.atom value span) scope s = (o, s) ∧
      o.Yields (·.Tame R) :=
  evalExpandedWith_atom hnode hscope hs

theorem evalUnless_list (depth : Nat) {items : List Node} {span : Span} {scope : Scope}
    {s : EvalState} (hnode : (Node.list items span).Tame R)
    (hbarred : (Node.list items span).isBarred = false) (hscope : scope.Inside R)
    (hs : s.store.Tame R) :
    evalUnless Node.isBarred alarm options (depth + 2) (.list items span) scope s =
      evalExpandedWith (evalUnless Node.isBarred alarm options (depth + 1))
        (expandFrom options (evalUnless Node.isBarred alarm options (depth + 1)) (depth + 1) 0)
        (.list items span) scope s := by
  have hlist : (Node.list items span).isList = true := rfl
  rw [evalUnless_of_not_isBarred alarm options _ hbarred, evalWith, if_pos hlist]
  refine expandFrom_bind_eq (R := R) options depth 0 fun head tail span heq => ?_
  obtain ⟨rfl, rfl⟩ := Node.list.inj heq
  obtain ⟨hhead, -⟩ := List.forall_mem_cons.1 (Node.all_list_iff.1 hnode)
  cases head with
  | atom value place => exact evalUnless_atom alarm options depth hhead hscope hs
  | list inner place => cases hbarred

theorem evalUnless_tracks_eval (depth : Nat) :
    Evaluator.Tracks R (fun _ => False) (· = some alarm)
      (evalUnless Node.isBarred alarm options depth) (eval options depth) := by
  induction depth with
  | zero => exact fun node scope _ _ => tracks_unfinished
  | succ depth ih =>
    intro node scope hnode hscope
    have hex := expandFrom_tracks ih options options depth depth (Or.inl rfl) 0 0
    cases hbarred : node.isBarred with
    | true =>
      rw [evalUnless_of_isBarred alarm options depth hbarred]
      exact fun s hs => Or.inr (Or.inl rfl)
    | false =>
      have hexpanded := evalExpandedWith_tracks ih hex hnode (isHeadedBy_of_not_isBarred hbarred)
        hscope
      rw [evalUnless_of_not_isBarred alarm options depth hbarred, eval, evalWith, evalWith]
      split
      · refine tracks_bind (hex node scope hnode hscope) fun expanded heq => ?_
        rw [heq]
        exact hexpanded
      · exact hexpanded

theorem evalPlain_tracks_evalUnless (depth : Nat) :
    Evaluator.Tracks R (fun e => e = none ∨ e = some alarm) (fun _ => False) (evalPlain depth)
      (evalUnless Node.isBarred alarm options depth) := by
  induction depth with
  | zero => exact fun node scope _ _ => tracks_unfinished
  | succ depth ih =>
    intro node scope hnode hscope s hs
    have hex := expandFrom_tracks ih options ⟨none, false⟩ depth depth (Or.inl rfl) 0 0
    cases hbarred : node.isBarred with
    | true =>
      rw [evalUnless_of_isBarred alarm options depth hbarred]
      exact Or.inl (Or.inr rfl)
    | false =>
      have hexpanded := evalExpandedWith_tracks ih hex hnode (isHeadedBy_of_not_isBarred hbarred)
        hscope s hs
      cases node with
      | atom value span => exact hexpanded
      | list items span =>
        -- at depth one the look at the head is cut off already
        obtain _ | depth := depth
        · rw [evalUnless_of_not_isBarred alarm options 0 hbarred]
          exact Or.inl (Or.inl rfl)
        · rw [evalUnless_list alarm options depth hnode hbarred hscope hs]
          exact hexpanded

/-- What the plain evaluator finishes is the same with expansion, which needs one level more for the
head of a form. -/
theorem evalUnless_tracks_evalPlain (depth : Nat) :
    Evaluator.Tracks R (· = none) (· = some alarm)
      (evalUnless Node.isBarred alarm options (depth + 1)) (evalPlain depth) := by
  induction depth with
  | zero => exact fun node scope _ _ => tracks_cut _ rfl
  | succ depth ih =>
    intro node scope hnode hscope s hs
    have hex := expandFrom_tracks ih ⟨none, false⟩ options depth (depth + 1)
      (Or.inr ⟨Nat.le_succ depth, rfl⟩) 0 0
    cases hbarred : node.isBarred with
    | true =>
      rw [evalUnless_of_isBarred alarm options (depth + 1) hbarred]
      exact Or.inr (Or.inl rfl)
    | false =>
      have hexpanded := evalExpandedWith_tracks ih hex hnode (isHeadedBy_of_not_isBarred hbarred)
        hscope s hs
      cases node with
      | atom value span => exact hexpanded
      | list items span =>
        rw [evalUnless_list alarm options depth hnode hbarred hscope hs]
        exact hexpanded

end Comparisons

end MacroLisp
