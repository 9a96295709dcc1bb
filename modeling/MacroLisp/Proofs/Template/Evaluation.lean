import MacroLisp.Proofs.Evaluation.Round
import MacroLisp.Proofs.Scope.Lookup
import MacroLisp.Proofs.Template.Filling

/-!
# Evaluating a quasiquoted template

A quasiquote evaluates the rewritten template, which is made of `quote` and `cons`. Where `cons` is
the primitive, a call of it evaluates the item and then the tail, and puts the item before the
elements of the tail. So the rewritten template and the filling of the template agree: along each
list by an induction on its tails, and from there to the lists within by one on the template. The
state in which `cons` is looked up is the one that the escapes so far have led to.
-/

namespace MacroLisp

open Eval Node

variable (options : EvalOptions) (scope : Scope)

def ConsIsPrimitive (s : EvalState) : Prop :=
  ∃ place, s.store.get? scope "cons" = some (.atom (.function (.primitive .cons)) place)

/-- `cons` stands for the primitive wherever evaluating the escapes so far has led to. -/
def ConsStaysPrimitive (escapes : List Escape) (s : EvalState) : Prop :=
  ∀ done t, done <+: escapes →
    Converges (fun d => done.forM (Escape.run (eval options d) scope)) s (.value ()) t →
    ConsIsPrimitive scope t

theorem ending_cons (item tail : Node) (span : Span) :
    Eval.ofExcept (Builtin.cons [item, tail] span) = (do
      let items ← ending tail
      pure (.list (item :: items) span)) := by
  rcases tail with ⟨_ | _ | _ | _ | _ | _ | _, _⟩ | ⟨_, _⟩ <;> rfl

theorem eval_quote (depth : Nat) (node : Node) (span : Span) (s : EvalState) :
    eval options (depth + 2) (.form "quote" [node] span) scope s = (.value node, s) := by
  rfl

theorem eval_cons (depth : Nat) (item tail : Node) (span : Span) {s : EvalState}
    (h : ConsIsPrimitive scope s) :
    eval options (depth + 2) (.form "cons" [item, tail] span) scope s =
      (do
        let value ← eval options (depth + 1) item scope
        let items ← eval options (depth + 1) tail scope >>= ending
        pure (.list (value :: items) span) : Eval Node) s := by
  obtain ⟨place, hcons⟩ := h
  have hplain : (Node.symbol "cons" span).specialForm? = none := by
    show SpecialForm.ofName? "cons" = none
    decide
  have hhead : eval options (depth + 1) (.symbol "cons" span) scope s =
      (.value (.atom (.function (.primitive .cons)) span), s) := by
    rw [eval_symbol, hcons]
    rfl
  have hexpand : expand options (depth + 1) (.form "cons" [item, tail] span) scope s =
      (.value (.form "cons" [item, tail] span), s) := by
    unfold expand form
    rw [expandFrom_list hplain, hhead]
  rw [eval_eq_expand_bind, bind_apply, hexpand]
  show evalExpandedWith _ _ (.list [.symbol "cons" span, item, tail] span) scope s = _
  rw [evalExpandedWith, hplain]
  show (eval options (depth + 1) (.symbol "cons" span) scope >>= _) s = _
  rw [bind_apply, hhead]
  show ((eval options (depth + 1)).arguments scope [item, tail] >>= fun args =>
    Eval.ofExcept (Builtin.cons args span)) s = _
  simp only [Evaluator.arguments, bind_assoc, pure_bind, ending_cons]

theorem cons_convergeAlike (item tail : Node) (span : Span) {s : EvalState}
    (h : ConsIsPrimitive scope s) :
    ConvergeAlike s (fun d => eval options d (.form "cons" [item, tail] span) scope) fun d => (do
      let value ← eval options d item scope
      let items ← eval options d tail scope >>= ending
      pure (.list (value :: items) span)) := by
  intro o s'
  have hdeep : Deepens fun d => (do
      let value ← eval options d item scope
      let items ← eval options d tail scope >>= ending
      pure (Node.list (value :: items) span)) :=
    deepens_bind (eval_deepens options scope item) fun _ =>
      deepens_bind (deepens_bind (eval_deepens options scope tail) fun _ => deepens_const _)
        fun _ => deepens_const _
  rw [← converges_shift (eval_deepens options scope _) 2, ← converges_shift hdeep 1]
  exact converges_congr fun d => eval_cons options scope d item tail span h

section Deepening

theorem fillEnding_deepens (form : Option Node) :
    Deepens fun d => fillEnding (eval options d) scope form := by
  cases form with
  | none => exact deepens_const _
  | some form => exact deepens_bind (eval_deepens options scope form) fun _ => deepens_const _

mutual

theorem fill_deepens : (node : Node) → Deepens fun d => fill (eval options d) scope node
  | .atom _ _ | .list [] _ => deepens_const _
  | .list (head :: tail) span => by
    cases h : head.isUnquote with
    | true =>
      simp only [fill_unquote _ _ h]
      cases tail with
      | nil => exact deepens_const _
      | cons form _ => exact eval_deepens options scope form
    | false =>
      simp only [fill_cons _ _ h]
      exact deepens_bind (fill_deepens head) fun _ =>
        deepens_bind (fillTail_deepens tail) fun _ => deepens_const _

theorem fillTail_deepens : (items : List Node) →
    Deepens fun d => fillTail (eval options d) scope items
  | [] => deepens_const _
  | head :: tail => by
    simp only [fillTail]
    split
    · exact fillEnding_deepens options scope tail.head?
    · exact deepens_bind (fill_deepens head) fun _ =>
        deepens_bind (fillTail_deepens tail) fun _ => deepens_const _

end

theorem run_deepens (escapes : List Escape) :
    Deepens fun d => escapes.forM (Escape.run (eval options d) scope) := by
  induction escapes with
  | nil => exact deepens_const _
  | cons escape escapes ih =>
    refine deepens_bind (deepens_bind (eval_deepens options scope escape.form) fun _ => ?_)
      fun _ => ih
    exact deepens_const _

end Deepening

namespace ConsStaysPrimitive

variable {options scope} {escapes more : List Escape} {s t : EvalState}

theorem here (h : ConsStaysPrimitive options scope escapes s) : ConsIsPrimitive scope s :=
  h [] s (List.nil_prefix) ⟨trivial, 0, rfl⟩

theorem left (h : ConsStaysPrimitive options scope (escapes ++ more) s) :
    ConsStaysPrimitive options scope escapes s :=
  fun done t hdone => h done t (hdone.trans (List.prefix_append escapes more))

/-- What has been filled is behind, and the escapes still to come go on from there. -/
theorem right {node : Node} {value : Node}
    (h : ConsStaysPrimitive options scope (node.escapes ++ more) s)
    (hfill : Converges (fun d => fill (eval options d) scope node) s (.value value) t) :
    ConsStaysPrimitive options scope more t := by
  intro done u hdone hrun
  refine h (node.escapes ++ done) u ((List.prefix_append_right_inj _).2 hdone) ?_
  have hsplit (d : Nat) : (node.escapes ++ done).forM (Escape.run (eval options d) scope) =
      fill (eval options d) scope node >>= fun _ =>
        done.forM (Escape.run (eval options d) scope) := by
    rw [List.forM_eq_forM, List.forM_append, ← List.forM_eq_forM, ← fill_dropped]
    simp only [dropped, bind_assoc, pure_bind]
  simp only [hsplit]
  exact (converges_bind (fill_deepens options scope node) fun _ => run_deepens options scope done).2
    (Or.inr ⟨value, t, hfill, hrun⟩)

end ConsStaysPrimitive

section Rewritten

variable {options scope}

theorem quote_convergeAlike (node : Node) (span : Span) (s : EvalState) :
    ConvergeAlike s (fun d => eval options d (.form "quote" [node] span) scope)
      fun _ => pure node := by
  intro o s'
  rw [← converges_shift (eval_deepens options scope _) 2]
  exact converges_congr fun d => eval_quote options scope d node span s

theorem nil_convergeAlike (span : Span) (s : EvalState) :
    ConvergeAlike s (fun d => eval options d (.nil span) scope) fun _ => pure (.nil span) := by
  intro o s'
  rw [← converges_shift (eval_deepens options scope _) 1]
  exact Iff.rfl

/-- A call of `cons` on a rewritten element and a rewritten tail, given that these fill as they
should, fills the element and the tail. -/
theorem cons_fill {head : Node} {tail : List Node} (span rest : Span) {s : EvalState}
    (h : ConsStaysPrimitive options scope (head.escapes ++ tailEscapes tail) s)
    (hhead : ConvergeAlike s (fun d => eval options d head.rebuild scope)
      fun d => fill (eval options d) scope head)
    (htail : ∀ t, ConsStaysPrimitive options scope (tailEscapes tail) t →
      ConvergeAlike t (fun d => eval options d (rebuildItems tail rest) scope >>= ending)
        fun d => fillTail (eval options d) scope tail) :
    ConvergeAlike s
      (fun d => eval options d (.form "cons" [head.rebuild, rebuildItems tail rest] span) scope)
      fun d => (do
        let value ← fill (eval options d) scope head
        let values ← fillTail (eval options d) scope tail
        pure (.list (value :: values) span)) := by
  refine (cons_convergeAlike options scope _ _ span h.here).trans ?_
  have hitems : Deepens fun d =>
      eval options d (rebuildItems tail rest) scope >>= ending :=
    deepens_bind (eval_deepens options scope _) fun _ => deepens_const _
  have hvalues := fillTail_deepens options scope tail
  refine convergeAlike_bind (eval_deepens options scope _) (fun value => deepens_map hitems _)
    (fill_deepens options scope head) (fun value => deepens_map hvalues _) hhead ?_
  intro value t hvalue
  exact convergeAlike_bind hitems (fun _ => deepens_const _) hvalues (fun _ => deepens_const _)
    (htail t (h.right hvalue)) fun _ _ _ => .refl _ _

theorem ending_convergeAlike {node : Node} {Y : Nat → Eval Node} {s : EvalState}
    (h : ConvergeAlike s (fun d => eval options d node scope) Y) (hY : Deepens Y) :
    ConvergeAlike s (fun d => eval options d node scope >>= ending) fun d => Y d >>= ending :=
  convergeAlike_bind (eval_deepens options scope node) (fun _ => deepens_const _) hY
    (fun _ => deepens_const _) h fun _ _ _ => .refl _ _

mutual

theorem rebuild_convergeAlike : (node : Node) → {s : EvalState} →
    ConsStaysPrimitive options scope node.escapes s →
    ConvergeAlike s (fun d => eval options d node.rebuild scope)
      fun d => fill (eval options d) scope node
  | .atom value span, s, _ => quote_convergeAlike (.atom value span) span s
  | .list [] span, s, _ => quote_convergeAlike (.list [] span) span s
  | .list (head :: tail) span, s, h => by
    cases hhead : head.isUnquote with
    | true =>
      have hname : head.symbol? = some unquoteName := of_decide_eq_true hhead
      simp only [rebuild, rebuildItems, hname, if_true, fill_unquote _ _ hhead]
      cases tail with
      | nil => exact nil_convergeAlike span s
      | cons form _ => exact fun _ _ => Iff.rfl
    | false =>
      have hname : head.symbol? ≠ some unquoteName := of_decide_eq_false hhead
      rw [escapes_cons hhead] at h
      simp only [rebuild, rebuildItems, if_neg hname, fill_cons _ _ hhead]
      exact cons_fill span _ h (rebuild_convergeAlike head h.left) fun t =>
        rebuildItems_convergeAlike tail _

theorem rebuildItems_convergeAlike : (items : List Node) → (span : Span) → {s : EvalState} →
    ConsStaysPrimitive options scope (tailEscapes items) s →
    ConvergeAlike s (fun d => eval options d (rebuildItems items span) scope >>= ending)
      fun d => fillTail (eval options d) scope items
  | [], span, s, _ =>
    ending_convergeAlike (quote_convergeAlike (.list [] span) span s) (deepens_const _)
  | head :: tail, span, s, h => by
    cases hhead : head.isUnquote with
    | true =>
      have hname : head.symbol? = some unquoteName := of_decide_eq_true hhead
      simp only [rebuildItems, hname, if_true, fillTail, hhead]
      cases tail with
      | nil => exact ending_convergeAlike (nil_convergeAlike span s) (deepens_const _)
      | cons form _ => exact .refl _ _
    | false =>
      have hname : head.symbol? ≠ some unquoteName := of_decide_eq_false hhead
      simp only [tailEscapes, hhead, Bool.false_eq_true, if_false] at h
      simp only [rebuildItems, if_neg hname]
      have hcons := cons_fill span (tailSpan tail span) h (rebuild_convergeAlike head h.left)
        fun t => rebuildItems_convergeAlike tail _
      have hlist := ending_convergeAlike hcons (deepens_bind (fill_deepens options scope head)
        fun _ => deepens_map (fillTail_deepens options scope tail) _)
      simp only [bind_assoc, pure_bind, ending] at hlist
      simp only [fillTail, hhead, Bool.false_eq_true, if_false]
      exact hlist

end

/-- A quasiquote comes to what filling its template comes to, and the effects of that are those of
evaluating the escapes from left to right, each once and in the scope of the quasiquote. -/
theorem quasiquote_fills (template : Node) (place call : Span) {s : EvalState}
    (h : ConsStaysPrimitive options scope template.escapes s) :
    ConvergeAlike s
        (fun d => eval options d (.list [.symbol "quasiquote" place, template] call) scope)
        (fun d => fill (eval options d) scope template) ∧
      ∀ ev, (fill ev scope template).dropped =
        template.escapes.forM (Escape.run ev scope) := by
  refine ⟨fun o s' => ?_, fun ev => fill_dropped ev scope template⟩
  rw [← rebuild_convergeAlike template h o s',
    ← converges_shift (eval_deepens options scope (.list _ call)) 2,
    ← converges_shift (eval_deepens options scope template.rebuild) 1]
  exact Iff.rfl

end Rewritten

theorem quasiquote_fills_pair :
    let s : EvalState := ⟨Store.initial.2, ⟨"t", ""⟩, #[], #[]⟩
    let place : Span := ⟨0, 0⟩
    let template := Node.list [.symbol "a" place,
      .form "unquote" [.symbol "list" place] place] place
    ConsStaysPrimitive ⟨none, false⟩ Store.initial.1 template.escapes s ∧
      Converges (fun d => eval ⟨none, false⟩ d
          (.list [.symbol "quasiquote" place, template] place) Store.initial.1) s
        (.value (.list [.symbol "a" place, Store.primitiveValue .list] place)) s := by
  have hlist := Store.get?_initial .list
  have hcons := Store.get?_initial .cons
  -- nothing else about the initial store matters, and it is too large to compute with
  generalize Store.initial = init at hlist hcons ⊢
  intro s place template
  have hvalue (d : Nat) : eval ⟨none, false⟩ (d + 1) (.symbol "list" place) init.1 s =
      (.value (Store.primitiveValue .list), s) := by
    rw [eval_symbol]
    exact hlist ▸ rfl
  have hstays : ConsStaysPrimitive ⟨none, false⟩ init.1 template.escapes s := by
    intro done t hdone hrun
    have hprefix : done <+: [⟨.symbol "list" place, false⟩] := hdone
    obtain rfl | ⟨rest, rfl, hrest⟩ := List.prefix_cons_iff.1 hprefix
    · obtain ⟨-, rfl⟩ := converges_pure.1 hrun
      exact ⟨place, hcons⟩
    · obtain rfl := List.prefix_nil.1 hrest
      obtain ⟨-, d, hd⟩ := hrun
      cases d with
      | zero => cases hd
      | succ d =>
        simp only [List.forM_eq_forM, List.forM_cons, List.forM_nil, Escape.run, bind_apply,
          hvalue] at hd
        cases hd
        exact ⟨place, hcons⟩
  refine ⟨hstays, ?_⟩
  refine ((quasiquote_fills template place place hstays).1 _ _).2 ⟨trivial, 1, ?_⟩
  have hfill : fill (eval ⟨none, false⟩ 1) init.1 template = (do
      let value ← eval ⟨none, false⟩ 1 (.symbol "list" place) init.1
      pure (.list [.symbol "a" place, value] place)) := by
    rw [fill_cons _ _ rfl, fillTail_eq]
    simp [fillings, fill, fillList, fillEnding, isUnquote, symbol?, unquoteName, form]
  show fill (eval ⟨none, false⟩ 1) init.1 template s = _
  rw [hfill, bind_apply, hvalue]
  rfl

end MacroLisp
