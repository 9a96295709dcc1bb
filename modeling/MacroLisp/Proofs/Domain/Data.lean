import MacroLisp.Evaluation.Primitives
import MacroLisp.Arguments
import MacroLisp.Node

/-!
# Data within bounds

A domain says which nodes, spans, scopes and sources may occur in an evaluation, and what may be
complained of. A domain is closed if nodes of it can be taken apart and put together again without
leaving it: by lists, at other spans, by the reader. What primitives make of arguments of a closed
domain belongs to it then, and so does a template that is built again.
-/

namespace MacroLisp

def FaultKind.ofEvaluation : List FaultKind := [.unbound, .type, .eval]

structure Domain where
  node : Node → Prop
  span : Span → Prop
  scope : Scope → Prop
  source : Source → Prop
  closure : ClosureId → Prop
  complaint : Complaint → Prop

structure Domain.Closed (D : Domain) : Prop where
  list_iff : ∀ {items span}, D.node (.list items span) ↔ (∀ item ∈ items, D.node item) ∧ D.span span
  /-- Every atom but a callable. -/
  constant : ∀ {value span}, (Node.atom value span).callable? = none → D.span span →
    D.node (.atom value span)
  function : ∀ {id span}, D.closure id → D.span span → D.node (.atom (.function (.closure id)) span)
  callee : ∀ {node id}, D.node node → node.callable? = some (.closure id) → D.closure id
  span : ∀ {node}, D.node node → D.span node.span
  withSpan : ∀ {node span}, D.node node → D.span span → D.node (node.withSpan span)
  tailSpan : ∀ {tail span}, (∀ item ∈ tail, D.node item) → D.span span →
    D.span (Node.tailSpan tail span)
  complaint : ∀ {cause span}, cause.kind ∈ FaultKind.ofEvaluation → D.span span →
    D.complaint ⟨cause, span⟩
  read : ∀ {text form span}, Reader.readOne ⟨Primitive.readName, text⟩ = .ok form → D.span span →
    D.node (form.collapse span)

/-- A result with the property, or a complaint that belongs to the domain. -/
abbrev Domain.Gives {α : Type} (D : Domain) (P : α → Prop) : Except Complaint α → Prop :=
  Checked D.complaint P

variable {D : Domain} (hD : D.Closed) {call : Span} {args : List Node}

include hD

section Complaints

variable {cause : Cause} {span : Span}

theorem Domain.Closed.type (hcause : cause.kind = .type) (hspan : D.span span) :
    D.complaint ⟨cause, span⟩ :=
  hD.complaint (by simp [FaultKind.ofEvaluation, hcause]) hspan

theorem Domain.Closed.eval (hcause : cause.kind = .eval) (hspan : D.span span) :
    D.complaint ⟨cause, span⟩ :=
  hD.complaint (by simp [FaultKind.ofEvaluation, hcause]) hspan

end Complaints

namespace Node

theorem form_belongs {head : String} {span : Span} (hargs : ∀ arg ∈ args, D.node arg)
    (hspan : D.span span) : D.node (form head args span) :=
  hD.list_iff.2 ⟨List.forall_mem_cons.2 ⟨hD.constant rfl hspan, hargs⟩, hspan⟩

mutual

theorem rebuild_belongs : (node : Node) → D.node node → D.node node.rebuild
  | atom _ _, h => form_belongs hD (List.forall_mem_singleton.2 h) (hD.span h)
  | list items _, h => rebuildItems_belongs items (hD.list_iff.1 h).1 (hD.list_iff.1 h).2

theorem rebuildItems_belongs : (items : List Node) → {span : Span} → (∀ item ∈ items, D.node item) →
    D.span span → D.node (rebuildItems items span)
  | [], _, hitems, h => form_belongs hD (List.forall_mem_singleton.2 (hD.list_iff.2 ⟨hitems, h⟩)) h
  | head :: tail, _, hitems, h => by
    obtain ⟨hhead, htail⟩ := List.forall_mem_cons.1 hitems
    rw [rebuildItems]
    split
    · cases tail with
      | nil => exact hD.constant rfl h
      | cons item _ => exact htail item List.mem_cons_self
    · have hrest := rebuildItems_belongs tail htail (hD.tailSpan htail h)
      have hhead := rebuild_belongs head hhead
      exact form_belongs hD (List.forall_mem_cons.2 ⟨hhead, List.forall_mem_singleton.2 hrest⟩) h

end

end Node

theorem Arity.check_belongs (arity : Arity) (callee : String) (args : List Node)
    (hcall : D.span call) : D.Gives (fun _ => True) (arity.check callee args call) := by
  unfold Arity.check
  split
  · trivial
  · exact hD.eval rfl hcall

namespace Node

theorem expect_belongs {node : Node} (h : D.node node) {α : Type} (contents : Option α)
    (callee wanted : String) : D.Gives (fun _ => True) (node.expect contents callee wanted) := by
  cases contents with
  | some a => trivial
  | none => exact hD.type rfl (hD.span h)

theorem expectList_belongs {node : Node} (h : D.node node) (callee : String) :
    D.Gives (fun items => ∀ item ∈ items, D.node item) (node.expectList callee) := by
  cases node with
  | atom value span => exact hD.type rfl (hD.span h)
  | list items span => exact (hD.list_iff.1 h).1

theorem expectNumbers_belongs (callee : String) (hargs : ∀ arg ∈ args, D.node arg) :
    D.Gives (fun _ => True) (expectNumbers callee args) := by
  unfold expectNumbers
  induction args with
  | nil => trivial
  | cons arg args ih =>
    obtain ⟨harg, hargs⟩ := List.forall_mem_cons.1 hargs
    rw [List.mapM_cons]
    refine checked_bind (expect_belongs hD harg _ _ _) fun _ _ => ?_
    exact checked_bind (ih hargs) fun _ _ => trivial

end Node

namespace Params

theorem ofItems_belongs {items : List Node} (h : ∀ item ∈ items, D.node item) :
    D.Gives (fun _ => True) (ofItems items) := by
  induction items with
  | nil => trivial
  | cons item items ih =>
    obtain ⟨hitem, hitems⟩ := List.forall_mem_cons.1 h
    have hname : D.Gives (fun _ => True) (item.expectSymbol "fn") :=
      Node.expect_belongs hD hitem _ _ _
    unfold ofItems
    cases hsymbol : item.expectSymbol "fn" with
    | error c =>
      rw [hsymbol] at hname
      exact hname
    | ok name =>
      dsimp only
      cases restName? name with
      | some rest =>
        dsimp only
        split
        · exact hD.eval rfl (hD.span hitem)
        · trivial
      | none => exact checked_map (ih hitems) fun _ _ => trivial

theorem ofNode_belongs {node : Node} (h : D.node node) :
    D.Gives (fun _ => True) (ofNode node) := by
  cases node with
  | atom value span => exact hD.type rfl (hD.span h)
  | list items span =>
    exact checked_map (ofItems_belongs hD (hD.list_iff.1 h).1) fun _ _ => trivial

end Params

namespace Builtin

section Arithmetic

theorem divideBy_belongs (x : Float) {divisors : List (Node × Float)}
    (h : ∀ divisor ∈ divisors, D.node divisor.1) :
    D.Gives (fun _ => True) (divideBy x divisors) := by
  induction divisors generalizing x with
  | nil => trivial
  | cons divisor divisors ih =>
    obtain ⟨hdivisor, h⟩ := List.forall_mem_cons.1 h
    rw [divideBy]
    split
    · exact hD.eval rfl (hD.span hdivisor)
    · exact ih _ h

theorem quotient_belongs {numbers : List (Node × Float)}
    (h : ∀ number ∈ numbers, D.node number.1) :
    D.Gives (fun _ => True) (quotient numbers) := by
  unfold quotient
  split
  · trivial
  · exact divideBy_belongs hD _ h
  · exact divideBy_belongs hD _ (List.forall_mem_cons.1 h).2

variable (hargs : ∀ arg ∈ args, D.node arg) (hcall : D.span call)

include hargs hcall

theorem add_belongs : D.Gives D.node (add args call) :=
  checked_bind (Node.expectNumbers_belongs hD _ hargs) fun _ _ => hD.constant rfl hcall

theorem subtract_belongs : D.Gives D.node (subtract args call) := by
  refine checked_bind (Arity.check_belongs hD _ _ args hcall) fun _ _ => ?_
  exact checked_bind (Node.expectNumbers_belongs hD _ hargs) fun _ _ => hD.constant rfl hcall

theorem multiply_belongs : D.Gives D.node (multiply args call) :=
  checked_bind (Node.expectNumbers_belongs hD _ hargs) fun _ _ => hD.constant rfl hcall

theorem divide_belongs : D.Gives D.node (divide args call) := by
  refine checked_bind (Arity.check_belongs hD _ _ args hcall) fun _ _ => ?_
  refine checked_bind (Node.expectNumbers_belongs hD _ hargs) fun numbers _ => ?_
  refine checked_bind (quotient_belongs hD fun number h => ?_) fun _ _ => hD.constant rfl hcall
  exact hargs number.1 (List.of_mem_zip h).1

theorem modulo_belongs : D.Gives D.node (modulo args call) := by
  refine checked_bind (Arity.check_belongs hD _ _ args hcall) fun _ _ => ?_
  refine checked_bind (Node.expectNumbers_belongs hD _ hargs) fun _ _ => ?_
  split
  · split
    · exact hD.eval rfl (hD.span (hargs _ (by simp)))
    · exact hD.constant rfl hcall
  · exact hD.eval rfl hcall

theorem compareNumbers_belongs (name : String) (holds : Float → Float → Bool) :
    D.Gives D.node (compareNumbers name holds args call) := by
  refine checked_bind (Arity.check_belongs hD _ _ args hcall) fun _ _ => ?_
  exact checked_bind (Node.expectNumbers_belongs hD _ hargs) fun _ _ => hD.constant rfl hcall

end Arithmetic

theorem equal_belongs (hcall : D.span call) : D.Gives D.node (equal args call) :=
  checked_bind (Arity.check_belongs hD _ _ args hcall) fun _ _ => hD.constant rfl hcall

theorem negation_belongs (hcall : D.span call) :
    D.Gives D.node (negation args call) :=
  checked_bind (Arity.check_belongs hD _ _ args hcall) fun _ _ => hD.constant rfl hcall

section Collection

theorem oneArgument_belongs (name : String) (hargs : ∀ arg ∈ args, D.node arg)
    (hcall : D.span call) : D.Gives D.node (oneArgument name args call) := by
  unfold oneArgument
  split
  · exact hargs _ List.mem_cons_self
  · exact hD.eval rfl hcall

variable (hargs : ∀ arg ∈ args, D.node arg) (hcall : D.span call)

include hargs hcall

theorem expectSize_belongs (name : String) :
    D.Gives (fun _ => True) (expectSize name args call) := by
  refine checked_bind (oneArgument_belongs hD name hargs hcall) fun arg harg => ?_
  exact Node.expect_belongs hD harg (size? arg) name "List or String"

theorem cons_belongs : D.Gives D.node (cons args call) := by
  unfold cons
  split
  · next item items place =>
    have hitem : D.node item := hargs item List.mem_cons_self
    have hitems : D.node (Node.list items place) := hargs _ (by simp)
    exact hD.list_iff.2 ⟨List.forall_mem_cons.2 ⟨hitem, (hD.list_iff.1 hitems).1⟩, hcall⟩
  · next item _ =>
    have hitem : D.node item := hargs item List.mem_cons_self
    exact hD.list_iff.2 ⟨List.forall_mem_singleton.2 hitem, hcall⟩
  · next other _ _ => exact hD.type rfl (hD.span (hargs other (by simp)))
  · exact hD.eval rfl hcall

theorem first_belongs : D.Gives D.node (first args call) := by
  refine checked_bind (oneArgument_belongs hD _ hargs hcall) fun arg harg => ?_
  refine checked_bind (Node.expectList_belongs hD harg _) fun items hitems => ?_
  cases items with
  | nil => exact hD.constant rfl hcall
  | cons item _ => exact hitems item List.mem_cons_self

theorem rest_belongs : D.Gives D.node (rest args call) := by
  refine checked_bind (oneArgument_belongs hD _ hargs hcall) fun arg harg => ?_
  refine checked_bind (Node.expectList_belongs hD harg _) fun items hitems => ?_
  exact hD.list_iff.2 ⟨fun item h => hitems item (List.mem_of_mem_tail h), hcall⟩

theorem count_belongs : D.Gives D.node (count args call) :=
  checked_bind (expectSize_belongs hD hargs hcall _) fun _ _ => hD.constant rfl hcall

theorem isEmpty_belongs : D.Gives D.node (isEmpty args call) :=
  checked_bind (expectSize_belongs hD hargs hcall _) fun _ _ => hD.constant rfl hcall

theorem test_belongs (name : String) (holds : Node → Bool) :
    D.Gives D.node (test name holds args call) :=
  checked_bind (oneArgument_belongs hD name hargs hcall) fun _ _ => hD.constant rfl hcall

theorem print_belongs : D.Gives D.node (print args call) :=
  checked_bind (oneArgument_belongs hD _ hargs hcall) fun _ _ => hD.constant rfl hcall

end Collection

end Builtin

theorem Primitive.onValues_belongs {p : Primitive} {run : List Node → Span → Except Complaint Node}
    (h : p.operation = .onValues run) (hargs : ∀ arg ∈ args, D.node arg)
    (hcall : D.span call) : D.Gives D.node (run args call) := by
  cases p <;> cases h
  case add => exact Builtin.add_belongs hD hargs hcall
  case subtract => exact Builtin.subtract_belongs hD hargs hcall
  case multiply => exact Builtin.multiply_belongs hD hargs hcall
  case divide => exact Builtin.divide_belongs hD hargs hcall
  case modulo => exact Builtin.modulo_belongs hD hargs hcall
  case equal => exact Builtin.equal_belongs hD hcall
  case negation => exact Builtin.negation_belongs hD hcall
  case cons => exact Builtin.cons_belongs hD hargs hcall
  case list => exact hD.list_iff.2 ⟨hargs, hcall⟩
  case first => exact Builtin.first_belongs hD hargs hcall
  case rest => exact Builtin.rest_belongs hD hargs hcall
  case count => exact Builtin.count_belongs hD hargs hcall
  case isEmpty => exact Builtin.isEmpty_belongs hD hargs hcall
  case print => exact Builtin.print_belongs hD hargs hcall
  case str => exact hD.constant rfl hcall
  case isList | isSymbol | isNil => exact Builtin.test_belongs hD hargs hcall _ _
  case less | greater | lessEqual | greaterEqual =>
    exact Builtin.compareNumbers_belongs hD hargs hcall _ _

end MacroLisp
