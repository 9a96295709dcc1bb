import MacroLisp.Evaluation
import MacroLisp.Proofs.Domain.Data

/-!
# Evaluation within a domain

A relation between two computations that also says of which kind their values are is carried by a
domain if all that an evaluation does with data of the domain has it: single steps, one computation
after the other, and another current source. Then, as soon as the relation holds of the evaluations
and expansions below, it holds of everything that is done with them: of bodies, calls, special
forms and whole nodes of the domain. Only the definition of a macro asks for more, since a domain
may be without macros.
-/

namespace MacroLisp

open Eval

variable {D : Domain} {P : (α : Type) → (α → Prop) → Eval α → Eval α → Prop}

structure Closure.Belongs (D : Domain) (closure : Closure) : Prop where
  body : ∀ form ∈ closure.body, D.node form
  scope : D.scope closure.scope
  source : D.source closure.source

/-- What is callable in the domain may be bound as a macro. -/
def Domain.HasExpanders (D : Domain) : Prop :=
  ∀ {node callable}, D.node node → node.callable? = some callable →
    D.node (.atom (.expander callable) node.span)

structure Domain.Carries (D : Domain) (P : (α : Type) → (α → Prop) → Eval α → Eval α → Prop) :
    Prop where
  pure : ∀ {α : Type} {V : α → Prop} {a : α}, V a → P α V (pure a) (pure a)
  fail : ∀ {α : Type} {V : α → Prop} {cause : Cause} {span : Span}, D.complaint ⟨cause, span⟩ →
    P α V (fail cause span) (fail cause span)
  unreadable : ∀ {text : String} {f : Fault} {V : Node → Prop},
    Reader.readOne ⟨Primitive.readName, text⟩ = .error f → P Node V (throw f) (throw f)
  bind : ∀ {α β : Type} {V : α → Prop} {W : β → Prop} {x y : Eval α} {f g : α → Eval β},
    P α V x y → (∀ a, V a → P β W (f a) (g a)) → P β W (x >>= f) (y >>= g)
  source : P Source D.source Eval.source Eval.source
  lookup : ∀ {scope : Scope} (name : String), D.scope scope →
    P (Option Node) (fun found => ∀ value ∈ found, D.node value) (lookup scope name)
      (lookup scope name)
  names : ∀ scope : Scope, P (List String) (fun _ => True) (names scope) (names scope)
  closure? : ∀ {id : ClosureId}, D.closure id →
    P (Option Closure) (fun found => ∀ closure ∈ found, closure.Belongs D) (closure? id)
      (closure? id)
  bindName : ∀ (scope : Scope) (name : String) {value : Node}, D.node value →
    P Unit (fun _ => True) (bindName scope name value) (bindName scope name value)
  newScope : ∀ {parent : Scope}, D.scope parent →
    P Scope D.scope (newScope parent) (newScope parent)
  newClosure : ∀ {closure : Closure}, closure.Belongs D →
    P ClosureId D.closure (newClosure closure) (newClosure closure)
  emit : ∀ (text : String) {span : Span}, D.span span →
    P Unit (fun _ => True) (emit text span) (emit text span)
  within : ∀ {source : Source} {V : Node → Prop} {x y : Eval Node}, D.source source →
    P Node V x y → P Node V (within source x) (within source y)

/-- Nodes of the domain are evaluated to nodes of the domain, in scopes of the domain. -/
def Evaluator.Carried (D : Domain) (P : (α : Type) → (α → Prop) → Eval α → Eval α → Prop)
    (ev ev' : Evaluator) : Prop :=
  ∀ node scope, D.node node → D.scope scope → P Node D.node (ev node scope) (ev' node scope)

section Layers

variable {ev ev' ex ex' : Evaluator} {args : List Node} {scope : Scope} {call : Span}

theorem Params.bindings_belong (hD : D.Closed) (params : Params)
    (hargs : ∀ arg ∈ args, D.node arg) (hcall : D.span call) :
    ∀ b ∈ params.bindings args call, D.node b.2 := by
  refine List.forall_mem_append.2 ⟨fun b hb => hargs b.2 (List.of_mem_zip hb).2, ?_⟩
  cases params.rest with
  | none => exact nofun
  | some name =>
    exact List.forall_mem_singleton.2
      (hD.list_iff.2 ⟨fun arg harg => hargs arg (List.mem_of_mem_drop harg), hcall⟩)

variable (hP : D.Carries P)

include hP

theorem ofExcept_carried {α : Type} {V : α → Prop} {r : Except Complaint α} (h : D.Gives V r) :
    P α V (ofExcept r) (ofExcept r) := by
  cases r with
  | ok a => exact hP.pure h
  | error c => exact hP.fail h

theorem bindNames_carried (scope : Scope) {bindings : List (String × Node)}
    (h : ∀ b ∈ bindings, D.node b.2) :
    P Unit (fun _ => True) (bindNames scope bindings) (bindNames scope bindings) := by
  induction bindings with
  | nil => exact hP.pure trivial
  | cons b bindings ih =>
    obtain ⟨hb, h⟩ := List.forall_mem_cons.1 h
    exact hP.bind (hP.bindName scope b.1 hb) fun _ _ => ih h

variable (hD : D.Closed) (hev : ev.Carried D P ev') (hex : ex.Carried D P ex')

include hev

theorem arguments_carried (hscope : D.scope scope) (hargs : ∀ arg ∈ args, D.node arg) :
    P (List Node) (fun values => ∀ value ∈ values, D.node value) (ev.arguments scope args)
      (ev'.arguments scope args) := by
  induction args with
  | nil => exact hP.pure (List.forall_mem_nil _)
  | cons arg args ih =>
    obtain ⟨harg, hargs⟩ := List.forall_mem_cons.1 hargs
    refine hP.bind (hev arg scope harg hscope) fun value hvalue => ?_
    exact hP.bind (ih hargs) fun values hvalues =>
      hP.pure (List.forall_mem_cons.2 ⟨hvalue, hvalues⟩)

include hD

theorem body_carried (hscope : D.scope scope) {span : Span} (hspan : D.span span)
    {forms : List Node} (hforms : ∀ form ∈ forms, D.node form) :
    P Node D.node (ev.body scope span forms) (ev'.body scope span forms) := by
  induction forms with
  | nil => exact hP.pure (hD.constant rfl hspan)
  | cons form forms ih =>
    obtain ⟨hform, hforms⟩ := List.forall_mem_cons.1 hforms
    cases forms with
    | nil => exact hev form scope hform hscope
    | cons next forms => exact hP.bind (hev form scope hform hscope) fun _ _ => ih hforms

theorem bindPairs_carried {frame : Scope} (hframe : D.scope frame) :
    ∀ pairs, (∀ node ∈ pairs, D.node node) →
      P Unit (fun _ => True) (SpecialForm.bindPairs ev frame pairs)
        (SpecialForm.bindPairs ev' frame pairs)
  | target :: form :: rest, h => by
    obtain ⟨htarget, h⟩ := List.forall_mem_cons.1 h
    obtain ⟨hform, hrest⟩ := List.forall_mem_cons.1 h
    refine hP.bind (ofExcept_carried hP (Node.expect_belongs hD htarget _ _ _)) fun name _ => ?_
    refine hP.bind (hev form frame hform hframe) fun value hvalue => ?_
    refine hP.bind (hP.bindName frame name hvalue) fun _ _ => ?_
    exact bindPairs_carried hframe rest hrest
  | [], _ | [_], _ => hP.pure trivial

variable (hargs : ∀ arg ∈ args, D.node arg) (hscope : D.scope scope) (hcall : D.span call)

include hargs hcall

theorem closure_carried {closure : Closure} (hclosure : closure.Belongs D) :
    P Node D.node (closure.apply ev args call) (closure.apply ev' args call) := by
  refine hP.bind (ofExcept_carried hP (Arity.check_belongs hD _ _ args hcall)) fun _ _ => ?_
  refine hP.bind (hP.newScope hclosure.scope) fun frame hframe => ?_
  have hbindings := closure.params.bindings_belong hD hargs hcall
  refine hP.bind (bindNames_carried hP frame hbindings) fun _ _ => ?_
  exact hP.within hclosure.source (body_carried hP hD hev hframe hcall hclosure.body)

include hscope

theorem primitive_carried (p : Primitive) :
    P Node D.node (p.apply ev args scope call) (p.apply ev' args scope call) := by
  unfold Primitive.apply
  cases hp : p.operation with
  | onValues run => exact ofExcept_carried hP (p.onValues_belongs hD hp hargs hcall)
  | read =>
    have htext : D.Gives (fun _ => True)
        (Builtin.oneArgument "read" args call >>= (·.expectString "read")) :=
      checked_bind (Builtin.oneArgument_belongs hD "read" hargs hcall) fun arg harg =>
        Node.expect_belongs hD harg _ _ _
    refine hP.bind (ofExcept_carried hP htext) fun text _ => ?_
    cases hread : Reader.readOne ⟨Primitive.readName, text⟩ with
    | ok form => exact hP.pure (hD.read hread hcall)
    | error f => exact hP.unreadable hread
  | eval =>
    have hform := Builtin.oneArgument_belongs hD "eval" hargs hcall
    refine hP.bind (ofExcept_carried hP hform) fun form hform => ?_
    exact hP.bind (hP.newScope hscope) fun child hchild => hev form child hform hchild
  | defs =>
    refine hP.bind (ofExcept_carried hP (Arity.check_belongs hD _ _ args hcall)) fun _ _ => ?_
    refine hP.bind (hP.names scope) fun names _ => hP.pure (hD.list_iff.2 ⟨?_, hcall⟩)
    exact List.forall_mem_map.2 fun name _ => hD.constant rfl hcall
  | println =>
    exact hP.bind (hP.emit _ hcall) fun _ _ => hP.pure (hD.constant rfl hcall)

theorem callable_carried {callable : Callable}
    (hcallable : ∀ id, callable = .closure id → D.closure id) :
    P Node D.node (callable.apply ev args scope call) (callable.apply ev' args scope call) := by
  cases callable with
  | primitive p => exact primitive_carried hP hD hev hargs hscope hcall p
  | closure id =>
    refine hP.bind (hP.closure? (hcallable id rfl)) fun target htarget => ?_
    cases target with
    | some target => exact closure_carried hP hD hev hargs hcall (htarget target rfl)
    | none => exact hP.pure (hD.constant rfl hcall)

theorem apply_carried {callee : Node} (hcallee : D.node callee) :
    P Node D.node (callee.apply ev args scope call) (callee.apply ev' args scope call) := by
  unfold Node.apply
  cases hcallable : callee.callable? with
  | none => exact hP.fail (hD.type rfl (hD.span hcallee))
  | some callable =>
    refine callable_carried hP hD hev hargs hscope hcall fun id hid => ?_
    rw [hid] at hcallable
    exact hD.callee hcallee hcallable

omit hev hscope hargs in
theorem wrongCount_carried (form : SpecialForm) (arity : Arity) :
    P Node D.node (form.wrongCount arity args call) (form.wrongCount arity args call) :=
  hP.fail (hD.eval rfl hcall)

theorem runCond_carried :
    P Node D.node (SpecialForm.runCond ev args scope call)
      (SpecialForm.runCond ev' args scope call) := by
  unfold SpecialForm.runCond
  split
  · obtain ⟨hcondition, hconsequent⟩ := List.forall_mem_cons.1 hargs
    refine hP.bind (hev _ scope hcondition hscope) fun condition _ => ?_
    split
    · exact hev _ scope (hconsequent _ List.mem_cons_self) hscope
    · exact hP.pure (hD.constant rfl hcall)
  · obtain ⟨hcondition, hchoices⟩ := List.forall_mem_cons.1 hargs
    obtain ⟨hconsequent, halternative⟩ := List.forall_mem_cons.1 hchoices
    refine hP.bind (hev _ scope hcondition hscope) fun condition _ => ?_
    split
    · exact hev _ scope hconsequent hscope
    · exact hev _ scope (halternative _ List.mem_cons_self) hscope
  · exact wrongCount_carried hP hD hcall _ _

theorem runDefine_carried :
    P Node D.node (SpecialForm.runDefine ev args scope call)
      (SpecialForm.runDefine ev' args scope call) := by
  unfold SpecialForm.runDefine
  split
  · obtain ⟨htarget, hvalue⟩ := List.forall_mem_cons.1 hargs
    refine hP.bind (ofExcept_carried hP (Node.expect_belongs hD htarget _ _ _)) fun name _ => ?_
    refine hP.bind (hev _ scope (hvalue _ List.mem_cons_self) hscope) fun value hvalue => ?_
    exact hP.bind (hP.bindName scope name hvalue) fun _ _ => hP.pure hvalue
  · exact wrongCount_carried hP hD hcall _ _

omit hev in
theorem runLambda_carried :
    P Node D.node (SpecialForm.runLambda args scope call)
      (SpecialForm.runLambda args scope call) := by
  unfold SpecialForm.runLambda
  split
  · obtain ⟨hparams, hbody⟩ := List.forall_mem_cons.1 hargs
    refine hP.bind (ofExcept_carried hP (Params.ofNode_belongs hD hparams)) fun params _ => ?_
    refine hP.bind hP.source fun source hsource => ?_
    exact hP.bind (hP.newClosure ⟨hbody, hscope, hsource⟩) fun id hid =>
      hP.pure (hD.function hid hcall)
  · exact wrongCount_carried hP hD hcall _ _

theorem runBindings_carried :
    P Node D.node (SpecialForm.runBindings ev args scope call)
      (SpecialForm.runBindings ev' args scope call) := by
  unfold SpecialForm.runBindings
  split
  · obtain ⟨hpairs, hbody⟩ := List.forall_mem_cons.1 hargs
    split
    · refine hP.bind (hP.newScope hscope) fun frame hframe => ?_
      have hpairs := (hD.list_iff.1 hpairs).1
      refine hP.bind (bindPairs_carried hP hD hev hframe _ hpairs) fun _ _ => ?_
      exact body_carried hP hD hev hframe hcall hbody
    · exact hP.fail (hD.eval rfl (hD.span hpairs))
  · exact hP.fail (hD.type rfl (hD.span (hargs _ List.mem_cons_self)))
  · exact wrongCount_carried hP hD hcall _ _

theorem runDefineExpander_carried (hexpanders : D.HasExpanders) :
    P Node D.node (SpecialForm.runDefineExpander ev args scope call)
      (SpecialForm.runDefineExpander ev' args scope call) := by
  unfold SpecialForm.runDefineExpander
  split
  · obtain ⟨htarget, hvalue⟩ := List.forall_mem_cons.1 hargs
    have hspan := hD.span (hvalue _ List.mem_cons_self)
    refine hP.bind (ofExcept_carried hP (Node.expect_belongs hD htarget _ _ _)) fun name _ => ?_
    refine hP.bind (hev _ scope (hvalue _ List.mem_cons_self) hscope) fun value hvalue => ?_
    cases hcallable : value.callable? with
    | some callable =>
      exact hP.bind (hP.bindName scope name (hexpanders hvalue hcallable)) fun _ _ =>
        hP.pure (hD.constant rfl hcall)
    | none => exact hP.fail (hD.type rfl hspan)
  · exact wrongCount_carried hP hD hcall _ _

include hex in
theorem specialForm_carried (form : SpecialForm) (hform : form = .defineExpander → D.HasExpanders) :
    P Node D.node (form.run ev ex args scope call) (form.run ev' ex' args scope call) := by
  cases form with
  | quote =>
    match args with
    | [form] => exact hP.pure (hargs form List.mem_cons_self)
    | [] | _ :: _ :: _ => exact wrongCount_carried hP hD hcall _ _
  | cond => exact runCond_carried hP hD hev hargs hscope hcall
  | define => exact runDefine_carried hP hD hev hargs hscope hcall
  | lambda => exact runLambda_carried hP hD hargs hscope hcall
  | sequence => exact body_carried hP hD hev hscope hcall hargs
  | bindings => exact runBindings_carried hP hD hev hargs hscope hcall
  | defineExpander => exact runDefineExpander_carried hP hD hev hargs hscope hcall (hform rfl)
  | expansion =>
    match args with
    | [form] => exact hex form scope (hargs form List.mem_cons_self) hscope
    | [] | _ :: _ :: _ => exact wrongCount_carried hP hD hcall _ _
  | template =>
    match args with
    | [form] =>
      exact hev _ scope (Node.rebuild_belongs hD form (hargs form List.mem_cons_self)) hscope
    | [] | _ :: _ :: _ => exact wrongCount_carried hP hD hcall _ _
  | templateExpansion =>
    match args with
    | [form] => exact hP.pure (Node.rebuild_belongs hD form (hargs form List.mem_cons_self))
    | [] | _ :: _ :: _ => exact wrongCount_carried hP hD hcall _ _

end Layers

theorem Node.isHeadedBy_of_specialForm? {head : Node} {tail : List Node} {span : Span}
    (h : head.specialForm? = some .defineExpander) :
    (Node.list (head :: tail) span).isHeadedBy "defmacro" = true := by
  obtain ⟨name, hname, hform⟩ := Option.bind_eq_some_iff.1 h
  have hdefine : "defmacro" = name := SpecialForm.name_of_ofName? hform
  rw [Node.isHeadedBy, hname, ← hdefine]
  exact decide_eq_true rfl

theorem evalExpandedWith_carried {ev ev' ex ex' : Evaluator} (hP : D.Carries P) (hD : D.Closed)
    (hev : ev.Carried D P ev') (hex : ex.Carried D P ex') {node : Node} {scope : Scope}
    (hnode : D.node node) (hscope : D.scope scope)
    (hexpanders : node.isHeadedBy "defmacro" = true → D.HasExpanders) :
    P Node D.node (evalExpandedWith ev ex node scope) (evalExpandedWith ev' ex' node scope) := by
  unfold evalExpandedWith
  split
  · have hspan := hD.span hnode
    refine hP.bind (hP.lookup _ hscope) fun found hfound => ?_
    cases found with
    | some value => exact hP.pure (hD.withSpan (hfound value rfl) hspan)
    | none => exact hP.fail (hD.complaint List.mem_cons_self hspan)
  · obtain ⟨hitems, hspan⟩ := hD.list_iff.1 hnode
    obtain ⟨hhead, htail⟩ := List.forall_mem_cons.1 hitems
    split
    · next form hspecial =>
      refine specialForm_carried hP hD hev hex htail hscope hspan form fun hdefine => ?_
      rw [hdefine] at hspecial
      exact hexpanders (Node.isHeadedBy_of_specialForm? hspecial)
    · refine hP.bind (hev _ scope hhead hscope) fun callee hcallee => ?_
      refine hP.bind (arguments_carried hP hev hscope htail) fun args hargs => ?_
      exact apply_carried hP hD hev hargs hscope hspan hcallee
  · exact hP.pure hnode

end MacroLisp
