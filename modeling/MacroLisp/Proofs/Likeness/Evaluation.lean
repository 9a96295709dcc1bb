import MacroLisp.Evaluation
import MacroLisp.Proofs.Likeness.Reader
import MacroLisp.Proofs.Likeness.State

/-!
# Like evaluations

From like states, like nodes in like scopes are evaluated to like outcomes, in like states. What is
like goes up with the store, so each step is stated for all likenesses that the first run has come
to so far, and nothing that was like is forgotten on the way. An evaluation says the same of both
runs at every depth: it has a value in both, fails in both, or is unfinished in both.
-/

namespace MacroLisp

structure Fault.Like (located : Prop) (f g : Fault) : Prop where
  cause : f.cause = g.cause
  note : f.note = g.note
  place : located → f.span = g.span ∧ f.source = g.source

inductive Outcome.Like {α : Type} (located : Prop) (P : α → α → Prop) :
    Outcome α → Outcome α → Prop where
  | value {a b : α} (h : P a b) : Like located P (.value a) (.value b)
  | fault {f g : Fault} (h : f.Like located g) : Like located P (.fault f) (.fault g)
  | unfinished : Like located P .unfinished .unfinished

theorem Fault.Like.eq {f g : Fault} (h : f.Like True g) : f = g := by
  obtain ⟨cause, span, source, note⟩ := f
  obtain ⟨hcause, hnote, hplace⟩ := h
  obtain ⟨hspan, hsource⟩ := hplace trivial
  cases hcause
  cases hspan
  cases hsource
  cases hnote
  rfl

theorem Outcome.Like.imp {α : Type} {located : Prop} {P Q : α → α → Prop} {o o' : Outcome α}
    (h : o.Like located P o') (hPQ : ∀ a b, P a b → Q a b) : o.Like located Q o' := by
  cases h with
  | value h => exact .value (hPQ _ _ h)
  | fault h => exact .fault h
  | unfinished => exact .unfinished

theorem Outcome.Like.eq {α : Type} {o o' : Outcome α} (h : o.Like True Eq o') : o = o' := by
  cases h with
  | value h => rw [h]
  | fault h => rw [h.eq]
  | unfinished => rfl

namespace Eval

variable {α β : Type}

/-- From like states in which all that is like for `L` is like, the outcomes are alike, and so are
the states. -/
def Like (c : Comparison) (L : Likeness) (P : Likeness → α → α → Prop) (x y : Eval α) : Prop :=
  ∀ s t : EvalState, s.Like c t → L.Within (c.likeness s.store) →
    (x s).1.Like c.located (P (c.likeness (x s).2.store)) (y t).1 ∧ (x s).2.Like c (y t).2 ∧
      (c.likeness s.store).Within (c.likeness (x s).2.store)

variable {c : Comparison} {L M : Likeness} {P : Likeness → α → α → Prop}
  {Q : Likeness → β → β → Prop} {x y : Eval α} {span span' : Span} {scope scope' : Scope}

theorem Like.mono (h : Eval.Like c L P x y) (hLM : L.Within M) : Eval.Like c M P x y :=
  fun s t hst hM => h s t hst (hLM.trans hM)

theorem Like.imp {P' : Likeness → α → α → Prop} (h : Eval.Like c L P x y)
    (hPQ : ∀ M a b, L.Within M → P M a b → P' M a b) : Eval.Like c L P' x y := by
  intro s t hst hL
  obtain ⟨houtcome, hstate, hgrown⟩ := h s t hst hL
  exact ⟨houtcome.imp fun a b => hPQ _ a b (hL.trans hgrown), hstate, hgrown⟩

theorem like_of_still {o o' : EvalState → Outcome α}
    (h : ∀ s t : EvalState, s.Like c t → L.Within (c.likeness s.store) →
      (o s).Like c.located (P (c.likeness s.store)) (o' t)) :
    Eval.Like c L P (fun s => (o s, s)) (fun t => (o' t, t)) :=
  fun s t hst hL => ⟨h s t hst hL, hst, .refl _⟩

theorem like_pure {a b : α} (h : ∀ M, L.Within M → P M a b) :
    Eval.Like c L P (pure a : Eval α) (pure b) :=
  like_of_still fun _ _ _ hL => .value (h _ hL)

theorem like_unfinished : Eval.Like c L P (unfinished : Eval α) unfinished :=
  like_of_still fun _ _ _ _ => .unfinished

theorem like_throw (fault : Fault) : Eval.Like c L P (throw fault : Eval α) (throw fault) :=
  like_of_still fun _ _ _ _ => .fault ⟨rfl, rfl, fun _ => ⟨rfl, rfl⟩⟩

theorem like_fail {cause cause' : Cause} (hcause : cause = cause') (hspan : L.Agree span span') :
    Eval.Like c L P (fail cause span : Eval α) (fail cause' span') := by
  refine like_of_still fun s t hst hL => .fault ⟨hcause, rfl, fun hlocated => ?_⟩
  exact ⟨congrArg some (hspan (hL.located hlocated)), congrArg some (hst.source hlocated)⟩

theorem like_ofExcept {R : α → α → Prop} {r r' : Except Complaint α} (h : CheckedLike L R r r') :
    Eval.Like c L (fun _ => R) (ofExcept r) (ofExcept r') := by
  cases h with
  | ok h => exact like_pure fun _ _ => h
  | error h => exact like_fail h.cause h.span

theorem like_bind {f g : α → Eval β} (hx : Eval.Like c L P x y)
    (hf : ∀ M a b, L.Within M → P M a b → Eval.Like c M Q (f a) (g b)) :
    Eval.Like c L Q (x >>= f) (y >>= g) := by
  intro s t hst hL
  obtain ⟨houtcome, hstate, hgrown⟩ := hx s t hst hL
  rw [bind_apply, bind_apply]
  generalize x s = r at houtcome hstate hgrown ⊢
  generalize y t = r' at houtcome hstate ⊢
  obtain ⟨o, s'⟩ := r
  obtain ⟨o', t'⟩ := r'
  cases houtcome with
  | value hab =>
    obtain ⟨houtcome, hfinal, hmore⟩ := hf _ _ _ (hL.trans hgrown) hab s' t' hstate (.refl _)
    exact ⟨houtcome, hfinal, hgrown.trans hmore⟩
  | fault hfault => exact ⟨.fault hfault, hstate, hgrown⟩
  | unfinished => exact ⟨.unfinished, hstate, hgrown⟩

theorem like_source : Eval.Like c L (fun M => M.Agree) source source :=
  like_of_still fun _ _ hst _ => .value hst.source

theorem like_lookup (hscope : scope.Like L scope') (name : String) :
    Eval.Like c L (fun M => Option.Rel (Node.Like M)) (lookup scope name) (lookup scope' name) :=
  like_of_still fun _ _ hst hL => .value (hst.store.get? (hscope.mono hL) name)

theorem like_names (hscope : scope.Like L scope') :
    Eval.Like c L (fun M names names' => names = names' ∧ ∀ name ∈ names, M.names name)
      (names scope) (names scope') :=
  like_of_still fun _ _ hst hL => .value
    ⟨hst.store.names_eq (hscope.mono hL), fun _ => hst.store.names_of_mem (hscope.mono hL)⟩

theorem like_closure? {i j : ClosureId} (hij : L.closures i j) :
    Eval.Like c L (fun M => Option.Rel (Closure.Like M)) (closure? i) (closure? j) :=
  like_of_still fun _ _ hst hL => .value (hst.store.closures.each i j (hL.closures hij))

theorem like_bindName (hscope : scope.Like L scope') {name : String} (hname : L.names name)
    {value value' : Node} (hvalue : value.Like L value') :
    Eval.Like c L (fun _ _ _ => True) (bindName scope name value) (bindName scope' name value') := by
  intro s t hst hL
  have hsize : s.store.frames.size = (s.store.set scope name value).frames.size :=
    (Store.size_set ..).symm
  have hstore := hst.store.set (hscope.mono hL) (hL.names hname) (hvalue.mono hL)
  have hwithin := c.within_likeness (s := s.store) (t := s.store.set scope name value) hsize.le
    (Nat.le_refl _)
  exact ⟨.value trivial, hst.withStore hstore hwithin, hwithin⟩

theorem like_newScope (hscope : scope.Like L scope') :
    Eval.Like c L Scope.Like (newScope scope) (newScope scope') := by
  intro s t hst hL
  obtain ⟨hstore, hchild⟩ := hst.store.newChild (hscope.mono hL)
  have hwithin := c.within_likeness (s := s.store) (t := (s.store.newChild scope).2)
    (by simp [Store.newChild]) (Nat.le_refl _)
  exact ⟨.value hchild, hst.withStore hstore hwithin, hwithin⟩

theorem like_newClosure {f g : Closure} (hfg : f.Like L g) :
    Eval.Like c L (fun M => M.closures) (newClosure f) (newClosure g) := by
  intro s t hst hL
  obtain ⟨hstore, hid⟩ := hst.store.addClosure (hfg.mono hL)
  have hwithin := c.within_likeness (s := s.store) (t := (s.store.addClosure f).2)
    (Nat.le_refl _) (by simp [Store.addClosure])
  exact ⟨.value hid, hst.withStore hstore hwithin, hwithin⟩

theorem like_emit {text text' : String} (htext : text = text') (hspan : L.Agree span span') :
    Eval.Like c L (fun _ _ _ => True) (emit text span) (emit text' span') := by
  intro s t hst hL
  refine ⟨.value trivial, { hst with emitted := fun hlogged => ?_ }, .refl _⟩
  exact forall₂_push (hst.emitted hlogged) ⟨htext, hspan.mono hL⟩

theorem like_recordIf (tracing : Bool) {step step' : ExpansionStep} (hstep : step.Like L step') :
    Eval.Like c L (fun _ _ _ => True) (recordIf tracing step) (recordIf tracing step') := by
  cases tracing with
  | false => exact like_pure fun _ _ => trivial
  | true =>
    intro s t hst hL
    refine ⟨.value trivial, { hst with trace := fun hlogged => ?_ }, .refl _⟩
    exact forall₂_push (hst.trace hlogged) (hstep.mono hL)

theorem like_within {source source' : Source} (hsource : L.Agree source source')
    (h : Eval.Like c L P x y) : Eval.Like c L P (within source x) (within source' y) := by
  intro s t hst hL
  obtain ⟨houtcome, hstate, hgrown⟩ := h { s with source } { t with source := source' }
    { hst with source := fun hlocated => hsource (hL.located hlocated) } hL
  exact ⟨houtcome, { hstate with source := hst.source }, hgrown⟩

theorem like_attempt (h : Eval.Like c L P x y) :
    Eval.Like c L (fun M r r' => (Outcome.ofExcept r).Like c.located (P M) (.ofExcept r'))
      (attempt x) (attempt y) := by
  intro s t hst hL
  obtain ⟨houtcome, hstate, hgrown⟩ := h s t hst hL
  unfold attempt
  generalize x s = r at houtcome hstate hgrown ⊢
  generalize y t = r' at houtcome hstate ⊢
  obtain ⟨o, s'⟩ := r
  obtain ⟨o', t'⟩ := r'
  cases houtcome with
  | value h => exact ⟨.value (.value h), hstate, hgrown⟩
  | fault h => exact ⟨.value (.fault h), hstate, hgrown⟩
  | unfinished => exact ⟨.unfinished, hstate, hgrown⟩

theorem like_bindNames (hscope : scope.Like L scope') {bindings bindings' : List (String × Node)}
    (h : List.Forall₂ (fun b b' => (b.1 = b'.1 ∧ L.names b.1) ∧ b.2.Like L b'.2) bindings bindings') :
    Eval.Like c L (fun _ _ _ => True) (bindNames scope bindings) (bindNames scope' bindings') := by
  induction h with
  | nil => exact like_pure fun _ _ => trivial
  | @cons b b' _ _ hb _ ih =>
    obtain ⟨name, value⟩ := b
    obtain ⟨name', value'⟩ := b'
    obtain ⟨⟨rfl, hname⟩, hvalue⟩ := hb
    exact like_bind (like_bindName hscope hname hvalue) fun M _ _ hM _ => ih.mono hM

end Eval

open Eval

/-- Like nodes in like scopes are evaluated alike. -/
def Evaluator.Respects (c : Comparison) (ev : Evaluator) : Prop :=
  ∀ ⦃L : Likeness⦄ ⦃node node' : Node⦄ ⦃scope scope' : Scope⦄, node.Like L node' →
    scope.Like L scope' → Eval.Like c L Node.Like (ev node scope) (ev node' scope')

section Layers

variable {c : Comparison} {L : Likeness} {ev ex : Evaluator} {scope scope' : Scope}
  {args args' : List Node} {call call' : Span}

theorem zip_names_like (hargs : List.Forall₂ (Node.Like L) args args') {required : List String}
    (hnames : ∀ name ∈ required, L.names name) :
    List.Forall₂ (fun b b' => (b.1 = b'.1 ∧ L.names b.1) ∧ b.2.Like L b'.2) (required.zip args)
      (required.zip args') := by
  induction hargs generalizing required with
  | nil =>
    rw [List.zip_nil_right]
    exact .nil
  | cons harg _ ih =>
    cases required with
    | nil => exact .nil
    | cons name required =>
      obtain ⟨hname, hnames⟩ := List.forall_mem_cons.1 hnames
      exact .cons ⟨⟨rfl, hname⟩, harg⟩ (ih hnames)

theorem Params.Like.bindings {p q : Params} (hpq : p.Like L q)
    (hargs : List.Forall₂ (Node.Like L) args args') (hcall : L.Agree call call') :
    List.Forall₂ (fun b b' => (b.1 = b'.1 ∧ L.names b.1) ∧ b.2.Like L b'.2) (p.bindings args call)
      (q.bindings args' call') := by
  obtain ⟨required, rest, _⟩ := p
  obtain ⟨_, _, _⟩ := q
  obtain ⟨rfl, rfl, -, hnames⟩ := hpq
  obtain ⟨hrequired, hrest⟩ := List.forall_mem_append.1 hnames
  refine List.rel_append (zip_names_like hargs hrequired) ?_
  cases rest with
  | none => exact .nil
  | some name =>
    have hname : L.names name := hrest name List.mem_cons_self
    exact .cons ⟨⟨rfl, hname⟩, Node.like_list (List.forall₂_drop _ hargs) hcall⟩ .nil

variable (hev : ev.Respects c)

include hev

theorem body_like (hscope : scope.Like L scope') (hspan : L.Agree call call')
    {forms forms' : List Node} (hforms : List.Forall₂ (Node.Like L) forms forms') :
    Eval.Like c L Node.Like (ev.body scope call forms) (ev.body scope' call' forms') := by
  induction hforms with
  | nil => exact like_pure fun _ hM => .atom .nil (hspan.mono hM)
  | cons hform hrest ih =>
    cases hrest with
    | nil => exact hev hform hscope
    | cons _ _ => exact like_bind (hev hform hscope) fun M _ _ hM _ => ih.mono hM

theorem arguments_like (hscope : scope.Like L scope') (hargs : List.Forall₂ (Node.Like L) args args') :
    Eval.Like c L (fun M => List.Forall₂ (Node.Like M)) (ev.arguments scope args)
      (ev.arguments scope' args') := by
  induction hargs with
  | nil => exact like_pure fun _ _ => .nil
  | cons harg _ ih =>
    refine like_bind (hev harg hscope) fun M value value' hM hvalue => ?_
    refine like_bind (ih.mono hM) fun N values values' hN hvalues => ?_
    exact like_pure fun _ hO => .cons ((hvalue.mono hN).mono hO) (Node.Like.all_mono hvalues hO)

theorem primitive_like (p : Primitive) (hargs : List.Forall₂ (Node.Like L) args args')
    (hscope : scope.Like L scope') (hcall : L.Agree call call') :
    Eval.Like c L Node.Like (p.apply ev args scope call) (p.apply ev args' scope' call') := by
  unfold Primitive.apply
  cases hp : p.operation with
  | onValues run =>
    exact (like_ofExcept (Primitive.onValues_like hp hargs hcall)).imp fun _ _ _ hM h => h.mono hM
  | read =>
    have htext := (Builtin.oneArgument_like hargs hcall "read").bind fun _ _ h =>
      h.expectString "read"
    refine like_bind (like_ofExcept htext) fun M text text' hM heq => ?_
    subst heq
    split
    · next form hform =>
      have hwritten := Reader.readOne_isWritten hform
      exact like_pure fun N hN => hwritten.collapse_like ((hcall.mono hM).mono hN) form
    · exact like_throw _
  | eval =>
    refine like_bind (like_ofExcept (Builtin.oneArgument_like hargs hcall "eval"))
      fun M form form' hM hform => ?_
    refine like_bind (like_newScope (hscope.mono hM)) fun N child child' hN hchild => ?_
    exact hev (hform.mono (hM.trans hN)) hchild
  | defs =>
    refine like_bind (like_ofExcept (Arity.check_like _ "defs" hargs hcall)) fun M _ _ hM _ => ?_
    refine like_bind (like_names (hscope.mono hM)) fun N names names' hN hnames => ?_
    obtain ⟨rfl, hnames⟩ := hnames
    have hcall := (hcall.mono hM).mono hN
    have hsymbols : List.Forall₂ (Node.Like N) (names.map (Node.symbol · call))
        (names.map (Node.symbol · call')) := by
      rw [List.forall₂_map_left_iff, List.forall₂_map_right_iff, List.forall₂_same]
      exact fun name hname => .atom (.symbol (hnames name hname)) hcall
    exact like_pure fun _ hO => (Node.like_list hsymbols hcall).mono hO
  | println =>
    refine like_bind (like_emit (Builtin.joinDisplayed_like " " hargs) hcall) fun M _ _ hM _ => ?_
    exact like_pure fun N hN => .atom .nil ((hcall.mono hM).mono hN)

theorem closure_like {f g : Closure} (hfg : f.Like L g) (hargs : List.Forall₂ (Node.Like L) args args')
    (hcall : L.Agree call call') :
    Eval.Like c L Node.Like (f.apply ev args call) (g.apply ev args' call') := by
  have harity : f.params.arity = g.params.arity := by
    simp only [Params.arity, hfg.params.required, hfg.params.rest]
  unfold Closure.apply
  rw [harity]
  refine like_bind (like_ofExcept (Arity.check_like _ "fn" hargs hcall)) fun M _ _ hM _ => ?_
  refine like_bind (like_newScope (hfg.scope.mono hM)) fun N frame frame' hN hframe => ?_
  have hLN := hM.trans hN
  have hbindings := (hfg.params.mono hLN).bindings (Node.Like.all_mono hargs hLN)
    (hcall.mono hLN)
  refine like_bind (like_bindNames hframe hbindings) fun O _ _ hO _ => ?_
  have hLO := hLN.trans hO
  refine like_within (hfg.source.mono hLO) ?_
  exact body_like hev (hframe.mono hO) (hcall.mono hLO) (Node.Like.all_mono hfg.body hLO)

theorem callable_like {f g : Callable} (hfg : f.Like L g)
    (hargs : List.Forall₂ (Node.Like L) args args') (hscope : scope.Like L scope')
    (hcall : L.Agree call call') :
    Eval.Like c L Node.Like (f.apply ev args scope call) (g.apply ev args' scope' call') := by
  cases hfg with
  | primitive p => exact primitive_like hev p hargs hscope hcall
  | closure hij =>
    refine like_bind (like_closure? hij) fun M target target' hM htarget => ?_
    cases htarget with
    | some htarget => exact closure_like hev htarget (Node.Like.all_mono hargs hM) (hcall.mono hM)
    -- only if places may be named early, and then nothing is there in either run
    | none => exact like_pure fun _ hN => .atom .nil ((hcall.mono hM).mono hN)

theorem apply_like {callee callee' : Node} (hcallee : callee.Like L callee')
    (hargs : List.Forall₂ (Node.Like L) args args') (hscope : scope.Like L scope')
    (hcall : L.Agree call call') :
    Eval.Like c L Node.Like (callee.apply ev args scope call)
      (callee'.apply ev args' scope' call') := by
  have hcallable := hcallee.callable?_rel
  unfold Node.apply
  generalize callee.callable? = f at hcallable ⊢
  generalize callee'.callable? = g at hcallable ⊢
  cases hcallable with
  | some hfg => exact callable_like hev hfg hargs hscope hcall
  | none => exact like_fail (by rw [hcallee.typeName_eq, hcallee.pretty_eq]) hcallee.span

theorem bindPairs_like (hscope : scope.Like L scope') :
    ∀ {pairs pairs' : List Node}, List.Forall₂ (Node.Like L) pairs pairs' →
      Eval.Like c L (fun _ _ _ => True) (SpecialForm.bindPairs ev scope pairs)
        (SpecialForm.bindPairs ev scope' pairs')
  | [], _, .nil => like_pure fun _ _ => trivial
  | [_], _, .cons _ .nil => like_pure fun _ _ => trivial
  | _ :: _ :: _, _, .cons htarget (.cons hform hrest) => by
    refine like_bind (like_ofExcept (htarget.expectSymbol "let")) fun M name name' hM hname => ?_
    obtain ⟨rfl, hname⟩ := hname
    refine like_bind ((hev hform hscope).mono hM) fun N value value' hN hvalue => ?_
    have hbind := like_bindName (c := c) (hscope.mono (hM.trans hN)) (hN.names (hM.names hname))
      hvalue
    refine like_bind hbind fun O _ _ hO _ => ?_
    exact (bindPairs_like hscope hrest).mono ((hM.trans hN).trans hO)

omit hev in
theorem wrongCount_like (form : SpecialForm) (arity : Arity)
    (hargs : List.Forall₂ (Node.Like L) args args') (hcall : L.Agree call call') :
    Eval.Like c L Node.Like (form.wrongCount arity args call)
      (form.wrongCount arity args' call') :=
  like_fail (congrArg (Cause.wrongArity form.name arity) hargs.length_eq) hcall

section Forms

variable (hex : ex.Respects c) (hargs : List.Forall₂ (Node.Like L) args args')
  (hscope : scope.Like L scope') (hcall : L.Agree call call')

include hargs hcall

omit hev in
theorem runQuote_like :
    Eval.Like c L Node.Like (SpecialForm.runQuote args call) (SpecialForm.runQuote args' call') := by
  match args, args', hargs with
  | [_], _, .cons hform .nil => exact like_pure fun _ hM => hform.mono hM
  | [], _, h@.nil | _ :: _ :: _, _, h@(.cons _ (.cons _ _)) => exact wrongCount_like _ _ h hcall

omit hev in
theorem runTemplateExpansion_like :
    Eval.Like c L Node.Like (SpecialForm.runTemplateExpansion args call)
      (SpecialForm.runTemplateExpansion args' call') := by
  match args, args', hargs with
  | [_], _, .cons hform .nil => exact like_pure fun _ hM => hform.rebuild.mono hM
  | [], _, h@.nil | _ :: _ :: _, _, h@(.cons _ (.cons _ _)) => exact wrongCount_like _ _ h hcall

include hscope

theorem runTemplate_like :
    Eval.Like c L Node.Like (SpecialForm.runTemplate ev args scope call)
      (SpecialForm.runTemplate ev args' scope' call') := by
  match args, args', hargs with
  | [_], _, .cons hform .nil => exact hev hform.rebuild hscope
  | [], _, h@.nil | _ :: _ :: _, _, h@(.cons _ (.cons _ _)) => exact wrongCount_like _ _ h hcall

omit hev in
include hex in
theorem runExpansion_like :
    Eval.Like c L Node.Like (SpecialForm.runExpansion ex args scope call)
      (SpecialForm.runExpansion ex args' scope' call') := by
  match args, args', hargs with
  | [_], _, .cons hform .nil => exact hex hform hscope
  | [], _, h@.nil | _ :: _ :: _, _, h@(.cons _ (.cons _ _)) => exact wrongCount_like _ _ h hcall

theorem runCond_like :
    Eval.Like c L Node.Like (SpecialForm.runCond ev args scope call)
      (SpecialForm.runCond ev args' scope' call') := by
  match args, args', hargs with
  | [_, _], _, .cons hcondition (.cons hconsequent .nil) =>
    refine like_bind (hev hcondition hscope) fun M value value' hM hvalue => ?_
    rw [hvalue.isTruthy_eq]
    split
    · exact (hev hconsequent hscope).mono hM
    · exact like_pure fun _ hN => .atom .nil ((hcall.mono hM).mono hN)
  | [_, _, _], _, .cons hcondition (.cons hconsequent (.cons halternative .nil)) =>
    refine like_bind (hev hcondition hscope) fun M value value' hM hvalue => ?_
    rw [hvalue.isTruthy_eq]
    split
    · exact (hev hconsequent hscope).mono hM
    · exact (hev halternative hscope).mono hM
  | [], _, h@.nil | [_], _, h@(.cons _ .nil)
  | _ :: _ :: _ :: _ :: _, _, h@(.cons _ (.cons _ (.cons _ (.cons _ _)))) =>
    exact wrongCount_like _ _ h hcall

theorem runDefine_like :
    Eval.Like c L Node.Like (SpecialForm.runDefine ev args scope call)
      (SpecialForm.runDefine ev args' scope' call') := by
  match args, args', hargs with
  | [_, _], _, .cons htarget (.cons hform .nil) =>
    refine like_bind (like_ofExcept (htarget.expectSymbol "def")) fun M name name' hM hname => ?_
    obtain ⟨rfl, hname⟩ := hname
    refine like_bind ((hev hform hscope).mono hM) fun N value value' hN hvalue => ?_
    have hbind := like_bindName (c := c) (hscope.mono (hM.trans hN)) (hN.names (hM.names hname))
      hvalue
    exact like_bind hbind fun O _ _ hO _ => like_pure fun _ hP => hvalue.mono (hO.trans hP)
  | [], _, h@.nil | [_], _, h@(.cons _ .nil) | _ :: _ :: _ :: _, _, h@(.cons _ (.cons _ (.cons _ _))) =>
    exact wrongCount_like _ _ h hcall

omit hev in
theorem runLambda_like :
    Eval.Like c L Node.Like (SpecialForm.runLambda args scope call)
      (SpecialForm.runLambda args' scope' call') := by
  match args, args', hargs with
  | _ :: _, _, .cons hparams hbody =>
    refine like_bind (like_ofExcept (Params.ofNode_like hparams)) fun M params params' hM hpq => ?_
    refine like_bind like_source fun N source source' hN hsource => ?_
    have hLN := hM.trans hN
    have hclosure : Closure.Like N ⟨params, _, scope, call, source⟩
        ⟨params', _, scope', call', source'⟩ :=
      ⟨hpq.mono hLN, Node.Like.all_mono hbody hLN, hscope.mono hLN, hcall.mono hLN, hsource⟩
    refine like_bind (like_newClosure hclosure) fun O i j hO hij => ?_
    exact like_pure fun _ hP => .atom (.function (.closure (hP.closures hij)))
      (hcall.mono ((hLN.trans hO).trans hP))
  | [], _, h@.nil => exact wrongCount_like _ _ h hcall

theorem runBindings_like :
    Eval.Like c L Node.Like (SpecialForm.runBindings ev args scope call)
      (SpecialForm.runBindings ev args' scope' call') := by
  match args, args', hargs with
  | .list pairs _ :: body, .list pairs' _ :: body', .cons hfirst hbody =>
    obtain ⟨hpairs, hspan⟩ := Node.like_list_iff.1 hfirst
    simp only [SpecialForm.runBindings, hpairs.length_eq]
    split
    · refine like_bind (like_newScope hscope) fun M frame frame' hM hframe => ?_
      refine like_bind (bindPairs_like hev hframe (Node.Like.all_mono hpairs hM)) fun N _ _ hN _ => ?_
      have hLN := hM.trans hN
      exact body_like hev (hframe.mono hN) (hcall.mono hLN) (Node.Like.all_mono hbody hLN)
    · exact like_fail rfl hspan
  | .atom _ _ :: _, .atom _ _ :: _, .cons hfirst _ => exact like_fail rfl hfirst.span
  | [], _, h@.nil => exact wrongCount_like _ _ h hcall

theorem runDefineExpander_like :
    Eval.Like c L Node.Like (SpecialForm.runDefineExpander ev args scope call)
      (SpecialForm.runDefineExpander ev args' scope' call') := by
  match args, args', hargs with
  | [_, _], _, .cons htarget (.cons hform .nil) =>
    refine like_bind (like_ofExcept (htarget.expectSymbol "defmacro")) fun M name name' hM hname => ?_
    obtain ⟨rfl, hname⟩ := hname
    refine like_bind ((hev hform hscope).mono hM) fun N value value' hN hvalue => ?_
    have hLN := hM.trans hN
    have hcallable := hvalue.callable?_rel
    generalize value.callable? = f at hcallable ⊢
    generalize value'.callable? = g at hcallable ⊢
    cases hcallable with
    | some hfg =>
      have hbind := like_bindName (c := c) (hscope.mono hLN) (hN.names (hM.names hname))
        (.atom (.expander hfg) hvalue.span)
      exact like_bind hbind fun O _ _ hO _ => like_pure fun _ hP =>
        .atom .nil (hcall.mono ((hLN.trans hO).trans hP))
    | none =>
      exact like_fail (by rw [hvalue.typeName_eq, hvalue.pretty_eq]) (hform.mono hLN).span
  | [], _, h@.nil | [_], _, h@(.cons _ .nil) | _ :: _ :: _ :: _, _, h@(.cons _ (.cons _ (.cons _ _))) =>
    exact wrongCount_like _ _ h hcall

include hex

theorem specialForm_like (form : SpecialForm) :
    Eval.Like c L Node.Like (form.run ev ex args scope call) (form.run ev ex args' scope' call') := by
  cases form with
  | quote => exact runQuote_like hargs hcall
  | cond => exact runCond_like hev hargs hscope hcall
  | define => exact runDefine_like hev hargs hscope hcall
  | lambda => exact runLambda_like hargs hscope hcall
  | sequence => exact body_like hev hscope hcall hargs
  | bindings => exact runBindings_like hev hargs hscope hcall
  | defineExpander => exact runDefineExpander_like hev hargs hscope hcall
  | expansion => exact runExpansion_like hex hargs hscope hcall
  | template => exact runTemplate_like hev hargs hscope hcall
  | templateExpansion => exact runTemplateExpansion_like hargs hcall

end Forms

theorem evalExpandedWith_like (hex : ex.Respects c) : Evaluator.Respects c (evalExpandedWith ev ex) := by
  intro L node node' scope scope' hnode hscope
  cases hnode with
  | @atom _ _ span span' hvalue hspan =>
    have hitself {M : Likeness} (hM : L.Within M) := (Node.Like.atom hvalue hspan).mono hM
    cases hvalue with
    | @symbol name hname =>
      refine like_bind (like_lookup hscope name) fun M found found' hM hfound => ?_
      cases hfound with
      | some hvalue =>
        exact like_pure fun _ hN => (hvalue.mono hN).withSpan ((hspan.mono hM).mono hN)
      | none => exact like_fail rfl (hspan.mono hM)
    | nil | bool | number | string | function | expander => exact like_pure fun _ hM => hitself hM
  | @list items items' span span' hlength hitems hspan =>
    have hlike := List.forall₂_iff_zip.2 ⟨hlength, hitems _⟩
    cases hlike with
    | nil => exact like_pure fun _ hM => Node.like_list .nil (hspan.mono hM)
    | cons hhead htail =>
      unfold evalExpandedWith
      dsimp only
      rw [hhead.specialForm?_eq]
      generalize Node.specialForm? _ = named
      cases named with
      | some form => exact specialForm_like hev hex htail hscope hspan form
      | none =>
        refine like_bind (hev hhead hscope) fun M callee callee' hM hcallee => ?_
        refine like_bind ((arguments_like hev hscope htail).mono hM) fun N args args' hN hargs => ?_
        exact apply_like hev (hcallee.mono hN) hargs (hscope.mono (hM.trans hN))
          (hspan.mono (hM.trans hN))

theorem expandFrom_like (options : EvalOptions) (fuel steps : Nat) :
    (expandFrom options ev fuel steps).Respects c := by
  induction fuel generalizing steps with
  | zero => exact fun _ _ _ _ _ _ _ => like_unfinished
  | succ fuel ih =>
    intro L node node' scope scope' hnode hscope
    cases hnode with
    | atom hvalue hspan => exact like_pure fun _ hM => (Node.Like.atom hvalue hspan).mono hM
    | @list items items' span span' hlength hitems hspan =>
      have hnode := Node.Like.list hlength hitems hspan
      have hlike := List.forall₂_iff_zip.2 ⟨hlength, hitems _⟩
      cases hlike with
      | nil => exact like_pure fun _ hM => hnode.mono hM
      | cons hhead htail =>
        unfold expandFrom
        dsimp only
        rw [hhead.specialForm?_eq]
        split
        · exact like_pure fun _ hM => hnode.mono hM
        · refine like_bind (hev hhead hscope) fun M value value' hM hvalue => ?_
          -- wherever the loop ends, it gives the node back in a later store
          have hstill : Eval.Like c M Node.Like (pure _) (pure _) :=
            like_pure fun _ hN => hnode.mono (hM.trans hN)
          cases hvalue with
          | list => exact hstill
          | atom hvalue _ =>
            cases hvalue with
            | nil | bool | number | string | symbol | function => exact hstill
            | expander hfg =>
              dsimp only
              cases options.exceeded? steps with
              | some limit => exact like_fail (by rw [hhead.pretty_eq]) (hspan.mono hM)
              | none =>
                have hcall := callable_like hev hfg (Node.Like.all_mono htail hM) (hscope.mono hM)
                  (hspan.mono hM)
                refine like_bind hcall fun N output output' hN houtput => ?_
                have hLN := hM.trans hN
                have hstep : ExpansionStep.Like N ⟨_, _, output⟩ ⟨_, _, output'⟩ :=
                  ⟨hhead.pretty_eq, hnode.mono hLN, houtput⟩
                refine like_bind (like_recordIf options.tracing hstep) fun O _ _ hO _ => ?_
                exact ih (steps + 1) (houtput.mono hO) (hscope.mono (hLN.trans hO))

end Layers

section Runs

variable {c : Comparison} (options : EvalOptions) (depth : Nat)

theorem eval_like : (eval options depth).Respects c := by
  induction depth with
  | zero => exact fun _ _ _ _ _ _ _ => like_unfinished
  | succ depth ih =>
    have hex := expandFrom_like (c := c) ih options depth 0
    intro L node node' scope scope' hnode hscope
    unfold eval evalWith
    rw [hnode.isList_eq]
    split
    · refine like_bind (hex hnode hscope) fun M expanded expanded' hM hexpanded => ?_
      exact evalExpandedWith_like ih hex hexpanded (hscope.mono hM)
    · exact evalExpandedWith_like ih hex hnode hscope

theorem expand_like : (expand options depth).Respects c :=
  expandFrom_like (eval_like options depth) options depth 0

theorem evalExpanded_like : (evalExpanded options depth).Respects c :=
  evalExpandedWith_like (eval_like options depth) (expand_like options depth)

end Runs

end MacroLisp
