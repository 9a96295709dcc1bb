import MacroLisp.Engine
import MacroLisp.Proofs.Evaluation.Effect
import MacroLisp.Proofs.Evaluation.Round

/-!
# Where an evaluation writes

A scope owns its innermost frame and shares the others. Every write of an evaluation goes to the own
frame of the scope it is given, or to a frame that is made while it runs. So of the frames that were
there before, at most that one differs afterwards, and it still binds what it bound. A call of a
function or a macro, and a call of `eval`, run in scopes of their own and change none of them.

Expanding a form is different: the head of the form, and of every form that a macro returns, is
evaluated in the scope of the expansion, and may define names there.
-/

namespace MacroLisp

def Node.isHeadedByList : Node → Bool
  | list (head :: _) _ => head.isList
  | _ => false

namespace Frame

def Binds (frame : Frame) (name : String) : Prop := (frame.get? name).isSome

theorem binds_set {frame : Frame} {name : String} (h : frame.Binds name) (other : String)
    (value : Node) : (frame.set other value).Binds name := by
  unfold Binds at h ⊢
  rw [get?_set]
  split
  · rfl
  · exact h

end Frame

namespace Store

/-- Every frame of `s` is in `t` as it was. -/
def Untouched (s t : Store) : Prop :=
  ∀ id < s.frames.size, t.frames[id]? = s.frames[id]?

/-- Every frame of `s` but the one given is in `t` as it was, and that one has lost no name. -/
structure ConfinedTo (own : FrameId) (s t : Store) : Prop where
  size_le : s.frames.size ≤ t.frames.size
  others : ∀ id < s.frames.size, id ≠ own → t.frames[id]? = s.frames[id]?
  kept : ∀ frame, s.frames[own]? = some frame →
    ∃ frame', t.frames[own]? = some frame' ∧ ∀ name, frame.Binds name → frame'.Binds name

variable {own : FrameId} {s t u : Store}

theorem confinedTo_of_frames_eq (h : t.frames = s.frames) : ConfinedTo own s t where
  size_le := Nat.le_of_eq (by rw [h])
  others id _ _ := by rw [h]
  kept frame hframe := ⟨frame, by rw [h]; exact hframe, fun _ hname => hname⟩

theorem ConfinedTo.trans (hst : ConfinedTo own s t) (htu : ConfinedTo own t u) :
    ConfinedTo own s u where
  size_le := Nat.le_trans hst.size_le htu.size_le
  others id hid hne :=
    (htu.others id (Nat.lt_of_lt_of_le hid hst.size_le) hne).trans (hst.others id hid hne)
  kept frame hframe := by
    obtain ⟨frame', hframe', hkept⟩ := hst.kept frame hframe
    obtain ⟨frame'', hframe'', hkept'⟩ := htu.kept frame' hframe'
    exact ⟨frame'', hframe'', fun name hname => hkept' name (hkept name hname)⟩

theorem confinedTo_set (s : Store) (scope : Scope) (name : String) (value : Node) :
    ConfinedTo scope.frame s (s.set scope name value) where
  size_le := by simp [set]
  others id _ hne := by
    simp only [set, Array.getElem?_modify, if_neg (Ne.symm hne)]
  kept frame hframe := by
    refine ⟨frame.set name value, ?_, fun other hother => Frame.binds_set hother name value⟩
    simp only [set, Array.getElem?_modify, if_pos, hframe, Option.map_some]

theorem confinedTo_of_newChild (parent : Scope)
    (h : ConfinedTo (s.newChild parent).1.frame (s.newChild parent).2 u) :
    ConfinedTo own s u := by
  have hold : ∀ id < s.frames.size, u.frames[id]? = s.frames[id]? := by
    intro id hid
    rw [h.others id (by simp only [newChild, Array.size_push]; omega) (Nat.ne_of_lt hid)]
    simp only [newChild, Array.getElem?_push_lt hid, Array.getElem?_eq_getElem hid]
  refine ⟨?_, fun id hid _ => hold id hid, fun frame hframe => ?_⟩
  · have := h.size_le
    simp only [newChild, Array.size_push] at this
    omega
  · have hown : own < s.frames.size := (Array.getElem?_eq_some_iff.1 hframe).1
    exact ⟨frame, (hold own hown).trans hframe, fun _ hname => hname⟩

theorem Untouched.refl (s : Store) : Untouched s s := fun _ _ => rfl

theorem Untouched.trans (hst : Untouched s t) (htu : Untouched t u) : Untouched s u := by
  intro id hid
  have ht := hst id hid
  rw [Array.getElem?_eq_getElem hid] at ht
  rw [htu id (Array.getElem?_eq_some_iff.1 ht).1, ht, Array.getElem?_eq_getElem hid]

/-- What is confined to a frame that was not there has touched nothing. -/
theorem untouched_of_confinedTo (h : ConfinedTo s.frames.size s t) : Untouched s t :=
  fun id hid => h.others id hid (Nat.ne_of_lt hid)

end Store

def confinement : Effect := fun scope s t => Store.ConfinedTo scope.frame s.store t.store

theorem confinement_closed : confinement.Closed where
  refl _ _ := Store.confinedTo_of_frames_eq rfl
  trans hst htu := hst.trans htu
  bindName scope name value s := Store.confinedTo_set s.store scope name value
  inChild {_ parent _ _} h := Store.confinedTo_of_newChild parent h
  newClosure _ _ _ := Store.confinedTo_of_frames_eq rfl
  emit _ _ _ _ := Store.confinedTo_of_frames_eq rfl
  record _ _ _ := Store.confinedTo_of_frames_eq rfl
  within h := h

section Runs

variable (options : EvalOptions) (depth : Nat)

theorem eval_confined (node : Node) (scope : Scope) (s : EvalState) :
    s.store.ConfinedTo scope.frame (eval options depth node scope s).2.store :=
  eval_hasEffect confinement_closed options depth node scope s

theorem expand_confined (node : Node) (scope : Scope) (s : EvalState) :
    s.store.ConfinedTo scope.frame (expand options depth node scope s).2.store :=
  expand_hasEffect confinement_closed options depth node scope s

theorem callable_untouched {ev : Evaluator} (hev : ev.HasEffect confinement) (callable : Callable)
    (args : List Node) (scope : Scope) (call : Span) (s : EvalState) :
    s.store.Untouched (callable.apply ev args scope call s).2.store := by
  -- the call is confined as seen from any scope, so also from one whose frame is not there yet
  have hcall : Eval.HasEffect confinement ⟨s.store.frames.size, []⟩
      (callable.apply ev args scope call) :=
    callable_hasEffect confinement_closed hev callable args scope call
  exact Store.untouched_of_confinedTo (hcall s)

section Expansions

variable {options : EvalOptions} {ev : Evaluator} {scope : Scope} (hev : ev.HasEffect confinement)
  (hatom : ∀ value span s, (ev (.atom value span) scope s).2 = s)

include hatom

theorem probe_still {head : Node} {tail : List Node} {span : Span} {o : Outcome Node}
    {s t : EvalState} (hhead : (Node.list (head :: tail) span).isHeadedByList = false)
    (probe : ev head scope s = (o, t)) : t = s := by
  match head with
  | .atom value place =>
    have hstill := hatom value place s
    rw [probe] at hstill
    exact hstill
  | .list items place => cases hhead

include hev

theorem Round.untouched {node output : Node} {s u : EvalState}
    (hround : Round options ev scope (node, s) (output, u)) (hhead : node.isHeadedByList = false) :
    s.store.Untouched u.store := by
  cases hround with
  | @intro _ tail span callable _ _ _ t u plain probe call =>
    obtain rfl := probe_still hatom hhead probe
    have hcall := callable_untouched hev callable tail scope span t
    rw [call] at hcall
    rw [recordIf_store]
    exact hcall

theorem Stop.untouched {node : Node} {steps : Nat} {r : Outcome Node × EvalState} {s : EvalState}
    (hstop : Stop options ev scope steps (node, s) r) (hhead : node.isHeadedByList = false) :
    s.store.Untouched r.2.store := by
  cases hstop with
  | still => exact Store.Untouched.refl _
  | probe plain probe =>
    obtain rfl := probe_still hatom hhead probe
    exact Store.Untouched.refl _
  | limit plain probe =>
    obtain rfl := probe_still hatom hhead probe
    exact Store.Untouched.refl _
  | @call _ tail span callable _ _ _ t u plain probe _ call =>
    obtain rfl := probe_still hatom hhead probe
    have hcall := callable_untouched hev callable tail scope span t
    rw [call] at hcall
    exact hcall

theorem expandFrom_untouched (fuel steps : Nat) (node : Node) (s : EvalState) :
    s.store.Untouched (expandFrom options ev fuel steps node scope s).2.store ∨
      ∃ form t, Rounds options ev scope (node, s) (form, t) ∧ form.isHeadedByList = true := by
  induction fuel generalizing steps node s with
  | zero => exact Or.inl (Store.Untouched.refl _)
  | succ fuel ih =>
    cases hhead : node.isHeadedByList with
    | true => exact Or.inr ⟨node, s, .refl, hhead⟩
    | false =>
      rcases expandFrom_step fuel steps node s with hstop | ⟨-, ⟨output, u⟩, hround, hrest⟩
      · exact Or.inl (hstop.untouched hev hatom hhead)
      · rw [hrest]
        have hwrites := hround.untouched hev hatom hhead
        rcases ih (steps + 1) output u with hlater | ⟨form, v, hrounds, hlist⟩
        · exact Or.inl (hwrites.trans hlater)
        · exact Or.inr ⟨form, v, .head hround hrounds, hlist⟩

end Expansions

/-- Whatever the outcome, an evaluation and an expansion change at most the own frame of their
scope, where no name is lost. Calling a function, the expander of a macro, or `eval` changes no
frame that was there before, and neither does an expansion none of whose forms is headed by a list.
-/
theorem evaluation_confined :
    (∀ node scope (s : EvalState),
      s.store.ConfinedTo scope.frame (eval options depth node scope s).2.store) ∧
    (∀ node scope (s : EvalState),
      s.store.ConfinedTo scope.frame (expand options depth node scope s).2.store) ∧
    (∀ (callable : Callable) args scope call (s : EvalState),
      s.store.Untouched (callable.apply (eval options depth) args scope call s).2.store) ∧
    ∀ node scope (s : EvalState), s.store.Untouched (expand options depth node scope s).2.store ∨
      ∃ form t, Rounds options (eval options depth) scope (node, s) (form, t) ∧
        form.isHeadedByList = true :=
  have hev := eval_hasEffect confinement_closed options depth
  ⟨eval_confined options depth, expand_confined options depth, callable_untouched hev,
    fun node scope s => expandFrom_untouched hev
      (fun value span s => eval_atom_state options depth span scope s value) depth 0 node s⟩

end Runs

/-- `(defmacro m (fn () (quote ((do (def x nil) list)))))`: the result of the macro is headed by a
block that defines a name. -/
def definingMacro : Node :=
  let body := Node.form "do" [.form "def" [.symbol "x" ⟨0, 0⟩, .nil ⟨0, 0⟩] ⟨0, 0⟩,
    .symbol "list" ⟨0, 0⟩] ⟨0, 0⟩
  .form "defmacro" [.symbol "m" ⟨0, 0⟩,
    .form "fn" [.list [] ⟨0, 0⟩, .form "quote" [.list [body] ⟨0, 0⟩] ⟨0, 0⟩] ⟨0, 0⟩] ⟨0, 0⟩

def definedState : EvalState :=
  let engine := Engine.new none
  (eval (engine.options false) 3 definingMacro engine.global (engine.initialState ⟨"t", ""⟩)).2

/-- Expanding a call of that macro, whose expander is a closure, binds a name in the global scope,
which was there before. -/
theorem expand_macro_not_untouched :
    let engine := Engine.new none
    let call := Node.list [.symbol "m" ⟨0, 1⟩] ⟨0, 1⟩
    let after := (expand (engine.options false) 4 call engine.global definedState).2
    (definedState.store.get? engine.global "m").map (fun v => (v.typeName, v.callable?)) =
        some ("Macro", some (.closure 0)) ∧
      engine.global.frame < definedState.store.frames.size ∧
      definedState.store.contains engine.global "x" = false ∧
      after.store.contains engine.global "x" = true ∧
      ¬ definedState.store.Untouched after.store := by
  refine ⟨by decide +kernel, by decide +kernel, by decide +kernel, by decide +kernel, fun h => ?_⟩
  have hframe := h 0 (by decide +kernel)
  have hnames := congrArg (fun f : Option Frame => f.map fun f => f.names.contains "x") hframe
  revert hnames
  decide +kernel

end MacroLisp
