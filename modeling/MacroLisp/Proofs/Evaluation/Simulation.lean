import MacroLisp.Proofs.Evaluation.Composition

/-!
# Two runs of one program

Two computations are compared step by step. The states of the two runs hold the same store, source
and emissions, and their traces are related by `T`. The second run follows the first if it comes to
the same outcome in such a state, unless the first one is cut off: by its depth, or by a fault that
`cut` singles out.

`eval_follows` is the comparison of whole evaluations: at least the same depth, and options that
`Options.Follow` relates. Only expansions look at either of them, so they are compared step by step;
everything else that an evaluation does passes from the parts to the whole.
-/

namespace MacroLisp

namespace Outcome

variable {α : Type}

/-- Cut off by the depth or by one of the given faults. -/
def CutOff (cut : Fault → Prop) : Outcome α → Prop
  | value _ => False
  | fault f => cut f
  | unfinished => True

end Outcome

/-- States that differ at most in their traces. -/
structure EvalState.Alike (T : Array ExpansionStep → Array ExpansionStep → Prop)
    (s t : EvalState) : Prop where
  store : s.store = t.store
  source : s.source = t.source
  emitted : s.emitted = t.emitted
  trace : T s.trace t.trace

theorem EvalState.Alike.eq {s t : EvalState} (h : s.Alike Eq t) : s = t := by
  cases s
  cases t
  obtain ⟨rfl, rfl, rfl, rfl⟩ := h
  rfl

namespace Eval

open EvalState (Alike)

variable {α β : Type} {cut : Fault → Prop}
  {T : Array ExpansionStep → Array ExpansionStep → Prop}

/-- From like states, `y` comes to the outcome of `x` unless `x` is cut off. -/
def Follows (cut : Fault → Prop) (T : Array ExpansionStep → Array ExpansionStep → Prop)
    (x y : Eval α) : Prop :=
  ∀ s t, Alike T s t →
    (x s).1.CutOff cut ∨ ((y t).1 = (x s).1 ∧ Alike T (x s).2 (y t).2)

theorem follows_bind {x y : Eval α} {f g : α → Eval β} (hx : Follows cut T x y)
    (hf : ∀ a, Follows cut T (f a) (g a)) : Follows cut T (x >>= f) (y >>= g) := by
  intro s t hst
  rw [bind_apply, bind_apply]
  have h := hx s t hst
  generalize x s = p at h
  generalize y t = q at h
  obtain ⟨o, s'⟩ := p
  obtain ⟨o', t'⟩ := q
  rcases h with hcut | ⟨rfl, hst'⟩
  · cases o with
    | value a => exact hcut.elim
    | fault e => exact Or.inl hcut
    | unfinished => exact Or.inl trivial
  · cases o' with
    | value a => exact hf a s' t' hst'
    | fault e => exact Or.inr ⟨rfl, hst'⟩
    | unfinished => exact Or.inl trivial

theorem follows_of_step {x y : Eval α}
    (h : ∀ s t, Alike T s t → (y t).1 = (x s).1 ∧ Alike T (x s).2 (y t).2) :
    Follows cut T x y :=
  fun s t hst => Or.inr (h s t hst)

theorem follows_pure (a : α) : Follows cut T (pure a : Eval α) (pure a) :=
  follows_of_step fun _ _ hst => ⟨rfl, hst⟩

theorem follows_unfinished (y : Eval α) : Follows cut T unfinished y :=
  fun _ _ _ => Or.inl trivial

theorem follows_fail (cause : Cause) (span : Span) :
    Follows cut T (fail cause span : Eval α) (fail cause span) :=
  follows_of_step fun _ _ hst => ⟨by simp only [fail, hst.source], hst⟩

theorem follows_act {scope : Scope} {x : Eval α} (h : Act scope x) : Follows cut T x x := by
  cases h with
  | pure a => exact follows_pure a
  | unfinished => exact follows_unfinished _
  | fail cause span => exact follows_fail cause span
  | source => exact follows_of_step fun _ _ hst => ⟨by simp only [source, hst.source], hst⟩
  | lookup => exact follows_of_step fun _ _ hst => ⟨by simp only [lookup, hst.store], hst⟩
  | names => exact follows_of_step fun _ _ hst => ⟨by simp only [names, hst.store], hst⟩
  | closure? => exact follows_of_step fun _ _ hst => ⟨by simp only [closure?, hst.store], hst⟩
  | bindName =>
    exact follows_of_step fun _ _ hst =>
      ⟨rfl, { hst with store := by simp only [bindName, hst.store] }⟩
  | newClosure =>
    exact follows_of_step fun _ _ hst => ⟨by simp only [newClosure, hst.store],
      { hst with store := by simp only [newClosure, hst.store] }⟩
  | emit =>
    exact follows_of_step fun _ _ hst =>
      ⟨rfl, { hst with emitted := by simp only [emit, hst.emitted] }⟩

theorem follows_throw (f : Fault) : Follows cut T (throw f : Eval α) (throw f) :=
  follows_of_step fun _ _ hst => ⟨rfl, hst⟩

theorem follows_newScope (parent : Scope) :
    Follows cut T (newScope parent) (newScope parent) :=
  follows_of_step fun _ _ hst =>
    ⟨by simp only [newScope, hst.store], { hst with store := by simp only [newScope, hst.store] }⟩

theorem follows_within {x y : Eval α} (source : Source) (h : Follows cut T x y) :
    Follows cut T (within source x) (within source y) := by
  intro s t hst
  rcases h { s with source } { t with source } ⟨hst.store, rfl, hst.emitted, hst.trace⟩ with
    hcut | ⟨ho, hst'⟩
  · exact Or.inl hcut
  · exact Or.inr ⟨ho, ⟨hst'.store, hst.source, hst'.emitted, hst'.trace⟩⟩

theorem follows_passable :
    Passable (fun _ : Bool => Door.plain) fun _ _ x => Follows cut T (x false) (x true) where
  act := follows_act
  unreadable _ := follows_throw _
  bind := follows_bind
  inChild parent := follows_bind (follows_newScope parent)
  enter closure := follows_within closure.source

end Eval

open Eval

def Evaluator.Follows (cut : Fault → Prop)
    (T : Array ExpansionStep → Array ExpansionStep → Prop) (ev ev' : Evaluator) : Prop :=
  ∀ node scope, Eval.Follows cut T (ev node scope) (ev' node scope)

/-- The evaluators of the first and of the second run. -/
def Evaluator.pair (ev ev' : Evaluator) : Bool → Evaluator
  | false => ev
  | true => ev'

section Layers

variable {cut : Fault → Prop} {T : Array ExpansionStep → Array ExpansionStep → Prop}
  {ev ev' ex ex' : Evaluator}

theorem Evaluator.Follows.family (h : ev.Follows cut T ev') :
    Evaluator.Family (fun _ _ x => Eval.Follows cut T (x false) (x true)) (ev.pair ev') := h

variable (hev : ev.Follows cut T ev') (hex : ex.Follows cut T ex')

include hev

theorem body_follows (scope : Scope) (span : Span) (forms : List Node) :
    Eval.Follows cut T (ev.body scope span forms) (ev'.body scope span forms) :=
  body_passes follows_passable hev.family scope span forms

theorem arguments_follow (scope : Scope) (args : List Node) :
    Eval.Follows cut T (ev.arguments scope args) (ev'.arguments scope args) :=
  arguments_pass follows_passable hev.family scope args

theorem callable_follows (callable : Callable) (args : List Node) (scope : Scope) (call : Span) :
    Eval.Follows cut T (callable.apply ev args scope call) (callable.apply ev' args scope call) :=
  callable_family follows_passable hev.family scope callable args scope call

theorem apply_follows (callee : Node) (args : List Node) (scope : Scope) (call : Span) :
    Eval.Follows cut T (callee.apply ev args scope call) (callee.apply ev' args scope call) :=
  apply_family follows_passable hev.family scope callee args scope call

include hex

theorem evalExpandedWith_follows :
    Evaluator.Follows cut T (evalExpandedWith ev ex) (evalExpandedWith ev' ex') :=
  evalExpandedWith_family follows_passable hev.family hex.family

theorem evalWith_follows : Evaluator.Follows cut T (evalWith ev ex) (evalWith ev' ex') :=
  evalWith_family follows_passable hev.family hex.family

end Layers

/-- What the options of two runs must have in common for the second run to follow the first: the
second stops an expansion no sooner, it stops it with the same fault unless that fault is cut off,
and recording a step keeps the traces related. -/
structure EvalOptions.Follow (cut : Fault → Prop)
    (T : Array ExpansionStep → Array ExpansionStep → Prop) (o o' : EvalOptions) : Prop where
  below : ∀ steps, o.exceeded? steps = none → o'.exceeded? steps = none
  beyond : ∀ steps limit, o.exceeded? steps = some limit →
    o'.exceeded? steps = some limit ∨
      ∀ head source span, cut (.located (.expansionLimit limit head) source span)
  record : ∀ step trace trace', T trace trace' →
    T (if o.tracing then trace.push step else trace)
      (if o'.tracing then trace'.push step else trace')

section Options

variable {cut : Fault → Prop} {T : Array ExpansionStep → Array ExpansionStep → Prop}
  {o o' : EvalOptions} (ho : o.Follow cut T o')

include ho

theorem recordIf_follows (step : ExpansionStep) :
    Eval.Follows cut T (recordIf o.tracing step) (recordIf o'.tracing step) := by
  refine follows_of_step fun s t hst => ?_
  have htrace := ho.record step s.trace t.trace hst.trace
  generalize o.tracing = recorded at htrace ⊢
  generalize o'.tracing = recorded' at htrace ⊢
  cases recorded <;> cases recorded' <;>
    exact ⟨rfl, ⟨hst.store, hst.source, hst.emitted, htrace⟩⟩

theorem limit_follows {steps limit : Nat} (h : o.exceeded? steps = some limit) (head : String)
    (span : Span) (next : Eval Node) :
    Eval.Follows cut T (Eval.fail (.expansionLimit limit head) span)
      (match o'.exceeded? steps with
        | some limit => Eval.fail (.expansionLimit limit head) span
        | none => next) := by
  rcases ho.beyond steps limit h with h' | hcut
  · rw [h']
    exact follows_fail _ _
  · exact fun s t _ => Or.inl (hcut head s.source span)

/-- The loop is compared step by step, so the second run may have more steps left. -/
theorem expandFrom_follows {ev ev' : Evaluator} (hev : ev.Follows cut T ev') {fuel fuel' : Nat}
    (hfuel : fuel ≤ fuel') (steps : Nat) :
    Evaluator.Follows cut T (expandFrom o ev fuel steps) (expandFrom o' ev' fuel' steps) := by
  induction fuel generalizing fuel' steps with
  | zero => exact fun node scope => follows_unfinished _
  | succ fuel ih =>
    intro node scope
    obtain ⟨fuel', rfl⟩ : ∃ m, fuel' = m + 1 := ⟨fuel' - 1, by omega⟩
    unfold expandFrom
    split
    · split
      · exact follows_pure _
      · refine follows_bind (hev _ scope) fun value => ?_
        split
        · next callable _ =>
          cases h : o.exceeded? steps with
          | some limit => exact limit_follows ho h _ _ _
          | none =>
            rw [ho.below steps h]
            refine follows_bind (callable_follows hev callable _ scope _) fun output => ?_
            refine follows_bind (recordIf_follows ho _) fun _ => ?_
            exact ih (by omega) (steps + 1) output scope
        · exact follows_pure _
    · exact follows_pure _

theorem eval_follows {depth depth' : Nat} (h : depth ≤ depth') :
    Evaluator.Follows cut T (eval o depth) (eval o' depth') := by
  induction depth generalizing depth' with
  | zero => exact fun node scope => follows_unfinished _
  | succ depth ih =>
    obtain ⟨depth', rfl⟩ : ∃ m, depth' = m + 1 := ⟨depth' - 1, by omega⟩
    have hev := ih (Nat.le_of_succ_le_succ h)
    exact evalWith_follows hev (expandFrom_follows ho hev (Nat.le_of_succ_le_succ h) 0)

theorem expand_follows {depth depth' : Nat} (h : depth ≤ depth') :
    Evaluator.Follows cut T (expand o depth) (expand o' depth') :=
  expandFrom_follows ho (eval_follows ho h) h 0

theorem evalExpanded_follows {depth depth' : Nat} (h : depth ≤ depth') :
    Evaluator.Follows cut T (evalExpanded o depth) (evalExpanded o' depth') :=
  evalExpandedWith_follows (eval_follows ho h) (expand_follows ho h)

end Options

end MacroLisp
