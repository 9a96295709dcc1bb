import MacroLisp.Proofs.Likeness.Engine

/-!
# Resets

After a reset the frames and closures that were there are still in the store, ahead of all that will
be made. An engine after a reset is compared with a new one whose places stand for those behind what
is left over: no place of the rest stands for any place of the new engine, so whatever is answered
from now on comes from what was made since.
-/

namespace MacroLisp

inductive Request where
  | run (source : Source)
  | value (text : String)
  | expand (source : Source)
  | trace (source : Source)
  | reset

inductive Reply where
  | value (value : Node)
  | expansions (expansions : List Node)
  | steps (steps : List ExpansionStep)
  | done

/-- All that can be seen of the way an engine served a request. -/
structure Answer where
  outcome : Outcome Reply
  emitted : List Emission
  /-- The names that are bound in the global scope afterwards. -/
  names : List String

def Performance.map {α β : Type} (f : α → β) (p : Performance α) : Performance β :=
  { p with outcome := p.outcome.map f }

def Performance.answer (p : Performance Reply) : Answer :=
  ⟨p.outcome, p.emitted.toList, p.engine.names⟩

namespace Engine

def serveOne (engine : Engine) (depth : Nat) : Request → Performance Reply
  | .run source => (engine.run depth source).map .value
  | .value text => (engine.evalText depth text).map .value
  | .expand source => (engine.expand depth source).map .expansions
  | .trace source => (engine.trace depth source).map .steps
  | .reset => ⟨.value .done, engine.reset, #[]⟩

/-- The answers to requests made one after the other, whether they succeed or fail, and the engine
after them. -/
def serve (engine : Engine) (depth : Nat) : List Request → List Answer × Engine
  | [] => ([], engine)
  | request :: requests =>
    let p := engine.serveOne depth request
    let (answers, final) := p.engine.serve depth requests
    (p.answer :: answers, final)

end Engine

inductive Reply.Like (L : Likeness) : Reply → Reply → Prop where
  | value {v v' : Node} (h : v.Like L v') : Like L (.value v) (.value v')
  | expansions {es es' : List Node} (h : List.Forall₂ (Node.Like L) es es') :
      Like L (.expansions es) (.expansions es')
  | steps {ts ts' : List ExpansionStep} (h : List.Forall₂ (ExpansionStep.Like L) ts ts') :
      Like L (.steps ts) (.steps ts')
  | done : Like L .done .done

structure Answer.Like (L : Likeness) (a a' : Answer) : Prop where
  outcome : a.outcome.Like L.located (Reply.Like L) a'.outcome
  emitted : List.Forall₂ (Emission.Like L) a.emitted a'.emitted
  names : a.names = a'.names

theorem Reply.Like.mono {L M : Likeness} {r r' : Reply} (h : r.Like L r') (hLM : L.Within M) :
    r.Like M r' := by
  cases h with
  | value h => exact .value (h.mono hLM)
  | expansions h => exact .expansions (Node.Like.all_mono h hLM)
  | steps h => exact .steps (h.imp fun _ _ hstep => hstep.mono hLM)
  | done => exact .done

/-- All that stands for each other at some time. -/
def Comparison.overall (c : Comparison) : Likeness where
  located := c.located
  names := c.names
  frames := c.frames.pairs
  closures := c.closures.pairs
  unique := c.closures.unique
  word := c.word
  rest := c.rest

theorem Comparison.likeness_within_overall (c : Comparison) (store : Store) :
    (c.likeness store).Within c.overall :=
  ⟨id, id, And.left, And.left⟩

section Serving

variable {c : Comparison} {e e' : Engine}

theorem Performance.Corresponds.map {α β : Type} {P : Likeness → α → α → Prop}
    {Q : Likeness → β → β → Prop} {p p' : Performance α} (h : p.Corresponds c P p') {f : α → β}
    (hf : ∀ {L a a'}, P L a a' → Q L (f a) (f a')) : (p.map f).Corresponds c Q (p'.map f) := by
  refine ⟨?_, h.engine, h.emitted⟩
  have houtcome := h.outcome
  unfold Performance.map
  dsimp only
  generalize p.outcome = o at houtcome ⊢
  generalize p'.outcome = o' at houtcome ⊢
  cases houtcome with
  | value h => exact .value (hf h)
  | fault h => exact .fault h
  | unfinished => exact .unfinished

theorem Performance.Corresponds.silenced {α : Type} {P : Likeness → α → α → Prop}
    {p p' : Performance α} (h : p.Corresponds c P p') :
    Performance.Corresponds c P { p with emitted := #[] } { p' with emitted := #[] } :=
  ⟨h.outcome, h.engine, fun _ => .nil⟩

theorem Performance.Corresponds.answer {p p' : Performance Reply} (h : p.Corresponds c Reply.Like p')
    (hlogged : c.logged) : p.answer.Like c.overall p'.answer := by
  have hwithin := c.likeness_within_overall p.engine.store
  exact ⟨h.outcome.imp fun _ _ hreply => hreply.mono hwithin,
    (h.emitted hlogged).imp fun _ _ hemission => hemission.mono hwithin, h.engine.names_eq⟩

namespace Engine

theorem Like.serveOne (h : e.Like c e') (hlogged : c.logged) (depth : Nat) (request : Request) :
    (e.serveOne depth request).Corresponds c Reply.Like (e'.serveOne depth request) := by
  cases request with
  | run source => exact (h.run depth source).map .value
  | value text => exact (h.run depth ⟨evalName, text⟩).silenced.map .value
  | expand source => exact (h.expand depth source).map .expansions
  | trace source => exact (h.trace depth source hlogged).map .steps
  | reset => exact ⟨.value .done, reset_like h.limit h.store, fun _ => .nil⟩

theorem Like.serve (h : e.Like c e') (hlogged : c.logged) (depth : Nat) (requests : List Request) :
    List.Forall₂ (Answer.Like c.overall) (e.serve depth requests).1 (e'.serve depth requests).1 := by
  induction requests generalizing e e' with
  | nil => exact .nil
  | cons request requests ih =>
    have hone := h.serveOne hlogged depth request
    exact .cons (hone.answer hlogged) (ih hone.engine)

theorem serveOne_expansionLimit (engine : Engine) (depth : Nat) (request : Request) :
    (engine.serveOne depth request).engine.expansionLimit = engine.expansionLimit := by
  cases request with
  | run | value | expand | trace => exact engine.perform_expansionLimit ..
  | reset => rfl

theorem serve_expansionLimit (engine : Engine) (depth : Nat) (requests : List Request) :
    (engine.serve depth requests).2.expansionLimit = engine.expansionLimit := by
  induction requests generalizing engine with
  | nil => rfl
  | cons request requests ih => exact (ih _).trans (engine.serveOne_expansionLimit depth request)

end Engine

end Serving

def Pairing.shifted (n : Nat) : Pairing where
  pairs i j := i = n + j
  unique h h' := by omega
  early := True

/-- Everything is the same in both runs, spans and sources too, but the first one has so many frames
and closures ahead of those that it shares with the second one. -/
def Comparison.behind (frames closures : Nat) : Comparison where
  located := True
  logged := True
  names _ := True
  frames := .shifted frames
  closures := .shifted closures
  word _ := trivial
  rest _ _ _ := trivial

theorem links_shifted {α : Type} {R : α → α → Prop} (xs : Array α) :
    Links (.shifted xs.size) R xs #[] where
  ahead k := congrArg (xs.size + ·) (Nat.zero_add k).symm
  each i j hij := by
    obtain ⟨rfl, -⟩ := hij
    rw [Array.getElem?_eq_none (Nat.le_add_right ..), Array.getElem?_empty]
    exact .none

theorem Store.like_empty (s : Store) : s.Like (.behind s.frames.size s.closures.size) .empty :=
  ⟨links_shifted s.frames, links_shifted s.closures⟩

/-- After any requests and a reset, an engine answers all further requests as a new engine with the
same limit does: with the same values, expansions and steps, faults, output and names, all with the
same spans and sources. A closure in an answer has its counterpart so many places earlier as there
were closures before the reset, so none of these is ever seen again. -/
theorem Engine.reset_forgets (engine : Engine) (earlier depth : Nat)
    (history requests : List Request) :
    let used := (engine.serve earlier history).2
    List.Forall₂
      (Answer.Like (Comparison.behind used.store.frames.size used.store.closures.size).overall)
      (used.reset.serve depth requests).1 ((new engine.expansionLimit).serve depth requests).1 := by
  intro used
  have hlimit : used.expansionLimit = (new engine.expansionLimit).expansionLimit :=
    engine.serve_expansionLimit earlier history
  have hglobal := used.store.like_empty.newGlobal
  have hreset : used.reset.Like (.behind used.store.frames.size used.store.closures.size)
      (new engine.expansionLimit) := ⟨hlimit, hglobal.1, hglobal.2⟩
  -- the history only fixes the distance: the requests are compared from the reset on
  exact hreset.serve trivial depth requests

end MacroLisp
