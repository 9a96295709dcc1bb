import MacroLisp.Proofs.Evaluation.Composition
import MacroLisp.Proofs.Scope.Parameters

/-!
# Which source a fault names

A handler is asked about every body that a fault leaves, the innermost one first. The bodies that
were running when a fault was raised are those that every handler is asked about, and
`Handler.carry_injective` says that no other bodies would do. A fault names the source of the
innermost of them, or the current source if none was running; only a text that `read` cannot read is
named itself. Whatever comes out of a body, the source that was current before is current again.
-/

namespace MacroLisp

open Eval

/-- What becomes of a fault that leaves the body of a closure. -/
abbrev Handler : Type := Closure → Fault → Fault

def Outcome.mapFault {α : Type} (handle : Fault → Fault) : Outcome α → Outcome α
  | fault f => fault (handle f)
  | o => o

def Eval.handling {α : Type} (handle : Fault → Fault) (x : Eval α) : Eval α := fun s =>
  ((x s).1.mapFault handle, (x s).2)

namespace Handler

def idle : Handler := fun _ f => f

def door (h : Handler) : Door := fun closure body =>
  Eval.handling (h closure) (Door.plain closure body)

/-- The fault after it has left these bodies, the first of them first. -/
def carry (h : Handler) (running : List Closure) (f : Fault) : Fault :=
  running.foldl (fun f closure => h closure f) f

theorem door_idle : idle.door = Door.plain := by
  funext closure body s
  show ((Door.plain closure body s).1.mapFault id, (Door.plain closure body s).2) = _
  generalize Door.plain closure body s = r
  obtain ⟨_ | _ | _, _⟩ := r <;> rfl

theorem door_apply (h : Handler) {closure : Closure} {body : Eval Node} {s t : EvalState}
    {o : Outcome Node} (hbody : body { s with source := closure.source } = (o, t)) :
    h.door closure body s = (o.mapFault (h closure), { t with source := s.source }) := by
  simp only [door, handling, Door.plain, within, hbody]

theorem carry_idle (running : List Closure) (f : Fault) : idle.carry running f = f := by
  induction running with
  | nil => rfl
  | cons closure running ih => exact ih

theorem carry_concat (h : Handler) (running : List Closure) (closure : Closure) (f : Fault) :
    h.carry (running ++ [closure]) f = h closure (h.carry running f) :=
  List.foldl_concat _ _ _ _

/-- Writes into the note of the fault which of the bodies have the property. -/
def tally (p : Closure → Bool) : Handler := fun closure f =>
  f.withHelp ((f.note.getD "").push (if p closure then 't' else 'f'))

theorem note_carry_tally (p : Closure → Bool) (running : List Closure) (f : Fault) :
    (((tally p).carry running f).note.getD "").toList =
      (f.note.getD "").toList ++ running.map fun closure => if p closure then 't' else 'f' := by
  induction running generalizing f with
  | nil => rw [List.map_nil, List.append_nil]; rfl
  | cons closure running ih =>
    have hrest := ih (tally p closure f)
    have hnote : ((tally p closure f).note.getD "").toList =
        (f.note.getD "").toList ++ [if p closure then 't' else 'f'] := String.toList_push ..
    rw [hnote, List.append_assoc] at hrest
    exact hrest

theorem carry_injective {xs ys : List Closure} {f : Fault}
    (h : ∀ handler : Handler, handler.carry xs f = handler.carry ys f) : xs = ys := by
  classical
  have hmap (p : Closure → Bool) : xs.map p = ys.map p := by
    have htally := congrArg (fun f => (f.note.getD "").toList) (h (tally p))
    simp only [note_carry_tally, List.append_cancel_left_eq] at htally
    have hread := congrArg (List.map (· == 't')) htally
    have hbit (closure : Closure) : ((if p closure then 't' else 'f') == 't') = p closure := by
      cases p closure <;> rfl
    simpa only [List.map_map, Function.comp_def, hbit] using hread
  refine List.ext_getElem (by simpa using congrArg List.length (hmap fun _ => true)) ?_
  intro i hx hy
  have hi := congrArg (·[i]?) (hmap fun closure => decide (closure = xs[i]))
  simpa [List.getElem?_map, List.getElem?_eq_getElem hx, List.getElem?_eq_getElem hy, eq_comm]
    using hi

end Handler

/-- The fault is raised while these bodies are running, the innermost one first: every handler gets
it on its way out of them. -/
def Raises {α : Type} (x : Handler → Eval α) (s : EvalState) (running : List Closure) (f : Fault)
    (t : EvalState) : Prop :=
  ∀ h : Handler, x h s = (.fault (h.carry running f), t)

theorem Raises.running_eq {α : Type} {x : Handler → Eval α} {s t : EvalState}
    {running other : List Closure} {f : Fault} (h : Raises x s running f t)
    (hother : Raises x s other f t) : other = running := by
  refine Handler.carry_injective (f := f) fun handler => ?_
  have heq := (hother handler).symm.trans (h handler)
  injection heq with hfault
  injection hfault

def innermost (current : Source) (running : List Closure) : Source :=
  (running.head?.map Closure.source).getD current

theorem innermost_concat (closure : Closure) (running : List Closure) (current : Source) :
    innermost current (running ++ [closure]) = innermost closure.source running := by
  cases running <;> rfl

/-- A text that is handed to `read` cannot be read. -/
def Fault.IsUnreadable (f : Fault) : Prop :=
  ∃ text, Reader.readOne ⟨Primitive.readName, text⟩ = .error f

/-- What happens is the same for all handlers, but for what they do to the fault: it is raised in
the source of the innermost body. The current source is restored. -/
def Attributed {α : Type} (x : Handler → Eval α) : Prop :=
  ∀ s, ∃ t, t.source = s.source ∧
    ((∃ o, (∀ f, o ≠ .fault f) ∧ ∀ h, x h s = (o, t)) ∨
      ∃ running f, Raises x s running f t ∧
        (f.IsUnreadable ∨ f.source = some (innermost s.source running)))

theorem attributed_of_value {α : Type} {x : Eval α}
    (h : ∀ s, ∃ a t, x s = (.value a, t) ∧ t.source = s.source) : Attributed fun _ => x := by
  intro s
  obtain ⟨a, t, hx, ht⟩ := h s
  exact ⟨t, ht, Or.inl ⟨.value a, (fun _ h => by cases h), fun _ => hx⟩⟩

theorem attributed_act {scope : Scope} {α : Type} {x : Eval α} (h : Act scope x) :
    Attributed fun _ => x := by
  cases h with
  | fail cause span => exact fun s => ⟨s, rfl, Or.inr ⟨[], _, fun _ => rfl, Or.inr rfl⟩⟩
  | unfinished =>
    exact fun s => ⟨s, rfl, Or.inl ⟨.unfinished, (fun _ h => by cases h), fun _ => rfl⟩⟩
  | pure | source | lookup | names | closure? | bindName | newClosure | emit =>
    exact attributed_of_value fun _ => ⟨_, _, rfl, rfl⟩

theorem attributed_bind {α β : Type} {x : Handler → Eval α} {f : Handler → α → Eval β}
    (hx : Attributed x) (hf : ∀ a, Attributed fun h => f h a) :
    Attributed fun h => x h >>= f h := by
  intro s
  obtain ⟨t, ht, ⟨o, hnofault, hsame⟩ | ⟨running, e, hraises, hnames⟩⟩ := hx s
  · cases o with
    | value a =>
      -- the second part runs in the source of the first one, which has been restored
      obtain ⟨u, hu, hrest⟩ := hf a t
      have hstep (h : Handler) : (x h >>= f h) s = f h a t := by rw [bind_apply, hsame h]
      rw [ht] at hu hrest
      refine ⟨u, hu, ?_⟩
      simpa only [Raises, hstep] using hrest
    | fault e => exact absurd rfl (hnofault e)
    | unfinished =>
      have hstep (h : Handler) : (x h >>= f h) s = (.unfinished, t) := by rw [bind_apply, hsame h]
      exact ⟨t, ht, Or.inl ⟨.unfinished, (fun _ h => by cases h), hstep⟩⟩
  · have hstep (h : Handler) : (x h >>= f h) s = (.fault (h.carry running e), t) := by
      rw [bind_apply, hraises h]
    exact ⟨t, ht, Or.inr ⟨running, e, hstep, hnames⟩⟩

/-- A fault that leaves a body has that body behind it, as the outermost one so far. -/
theorem attributed_enter (closure : Closure) {x : Handler → Eval Node} (hx : Attributed x) :
    Attributed fun h => h.door closure (x h) := by
  intro s
  obtain ⟨t, ht, hcases⟩ := hx { s with source := closure.source }
  refine ⟨{ t with source := s.source }, rfl, ?_⟩
  obtain ⟨o, hnofault, hsame⟩ | ⟨running, f, hraises, hnames⟩ := hcases
  · have hkept (handle : Fault → Fault) : o.mapFault handle = o := by
      cases o with
      | fault f => exact absurd rfl (hnofault f)
      | value a => rfl
      | unfinished => rfl
    exact Or.inl ⟨o, hnofault, fun h => by simpa only [hkept] using h.door_apply (hsame h)⟩
  · refine Or.inr ⟨running ++ [closure], f, fun h => ?_, ?_⟩
    · rw [Handler.carry_concat]
      exact h.door_apply (hraises h)
    · rw [innermost_concat]
      exact hnames

theorem attributed_passable : Passable Handler.door fun _ _ => Attributed where
  act := attributed_act
  unreadable h s := ⟨s, rfl, Or.inr ⟨[], _, fun _ => rfl, Or.inl ⟨_, h⟩⟩⟩
  bind := attributed_bind
  inChild parent _ _ :=
    attributed_bind (attributed_of_value fun s => ⟨_, (newScope parent s).2, rfl, rfl⟩)
  enter := attributed_enter

theorem attributed_recordIf (tracing : Bool) (step : ExpansionStep) :
    Attributed fun _ => recordIf tracing step := by
  cases tracing <;> exact attributed_of_value fun _ => ⟨_, _, rfl, rfl⟩

section Runs

variable (options : EvalOptions) (depth : Nat)

theorem eval_attributed (node : Node) (scope : Scope) :
    Attributed fun h => evalThrough h.door options depth node scope :=
  evalThrough_passes attributed_passable options (fun _ => attributed_recordIf options.tracing)
    depth node scope

theorem expand_attributed (node : Node) (scope : Scope) :
    Attributed fun h => expandThrough h.door options depth node scope :=
  expandThrough_passes attributed_passable options (fun _ => attributed_recordIf options.tracing)
    depth node scope

theorem closure_attributed (closure : Closure) (args : List Node) (call : Span) :
    Attributed fun h => closure.applyThrough h.door (evalThrough h.door options depth) args call :=
  closure_passes attributed_passable (eval_attributed options depth) closure.scope closure args call

end Runs

section Idle

variable {α : Type} {x : Handler → Eval α} (hx : Attributed x)

include hx

theorem Attributed.source_eq (s : EvalState) : (x .idle s).2.source = s.source := by
  obtain ⟨t, ht, ⟨o, -, hsame⟩ | ⟨running, f, hraises, -⟩⟩ := hx s
  · rw [hsame]
    exact ht
  · rw [hraises]
    exact ht

theorem Attributed.exists_running {s t : EvalState} {f : Fault} (h : x .idle s = (.fault f, t)) :
    ∃ running, (∀ other, Raises x s other f t ↔ other = running) ∧
      (f.IsUnreadable ∨ f.source = some (innermost s.source running)) := by
  obtain ⟨u, -, ⟨o, hnofault, hsame⟩ | ⟨running, e, hraises, hnames⟩⟩ := hx s
  · rw [hsame] at h
    injection h with ho
    exact absurd ho (hnofault f)
  · have heq := hraises .idle
    rw [Handler.carry_idle, h] at heq
    injection heq with hfault hstate
    injection hfault with hfault
    subst hfault hstate
    exact ⟨running, fun other => ⟨hraises.running_eq, fun hother => hother ▸ hraises⟩, hnames⟩

end Idle

/-- Evaluation, expansion and calls restore the current source, whatever their outcome. Every fault
of theirs is raised while certain bodies are running, and unless it is about a text that `read`
cannot read, it names the source that was captured by the closure whose body is the innermost one,
or the current source if no body is running. A wrong number of arguments is a fault in the source of
the caller, at the call. -/
theorem faults_name_innermost (options : EvalOptions) (depth : Nat) (scope : Scope)
    (s : EvalState) :
    evalThrough Handler.idle.door options depth = eval options depth ∧
    (∀ node, (eval options depth node scope s).2.source = s.source ∧
      ∀ f t, eval options depth node scope s = (.fault f, t) → ∃ running,
        (∀ other, Raises (fun h => evalThrough h.door options depth node scope) s other f t ↔
          other = running) ∧
        (f.IsUnreadable ∨ f.source = some (innermost s.source running))) ∧
    (∀ node, (expand options depth node scope s).2.source = s.source ∧
      ∀ f t, expand options depth node scope s = (.fault f, t) → ∃ running,
        (∀ other, Raises (fun h => expandThrough h.door options depth node scope) s other f t ↔
          other = running) ∧
        (f.IsUnreadable ∨ f.source = some (innermost s.source running))) ∧
    ∀ (closure : Closure) (args : List Node) (call : Span),
      (closure.apply (eval options depth) args call s).2.source = s.source ∧
      (¬ closure.params.Take args.length →
        closure.apply (eval options depth) args call s = (.fault
          (.located (.wrongArity "fn" closure.params.arity args.length) s.source call), s)) := by
  have heval : evalThrough Handler.idle.door options depth = eval options depth := by
    rw [Handler.door_idle, evalThrough_plain]
  have hexpand : expandThrough Handler.idle.door options depth = expand options depth := by
    rw [Handler.door_idle, expandThrough_plain]
  refine ⟨heval, fun node => ⟨?_, fun f t hfault => ?_⟩, fun node => ⟨?_, fun f t hfault => ?_⟩,
    fun closure args call => ⟨?_, fun hcount => ?_⟩⟩
  · have hsource := (eval_attributed options depth node scope).source_eq s
    rwa [heval] at hsource
  · exact (eval_attributed options depth node scope).exists_running (by rwa [heval])
  · have hsource := (expand_attributed options depth node scope).source_eq s
    rwa [hexpand] at hsource
  · exact (expand_attributed options depth node scope).exists_running (by rwa [hexpand])
  · have hsource := (closure_attributed options depth closure args call).source_eq s
    rwa [Handler.door_idle, Closure.applyThrough_plain, evalThrough_plain] at hsource
  · exact closure.apply_of_not_take s hcount _

/-- `(g)` is evaluated in a third source; `g` comes from a second one and calls `f` from a first
one, whose body is a name that is not bound. -/
theorem faults_name_innermost_nested :
    let p : Span := ⟨0, 0⟩
    let function (id : ClosureId) := Node.atom (.function (.closure id)) p
    let f : Closure := ⟨⟨[], none, p⟩, [.symbol "x" p], ⟨0, []⟩, p, ⟨"first", "(fn () x)"⟩⟩
    let g : Closure :=
      ⟨⟨[], none, p⟩, [.list [.symbol "f" p] p], ⟨0, []⟩, p, ⟨"second", "(fn () (f))"⟩⟩
    let s : EvalState :=
      ⟨⟨#[⟨[("f", function 0), ("g", function 1)]⟩], #[f, g]⟩, ⟨"third", "(g)"⟩, #[], #[]⟩
    let options : EvalOptions := ⟨none, false⟩
    let scope : Scope := ⟨0, []⟩
    let call := Node.list [.symbol "g" p] p
    let fault := Fault.located (.unbound "x") ⟨"first", "(fn () x)"⟩ p
    ∃ t, eval options 6 call scope s = (.fault fault, t) ∧ t.source = s.source ∧
      (∀ other, Raises (fun h => evalThrough h.door options 6 call scope) s other fault t ↔
        other = [f, g]) ∧
      fault.source = some (innermost s.source [f, g]) ∧
      ¬ f.params.Take [call].length ∧
      f.apply (eval options 6) [call] p s =
        (.fault (.located (.wrongArity "fn" f.params.arity 1) ⟨"third", "(g)"⟩ p), s) := by
  intro p function f g s options scope call fault
  obtain ⟨-, heval, -, hcall⟩ := faults_name_innermost options 6 scope s
  have hcount : ¬ f.params.Take [call].length := by
    rintro (h | ⟨h, -⟩) <;> exact absurd h (by decide)
  have hfault : eval options 6 call scope s = (.fault fault, (eval options 6 call scope s).2) := rfl
  obtain ⟨running, hrunning, -⟩ := (heval call).2 fault _ hfault
  have hboth : [f, g] = running := (hrunning [f, g]).1 fun h => rfl
  exact ⟨_, hfault, (heval call).1, fun other => by rw [hboth]; exact hrunning other, rfl, hcount,
    (hcall f [call] p).2 hcount⟩

end MacroLisp
