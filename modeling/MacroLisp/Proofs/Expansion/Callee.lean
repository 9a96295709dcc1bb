import MacroLisp.Proofs.Expansion.FixedPoint

/-!
# What is called with evaluated arguments

A form whose head is no special form is evaluated as a call when its expansion has found that the
head is no macro. The head is then evaluated a second time. For a head that is an atom the second
evaluation gives what the first one gave, so no macro is called with evaluated arguments. A head
that is a list may come to something else the second time: `expander_applied` is a run in which the
first look finds a function and the second one a macro.
-/

namespace MacroLisp

open Eval

section Calls

variable {options : EvalOptions} {scope : Scope} {node head : Node} {tail : List Node} {span : Span}
  {s t : EvalState}

theorem arguments_deepens (o : EvalOptions) (scope : Scope) (args : List Node) :
    Deepens fun d => (eval o d).arguments scope args :=
  deepens_of_follows fun _ _ hd => arguments_follow (eval_follows o.follow_self hd) scope args

theorem apply_deepens (o : EvalOptions) (callee : Node) (args : List Node) (scope : Scope)
    (call : Span) : Deepens fun d => callee.apply (eval o d) args scope call :=
  deepens_of_follows fun _ _ hd =>
    apply_follows (eval_follows o.follow_self hd) callee args scope call

theorem evalExpanded_call (plain : head.specialForm? = none) {callee : Node} {args : List Node}
    {t' u v : EvalState} {o : Outcome Node}
    (hcallee : Converges (fun d => eval options d head scope) t (.value callee) t')
    (hargs : Converges (fun d => (eval options d).arguments scope tail) t' (.value args) u) :
    Converges (fun d => evalExpanded options d (.list (head :: tail) span) scope) t o v ↔
      Converges (fun d => callee.apply (eval options d) args scope span) u o v := by
  have hcall (d : Nat) : evalExpanded options d (.list (head :: tail) span) scope =
      (do
        let callee ← eval options d head scope
        let args ← (eval options d).arguments scope tail
        callee.apply (eval options d) args scope span) := by
    simp only [evalExpanded, evalExpandedWith, plain]
  have hrest (callee : Node) : Deepens fun d =>
      (eval options d).arguments scope tail >>= fun args =>
        callee.apply (eval options d) args scope span :=
    deepens_bind (arguments_deepens options scope tail) fun args =>
      apply_deepens options callee args scope span
  simp only [hcall]
  rw [converges_bind_of_value (eval_deepens options scope head) hrest hcallee,
    converges_bind_of_value (arguments_deepens options scope tail)
      (fun args => apply_deepens options callee args scope span) hargs]

/-- A form whose expansion is a call is evaluated by calling what the head of the expansion comes
to. The look at the head that ended the expansion found no macro, and unless the head is a list,
what is called is no macro either. -/
theorem called_is_no_expander (plain : head.specialForm? = none)
    (h : Converges (fun d => expand options d node scope) s
      (.value (.list (head :: tail) span)) t) :
    (∃ w value, Converges (fun d => eval options d head scope) w (.value value) t ∧
      value.isExpander = false) ∧
    ∀ callee args t' u, Converges (fun d => eval options d head scope) t (.value callee) t' →
      Converges (fun d => (eval options d).arguments scope tail) t' (.value args) u →
      (∀ o v, Converges (fun d => eval options d node scope) s o v ↔
        Converges (fun d => callee.apply (eval options d) args scope span) u o v) ∧
      (head.isList = false → callee.isExpander = false) := by
  obtain ⟨d, hd⟩ := h.2
  obtain ⟨k, w, -, hsettles⟩ := expandFrom_value hd
  have hlook : ∃ value, eval options d head scope w = (.value value, t) ∧
      value.isExpander = false := by
    cases hsettles with
    | still h =>
      have := h head tail span rfl
      rw [plain] at this
      cases this
    | @probe _ _ _ value _ _ _ probe hvalue => exact ⟨value, probe, hvalue⟩
  obtain ⟨value, hprobe, hvalue⟩ := hlook
  refine ⟨⟨w, value, ⟨trivial, d, hprobe⟩, hvalue⟩, fun callee args t' u hcallee hargs => ⟨?_, ?_⟩⟩
  · intro o v
    rw [eval_converges_iff h, evalExpanded_call plain hcallee hargs]
  · intro hatom
    -- looking at an atom leaves the state alone, so the second look is the first one again
    have hsame : t = w := hsettles.state_eq
      (fun value span s => eval_atom_state options d span scope s value) hatom
    have hagain : Converges (fun d => eval options d head scope) t (.value value) t :=
      ⟨trivial, d, by rw [hsame] at hprobe ⊢; exact hprobe⟩
    have heq := (hagain.unique (eval_deepens options scope head) hcallee).1
    cases heq
    exact hvalue

end Calls

theorem called_is_no_expander_list :
    let p : Span := ⟨0, 0⟩
    let function := Node.atom (.function (.primitive .list)) p
    let s : EvalState := ⟨⟨#[⟨[("list", function)]⟩], #[]⟩, ⟨"t", ""⟩, #[], #[]⟩
    let scope : Scope := ⟨0, []⟩
    let options : EvalOptions := ⟨none, false⟩
    let head := Node.symbol "list" p
    let call := Node.list [head, .string "a" p] p
    head.specialForm? = none ∧ head.isList = false ∧
      Converges (fun d => expand options d call scope) s (.value call) s ∧
      Converges (fun d => eval options d head scope) s (.value function) s ∧
      Converges (fun d => (eval options d).arguments scope [.string "a" p]) s
        (.value [.string "a" p]) s ∧
      (∀ o v, Converges (fun d => eval options d call scope) s o v ↔
        Converges (fun d => function.apply (eval options d) [.string "a" p] scope p) s o v) ∧
      function.isExpander = false := by
  intro p function s scope options head call
  have plain : head.specialForm? = none := by decide
  have hexpand : Converges (fun d => expand options d call scope) s (.value call) s :=
    ⟨trivial, 2, rfl⟩
  have hhead : Converges (fun d => eval options d head scope) s (.value function) s :=
    ⟨trivial, 1, rfl⟩
  have hargs : Converges (fun d => (eval options d).arguments scope [.string "a" p]) s
      (.value [.string "a" p]) s := ⟨trivial, 1, rfl⟩
  obtain ⟨hcall, hfunction⟩ := (called_is_no_expander plain hexpand).2 function _ s s hhead hargs
  exact ⟨plain, rfl, hexpand, hhead, hargs, hcall, hfunction rfl⟩

/-- `(def flip false)`, `(def f (fn (x) "ok"))` and a macro `m` that is content with raw arguments:
`(defmacro m (fn (x) (if (list? x) "ok" "macro got a value")))`. -/
def flippingDefinitions : List Node :=
  let p : Span := ⟨0, 0⟩
  let params := Node.list [.symbol "x" p] p
  [.form "def" [.symbol "flip" p, .bool false p] p,
    .form "def" [.symbol "f" p, .form "fn" [params, .string "ok" p] p] p,
    .form "defmacro" [.symbol "m" p, .form "fn" [params, .form "if"
      [.form "list?" [.symbol "x" p] p, .string "ok" p, .string "macro got a value" p] p] p] p]

/-- `(do (def flip (not flip)) (if flip f m))` -/
def flippingHead : Node :=
  let p : Span := ⟨0, 0⟩
  .form "do" [.form "def" [.symbol "flip" p, .form "not" [.symbol "flip" p] p] p,
    .form "if" [.symbol "flip" p, .symbol "f" p, .symbol "m" p] p] p

def flippingState : EvalState :=
  let engine := Engine.new none
  (engine.runForms false 6 ⟨"t", ""⟩ flippingDefinitions (engine.initialState ⟨"t", ""⟩)).2

def lookAtFlipping : Eval Node :=
  let engine := Engine.new none
  eval (engine.options false) 6 flippingHead engine.global

def flippingArguments : Eval (List Node) :=
  let engine := Engine.new none
  (eval (engine.options false) 6).arguments engine.global [.form "not" [.bool true ⟨0, 0⟩] ⟨0, 0⟩]

/-- After these definitions, `((do (def flip (not flip)) (if flip f m)) (not true))` is its own
expansion, and then the macro `m` is called with a truth value. -/
theorem expander_applied :
    let engine := Engine.new none
    let options := engine.options false
    let arg := Node.form "not" [.bool true ⟨0, 0⟩] ⟨0, 0⟩
    let call := Node.list [flippingHead, arg] ⟨0, 0⟩
    ∃ callee args t t' u,
      Converges (fun d => expand options d call engine.global) flippingState (.value call) t ∧
      Converges (fun d => eval options d flippingHead engine.global) t (.value callee) t' ∧
      Converges (fun d => (eval options d).arguments engine.global [arg]) t' (.value args) u ∧
      callee.isExpander = true ∧ args.map Node.typeName = ["Bool"] := by
  obtain ⟨value, hvalue, hfunction⟩ := Outcome.exists_of_satisfies
    (show (lookAtFlipping flippingState).1.satisfies (fun value => !value.isExpander) = true by
      decide +kernel)
  obtain ⟨callee, hcallee, hexpander⟩ := Outcome.exists_of_satisfies
    (show (lookAtFlipping (lookAtFlipping flippingState).2).1.satisfies Node.isExpander = true by
      decide +kernel)
  obtain ⟨args, hargs, htypes⟩ := Outcome.exists_of_satisfies
    (show (flippingArguments (lookAtFlipping (lookAtFlipping flippingState).2).2).1.satisfies
        (fun args => args.map Node.typeName = ["Bool"]) = true by
      decide +kernel)
  have hplain : value.isExpander = false := by simpa using hfunction
  exact ⟨callee, args, _, _, _, expand_converges_of_settles (.probe rfl hvalue hplain),
    ⟨trivial, 6, hcallee⟩, ⟨trivial, 6, hargs⟩, hexpander, of_decide_eq_true htypes⟩

end MacroLisp
