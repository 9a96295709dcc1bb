import MacroLisp.Proofs.Expansion.Course
import MacroLisp.Proofs.Scope.Confinement

/-!
# Expansions are fixed points

The last thing that an expansion does is to look at the head of its result. Unless that head is a
list, looking at it changes nothing, so the state in which an expansion ends is one in which no
macro call is found in its result. There the result is its own expansion, and to evaluate the form
is to evaluate the result from there.
-/

namespace MacroLisp

open Eval

section Results

variable {options : EvalOptions} {scope : Scope} {node r : Node} {s t u : EvalState}

theorem Settles.state_eq {ev : Evaluator}
    (hatom : ∀ value span s, (ev (.atom value span) scope s).2 = s)
    (h : Settles ev scope (node, s) t) (hhead : node.isHeadedByList = false) : t = s := by
  cases h with
  | still => rfl
  | probe _ probe => exact probe_still hatom hhead probe

/-- No macro call is found in the result of an expansion, in the state that the expansion leaves. -/
theorem settles_of_expand (h : Converges (fun d => expand options d node scope) s (.value r) t)
    (hhead : r.isHeadedByList = false) : ∃ d, Settles (eval options d) scope (r, t) t := by
  obtain ⟨-, d, hd⟩ := h
  obtain ⟨k, u, -, hsettles⟩ := expandFrom_value hd
  -- the last look was at an atom, so it may be made again in the state that it left
  have hsame : t = u := hsettles.state_eq
    (fun value span s => eval_atom_state options d span scope s value) hhead
  exact ⟨d, hsame ▸ hsettles⟩

theorem expand_converges_of_settles {d : Nat} (h : Settles (eval options d) scope (node, s) t) :
    Converges (fun d => expand options d node scope) s (.value node) t :=
  ⟨trivial, d + 1, (h.deepen (Nat.le_succ d)).expandFrom_eq d 0⟩

theorem eval_converges_iff (h : Converges (fun d => expand options d node scope) s (.value r) t)
    (o : Outcome Node) :
    Converges (fun d => eval options d node scope) s o u ↔
      Converges (fun d => evalExpanded options d r scope) t o u := by
  have hbind : Converges (fun d => eval options d node scope) s o u ↔
      Converges (fun d => expand options d node scope >>= fun expansion =>
        evalExpanded options d expansion scope) s o u := by
    -- an evaluation at depth `d + 2` expands and then evaluates at depth `d + 1`
    rw [← converges_shift (eval_deepens options scope node) 2, ← converges_shift
      (deepens_bind (expand_deepens options scope node) (evalExpanded_deepens options scope)) 1]
    exact converges_congr fun d => by rw [eval_eq_expand_bind]
  rw [hbind, converges_bind_of_value (expand_deepens options scope node)
    (evalExpanded_deepens options scope) h]

theorem eval_macroexpand (form : Node) (call : Span) (o : Outcome Node) :
    Converges (fun d => eval options d (.form "macroexpand" [form] call) scope) s o t ↔
      Converges (fun d => expand options d form scope) s o t := by
  rw [← converges_shift (eval_deepens options scope _) 2,
    ← converges_shift (expand_deepens options scope form) 1]
  exact Iff.rfl

/-- Expanding the result of an expansion gives it back and changes nothing, also by `macroexpand`;
and evaluating a form comes to what evaluating its expansion comes to in the state in which the
expansion ends. -/
theorem expansion_stands
    (h : Converges (fun d => expand options d node scope) s (.value r) t)
    (hhead : r.isHeadedByList = false) :
    (∀ o u, Converges (fun d => expand options d r scope) t o u ↔ o = .value r ∧ u = t) ∧
    (∀ o u, Converges (fun d => eval options d node scope) s o u ↔
      Converges (fun d => eval options d r scope) t o u) ∧
    ∀ call, Converges (fun d => eval options d (.form "macroexpand" [node] call) scope) s
        (.value r) t ∧
      ∀ o u, Converges (fun d => eval options d (.form "macroexpand" [r] call) scope) t o u ↔
        o = .value r ∧ u = t := by
  obtain ⟨d, hsettles⟩ := settles_of_expand h hhead
  have hagain : Converges (fun d => expand options d r scope) t (.value r) t :=
    expand_converges_of_settles hsettles
  have hfixed (o : Outcome Node) (u : EvalState) :
      Converges (fun d => expand options d r scope) t o u ↔ o = .value r ∧ u = t := by
    constructor
    · exact fun h' => hagain.unique (expand_deepens options scope r) h'
    · rintro ⟨rfl, rfl⟩
      exact hagain
  refine ⟨hfixed, fun o u => ?_, fun call => ⟨(eval_macroexpand node call _).2 h, fun o u => ?_⟩⟩
  · rw [eval_converges_iff h o, eval_converges_iff hagain o]
  · rw [eval_macroexpand, hfixed]

end Results

theorem expansion_stands_list :
    let p : Span := ⟨0, 0⟩
    let frame : Frame := ⟨[("m", .atom (.expander (.primitive .list)) p),
      ("list", .atom (.function (.primitive .list)) p)]⟩
    let s : EvalState := ⟨⟨#[frame], #[]⟩, ⟨"t", ""⟩, #[], #[]⟩
    let scope : Scope := ⟨0, []⟩
    let options : EvalOptions := ⟨some 1, false⟩
    let call := Node.list [.symbol "m" p, .symbol "list" p, .string "a" p] p
    let expansion := Node.list [.symbol "list" p, .string "a" p] p
    Converges (fun d => expand options d call scope) s (.value expansion) s ∧
      expansion.isHeadedByList = false ∧
      (∀ o u, Converges (fun d => expand options d expansion scope) s o u ↔
        o = .value expansion ∧ u = s) ∧
      Converges (fun d => eval options d call scope) s (.value (.list [.string "a" p] p)) s := by
  intro p frame s scope options call expansion
  have hexpand : Converges (fun d => expand options d call scope) s (.value expansion) s :=
    ⟨trivial, 2, rfl⟩
  have hstands := expansion_stands hexpand rfl
  exact ⟨hexpand, rfl, hstands.1, (hstands.2.1 _ _).2 ⟨trivial, 3, rfl⟩⟩

end MacroLisp
