import MacroLisp.Evaluation
import MacroLisp.Proofs.Evaluation.Status

/-!
# Filling a template

What a quasiquoted template stands for, said of the elements of its lists and with no tails in
between. An atom and the empty list fill to themselves, a list headed by `unquote` to the value of
its second element, and any other list to its filled elements up to the first later `unquote`,
followed by the elements of the value of what comes after that. `Node.escapes` lists the expressions
that a template evaluates, in order; filling a template does nothing but evaluate them.

`fillTail` fills the elements of a list one after another. It is the form in which filling is
compared with the rewritten template, whose tails are templates again.
-/

namespace MacroLisp.Node

open Eval

def isUnquote (node : Node) : Bool := node.symbol? = some unquoteName

def escapeIndex (items : List Node) : Nat := 1 + items.tail.findIdx isUnquote

/-- The elements of a value in the place of a tail: nil is the empty list. -/
def ending : Node → Eval (List Node)
  | list items _ => pure items
  | nil _ => pure []
  | other => fail (.wrongType "cons" "List" other.typeName other.pretty) other.span

section Filling

variable (ev : Evaluator) (scope : Scope)

def fillEnding : Option Node → Eval (List Node)
  | some form => do ending (← ev form scope)
  | none => pure []

/-- Fills a list, given how each of its elements is filled. -/
def fillList (items : List Node) (fillings : List (Eval Node)) (span : Span) : Eval Node :=
  match items with
  | [] => pure (list [] span)
  | head :: tail =>
    if head.isUnquote then
      match tail.head? with
      | some form => ev form scope
      | none => pure (nil span)
    else do
      let k := escapeIndex items
      let elements ← (fillings.take k).mapM id
      let more ← fillEnding ev scope items[k + 1]?
      pure (list (elements ++ more) span)

mutual

def fill : Node → Eval Node
  | atom value span => pure (atom value span)
  | list items span => fillList ev scope items (fillings items) span

def fillings : List Node → List (Eval Node)
  | [] => []
  | item :: items => fill item :: fillings items

end

theorem fillings_eq_map (items : List Node) :
    fillings ev scope items = items.map (fill ev scope) := by
  induction items with
  | nil => rfl
  | cons item items ih => rw [fillings, ih, List.map_cons]

theorem fill_list (items : List Node) (span : Span) :
    fill ev scope (list items span) =
      fillList ev scope items (items.map (fill ev scope)) span := by
  rw [fill, fillings_eq_map]

theorem fill_unquote {head : Node} (h : head.isUnquote = true) (tail : List Node) (span : Span) :
    fill ev scope (list (head :: tail) span) =
      match tail.head? with
      | some form => ev form scope
      | none => pure (nil span) := by
  rw [fill_list]
  simp only [fillList, h, if_true]

def fillTail : List Node → Eval (List Node)
  | [] => pure []
  | head :: tail =>
    if head.isUnquote then fillEnding ev scope tail.head?
    else do
      let value ← fill ev scope head
      let values ← fillTail tail
      pure (value :: values)

theorem fillTail_eq (items : List Node) :
    fillTail ev scope items = (do
      let k := items.findIdx isUnquote
      let elements ← ((fillings ev scope items).take k).mapM id
      let more ← fillEnding ev scope items[k + 1]?
      pure (elements ++ more)) := by
  induction items with
  | nil => simp [fillTail, fillings, fillEnding]
  | cons head tail ih =>
    rw [fillTail]
    cases h : head.isUnquote with
    | true => simp [List.findIdx_cons, h, List.head?_eq_getElem?]
    | false =>
      simp only [ih, Bool.false_eq_true, if_false, fillings, List.findIdx_cons, h, cond_false,
        List.take_succ_cons, List.mapM_cons, id, bind_assoc, pure_bind, List.getElem?_cons_succ,
        List.cons_append]

theorem fill_cons {head : Node} (h : head.isUnquote = false) (tail : List Node) (span : Span) :
    fill ev scope (list (head :: tail) span) = (do
      let value ← fill ev scope head
      let values ← fillTail ev scope tail
      pure (list (value :: values) span)) := by
  rw [fillTail_eq, fill]
  simp only [fillList, h, Bool.false_eq_true, if_false, escapeIndex, List.tail_cons, fillings,
    Nat.add_comm 1, List.take_succ_cons, List.mapM_cons, id, bind_assoc, pure_bind,
    List.getElem?_cons_succ, List.cons_append]

end Filling

/-- An expression that a template evaluates; its value may have to be the end of a list. -/
structure Escape where
  form : Node
  endsList : Bool

/-- Evaluates the expression, and fails if its value cannot be used where it stands. -/
def Escape.run (ev : Evaluator) (scope : Scope) (escape : Escape) : Eval Unit := do
  let value ← ev escape.form scope
  if escape.endsList then (ending value).dropped else pure ()

def listEscapes (items : List Node) (each : List (List Escape)) : List Escape :=
  match items with
  | [] => []
  | head :: tail =>
    if head.isUnquote then (tail.head?.map (⟨·, false⟩)).toList
    else
      let k := escapeIndex items
      (each.take k).flatten ++ (items[k + 1]?.map (⟨·, true⟩)).toList

mutual

def escapes : Node → List Escape
  | atom _ _ => []
  | list items _ => listEscapes items (escapesEach items)

def escapesEach : List Node → List (List Escape)
  | [] => []
  | item :: items => escapes item :: escapesEach items

end

def tailEscapes : List Node → List Escape
  | [] => []
  | head :: tail =>
    if head.isUnquote then (tail.head?.map (⟨·, true⟩)).toList
    else escapes head ++ tailEscapes tail

theorem tailEscapes_eq (items : List Node) :
    tailEscapes items =
      ((escapesEach items).take (items.findIdx isUnquote)).flatten ++
        (items[items.findIdx isUnquote + 1]?.map (⟨·, true⟩)).toList := by
  induction items with
  | nil => rfl
  | cons head tail ih =>
    rw [tailEscapes]
    cases h : head.isUnquote with
    | true => simp [List.findIdx_cons, h, List.head?_eq_getElem?]
    | false =>
      simp only [ih, Bool.false_eq_true, if_false, escapesEach, List.findIdx_cons, h, cond_false,
        List.take_succ_cons, List.flatten_cons, List.getElem?_cons_succ, List.append_assoc]

theorem escapes_cons {head : Node} (h : head.isUnquote = false) (tail : List Node) (span : Span) :
    escapes (list (head :: tail) span) = escapes head ++ tailEscapes tail := by
  rw [tailEscapes_eq, escapes]
  simp only [listEscapes, h, Bool.false_eq_true, if_false, escapeIndex, List.tail_cons,
    escapesEach, Nat.add_comm 1, List.take_succ_cons, List.flatten_cons, List.getElem?_cons_succ,
    List.append_assoc]

section Effects

variable (ev : Evaluator) (scope : Scope)

theorem fillEnding_dropped (form : Option Node) :
    (fillEnding ev scope form).dropped =
      (form.map (⟨·, true⟩ : Node → Escape)).toList.forM (Escape.run ev scope) := by
  cases form with
  | none => rfl
  | some form =>
    simp only [Option.map_some, Option.toList_some, List.forM_eq_forM, List.forM_cons,
      List.forM_nil, bind_pure_unit]
    exact dropped_bind _ _

mutual

/-- Filling a template evaluates its escapes, each once and in their order, and nothing else. -/
theorem fill_dropped : (node : Node) →
    (fill ev scope node).dropped = (escapes node).forM (Escape.run ev scope)
  | atom _ _ | list [] _ => rfl
  | list (head :: tail) span => by
    cases h : head.isUnquote with
    | true =>
      simp only [fill_unquote ev scope h, escapes, listEscapes, h, if_true]
      cases tail with
      | nil => rfl
      | cons form _ =>
        simp only [List.head?_cons, Option.map_some, Option.toList_some, List.forM_eq_forM,
          List.forM_cons, List.forM_nil, bind_pure_unit]
        rfl
    | false =>
      rw [fill_cons ev scope h, escapes_cons h, List.forM_eq_forM, List.forM_append, dropped_seq,
        fill_dropped head, fillTail_dropped tail]
      rfl

theorem fillTail_dropped : (items : List Node) →
    (fillTail ev scope items).dropped = (tailEscapes items).forM (Escape.run ev scope)
  | [] => rfl
  | head :: tail => by
    rw [fillTail, tailEscapes]
    split
    · exact fillEnding_dropped ev scope tail.head?
    · rw [List.forM_eq_forM, List.forM_append, dropped_seq, fill_dropped head,
        fillTail_dropped tail]
      rfl

end

end Effects

end MacroLisp.Node
