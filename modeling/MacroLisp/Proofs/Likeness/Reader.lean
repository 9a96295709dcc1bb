import MacroLisp.Evaluation.Primitives
import MacroLisp.Proofs.Likeness.Node
import MacroLisp.Proofs.Reader.Parsing

/-!
# What is read

The reader makes no functions and no macros, and the symbols that it makes are words. So what is
read is like itself, at whatever spans, however little two runs have in common.
-/

namespace MacroLisp

namespace Node

inductive All (P : Atom → Prop) : Node → Prop where
  | atom {value : Atom} {span : Span} (h : P value) : All P (.atom value span)
  | list {items : List Node} {span : Span} (h : ∀ item ∈ items, All P item) :
      All P (.list items span)

variable {P Q : Atom → Prop} {node : Node} {span : Span}

theorem All.imp (h : node.All P) (hPQ : ∀ value, P value → Q value) : node.All Q := by
  induction h with
  | atom h => exact .atom (hPQ _ h)
  | list _ ih => exact .list ih

theorem All.and (h : node.All P) (h' : node.All Q) : node.All fun value => P value ∧ Q value := by
  induction h with
  | atom h =>
    cases h' with
    | atom h' => exact .atom ⟨h, h'⟩
  | list _ ih =>
    cases h' with
    | list h' => exact .list fun item hitem => ih item hitem (h' item hitem)

@[simp] theorem all_atom_iff {value : Atom} : (atom value span).All P ↔ P value :=
  ⟨fun | .atom h => h, .atom⟩

@[simp] theorem all_list_iff {items : List Node} :
    (list items span).All P ↔ ∀ item ∈ items, item.All P :=
  ⟨fun | .list h => h, .list⟩

end Node

/-- No callable, and no symbol that is not a word. -/
def Atom.IsWritten : Atom → Prop
  | nil | bool _ | number _ | string _ => True
  | symbol name => Token.IsWord name.toList
  | function _ | expander _ => False

abbrev Node.IsWritten (node : Node) : Prop := node.All Atom.IsWritten

namespace Reader

variable {tokens : List Token} {forms : List Node}

theorem isWord_of_splits {offset : Nat} {cs : List Char} (h : Token.Splits offset cs tokens) :
    ∀ token ∈ tokens, ∀ run, token.lexeme = .word run → Token.IsWord run := by
  induction h with
  | done => exact nofun
  | layout _ _ ih => exact ih
  | token hcs _ ih =>
    refine List.forall_mem_cons.2 ⟨fun run hrun => ?_, ih⟩
    cases hcs with
    | word hword =>
      cases hrun
      exact hword
    | opening | closing | trigger | string => cases hrun

theorem Stands.isWritten {run : List Char} {value : Atom} (h : Stands run value)
    (hrun : Token.IsWord run) : value.IsWritten := by
  cases h with
  | number | affirmed | denied | nil => trivial
  | symbol =>
    show Token.IsWord (String.ofList run).toList
    rwa [String.toList_ofList]

theorem Brackets.isWritten (h : Brackets tokens forms)
    (hwords : ∀ token ∈ tokens, ∀ run, token.lexeme = .word run → Token.IsWord run) :
    ∀ form ∈ forms, form.IsWritten := by
  induction h with
  | nil => exact nofun
  | word hvalue _ ih =>
    obtain ⟨hrun, hwords⟩ := List.forall_mem_cons.1 hwords
    exact List.forall_mem_cons.2 ⟨.atom (hvalue.isWritten (hrun _ rfl)), ih hwords⟩
  | string _ _ ih =>
    exact List.forall_mem_cons.2 ⟨.atom trivial, ih (List.forall_mem_cons.1 hwords).2⟩
  | list _ _ ihitems ih =>
    obtain ⟨hinner, hrest⟩ := List.forall_mem_append.1 hwords
    exact List.forall_mem_cons.2 ⟨.list (ihitems (List.forall_mem_cons.1 hinner).2),
      ih (List.forall_mem_cons.1 hrest).2⟩
  | @prefixed t _ _ _ _ _ ih =>
    obtain ⟨hform, hforms⟩ := List.forall_mem_cons.1 (ih (List.forall_mem_cons.1 hwords).2)
    have hhead : Token.IsWord t.head.toList := by
      cases t <;> exact Token.isWord_of_all (by decide) (by decide)
    exact List.forall_mem_cons.2 ⟨.list (List.forall_mem_cons.2
      ⟨.atom hhead, List.forall_mem_singleton.2 hform⟩), hforms⟩

theorem parse_isWritten {text : String} (h : parse text = .ok forms) :
    ∀ form ∈ forms, form.IsWritten := by
  unfold parse at h
  split at h
  · cases h
    exact nofun
  · obtain ⟨tokens, hsplits, hbrackets⟩ := formsOf_scan_iff.1 h
    exact hbrackets.isWritten (isWord_of_splits hsplits)

theorem read_isWritten {source : Source} (h : read source = .ok forms) :
    ∀ form ∈ forms, form.IsWritten := by
  unfold read at h
  cases hparse : parse source.text with
  | ok parsed =>
    rw [hparse] at h
    cases h
    exact parse_isWritten hparse
  | error c =>
    rw [hparse] at h
    cases h

/-- The name of a source does not decide what is read. -/
theorem readOne_eq_ok_iff {source : Source} {form : Node} :
    readOne source = .ok form ↔ parse source.text = .ok [form] := by
  unfold readOne read
  cases parse source.text with
  | error c => exact ⟨nofun, nofun⟩
  | ok forms =>
    match forms with
    | [] | _ :: _ :: _ => exact ⟨nofun, nofun⟩
    | [only] =>
      constructor <;> intro h <;> cases h <;> rfl

theorem readOne_isWritten {source : Source} {form : Node} (h : readOne source = .ok form) :
    form.IsWritten :=
  parse_isWritten (readOne_eq_ok_iff.1 h) form List.mem_cons_self

end Reader

namespace Primitive

theorem read_apply (ev : Evaluator) (text : String) (place : Span) (scope : Scope) (call : Span)
    (s : EvalState) : read.apply ev [.string text place] scope call s =
      (match Reader.readOne ⟨readName, text⟩ with
        | .ok form => .value (form.collapse call)
        | .error fault => .fault fault, s) := by
  show (match Reader.readOne ⟨readName, text⟩ with
    | .ok form => (pure (form.collapse call) : Eval Node)
    | .error fault => Eval.throw fault) s = _
  cases Reader.readOne ⟨readName, text⟩ <;> rfl

/-- A string that holds one form is read as this form, all of it at the span of the call. -/
theorem read_apply_of_parse {text : String} {form : Node} (h : Reader.parse text = .ok [form])
    (ev : Evaluator) (place : Span) (scope : Scope) (call : Span) (s : EvalState) :
    read.apply ev [.string text place] scope call s = (.value (form.collapse call), s) := by
  have hread : Reader.readOne ⟨readName, text⟩ = .ok form := Reader.readOne_eq_ok_iff.2 h
  rw [read_apply, hread]

end Primitive

section Self

variable {L : Likeness} {s t : Span}

theorem Atom.IsWritten.like {value : Atom} (h : value.IsWritten) : value.Like L value := by
  cases value with
  | nil => exact .nil
  | bool b => exact .bool b
  | number x => exact .number x
  | string s => exact .string s
  | symbol name => exact .symbol (Likeness.names_of_isWord h)
  | function f => exact h.elim
  | expander f => exact h.elim

theorem Node.IsWritten.like {node : Node} (h : node.IsWritten) : node.Like L node := by
  induction h with
  | atom h => exact .atom h.like fun _ => rfl
  | list _ ih => exact Node.like_list (List.forall₂_same.2 ih) fun _ => rfl

mutual

theorem Node.IsWritten.collapse_like (hspan : L.Agree s t) :
    (node : Node) → node.IsWritten → (node.collapse s).Like L (node.collapse t)
  | .atom _ _, .atom h => .atom h.like hspan
  | .list items _, .list h => Node.like_list (collapseItems_like hspan items h) hspan

theorem Node.IsWritten.collapseItems_like (hspan : L.Agree s t) :
    (items : List Node) → (∀ item ∈ items, item.IsWritten) →
      List.Forall₂ (Node.Like L) (Node.collapseItems s items) (Node.collapseItems t items)
  | [], _ => .nil
  | item :: items, h =>
    .cons (collapse_like hspan item (List.forall_mem_cons.1 h).1)
      (collapseItems_like hspan items (List.forall_mem_cons.1 h).2)

end

end Self

end MacroLisp
