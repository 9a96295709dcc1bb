import MacroLisp.Evaluation.Primitives
import MacroLisp.Proofs.Likeness.Node

/-!
# Like arguments

A primitive that depends on its arguments only takes like arguments to like results: to like values,
or to the same complaint at spans that agree. So do the checks of arguments and of parameter lists.
-/

namespace MacroLisp

structure Complaint.Like (L : Likeness) (c d : Complaint) : Prop where
  cause : c.cause = d.cause
  span : L.Agree c.span d.span

/-- Both checks pass, with related results, or both find the same to complain of. -/
inductive CheckedLike {α : Type} (L : Likeness) (P : α → α → Prop) :
    Except Complaint α → Except Complaint α → Prop where
  | ok {a b : α} (h : P a b) : CheckedLike L P (.ok a) (.ok b)
  | error {c d : Complaint} (h : c.Like L d) : CheckedLike L P (.error c) (.error d)

variable {L : Likeness} {args args' : List Node} {call call' : Span}

section Checks

variable {α β : Type} {P : α → α → Prop} {Q : β → β → Prop} {x y : Except Complaint α}

theorem CheckedLike.bind {f g : α → Except Complaint β} (h : CheckedLike L P x y)
    (hf : ∀ a b, P a b → CheckedLike L Q (f a) (g b)) : CheckedLike L Q (x >>= f) (y >>= g) := by
  cases h with
  | ok h => exact hf _ _ h
  | error h => exact .error h

theorem CheckedLike.map {f g : α → β} (h : CheckedLike L P x y) (hf : ∀ a b, P a b → Q (f a) (g b)) :
    CheckedLike L Q (x.map f) (y.map g) := by
  cases h with
  | ok h => exact .ok (hf _ _ h)
  | error h => exact .error h

theorem Arity.check_like (arity : Arity) (callee : String)
    (hargs : List.Forall₂ (Node.Like L) args args') (hcall : L.Agree call call') :
    CheckedLike L (fun _ _ => True) (arity.check callee args call)
      (arity.check callee args' call') := by
  unfold Arity.check
  rw [hargs.length_eq]
  split
  · exact .ok trivial
  · exact .error ⟨rfl, hcall⟩

end Checks

namespace Node

variable {m n : Node}

theorem Like.mismatch (h : m.Like L n) (callee wanted : String) :
    (m.mismatch callee wanted).Like L (n.mismatch callee wanted) where
  cause := by simp only [Node.mismatch, h.typeName_eq, h.pretty_eq]
  span := h.span

theorem Like.expect {α : Type} {P : α → α → Prop} {contents contents' : Option α} (h : m.Like L n)
    (hcontents : Option.Rel P contents contents') (callee wanted : String) :
    CheckedLike L P (m.expect contents callee wanted) (n.expect contents' callee wanted) := by
  cases hcontents with
  | some hab => exact .ok hab
  | none => exact .error (h.mismatch callee wanted)

theorem Like.expect_eq {α : Type} {contents contents' : Option α} (h : m.Like L n)
    (hcontents : contents = contents') (callee wanted : String) :
    CheckedLike L Eq (m.expect contents callee wanted) (n.expect contents' callee wanted) := by
  subst hcontents
  refine h.expect ?_ callee wanted
  cases contents with
  | some a => exact .some rfl
  | none => exact .none

theorem Like.expectNumber (h : m.Like L n) (callee : String) :
    CheckedLike L Eq (m.expectNumber callee) (n.expectNumber callee) :=
  h.expect_eq h.number?_eq callee _

theorem Like.expectString (h : m.Like L n) (callee : String) :
    CheckedLike L Eq (m.expectString callee) (n.expectString callee) :=
  h.expect_eq h.string?_eq callee _

theorem Like.expectSymbol (h : m.Like L n) (callee : String) :
    CheckedLike L (fun name name' => name = name' ∧ L.names name) (m.expectSymbol callee)
      (n.expectSymbol callee) := by
  refine h.expect ?_ callee _
  rw [← h.symbol?_eq]
  cases hname : m.symbol? with
  | some name => exact .some ⟨rfl, h.names_of_symbol? hname⟩
  | none => exact .none

theorem Like.expectList (h : m.Like L n) (callee : String) :
    CheckedLike L (List.Forall₂ (Node.Like L)) (m.expectList callee) (n.expectList callee) :=
  h.expect h.items?_rel callee _

theorem expectNumbers_like (callee : String) (hargs : List.Forall₂ (Node.Like L) args args') :
    CheckedLike L Eq (expectNumbers callee args) (expectNumbers callee args') := by
  unfold expectNumbers
  induction hargs with
  | nil => exact .ok rfl
  | cons harg _ ih =>
    rw [List.mapM_cons, List.mapM_cons]
    refine (harg.expectNumber callee).bind fun x y hxy => ih.bind fun xs ys hxs => ?_
    subst hxy hxs
    exact .ok rfl

end Node

structure Params.Like (L : Likeness) (p q : Params) : Prop where
  required : p.required = q.required
  rest : p.rest = q.rest
  span : L.Agree p.span q.span
  names : ∀ name ∈ p.required ++ p.rest.toList, L.names name

namespace Params

/-- The name of a rest parameter is what is left of the name of a symbol, so it may occur too. -/
theorem ofItems_like {items items' : List Node} (h : List.Forall₂ (Node.Like L) items items') :
    CheckedLike L (fun p q => p = q ∧ ∀ name ∈ p.1 ++ p.2.toList, L.names name) (ofItems items)
      (ofItems items') := by
  induction h with
  | nil => exact .ok ⟨rfl, nofun⟩
  | @cons item item' items items' hitem hitems ih =>
    have hsymbol := hitem.expectSymbol "fn"
    unfold ofItems
    generalize item.expectSymbol "fn" = x at hsymbol ⊢
    generalize item'.expectSymbol "fn" = y at hsymbol ⊢
    cases hsymbol with
    | error h => exact .error h
    | @ok name _ h =>
      obtain ⟨rfl, hname⟩ := h
      dsimp only
      cases hrest : restName? name with
      | some rest =>
        have hempty : items = [] ↔ items' = [] := by
          rw [← List.length_eq_zero_iff, ← List.length_eq_zero_iff, hitems.length_eq]
        simp only [hempty.ne]
        split
        · exact .error ⟨rfl, hitem.span⟩
        · next hlast =>
          have hne : rest ≠ "" := fun h => hlast (Or.inl h)
          exact .ok ⟨rfl, List.forall_mem_singleton.2 (L.rest hname hrest hne)⟩
      | none =>
        refine ih.map fun p q hpq => ?_
        obtain ⟨rfl, hnames⟩ := hpq
        exact ⟨rfl, List.forall_mem_cons.2 ⟨hname, hnames⟩⟩

theorem ofNode_like {m n : Node} (h : m.Like L n) :
    CheckedLike L (Params.Like L) (ofNode m) (ofNode n) := by
  cases h with
  | atom _ hspan => exact .error ⟨rfl, hspan⟩
  | list hlength hitems hspan =>
    have hlike := ofItems_like (List.forall₂_iff_zip.2 ⟨hlength, hitems _⟩)
    refine hlike.map fun p q hpq => ?_
    obtain ⟨rfl, hnames⟩ := hpq
    exact ⟨rfl, rfl, hspan, hnames⟩

end Params

namespace Builtin

section Arithmetic

theorem divideBy_like (x : Float) {divisors divisors' : List (Node × Float)}
    (h : List.Forall₂ (fun d d' => d.1.Like L d'.1 ∧ d.2 = d'.2) divisors divisors') :
    CheckedLike L Eq (divideBy x divisors) (divideBy x divisors') := by
  induction h generalizing x with
  | nil => exact .ok rfl
  | cons hdivisor _ ih =>
    rw [divideBy, divideBy, hdivisor.2]
    split
    · exact .error ⟨rfl, hdivisor.1.span⟩
    · exact ih _

theorem quotient_like {numbers numbers' : List (Node × Float)}
    (h : List.Forall₂ (fun d d' => d.1.Like L d'.1 ∧ d.2 = d'.2) numbers numbers') :
    CheckedLike L Eq (quotient numbers) (quotient numbers') := by
  cases h with
  | nil => exact .ok rfl
  | @cons d d' _ _ hfirst hrest =>
    obtain ⟨node, x⟩ := d
    obtain ⟨node', x'⟩ := d'
    obtain rfl : x = x' := hfirst.2
    cases hrest with
    | nil => exact divideBy_like 1.0 (.cons hfirst .nil)
    | cons hnext hrest => exact divideBy_like x (.cons hnext hrest)

variable (hargs : List.Forall₂ (Node.Like L) args args') (hcall : L.Agree call call')

include hargs hcall

theorem add_like : CheckedLike L (Node.Like L) (add args call) (add args' call') := by
  refine (Node.expectNumbers_like "+" hargs).bind fun xs ys hxs => ?_
  subst hxs
  exact .ok (.atom (.number _) hcall)

theorem subtract_like : CheckedLike L (Node.Like L) (subtract args call) (subtract args' call') := by
  refine (Arity.check_like _ "-" hargs hcall).bind fun _ _ _ => ?_
  refine (Node.expectNumbers_like "-" hargs).bind fun xs ys hxs => ?_
  subst hxs
  exact .ok (.atom (.number _) hcall)

theorem multiply_like : CheckedLike L (Node.Like L) (multiply args call) (multiply args' call') := by
  refine (Node.expectNumbers_like "*" hargs).bind fun xs ys hxs => ?_
  subst hxs
  exact .ok (.atom (.number _) hcall)

omit hcall in
theorem zip_numbers_like (xs : List Float) :
    List.Forall₂ (fun d d' : Node × Float => d.1.Like L d'.1 ∧ d.2 = d'.2) (args.zip xs)
      (args'.zip xs) := by
  induction hargs generalizing xs with
  | nil => exact .nil
  | cons harg _ ih =>
    cases xs with
    | nil => exact .nil
    | cons x xs => exact .cons ⟨harg, rfl⟩ (ih xs)

theorem divide_like : CheckedLike L (Node.Like L) (divide args call) (divide args' call') := by
  refine (Arity.check_like _ "/" hargs hcall).bind fun _ _ _ => ?_
  refine (Node.expectNumbers_like "/" hargs).bind fun xs ys hxs => ?_
  subst hxs
  refine (quotient_like (zip_numbers_like hargs xs)).bind fun x y hxy => ?_
  subst hxy
  exact .ok (.atom (.number _) hcall)

theorem modulo_like : CheckedLike L (Node.Like L) (modulo args call) (modulo args' call') := by
  refine (Arity.check_like _ "mod" hargs hcall).bind fun _ _ _ => ?_
  refine (Node.expectNumbers_like "mod" hargs).bind fun xs ys hxs => ?_
  subst hxs
  have hcount := hargs.length_eq
  cases hargs with
  | nil => exact .error ⟨rfl, hcall⟩
  | cons _ hargs =>
    cases hargs with
    | nil => exact .error ⟨rfl, hcall⟩
    | cons hdivisor hargs =>
      cases hargs with
      | cons _ _ => exact .error ⟨by rw [hcount], hcall⟩
      | nil =>
        match xs with
        | [] | [_] | _ :: _ :: _ :: _ => exact .error ⟨rfl, hcall⟩
        | [x, y] =>
          dsimp only
          split
          · exact .error ⟨rfl, hdivisor.span⟩
          · exact .ok (.atom (.number _) hcall)

theorem compareNumbers_like (name : String) (holds : Float → Float → Bool) :
    CheckedLike L (Node.Like L) (compareNumbers name holds args call)
      (compareNumbers name holds args' call') := by
  refine (Arity.check_like _ name hargs hcall).bind fun _ _ _ => ?_
  refine (Node.expectNumbers_like name hargs).bind fun xs ys hxs => ?_
  subst hxs
  exact .ok (.atom (.bool _) hcall)

end Arithmetic

section Equality

theorem chained_like (hargs : List.Forall₂ (Node.Like L) args args') :
    chained (· == ·) args = chained (· == ·) args' := by
  induction hargs with
  | nil => rfl
  | cons harg hrest ih =>
    cases hrest with
    | nil => rfl
    | cons hnext _ => rw [chained, chained, harg.beq_eq hnext, ih]

variable (hargs : List.Forall₂ (Node.Like L) args args') (hcall : L.Agree call call')

include hargs hcall

theorem equal_like : CheckedLike L (Node.Like L) (equal args call) (equal args' call') := by
  refine (Arity.check_like _ "=" hargs hcall).bind fun _ _ _ => ?_
  rw [chained_like hargs]
  exact .ok (.atom (.bool _) hcall)

theorem negation_like : CheckedLike L (Node.Like L) (negation args call) (negation args' call') := by
  refine (Arity.check_like _ "not" hargs hcall).bind fun _ _ _ => ?_
  have hany : args.any Node.isTruthy = args'.any Node.isTruthy := by
    induction hargs with
    | nil => rfl
    | cons harg _ ih => rw [List.any_cons, List.any_cons, harg.isTruthy_eq, ih]
  rw [hany]
  exact .ok (.atom (.bool _) hcall)

end Equality

section Collection

theorem cons_of_length_ne (h : args.length ≠ 2) :
    cons args call = .error ⟨.wrongArity "cons" (.exactly 2) args.length, call⟩ := by
  unfold cons
  split
  · exact absurd rfl h
  · exact absurd rfl h
  · exact absurd rfl h
  · rfl

theorem joinDisplayed_like (separator : String) (hargs : List.Forall₂ (Node.Like L) args args') :
    joinDisplayed separator args = joinDisplayed separator args' := by
  have hmap : args.map Node.display = args'.map Node.display := by
    induction hargs with
    | nil => rfl
    | cons harg _ ih => rw [List.map_cons, List.map_cons, harg.display_eq, ih]
  rw [joinDisplayed, joinDisplayed, hmap]

variable (hargs : List.Forall₂ (Node.Like L) args args') (hcall : L.Agree call call')

include hargs hcall

theorem oneArgument_like (name : String) :
    CheckedLike L (Node.Like L) (oneArgument name args call) (oneArgument name args' call') := by
  cases hargs with
  | nil => exact .error ⟨rfl, hcall⟩
  | cons harg hrest =>
    cases hrest with
    | nil => exact .ok harg
    | cons _ hrest => exact .error ⟨by simp [hrest.length_eq], hcall⟩

theorem cons_like : CheckedLike L (Node.Like L) (cons args call) (cons args' call') := by
  by_cases hcount : args.length = 2
  · obtain ⟨item, other, rfl⟩ := List.length_eq_two.1 hcount
    obtain ⟨item', rest', hitem, hrest, rfl⟩ := List.forall₂_cons_left_iff.1 hargs
    obtain ⟨other', rest', hother, hnil, rfl⟩ := List.forall₂_cons_left_iff.1 hrest
    cases hnil
    have hmismatch := hother.mismatch "cons" "List"
    cases hother with
    | list hlength hitems _ =>
      exact .ok (Node.like_list (.cons hitem (List.forall₂_iff_zip.2 ⟨hlength, hitems _⟩)) hcall)
    | atom hvalue _ =>
      cases hvalue with
      | nil => exact .ok (Node.like_list (.cons hitem .nil) hcall)
      | bool | number | string | symbol | function | expander => exact .error hmismatch
  · rw [cons_of_length_ne hcount, cons_of_length_ne (hargs.length_eq ▸ hcount)]
    exact .error ⟨congrArg (Cause.wrongArity "cons" (.exactly 2)) hargs.length_eq, hcall⟩

theorem first_like : CheckedLike L (Node.Like L) (first args call) (first args' call') := by
  refine (oneArgument_like hargs hcall "first").bind fun m n hmn => ?_
  refine (hmn.expectList "first").bind fun items items' hitems => ?_
  cases hitems with
  | nil => exact .ok (.atom .nil hcall)
  | cons hitem _ => exact .ok hitem

theorem rest_like : CheckedLike L (Node.Like L) (rest args call) (rest args' call') := by
  refine (oneArgument_like hargs hcall "rest").bind fun m n hmn => ?_
  refine (hmn.expectList "rest").bind fun items items' hitems => ?_
  cases hitems with
  | nil => exact .ok (Node.like_list .nil hcall)
  | cons _ hitems => exact .ok (Node.like_list hitems hcall)

theorem expectSize_like (name : String) :
    CheckedLike L Eq (expectSize name args call) (expectSize name args' call') :=
  (oneArgument_like hargs hcall name).bind fun _ _ hmn => hmn.expect_eq hmn.size?_eq _ _

theorem count_like : CheckedLike L (Node.Like L) (count args call) (count args' call') := by
  refine (expectSize_like hargs hcall "count").bind fun x y hxy => ?_
  subst hxy
  exact .ok (.atom (.number _) hcall)

theorem isEmpty_like : CheckedLike L (Node.Like L) (isEmpty args call) (isEmpty args' call') := by
  refine (expectSize_like hargs hcall "empty?").bind fun x y hxy => ?_
  subst hxy
  exact .ok (.atom (.bool _) hcall)

theorem test_like (name : String) {holds : Node → Bool}
    (hholds : ∀ {m n : Node}, m.Like L n → holds m = holds n) :
    CheckedLike L (Node.Like L) (test name holds args call) (test name holds args' call') := by
  refine (oneArgument_like hargs hcall name).bind fun m n hmn => ?_
  rw [hholds hmn]
  exact .ok (.atom (.bool _) hcall)

theorem print_like : CheckedLike L (Node.Like L) (print args call) (print args' call') := by
  refine (oneArgument_like hargs hcall "print").bind fun m n hmn => ?_
  rw [hmn.pretty_eq]
  exact .ok (.atom (.string _) hcall)

theorem str_like : CheckedLike L (Node.Like L) (str args call) (str args' call') := by
  rw [str, str, joinDisplayed_like "" hargs]
  exact .ok (.atom (.string _) hcall)

end Collection

end Builtin

theorem Primitive.onValues_like {p : Primitive} {run : List Node → Span → Except Complaint Node}
    (h : p.operation = .onValues run) (hargs : List.Forall₂ (Node.Like L) args args')
    (hcall : L.Agree call call') : CheckedLike L (Node.Like L) (run args call) (run args' call') := by
  cases p <;> cases h
  case add => exact Builtin.add_like hargs hcall
  case subtract => exact Builtin.subtract_like hargs hcall
  case multiply => exact Builtin.multiply_like hargs hcall
  case divide => exact Builtin.divide_like hargs hcall
  case modulo => exact Builtin.modulo_like hargs hcall
  case equal => exact Builtin.equal_like hargs hcall
  case negation => exact Builtin.negation_like hargs hcall
  case cons => exact Builtin.cons_like hargs hcall
  case list => exact .ok (Node.like_list hargs hcall)
  case first => exact Builtin.first_like hargs hcall
  case rest => exact Builtin.rest_like hargs hcall
  case count => exact Builtin.count_like hargs hcall
  case isEmpty => exact Builtin.isEmpty_like hargs hcall
  case print => exact Builtin.print_like hargs hcall
  case str => exact Builtin.str_like hargs hcall
  case isList => exact Builtin.test_like hargs hcall "list?" Node.Like.isList_eq
  case isSymbol =>
    exact Builtin.test_like hargs hcall "symbol?" fun h => congrArg Option.isSome h.symbol?_eq
  case isNil => exact Builtin.test_like hargs hcall "nil?" Node.Like.isNil_eq
  case less | greater | lessEqual | greaterEqual =>
    exact Builtin.compareNumbers_like hargs hcall _ _

end MacroLisp
