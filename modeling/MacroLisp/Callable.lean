/-!
# Special forms and callables

A special form is recognised by the symbol at the head of a list. It receives its arguments
unevaluated and decides what to evaluate. Special forms are never bound in a scope. A primitive is
an operation on values that every program starts with. A callable is a primitive or a closure; a
closure is known by its place in the store, so two closures are the same callable only if one
evaluation of one `fn` form built them. An arity says how many arguments they take: at least so many
and, unless it is open, at most so many.
-/

namespace MacroLisp

inductive SpecialForm where
  | quote | cond | define | lambda | sequence | bindings
  | defineExpander | expansion | template | templateExpansion
deriving DecidableEq

namespace SpecialForm

def all : List SpecialForm :=
  [.quote, .cond, .define, .lambda, .sequence, .bindings,
   .defineExpander, .expansion, .template, .templateExpansion]

def name : SpecialForm → String
  | quote => "quote"
  | cond => "if"
  | define => "def"
  | lambda => "fn"
  | sequence => "do"
  | bindings => "let"
  | defineExpander => "defmacro"
  | expansion => "macroexpand"
  | template => "quasiquote"
  | templateExpansion => "quasiquoteexpand"

def ofName? (name : String) : Option SpecialForm := all.find? fun f => f.name = name

theorem ofName?_name (f : SpecialForm) : ofName? f.name = some f := by cases f <;> decide

theorem name_of_ofName? {name : String} {f : SpecialForm} (h : ofName? name = some f) :
    f.name = name := by
  have := List.find?_some h
  simpa using this

end SpecialForm

structure Arity where
  least : Nat
  most : Option Nat
deriving DecidableEq

namespace Arity

def exactly (n : Nat) : Arity := ⟨n, some n⟩

def atLeast (n : Nat) : Arity := ⟨n, none⟩

def accepts (a : Arity) (count : Nat) : Bool := a.least ≤ count && a.most.all (count ≤ ·)

def text (a : Arity) : String :=
  match a.most with
  | none => "at least " ++ toString a.least
  | some most =>
    if most = a.least then toString a.least else toString a.least ++ " to " ++ toString most

theorem accepts_iff {a : Arity} {count : Nat} :
    a.accepts count = true ↔ a.least ≤ count ∧ ∀ most ∈ a.most, count ≤ most := by
  simp [accepts, Option.all_eq_true]

theorem accepts_exactly_iff {n count : Nat} : (exactly n).accepts count = true ↔ count = n := by
  rw [accepts_iff]
  simp only [exactly, Option.mem_some_iff, forall_eq']
  omega

theorem accepts_atLeast_iff {n count : Nat} : (atLeast n).accepts count = true ↔ n ≤ count := by
  rw [accepts_iff]
  simp [atLeast]

end Arity

inductive Primitive where
  | add | subtract | multiply | divide | modulo
  | equal | less | greater | lessEqual | greaterEqual | negation
  | cons | list | first | rest | count | isEmpty | isList | isSymbol | isNil
  | read | eval | print | defs
  | println | str
deriving DecidableEq

namespace Primitive

def all : List Primitive :=
  [.add, .subtract, .multiply, .divide, .modulo,
   .equal, .less, .greater, .lessEqual, .greaterEqual, .negation,
   .cons, .list, .first, .rest, .count, .isEmpty, .isList, .isSymbol, .isNil,
   .read, .eval, .print, .defs, .println, .str]

def name : Primitive → String
  | add => "+"
  | subtract => "-"
  | multiply => "*"
  | divide => "/"
  | modulo => "mod"
  | equal => "="
  | less => "<"
  | greater => ">"
  | lessEqual => "<="
  | greaterEqual => ">="
  | negation => "not"
  | cons => "cons"
  | list => "list"
  | first => "first"
  | rest => "rest"
  | count => "count"
  | isEmpty => "empty?"
  | isList => "list?"
  | isSymbol => "symbol?"
  | isNil => "nil?"
  | read => "read"
  | eval => "eval"
  | print => "print"
  | defs => "defs"
  | println => "println"
  | str => "str"

theorem mem_all (p : Primitive) : p ∈ all := by cases p <;> decide

theorem name_injective {p q : Primitive} (h : p.name = q.name) : p = q := by
  have key : ∀ p ∈ all, ∀ q ∈ all, p.name = q.name → p = q := by decide
  exact key p (mem_all p) q (mem_all q) h

end Primitive

/-- The place of a closure in the store. -/
abbrev ClosureId := Nat

inductive Callable where
  | primitive (p : Primitive)
  | closure (id : ClosureId)
deriving DecidableEq

def Callable.name : Callable → String
  | primitive p => p.name
  | closure _ => "lambda"

end MacroLisp
