import MacroLisp.Evaluation.Application
import MacroLisp.Proofs.Scope.Lookup

/-!
# Parameters and arguments

A parameter list is read into its required names and the name of its rest parameter, from which it
can be written again. A function that is called binds these names in a fresh frame, and the
arguments can be read off that frame again: none is lost, and none is bound twice. A call with
another number of arguments fails before anything is done.
-/

namespace MacroLisp

namespace Params

theorem restName?_append (rest : String) : restName? ("..." ++ rest) = some rest := by
  have hchars : ("..." ++ rest).toList = restMark ++ rest.toList := String.toList_append ..
  rw [restName?, hchars, if_pos (List.isPrefixOf_iff_prefix.2 (List.prefix_append ..)),
    List.drop_left, String.ofList_toList]

theorem restName?_eq_some_iff {name rest : String} :
    restName? name = some rest ↔ name = "..." ++ rest := by
  refine ⟨fun h => ?_, fun h => h ▸ restName?_append rest⟩
  rw [restName?] at h
  split at h
  · next hprefix =>
    obtain ⟨chars, hchars⟩ := List.isPrefixOf_iff_prefix.1 hprefix
    rw [← hchars, List.drop_left] at h
    cases h
    refine String.toList_injective ?_
    rw [← hchars, String.toList_append, String.toList_ofList (l := chars)]
    rfl
  · cases h

section Reading

variable {name : String} {span : Span} {items : List Node} {p : List String × Option String}

theorem ofItems_cons_of_rest {rest : String} (h : restName? name = some rest) :
    ofItems (.symbol name span :: items) = .ok p ↔ rest ≠ "" ∧ items = [] ∧ p = ([], some rest) := by
  simp only [ofItems, Node.expectSymbol, Node.expect, Node.symbol?, h]
  split
  · next hbad =>
    refine iff_of_false (fun h => by cases h) ?_
    rintro ⟨hrest, hitems, -⟩
    exact hbad.elim hrest (· hitems)
  · next hgood =>
    rw [not_or, not_not] at hgood
    simp [hgood, eq_comm]

theorem ofItems_cons_of_required (h : restName? name = none) :
    ofItems (.symbol name span :: items) = .ok p ↔
      ∃ q, ofItems items = .ok q ∧ p = (name :: q.1, q.2) := by
  simp only [ofItems, Node.expectSymbol, Node.expect, Node.symbol?, h]
  cases ofItems items with
  | error c =>
    refine iff_of_false (fun h => by cases h) ?_
    rintro ⟨_, h, -⟩
    cases h
  | ok q => simp [Except.map, eq_comm]

end Reading

def names (p : Params) : List String := p.required ++ p.rest.toList

/-- The symbols that the required names and the rest name are read from. -/
def written (required : List String) (rest : Option String) : List String :=
  required ++ (rest.map ("..." ++ ·)).toList

def symbolsAt (symbols : List (String × Span)) : List Node :=
  symbols.map fun symbol => .symbol symbol.1 symbol.2

theorem written_of_ofItems {symbols : List (String × Span)} {p : List String × Option String}
    (h : ofItems (symbolsAt symbols) = .ok p) : written p.1 p.2 = symbols.map (·.1) := by
  induction symbols generalizing p with
  | nil =>
    cases h
    rfl
  | cons symbol symbols ih =>
    cases hname : restName? symbol.1 with
    | some rest =>
      obtain ⟨-, hsymbols, rfl⟩ := (ofItems_cons_of_rest hname).1 h
      obtain rfl := List.map_eq_nil_iff.1 hsymbols
      exact congrArg (· :: []) (restName?_eq_some_iff.1 hname).symm
    | none =>
      obtain ⟨q, hq, rfl⟩ := (ofItems_cons_of_required hname).1 h
      exact congrArg (symbol.1 :: ·) (ih hq)

theorem exists_ofItems_single_iff (symbol : String × Span) :
    (∃ p, ofItems (symbolsAt [symbol]) = .ok p) ↔ symbol.1 ≠ "..." := by
  have hmark : symbol.1 = "..." ↔ restName? symbol.1 = some "" := by
    rw [restName?_eq_some_iff, String.append_empty]
  rw [Ne, hmark]
  cases hname : restName? symbol.1 with
  | some rest =>
    rw [Option.some_inj]
    exact ⟨fun ⟨p, hp⟩ => ((ofItems_cons_of_rest hname).1 hp).1,
      fun h => ⟨_, (ofItems_cons_of_rest hname).2 ⟨h, rfl, rfl⟩⟩⟩
  | none =>
    exact iff_of_true ⟨_, (ofItems_cons_of_required hname).2 ⟨_, rfl, rfl⟩⟩ (Option.some_ne_none _).symm

/-- A list of symbols is accepted if only the last one has a mark, and a name behind it. -/
theorem exists_ofItems_iff (symbols : List (String × Span)) :
    (∃ p, ofItems (symbolsAt symbols) = .ok p) ↔
      (∀ name ∈ (symbols.map (·.1)).dropLast, restName? name = none) ∧
        (symbols.map (·.1)).getLast? ≠ some "..." := by
  induction symbols with
  | nil => exact iff_of_true ⟨_, rfl⟩ ⟨List.forall_mem_nil _, fun h => by cases h⟩
  | cons symbol symbols ih =>
    cases symbols with
    | nil =>
      rw [exists_ofItems_single_iff]
      simp
    | cons next symbols =>
      rw [List.map_cons, List.map_cons, List.dropLast_cons_cons, List.forall_mem_cons,
        List.getLast?_cons_cons, ← List.map_cons, and_assoc, ← ih]
      cases hname : restName? symbol.1 with
      | some rest =>
        refine iff_of_false (fun ⟨p, hp⟩ => ?_) fun h => Option.some_ne_none _ h.1
        cases ((ofItems_cons_of_rest hname).1 hp).2.1
      | none =>
        rw [and_iff_right rfl]
        refine ⟨fun ⟨p, hp⟩ => ?_, fun ⟨p, hp⟩ => ?_⟩
        · obtain ⟨q, hq, -⟩ := (ofItems_cons_of_required hname).1 hp
          exact ⟨q, hq⟩
        · exact ⟨_, (ofItems_cons_of_required hname).2 ⟨p, hp, rfl⟩⟩

theorem ofNode_symbolsAt {symbols : List (String × Span)} {span : Span} {p : Params} :
    ofNode (.list (symbolsAt symbols) span) = .ok p ↔
      ∃ q, ofItems (symbolsAt symbols) = .ok q ∧ p = ⟨q.1, q.2, span⟩ := by
  rw [ofNode, Node.items?]
  dsimp only
  cases ofItems (symbolsAt symbols) with
  | error c =>
    refine iff_of_false (fun h => by cases h) ?_
    rintro ⟨_, h, -⟩
    cases h
  | ok q => simp [Except.map, Node.span, eq_comm]

/-- What the required parameters stand for in a frame, and after it the items of what the rest
parameter stands for. -/
def argumentsIn (p : Params) (frame : Frame) : List Node :=
  p.required.filterMap frame.get? ++ ((p.rest.bind frame.get?).bind Node.items?).getD []

/-- As many arguments as there are required names, or more if there is a rest name. -/
def Take (p : Params) (count : Nat) : Prop :=
  count = p.required.length ∨ p.rest.isSome ∧ p.required.length ≤ count

theorem accepts_arity_iff {p : Params} {count : Nat} :
    p.arity.accepts count = true ↔ p.Take count := by
  unfold arity Take
  cases p.rest with
  | none => simp [Arity.accepts_exactly_iff]
  | some rest =>
    rw [Arity.accepts_atLeast_iff]
    simp only [Option.isSome_some, true_and]
    omega

section Bindings

variable {p : Params} {args : List Node} {call : Span}

theorem Take.length_le {count : Nat} (h : p.Take count) : p.required.length ≤ count :=
  h.elim (fun h => h.ge) (·.2)

theorem names_bindings (h : p.Take args.length) :
    (p.bindings args call).map (·.1) = p.names := by
  have hzip : (p.required.zip args).map (·.1) = p.required := by
    rw [List.map_fst_zip h.length_le]
  rw [bindings, names, List.map_append, hzip]
  cases p.rest <;> rfl

end Bindings

end Params

namespace Frame

theorem setIn_of_not_mem {name : String} {bindings : List (String × Node)}
    (h : name ∉ bindings.map (·.1)) (value : Node) :
    setIn name value bindings = bindings ++ [(name, value)] := by
  induction bindings with
  | nil => rfl
  | cons b bindings ih =>
    rw [List.map_cons, List.mem_cons, not_or] at h
    rw [setIn, if_neg (by simpa using h.1), ih h.2, List.cons_append]

theorem get?_of_mem {frame : Frame} (hnodup : frame.names.Nodup) {name : String} {value : Node}
    (h : (name, value) ∈ frame.bindings) : frame.get? name = some value := by
  obtain ⟨bindings⟩ := frame
  unfold get?
  induction bindings with
  | nil => cases h
  | cons b bindings ih =>
    obtain ⟨hnot, hnodup⟩ := List.nodup_cons.1 hnodup
    rw [List.lookup_cons]
    rcases List.mem_cons.1 h with rfl | hmem
    · rw [beq_self_eq_true]
    · have hne : name ≠ b.1 := fun heq => hnot (List.mem_map.2 ⟨_, hmem, heq⟩)
      rw [beq_eq_false_iff_ne.2 hne]
      exact ih hnodup hmem

end Frame

theorem modify_push {α : Type} (xs : Array α) (x : α) (f : α → α) :
    (xs.push x).modify xs.size f = xs.push (f x) := by
  ext i hi hi'
  · simp
  · rw [Array.size_push] at hi'
    rw [Array.getElem_modify]
    split
    · next h =>
      subst h
      simp
    · next h => rw [Array.getElem_push_lt (by omega), Array.getElem_push_lt (by omega)]

namespace Eval

theorem bindNames_fresh {scope : Scope} {frames : Array Frame} {closures : Array Closure}
    (hscope : scope.frame = frames.size) {bound bindings : List (String × Node)}
    (hnodup : ((bound ++ bindings).map (·.1)).Nodup) (s : EvalState) :
    bindNames scope bindings { s with store := ⟨frames.push ⟨bound⟩, closures⟩ } =
      (.value (), { s with store := ⟨frames.push ⟨bound ++ bindings⟩, closures⟩ }) := by
  induction bindings generalizing bound with
  | nil => rw [List.append_nil]; rfl
  | cons b bindings ih =>
    have hnew : b.1 ∉ bound.map (·.1) := by
      rw [List.map_append] at hnodup
      exact fun h => List.disjoint_of_nodup_append hnodup h List.mem_cons_self
    have hset : Store.set ⟨frames.push ⟨bound⟩, closures⟩ scope b.1 b.2 =
        ⟨frames.push ⟨bound ++ [b]⟩, closures⟩ := by
      rw [Store.set, hscope, modify_push, Frame.set, Frame.setIn_of_not_mem hnew]
    have hrest := ih (List.append_assoc bound [b] bindings ▸ hnodup)
    rw [List.append_assoc] at hrest
    show bindNames scope bindings { s with store := Store.set _ scope b.1 b.2 } = _
    rw [hset]
    exact hrest

end Eval

/-- The call goes on with the body of the function, in the given scope and state. -/
def Closure.Enters (closure : Closure) (args : List Node) (call : Span) (s : EvalState)
    (frame : Scope) (t : EvalState) : Prop :=
  ∀ ev, closure.apply ev args call s =
    Eval.within closure.source (Evaluator.body ev frame call closure.body) t

section Calls

variable {closure : Closure} {args : List Node} {call : Span} (s : EvalState)

def EvalState.bound (s : EvalState) (fresh : Frame) : EvalState :=
  { s with store := { s.store with frames := s.store.frames.push fresh } }

theorem Closure.enters (hcount : closure.params.Take args.length)
    (hnodup : closure.params.names.Nodup) :
    closure.Enters args call s ⟨s.store.frames.size, closure.scope.chain⟩
      (s.bound ⟨closure.params.bindings args call⟩) := by
  intro ev
  have hcheck : closure.params.arity.check "fn" args call = .ok () :=
    if_pos (Params.accepts_arity_iff.2 hcount)
  have hbind : Eval.bindNames ⟨s.store.frames.size, closure.scope.chain⟩
      (closure.params.bindings args call) (s.bound .empty) =
        (.value (), s.bound ⟨closure.params.bindings args call⟩) :=
    Eval.bindNames_fresh rfl (by rwa [List.nil_append, Params.names_bindings hcount]) s
  rw [Closure.apply, hcheck]
  show (Eval.bindNames ⟨s.store.frames.size, closure.scope.chain⟩ _ >>= fun _ => _)
    (s.bound .empty) = _
  rw [Eval.bind_apply, hbind]

theorem Closure.apply_of_not_take (hcount : ¬ closure.params.Take args.length) (ev : Evaluator) :
    closure.apply ev args call s =
      (.fault (.located (.wrongArity "fn" closure.params.arity args.length) s.source call), s) := by
  have hcheck : closure.params.arity.check "fn" args call =
      .error ⟨.wrongArity "fn" closure.params.arity args.length, call⟩ :=
    if_neg (mt Params.accepts_arity_iff.1 hcount)
  rw [Closure.apply, hcheck]
  rfl

/-- There are evaluators with which every body succeeds, so a call that fails with all of them has
not entered the body. -/
theorem Closure.Enters.take {frame : Scope} {t : EvalState}
    (h : closure.Enters args call s frame t) : closure.params.Take args.length := by
  have hbody (forms : List Node) :
      Evaluator.body (fun _ _ => pure (.nil call)) frame call forms = pure (.nil call) := by
    induction forms with
    | nil => rfl
    | cons form forms ih =>
      cases forms with
      | nil => rfl
      | cons next forms => exact ih
  by_contra hcount
  have hfault := h fun _ _ => pure (.nil call)
  rw [apply_of_not_take s hcount, hbody] at hfault
  cases hfault

end Calls

namespace Params

variable {p : Params} {args : List Node} {call : Span}

theorem get?_required (hcount : p.Take args.length) (hnodup : p.names.Nodup) {i : Nat}
    (hi : i < p.required.length) :
    Frame.get? ⟨p.bindings args call⟩ p.required[i] = args[i]? := by
  have hargs : i < args.length := hi.trans_le hcount.length_le
  rw [List.getElem?_eq_getElem hargs]
  refine Frame.get?_of_mem (by rwa [Frame.names, names_bindings hcount]) ?_
  refine List.mem_append_left _ ?_
  have hzip : i < (p.required.zip args).length := by simp only [List.length_zip]; omega
  rw [← List.getElem_zip (h := hzip)]
  exact List.getElem_mem hzip

theorem get?_rest (hcount : p.Take args.length) (hnodup : p.names.Nodup) {rest : String}
    (hrest : p.rest = some rest) :
    Frame.get? ⟨p.bindings args call⟩ rest = some (.list (args.drop p.required.length) call) := by
  refine Frame.get?_of_mem (by rwa [Frame.names, names_bindings hcount]) ?_
  refine List.mem_append_right _ ?_
  rw [hrest]
  exact List.mem_singleton.2 rfl

theorem argumentsIn_bindings (hcount : p.Take args.length) (hnodup : p.names.Nodup) :
    p.argumentsIn ⟨p.bindings args call⟩ = args := by
  have hrequired : p.required.filterMap (Frame.get? ⟨p.bindings args call⟩) =
      args.take p.required.length := by
    have hvalues : p.required.map (Frame.get? ⟨p.bindings args call⟩) =
        (args.take p.required.length).map some := by
      have hlength := hcount.length_le
      refine List.ext_getElem (by simp; omega) fun i hi _ => ?_
      rw [List.length_map] at hi
      rw [List.getElem_map, get?_required hcount hnodup hi, List.getElem_map, List.getElem_take,
        List.getElem?_eq_getElem]
    have hsome := congrArg (List.filterMap id) hvalues
    rwa [List.filterMap_map, List.filterMap_map, Function.id_comp, Function.id_comp,
      List.filterMap_some] at hsome
  have hmore : ((p.rest.bind (Frame.get? ⟨p.bindings args call⟩)).bind Node.items?).getD [] =
      args.drop p.required.length := by
    cases hrest : p.rest with
    | some rest =>
      rw [Option.bind_some, get?_rest hcount hnodup hrest]
      rfl
    | none =>
      have hlength : args.length = p.required.length :=
        hcount.elim id fun h => absurd h.1 (by simp [hrest])
      rw [← hlength, List.drop_length]
      rfl
  rw [argumentsIn, hrequired, hmore, List.take_append_drop]

end Params

/-- A list of symbols is read as parameters if only its last symbol has a mark, with a name behind
it, and the parameters are written as that list. The body of a function is entered if and only if
there are as many arguments as required names, or more for a rest name. On entry the fresh frame
binds the names and nothing else, each required name to the argument at its place and the rest name
to the list of all further ones, so that the arguments can be read off it. Otherwise the call fails
and has done nothing. -/
theorem parameters_take_all_arguments :
    (∀ (symbols : List (String × Span)) (span : Span),
      let names := symbols.map (·.1)
      let read := Params.ofNode (.list (Params.symbolsAt symbols) span)
      ((∃ p, read = .ok p) ↔
        (∀ name ∈ names.dropLast, ∀ rest, name ≠ "..." ++ rest) ∧ names.getLast? ≠ some "...") ∧
      ∀ p, read = .ok p → Params.written p.required p.rest = names) ∧
    ∀ (closure : Closure) (args : List Node) (call : Span) (s : EvalState),
      closure.params.names.Nodup →
      ((∃ frame t, closure.Enters args call s frame t) ↔ closure.params.Take args.length) ∧
      (closure.params.Take args.length → ∃ fresh,
        closure.Enters args call s ⟨s.store.frames.size, closure.scope.chain⟩ (s.bound fresh) ∧
        fresh.names = closure.params.names ∧
        (∀ i (hi : i < closure.params.required.length),
          fresh.get? closure.params.required[i] = args[i]?) ∧
        (∀ rest, closure.params.rest = some rest →
          fresh.get? rest = some (.list (args.drop closure.params.required.length) call)) ∧
        closure.params.argumentsIn fresh = args) ∧
      (¬ closure.params.Take args.length → ∀ ev, ∃ fault,
        closure.apply ev args call s = (.fault fault, s) ∧ fault.kind = .eval ∧
          fault.span = some call ∧ fault.source = some s.source) := by
  refine ⟨fun symbols span => ?_, fun closure args call s hnodup => ⟨⟨?_, ?_⟩, ?_, ?_⟩⟩
  · have hnone (name : String) : Params.restName? name = none ↔ ∀ rest, name ≠ "..." ++ rest := by
      simp only [Option.eq_none_iff_forall_ne_some, Ne, Params.restName?_eq_some_iff]
    simp only [← hnone, ← Params.exists_ofItems_iff, Params.ofNode_symbolsAt]
    exact ⟨⟨fun ⟨_, q, hq, _⟩ => ⟨q, hq⟩, fun ⟨q, hq⟩ => ⟨_, q, hq, rfl⟩⟩,
      fun p ⟨q, hq, hp⟩ => hp ▸ Params.written_of_ofItems hq⟩
  · rintro ⟨frame, t, h⟩
    exact h.take
  · exact fun hcount => ⟨_, _, closure.enters s hcount hnodup⟩
  · exact fun hcount => ⟨_, closure.enters s hcount hnodup, Params.names_bindings hcount,
      fun i hi => Params.get?_required hcount hnodup hi,
      fun rest hrest => Params.get?_rest hcount hnodup hrest,
      Params.argumentsIn_bindings hcount hnodup⟩
  · exact fun hcount ev => ⟨_, closure.apply_of_not_take s hcount ev, rfl, rfl, rfl⟩

/-- `(fn (a ......b) a)` has a rest parameter whose name begins with dots again. -/
theorem parameters_take_all_arguments_dots :
    let p : Span := ⟨0, 0⟩
    let args := [Node.bool true p, .nil p, .string "c" p]
    let closure : Closure := ⟨⟨["a"], some "...b", p⟩, [.symbol "a" p], ⟨0, []⟩, p, ⟨"t", ""⟩⟩
    let s : EvalState := ⟨⟨#[.empty], #[]⟩, ⟨"u", ""⟩, #[], #[]⟩
    (∃ q, Params.ofNode (.list (Params.symbolsAt [("a", p), ("......b", p)]) p) = .ok q) ∧
      closure.params.names.Nodup ∧ closure.params.Take args.length ∧
      (∃ fresh, closure.Enters args p s ⟨1, [0]⟩ (s.bound fresh) ∧ fresh.names = ["a", "...b"] ∧
        closure.params.argumentsIn fresh = args) ∧
      ¬ closure.params.Take 0 ∧
      ∀ ev, ∃ fault, closure.apply ev [] p s = (.fault fault, s) ∧ fault.source = some ⟨"u", ""⟩ := by
  intro p args closure s
  obtain ⟨hread, hcall⟩ := parameters_take_all_arguments
  have hnodup : closure.params.names.Nodup := by decide
  have hcount : closure.params.Take args.length := Or.inr ⟨rfl, by decide⟩
  have hfew : ¬ closure.params.Take ([] : List Node).length := by
    rintro (h | ⟨-, h⟩) <;> exact absurd h (by decide)
  obtain ⟨-, henters, -⟩ := hcall closure args p s hnodup
  obtain ⟨fresh, hfresh, hnames, -, -, hargs⟩ := henters hcount
  refine ⟨(hread _ p).1.2 ⟨fun name hname rest => ?_, by decide⟩, hnodup, hcount,
    ⟨fresh, hfresh, hnames, hargs⟩, hfew, fun ev => ?_⟩
  · obtain rfl : name = "a" := by simpa using hname
    intro h
    have hlength := congrArg String.length h
    rw [String.length_append] at hlength
    have : "a".length < "...".length := by decide
    omega
  · obtain ⟨fault, hfault, -, -, hsource⟩ := (hcall closure [] p s hnodup).2.2 hfew ev
    exact ⟨fault, hfault, hsource⟩

end MacroLisp
