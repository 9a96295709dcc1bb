import MacroLisp.Proofs.Evaluation.Convergence
import MacroLisp.Proofs.Likeness.Engine
import MacroLisp.Proofs.Likeness.Spans
import MacroLisp.Proofs.Reader.ReadBack
import MacroLisp.Proofs.Spans.Session

/-!
# Computed values are read back

Every symbol that a program can come to is a word: those that are read are, and so is what is left
of a rest parameter without its dots. A word is printed as it stands and read as one token. But the
rest of `...5` is the name `5`, and then it is read as a number; and a word of characters that look
blank, printed alone, is no form at all. So a computed value without functions and macros is read as
an equal one if and only if none of its symbols spells a number, a truth value or nil.
-/

namespace MacroLisp

open Token Number

/-- Neither a callable nor a number that is not finite. -/
def Atom.IsData : Atom → Prop
  | number x => x.isFinite = true
  | function _ | expander _ => False
  | nil | bool _ | string _ | symbol _ => True

/-- A symbol is read as itself. -/
def Atom.SpellsItself : Atom → Prop
  | symbol name => IsSymbolToken name
  | nil | bool _ | number _ | string _ | function _ | expander _ => True

section Names

theorem isWord_ofList {run : List Char} (h : IsWord run) : IsWord (String.ofList run).toList := by
  rwa [String.toList_ofList]

theorem isWord_rest {name rest : String} (h : IsWord name.toList)
    (hrest : Params.restName? name = some rest) (hne : rest ≠ "") : IsWord rest.toList := by
  unfold Params.restName? at hrest
  split at hrest
  · cases hrest
    refine ⟨fun hnil => hne (String.toList_inj.1 hnil), fun c hc => ?_⟩
    rw [String.toList_ofList] at hc
    exact h.not_isDelimiter c (List.mem_of_mem_drop hc)
  · cases hrest

/-- Beside itself, a program names what is there and has words for names. -/
def Comparison.words : Comparison :=
  .itself (fun name => IsWord name.toList) isWord_ofList isWord_rest

theorem Engine.HasRun.like {sources : List Source} {engine : Engine} (h : engine.HasRun sources) :
    engine.Like .words engine := by
  induction h with
  | new limit => exact Engine.new_like (fun _ => rfl) (fun _ => rfl) limit
  | run _ depth source ih => exact (ih.run depth source).engine

theorem Node.Like.names {L : Likeness} {m n : Node} (h : m.Like L n) :
    m.All fun value => ∀ name, value = .symbol name → L.names name := by
  induction h with
  | atom hvalue _ =>
    refine .atom fun name hname => ?_
    subst hname
    cases hvalue with
    | symbol h => exact h
  | list hlength _ _ ih =>
    refine .list fun item hitem => ?_
    obtain ⟨pair, hpair, rfl⟩ : ∃ pair ∈ _, Prod.fst pair = item :=
      List.mem_map.1 ((List.map_fst_zip hlength.le).symm ▸ hitem)
    exact ih pair hpair

theorem Atom.isWritten_of_isData {value : Atom} (h : value.IsData)
    (hword : ∀ name, value = .symbol name → IsWord name.toList) : value.IsWritten := by
  cases value with
  | nil | bool | number | string => trivial
  | symbol name => exact hword name rfl
  | function | expander => exact h.elim

end Names

namespace Reader

theorem ofWord_beq_iff {name : String} (h : IsWord name.toList) (place span : Span) :
    (Node.ofWord name.toList place == Node.symbol name span) = true ↔ IsSymbolToken name := by
  constructor
  · intro hsame
    obtain ⟨value, hstands⟩ := exists_stands name.toList
    rw [hstands.ofWord_eq] at hsame
    generalize hrun : name.toList = run at hstands
    cases hstands with
    | number | affirmed | denied | nil => cases hsame
    | symbol hnumber hreserved =>
      subst hrun
      have hne {word : String} (hword : name = word) : name.toList = word.toList :=
        congrArg String.toList hword
      simp only [List.mem_cons, List.not_mem_nil, or_false, not_or] at hreserved
      obtain ⟨htrue, hfalse, hnil⟩ := hreserved
      exact ⟨h.ne_nil, h.not_isDelimiter, hnumber, mt hne htrue, mt hne hfalse, mt hne hnil⟩
  · intro htoken
    rw [ofWord_symbol htoken]
    exact beq_self_eq_true name

theorem reads_atom_of_isData (offset : Nat) {value : Atom} (h : value.IsData)
    (hwritten : value.IsWritten) (span : Span) :
    ∃ m, ((m == Node.atom value span) = true ↔ (Node.atom value span).All Atom.SpellsItself) ∧
      Reads offset value.chars m := by
  have hplain (hvalue : value.IsPlain) (hitself : value.SpellsItself) :
      ∃ m, ((m == Node.atom value span) = true ↔ (Node.atom value span).All Atom.SpellsItself) ∧
        Reads offset value.chars m := by
    obtain ⟨m, hsame, hreads⟩ := reads_atom offset hvalue span
    exact ⟨m, iff_of_true hsame (.atom hitself), hreads⟩
  cases value with
  | nil | bool | string => exact hplain trivial trivial
  | number => exact hplain h trivial
  | symbol name =>
    -- the word is read in any case, but not always as a symbol
    refine ⟨_, ?_, reads_word offset hwritten.ne_nil fun c => hwritten.isWordChar⟩
    rw [Node.all_atom_iff]
    exact ofWord_beq_iff hwritten _ span
  | function | expander => exact h.elim

/-- The print of data is read where it stands, as an equal node if its symbols spell themselves. -/
theorem reads_of_isData {node : Node} (h : node.All fun value => value.IsData ∧ value.IsWritten)
    (offset : Nat) :
    ∃ m, ((m == node) = true ↔ node.All Atom.SpellsItself) ∧ Reads offset node.chars m := by
  induction h generalizing offset with
  | atom h => exact reads_atom_of_isData offset h.1 h.2 _
  | @list items span _ ih =>
    obtain ⟨ms, place, hms, hreads⟩ := reads_list ih offset span
    refine ⟨.list ms place, ?_, hreads⟩
    rw [Node.all_list_iff]
    exact sameAll_iff hms

theorem chars_not_allBlank_of_isData {node : Node} (h : node.All Atom.IsData)
    (hblank : ∀ name, node.symbol? = some name → Text.allBlank name.toList = false) :
    Text.allBlank node.chars = false := by
  cases h with
  | list => exact not_allBlank List.mem_cons_self (by decide)
  | @atom value span h =>
    have hplain (hvalue : value.IsPlain) (hsymbol : (Node.atom value span).symbol? = none) :=
      chars_not_allBlank (.atom hvalue) hsymbol
    cases value with
    | nil | bool | string => exact hplain trivial rfl
    | number => exact hplain h rfl
    | symbol name => exact hblank name rfl
    | function | expander => exact h.elim

theorem readOne_blank {node : Node} {name : String} (h : node.symbol? = some name)
    (hblank : Text.allBlank name.toList = true) (label : String) :
    readOne ⟨label, node.pretty⟩ = .error (.located .noForm ⟨label, node.pretty⟩
      (Source.whole ⟨label, node.pretty⟩)) := by
  have htext : node.pretty.toList = name.toList := by
    rw [← chars_of_symbol? h]
    exact String.toList_ofList
  have hparse : parse node.pretty = .ok [] := by
    rw [parse, htext, if_pos hblank]
  rw [readOne, read, hparse]
  rfl

end Reader

theorem collapse_beq (m n : Node) (span : Span) : (m.collapse span == n) = (m == n) := by
  have hm : (m.collapse span).Like (Comparison.sameButSpans.likeness .empty) m :=
    m.like_same.collapse_left nofun
  exact hm.beq_eq n.like_same

section Session

variable {sources : List Source} {engine : Engine}

/-- The symbols of a value that a session computes are words. If the value holds no function and no
macro and its numbers are finite, then its print is read, unless it is a bare symbol that looks
blank; and what is read is equal to it if and only if all its symbols spell themselves. -/
theorem computed_value_read (h : engine.HasRun sources) {depth : Nat} {source : Source} {v : Node}
    (hv : (engine.run depth source).outcome = .value v) (hdata : v.All Atom.IsData) :
    v.All Atom.IsWritten ∧
      ∀ (ev : Evaluator) (scope : Scope) (printing reading : Span) (s : EvalState),
        Primitive.print.apply ev [v] scope printing s = (.value (.string v.pretty printing), s) ∧
        ((∀ name, v.symbol? = some name → Text.allBlank name.toList = false) →
          ∃ m, Primitive.read.apply ev [.string v.pretty printing] scope reading s = (.value m, s) ∧
            ((m == v) = true ↔ v.All Atom.SpellsItself)) ∧
        ∀ name, v.symbol? = some name → Text.allBlank name.toList = true →
          Primitive.read.apply ev [.string v.pretty printing] scope reading s =
            (.fault (.located .noForm ⟨Primitive.readName, v.pretty⟩
              (Source.whole ⟨Primitive.readName, v.pretty⟩)), s) := by
  have houtcome := (h.like.run depth source).outcome
  rw [hv] at houtcome
  have hwords : v.All fun value => ∀ name, value = .symbol name → IsWord name.toList := by
    cases houtcome with
    | value hlike => exact hlike.names
  have hboth : v.All fun value => value.IsData ∧ value.IsWritten :=
    (hdata.and hwords).imp fun value hvalue => ⟨hvalue.1, Atom.isWritten_of_isData hvalue.1 hvalue.2⟩
  refine ⟨hboth.imp fun _ => And.right, fun ev scope printing reading s => ⟨rfl, fun hblank => ?_,
    fun name hname hblank => ?_⟩⟩
  · obtain ⟨m, hsame, hreads⟩ := Reader.reads_of_isData hboth 0
    have hprinted := Reader.chars_not_allBlank_of_isData hdata hblank
    refine ⟨m.collapse reading, Primitive.read_apply_of_parse
      (Reader.parse_pretty hreads hprinted) ev printing scope reading s, ?_⟩
    rw [collapse_beq]
    exact hsame
  · rw [Primitive.read_apply, Reader.readOne_blank hname hblank]

theorem computed_value_read_list :
    let source : Source := ⟨"t", "'(a)"⟩
    let v := Node.list [.symbol "a" ⟨2, 3⟩] ⟨1, 4⟩
    (Engine.new none).HasRun [] ∧ ((Engine.new none).run 2 source).outcome = .value v ∧
      v.All Atom.IsData ∧
      ∀ (ev : Evaluator) (scope : Scope) (call : Span) (s : EvalState), ∃ m,
        Primitive.read.apply ev [.string v.pretty call] scope call s = (.value m, s) ∧
          (m == v) = true := by
  intro source v
  have hname : ¬ IsLiteral "a".toList := fun h => by
    have hchar := h.char List.mem_cons_self
    revert hchar
    decide
  have hstands : Reader.Stands "a".toList (.symbol "a") := .symbol hname (by decide)
  have htokens : scan source.text.toList = [⟨.trigger .quote, ⟨0, 1⟩⟩, ⟨.opening, ⟨1, 2⟩⟩,
      ⟨.word ['a'], ⟨2, 3⟩⟩, ⟨.closing, ⟨3, 4⟩⟩] := by decide +kernel
  have hforms : Reader.Brackets (scan source.text.toList) [.form "quote" [v] ⟨0, 4⟩] := by
    rw [htokens]
    exact .prefixed (.list (.word hstands .nil) .nil)
  have hread : Reader.read source = .ok [.form "quote" [v] ⟨0, 4⟩] := by
    rw [Reader.read, Reader.parse, if_neg (by decide), hforms.formsOf_eq]
    rfl
  have hrun : ((Engine.new none).run 2 source).outcome = .value v := by
    rw [Engine.run, Engine.perform, hread]
    rfl
  have hdata : v.All Atom.IsData := .list (List.forall_mem_singleton.2 (.atom trivial))
  have hitself : v.All Atom.SpellsItself := by
    refine .list (List.forall_mem_singleton.2 (.atom ?_))
    have hword : IsWord "a".toList := isWord_of_all (by decide) (by decide)
    exact ⟨hword.ne_nil, hword.not_isDelimiter, hname, by decide⟩
  obtain ⟨-, hcomputed⟩ := computed_value_read (.new none) hrun hdata
  refine ⟨.new none, hrun, hdata, fun ev scope call s => ?_⟩
  obtain ⟨-, hlist, -⟩ := hcomputed ev scope call call s
  obtain ⟨m, happly, hsame⟩ := hlist fun name h => by cases h
  exact ⟨m, happly, hsame.2 hitself⟩

def Node.isMisread (v : Node) : Bool :=
  match v, Reader.readOne ⟨Primitive.readName, v.pretty⟩ with
  | .list items _, .ok m => items.all (·.symbol?.isSome) && !(m == v)
  | _, _ => false

theorem Node.exists_of_isMisread {v : Node} (h : v.isMisread = true) :
    v.All Atom.IsData ∧
      ∃ m, Reader.readOne ⟨Primitive.readName, v.pretty⟩ = .ok m ∧ (m == v) = false := by
  unfold Node.isMisread at h
  split at h
  · rename_i items span m hread
    rw [Bool.and_eq_true, List.all_eq_true] at h
    refine ⟨.list fun item hitem => ?_, m, hread, Bool.not_eq_true' _ ▸ h.2⟩
    obtain ⟨name, hname⟩ := Option.isSome_iff_exists.1 (h.1 item hitem)
    unfold Node.symbol? at hname
    split at hname
    · exact .atom trivial
    · cases hname
  · cases h

/-- The names that are bound in the body of `(fn (...5) (defs))` are data, and their print is read
as a list with the number `5` in place of the symbol. -/
theorem names_misread :
    let source : Source := ⟨"t", "((fn (...5) (defs)))"⟩
    ∃ v, ((Engine.new none).run 6 source).outcome = .value v ∧ v.All Atom.IsData ∧
      ∀ (ev : Evaluator) (scope : Scope) (printing reading : Span) (s : EvalState),
        Primitive.print.apply ev [v] scope printing s = (.value (.string v.pretty printing), s) ∧
        ∃ m, Primitive.read.apply ev [.string v.pretty printing] scope reading s = (.value m, s) ∧
          (m == v) = false := by
  intro source
  have hmisread : ((Engine.new none).run 6 source).outcome.satisfies Node.isMisread = true := by
    decide +kernel
  generalize ((Engine.new none).run 6 source).outcome = o at hmisread
  cases o with
  | value v =>
    obtain ⟨hdata, m, hread, hdiffers⟩ := Node.exists_of_isMisread hmisread
    refine ⟨v, rfl, hdata, fun ev scope printing reading s => ⟨rfl, m.collapse reading, ?_, ?_⟩⟩
    · rw [Primitive.read_apply, hread]
    · rw [collapse_beq, hdiffers]
  | fault | unfinished => cases hmisread

end Session

end MacroLisp
