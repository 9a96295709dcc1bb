import MacroLisp.CommandLine
import MacroLisp.Proofs.Dump.Document
import MacroLisp.Proofs.Reader.Computed

/-!
# Dumps lose nothing

A value is dumped under the name of its sort, so the document of a node shows its contents and its
span, and whether it is an atom or a list. Two programs whose numbers are finite and for which the
command line shows the same text are therefore the same forms at the same spans.
-/

namespace MacroLisp

open Json (IsProper)

theorem Span.dump_inj {s t : Span} (h : s.dump = t.dump) : s = t := by
  simp only [Span.dump, Json.object.injEq, List.cons.injEq, Prod.mk.injEq, Json.number.injEq,
    true_and, and_true] at h
  have hstart : s.start = t.start := Number.digitChars_inj h.1
  have hstop : s.stop = t.stop := Number.digitChars_inj h.2
  cases s
  cases t
  simp_all only

theorem Number.isProper_digitChars (n : Nat) : IsProper (.number (digitChars n)) :=
  .number (List.ne_nil_of_length_pos Nat.length_toDigits_pos)
    fun c hc => inNumber_of_isDigit (allDigits_digitChars n c hc)

theorem Span.isProper_dump (s : Span) : s.dump.IsProper :=
  .object (List.forall_mem_cons.2 ⟨Number.isProper_digitChars s.start,
    List.forall_mem_singleton.2 (Number.isProper_digitChars s.stop)⟩)

namespace Atom

/-- The document of a value that has one. -/
def document : Atom → Json
  | nil => .string "Nil"
  | bool value => .object [("Bool", .bool value)]
  | number value => .object [("Number", .number (Number.json value))]
  | string value => .object [("String", .string value)]
  | symbol name => .object [("Symbol", .string name)]
  | function _ | expander _ => .null

variable {a b : Atom}

theorem dump_eq (h : a.IsData) : a.dump = .ok a.document := by
  cases a with
  | nil | bool | number | string | symbol => rfl
  | function | expander => exact h.elim

theorem isProper_document (h : a.IsData) : a.document.IsProper := by
  cases a with
  | nil => exact .string _
  | bool value => exact .object (List.forall_mem_singleton.2 (.bool value))
  | number x =>
    obtain ⟨hne, hchars⟩ := Number.json_chars h
    exact .object (List.forall_mem_singleton.2 (.number hne hchars))
  | string value => exact .object (List.forall_mem_singleton.2 (.string value))
  | symbol name => exact .object (List.forall_mem_singleton.2 (.string name))
  | function | expander => exact h.elim

theorem document_inj (ha : a.IsData) (hb : b.IsData) (h : a.document = b.document) : a = b := by
  cases a <;> cases b
  case nil.nil => rfl
  case bool.bool | string.string | symbol.symbol => simpa [document] using h
  case number.number x y =>
    have hdigits : Number.json x = Number.json y := by simpa [document] using h
    rw [Number.json_inj ha hb hdigits]
  case function.function | function.expander | expander.function | expander.expander =>
    exact ha.elim
  all_goals simp [document] at h

theorem document_ne_list (a : Atom) (items : List Json) :
    a.document ≠ .object [("List", .array items)] := by
  cases a <;> simp [document]

end Atom

namespace Node

mutual

def document : Node → Json
  | atom value span => dumpSpanned value.document span
  | list items span => dumpSpanned (.object [("List", .array (documents items))]) span

def documents : List Node → List Json
  | [] => []
  | item :: items => document item :: documents items

end

variable {m n : Node} {xs ys : List Node}

theorem dumpItems_eq (h : ∀ x ∈ xs, x.dump = .ok x.document) :
    dumpItems xs = .ok (documents xs) := by
  induction xs with
  | nil => rfl
  | cons x xs ih =>
    obtain ⟨hx, hxs⟩ := List.forall_mem_cons.1 h
    rw [dumpItems, hx, ih hxs, documents]

theorem dump_eq (h : n.All Atom.IsData) : n.dump = .ok n.document := by
  induction h with
  | atom h =>
    rw [dump, Atom.dump_eq h]
    rfl
  | list _ ih =>
    rw [dump, dumpItems_eq ih]
    rfl

theorem isProper_dumpSpanned {value : Json} (h : value.IsProper) (s : Span) :
    (dumpSpanned value s).IsProper :=
  .object (List.forall_mem_cons.2 ⟨h, List.forall_mem_singleton.2 s.isProper_dump⟩)

theorem isProper_documents (h : ∀ x ∈ xs, x.document.IsProper) :
    ∀ j ∈ documents xs, j.IsProper := by
  induction xs with
  | nil => exact List.forall_mem_nil _
  | cons x xs ih =>
    obtain ⟨hx, hxs⟩ := List.forall_mem_cons.1 h
    exact List.forall_mem_cons.2 ⟨hx, ih hxs⟩

theorem isProper_document (h : n.All Atom.IsData) : n.document.IsProper := by
  induction h with
  | atom h => exact isProper_dumpSpanned (Atom.isProper_document h) _
  | list _ ih =>
    exact isProper_dumpSpanned
      (.object (List.forall_mem_singleton.2 (.array (isProper_documents ih)))) _

theorem dumpSpanned_inj {value value' : Json} {s t : Span}
    (h : dumpSpanned value s = dumpSpanned value' t) : value = value' ∧ s = t := by
  simp only [dumpSpanned, Json.object.injEq, List.cons.injEq, Prod.mk.injEq, true_and,
    and_true] at h
  exact ⟨h.1, Span.dump_inj h.2⟩

theorem documents_inj (hapart : ∀ x ∈ xs, ∀ y ∈ ys, x.document = y.document → x = y)
    (h : documents xs = documents ys) : xs = ys := by
  induction xs generalizing ys with
  | nil =>
    cases ys with
    | nil => rfl
    | cons y ys => cases h
  | cons x xs ih =>
    cases ys with
    | nil => cases h
    | cons y ys =>
      obtain ⟨hx, hxs⟩ := List.forall_mem_cons.1 hapart
      obtain ⟨hfirst, hrest⟩ := List.cons.inj h
      rw [hx y List.mem_cons_self hfirst,
        ih (fun x hx y hy => hxs x hx y (List.mem_cons_of_mem _ hy)) hrest]

theorem document_inj (hm : m.All Atom.IsData) (hn : n.All Atom.IsData)
    (h : m.document = n.document) : m = n := by
  induction hm generalizing n with
  | @atom a _ ha =>
    cases hn with
    | atom hb =>
      obtain ⟨hvalue, rfl⟩ := dumpSpanned_inj h
      rw [Atom.document_inj ha hb hvalue]
    | list _ => exact absurd (dumpSpanned_inj h).1 (a.document_ne_list _)
  | @list items _ _ ih =>
    cases hn with
    | @atom b _ _ => exact absurd (dumpSpanned_inj h).1.symm (b.document_ne_list _)
    | @list others _ hothers =>
      obtain ⟨hvalue, rfl⟩ := dumpSpanned_inj h
      have hdocuments : documents items = documents others := by simpa using hvalue
      rw [documents_inj (fun x hx y hy => ih x hx (hothers y hy)) hdocuments]

end Node

def Atom.IsFinite : Atom → Prop
  | number x => x.isFinite = true
  | nil | bool _ | string _ | symbol _ | function _ | expander _ => True

/-- A text has no callables, so only numbers can keep its forms from being data. -/
theorem Reader.all_isData {text : String} {forms : List Node} (h : parse text = .ok forms)
    (hfinite : ∀ form ∈ forms, form.All Atom.IsFinite) : ∀ form ∈ forms, form.All Atom.IsData := by
  intro form hform
  refine ((parse_isWritten h form hform).and (hfinite form hform)).imp fun value hvalue => ?_
  obtain ⟨hwritten, hnumber⟩ := hvalue
  cases value with
  | nil | bool | string | symbol => trivial
  | number x => exact hnumber
  | function | expander => exact hwritten

namespace CommandLine

/-- What the command line shows for a text without infinite numbers. -/
theorem execute_dump {s : Setting} {path text : String} {forms : List Node}
    (hfile : s.files.readText path = .ok text) (hparse : Reader.parse text = .ok forms)
    (hdata : ∀ form ∈ forms, form.All Atom.IsData) (limit : Option Nat) (input : ByteArray) :
    execute s limit input (.dump path) =
      succeed ((Json.array (Node.documents forms)).pretty ++ "\n") := by
  have hread : Reader.read ⟨path, text⟩ = .ok forms := by
    rw [Reader.read, hparse]
    rfl
  have hforms : Node.dumpForms forms = .ok (.array (Node.documents forms)) := by
    rw [Node.dumpForms, Node.dumpItems_eq fun form hform => Node.dump_eq (hdata form hform)]
    rfl
  rw [execute, withSource, readSource, hfile]
  simp only [dumpSource, hread, hforms]

section Texts

variable {s t : Setting} {path other text text' : String} {forms others : List Node}

/-- Two accepted texts whose numbers are finite are dumped, and the same text is shown for both if
and only if they are read as the same forms: of the same sorts, with the same contents, at the same
spans. -/
theorem dump_tells_forms (hfile : s.files.readText path = .ok text)
    (hparse : Reader.parse text = .ok forms) (hfinite : ∀ form ∈ forms, form.All Atom.IsFinite)
    (hfile' : t.files.readText other = .ok text') (hparse' : Reader.parse text' = .ok others)
    (hfinite' : ∀ form ∈ others, form.All Atom.IsFinite) (limit limit' : Option Nat)
    (input input' : ByteArray) :
    let dump := execute s limit input (.dump path)
    let dump' := execute t limit' input' (.dump other)
    (dump.status = 0 ∧ dump'.status = 0) ∧ (dump.shown = dump'.shown ↔ forms = others) := by
  have hdata := Reader.all_isData hparse hfinite
  have hdata' := Reader.all_isData hparse' hfinite'
  intro dump dump'
  have hdump : dump = _ := execute_dump hfile hparse hdata limit input
  have hdump' : dump' = _ := execute_dump hfile' hparse' hdata' limit' input'
  rw [hdump, hdump']
  refine ⟨⟨rfl, rfl⟩, fun hshown => ?_, fun hforms => hforms ▸ rfl⟩
  have hproper {fs : List Node} (h : ∀ f ∈ fs, f.All Atom.IsData) :
      (Json.array (Node.documents fs)).IsProper :=
    .array (Node.isProper_documents fun f hf => Node.isProper_document (h f hf))
  have hpretty := (String.append_left_inj "\n").1 hshown
  have hdocuments : Node.documents forms = Node.documents others := by
    simpa using (hproper hdata).pretty_inj (hproper hdata') hpretty
  exact Node.documents_inj
    (fun f hf g hg => Node.document_inj (hdata f hf) (hdata' g hg)) hdocuments

end Texts

def fileWith (text : String) : Setting := ⟨⟨fun _ => .ok text, fun _ => .ok []⟩, ⟨false⟩, 0⟩

def zeroForms (negative : Bool) : List Node :=
  [.list [.string "\"" ⟨1, 5⟩, .number (Number.ofMagnitude negative (Number.nearest 0 1)) ⟨6, 8⟩]
    ⟨0, 9⟩]

theorem zeroForms_finite (negative : Bool) :
    ∀ form ∈ zeroForms negative, form.All Atom.IsFinite := by
  have hzero : (Number.ofMagnitude negative (Number.nearest 0 1)).isFinite = true := by
    cases negative <;> decide +kernel
  exact List.forall_mem_singleton.2 (.list (List.forall_mem_cons.2 ⟨.atom trivial,
    List.forall_mem_singleton.2 (.atom hzero)⟩))

theorem parse_zeroForms {text : String} {negative : Bool} {run : List Char}
    (hblank : Text.allBlank text.toList = false)
    (htokens : Token.scan text.toList = [⟨.opening, 0, 1⟩, ⟨.string ['\\', '"'], 1, 5⟩,
      ⟨.word run, 6, 8⟩, ⟨.closing, 8, 9⟩])
    (hrun : Reader.Stands run (.number (Number.ofMagnitude negative (Number.nearest 0 1)))) :
    Reader.parse text = .ok (zeroForms negative) := by
  have hquote : Text.Quoted.Denotes ['\\', '"'] ['"'] := .escape .quote .nil
  rw [Reader.parse, hblank, if_neg Bool.false_ne_true, htokens]
  exact (Reader.Brackets.list (.string hquote (.word hrun .nil)) .nil).formsOf_eq _

theorem dump_tells_zeros :
    let text := "(\"\\\"\" -0)"
    let text' := "(\"\\\"\" 00)"
    (Reader.parse text = .ok (zeroForms true) ∧
      (∀ form ∈ zeroForms true, form.All Atom.IsFinite) ∧
      Reader.parse text' = .ok (zeroForms false) ∧
      ∀ form ∈ zeroForms false, form.All Atom.IsFinite) ∧
    (execute (fileWith text) none .empty (.dump "a.lisp")).shown ≠
      (execute (fileWith text') none .empty (.dump "a.lisp")).shown := by
  intro text text'
  have hzero : Number.AllDigits ['0'] := Number.allDigits_zeros 1
  have hzeros : Number.AllDigits ['0', '0'] := Number.allDigits_zeros 2
  have hminus : Reader.Stands ['-', '0'] _ :=
    .number true (List.cons_ne_nil '0' []) hzero (List.forall_mem_nil _)
  have hplain : Reader.Stands ['0', '0'] _ :=
    .number false (List.cons_ne_nil '0' ['0']) hzeros (List.forall_mem_nil _)
  have hparse : Reader.parse text = .ok (zeroForms true) :=
    parse_zeroForms (by decide) (by decide +kernel) hminus
  have hparse' : Reader.parse text' = .ok (zeroForms false) :=
    parse_zeroForms (by decide) (by decide +kernel) hplain
  have hfinite := zeroForms_finite
  refine ⟨⟨hparse, hfinite true, hparse', hfinite false⟩, fun hshown => ?_⟩
  have hfile (text : String) : (fileWith text).files.readText "a.lisp" = .ok text := rfl
  obtain ⟨-, htells⟩ := dump_tells_forms (hfile text) hparse (hfinite true) (hfile text') hparse'
    (hfinite false) none none .empty .empty
  have hforms := htells.1 hshown
  have hbits : (Number.ofMagnitude true (Number.nearest 0 1)).toBits ≠
      (Number.ofMagnitude false (Number.nearest 0 1)).toBits := by decide +kernel
  simp only [zeroForms, List.cons.injEq, Node.list.injEq, Node.atom.injEq, Atom.number.injEq,
    and_true, true_and] at hforms
  exact hbits (congrArg Float.toBits hforms)

end CommandLine

end MacroLisp
