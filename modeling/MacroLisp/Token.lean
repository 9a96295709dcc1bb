import MacroLisp.Source
import MacroLisp.Text.Quoted

/-!
# Tokens

A text is layout and tokens. Layout is space, tab, line feed, carriage return, and comments, which
run from a semicolon to before the next line feed. The tokens are the parentheses, the three reader
triggers, string literals, and words, the maximal runs of other characters. `scan` lists the tokens
with their spans; a string literal that is never closed ends the list.
-/

namespace MacroLisp

inductive Trigger where
  | quote | quasiquote | unquote
deriving DecidableEq

namespace Trigger

def all : List Trigger := [.quote, .unquote, .quasiquote]

def char : Trigger → Char
  | quote => Char.ofNat 0x27
  | quasiquote => Char.ofNat 0x60
  | unquote => ','

def head : Trigger → String
  | quote => "quote"
  | quasiquote => "quasiquote"
  | unquote => "unquote"

def ofChar? (c : Char) : Option Trigger := all.find? fun t => t.char = c

theorem ofChar?_char (t : Trigger) : ofChar? t.char = some t := by cases t <;> rfl

theorem char_of_ofChar? {c : Char} {t : Trigger} (h : ofChar? c = some t) : t.char = c := by
  simpa using List.find?_some h

end Trigger

inductive Lexeme where
  | opening
  | closing
  | trigger (t : Trigger)
  /-- The contents as written between the quotes. -/
  | string (raw : List Char)
  | word (run : List Char)
  /-- The quote of a literal that the text does not close. -/
  | unclosed
deriving DecidableEq

structure Token where
  lexeme : Lexeme
  span : Span
deriving DecidableEq

namespace Token

def isLayout (c : Char) : Bool := c = ' ' || c = '\t' || c = '\r' || c = '\n'

def isDelimiter (c : Char) : Bool :=
  isLayout c || c = '(' || c = ')' || c = '"' || c = ';' || (Trigger.ofChar? c).isSome

/-- A comment ends before the line feed. -/
def inComment (c : Char) : Bool := !(c = '\n')

def isWordChar (c : Char) : Bool := !isDelimiter c

/-- The tokens of a text that begins at the given offset. -/
def scanFrom (offset : Nat) : List Char → List Token
  | [] => []
  | c :: cs =>
    if isLayout c then scanFrom (offset + c.utf8Size) cs
    else if c = ';' then
      scanFrom (offset + byteLength (c :: cs.takeWhile inComment)) (cs.dropWhile inComment)
    else if c = '(' then ⟨.opening, offset, offset + 1⟩ :: scanFrom (offset + 1) cs
    else if c = ')' then ⟨.closing, offset, offset + 1⟩ :: scanFrom (offset + 1) cs
    else if c = '"' then
      match h : Text.Quoted.close? cs with
      | none => [⟨.unclosed, offset, offset⟩]
      | some (raw, rest) =>
        let stop := offset + byteLength raw + 2
        ⟨.string raw, offset, stop⟩ :: scanFrom stop rest
    else
      match Trigger.ofChar? c with
      | some t => ⟨.trigger t, offset, offset + 1⟩ :: scanFrom (offset + 1) cs
      | none =>
        let run := c :: cs.takeWhile isWordChar
        let stop := offset + byteLength run
        ⟨.word run, offset, stop⟩ :: scanFrom stop (cs.dropWhile isWordChar)
termination_by cs => cs.length
decreasing_by
  all_goals simp_wf
  all_goals try have := (List.dropWhile_sublist (l := cs) isWordChar).length_le
  all_goals try have := (List.dropWhile_sublist (l := cs) inComment).length_le
  all_goals try have := Text.Quoted.close?_length_lt h
  all_goals omega

def scan (cs : List Char) : List Token := scanFrom 0 cs

end Token

end MacroLisp
