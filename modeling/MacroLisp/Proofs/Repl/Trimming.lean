import MacroLisp.Proofs.Engine.Splitting
import MacroLisp.Proofs.Repl.Completeness

/-!
# What trimming does to tokens

The blanks that a session drops are layout or stand in a comment, unless they are in a string
literal that goes on in the next line, or at the end of a word, of which blanks that are no layout
can be part. Without these two the trimmed text has the same tokens at other places, and so the same
forms up to spans.
-/

namespace MacroLisp

open Token
open Text (isBlank trimEnd trimLines EndsLine)

/-- No blank of the token stands at the end of a line, where a session would drop it. -/
def Lexeme.KeepsLines : Lexeme → Prop
  | .string raw => raw.IsChain fun c d => ¬ (isBlank c = true ∧ d = '\n')
  | .word run => ∀ c ∈ run.getLast?, isBlank c = false
  | .opening | .closing | .trigger _ | .unclosed => True

namespace Token

section Trimming

variable {offset : Nat} {cs rest : List Char} {tokens : List Token} {lexeme : Lexeme}

theorem endsWord_of_endsLine (h : EndsLine cs) : EndsWord cs := by
  intro c ds hcs
  obtain rfl : c = '\n' := by simpa [hcs, EndsLine] using h
  decide

theorem EndsWord.trimLines (h : EndsWord rest) : EndsWord (trimLines rest) := by
  cases rest with
  | nil => exact h
  | cons c rest =>
    by_cases hdropped : isBlank c = true ∧ EndsLine (Text.trimLines rest)
    · rw [Text.trimLines_of_blank hdropped.1 hdropped.2]
      exact endsWord_of_endsLine hdropped.2
    · rw [Text.trimLines, if_neg hdropped]
      exact endsWord_cons (h c rest rfl) _

theorem trimLines_literal {raw : List Char}
    (h : raw.IsChain fun c d => ¬ (isBlank c = true ∧ d = '\n')) :
    trimLines (raw ++ '"' :: rest) = raw ++ '"' :: trimLines rest := by
  induction raw with
  | nil => exact Text.trimLines_of_not_blank (by decide)
  | cons c raw ih =>
    have hkept : ¬ (isBlank c = true ∧ EndsLine (raw ++ '"' :: trimLines rest)) := by
      rintro ⟨hc, hends⟩
      cases raw with
      | nil => simp [EndsLine] at hends
      | cons d raw =>
        obtain rfl : d = '\n' := by simpa [EndsLine] using hends
        exact (List.isChain_cons_cons.1 h).1 ⟨hc, rfl⟩
    rw [List.cons_append, trimLines, ih h.tail, if_neg hkept, List.cons_append]

theorem trimLines_word {run : List Char} (hrun : ∀ c ∈ run, isDelimiter c = false)
    (hlast : ∀ c ∈ run.getLast?, isBlank c = false) :
    trimLines (run ++ rest) = run ++ trimLines rest := by
  induction run with
  | nil => rfl
  | cons c run ih =>
    cases run with
    | nil => exact Text.trimLines_of_not_blank (hlast c rfl)
    | cons d run =>
      have htail := ih (List.forall_mem_cons.1 hrun).2 fun e he => hlast e (by simpa using he)
      have hkept : ¬ EndsLine (trimLines (d :: run ++ rest)) := by
        rw [htail]
        rintro (hnil | hfeed)
        · cases hnil
        · obtain rfl : d = '\n' := by simpa using hfeed
          have hd := hrun '\n' (List.mem_cons_of_mem c List.mem_cons_self)
          revert hd
          decide
      rw [List.cons_append, Text.trimLines_of_not_endsLine hkept, htail]
      rfl

theorem Spells.trimLines (h : Spells lexeme cs rest) (hkeeps : lexeme.KeepsLines) :
    Text.trimLines (cs ++ rest) = cs ++ Text.trimLines rest ∧
      Spells lexeme cs (Text.trimLines rest) := by
  cases h with
  | opening => exact ⟨Text.trimLines_of_not_blank (by decide), .opening⟩
  | closing => exact ⟨Text.trimLines_of_not_blank (by decide), .closing⟩
  | trigger t => exact ⟨Text.trimLines_of_not_blank (by cases t <;> decide), .trigger t⟩
  | string h =>
    refine ⟨?_, .string h⟩
    rw [List.cons_append, List.cons_append, List.append_assoc, List.singleton_append,
      Text.trimLines_of_not_blank (by decide), trimLines_literal hkeeps]
    simp
  | word hrun hrest =>
    exact ⟨trimLines_word hrun.not_isDelimiter hkeeps, .word hrun hrest.trimLines⟩

theorem Splits.trimLines (h : Splits offset cs tokens)
    (hkeeps : ∀ token ∈ tokens, token.lexeme.KeepsLines) (start : Nat) :
    ∃ trimmed : List Token, Splits start (Text.trimLines cs) trimmed ∧
      trimmed.map Token.lexeme = tokens.map Token.lexeme := by
  induction h generalizing start with
  | done => exact ⟨[], .done start, rfl⟩
  | @layout offset cs rest tokens hcs _ ih =>
    cases hcs with
    | @blank c _ h =>
      by_cases hdropped : EndsLine (Text.trimLines rest)
      · rw [List.singleton_append, Text.trimLines_of_blank (Repl.isBlank_of_isLayout h) hdropped]
        exact ih hkeeps start
      · obtain ⟨trimmed, hsplits, hsame⟩ := ih hkeeps (start + byteLength [c])
        rw [List.singleton_append, Text.trimLines_of_not_endsLine hdropped]
        exact ⟨trimmed, .layout (.blank h) hsplits, hsame⟩
    | @comment body _ hbody hrest =>
      obtain ⟨trimmed, hsplits, hsame⟩ := ih hkeeps (start + byteLength (';' :: trimEnd body))
      have hends : EndsLine (Text.trimLines rest) := EndsLine.trimLines hrest
      refine ⟨trimmed, ?_, hsame⟩
      rw [List.cons_append, Text.trimLines_of_not_blank (by decide), Text.trimLines_append hbody hends]
      exact .layout (.comment (fun hfeed => hbody (Text.mem_of_mem_trimEnd hfeed)) hends) hsplits
  | @token offset lexeme cs rest tokens hcs _ ih =>
    obtain ⟨hlexeme, hkeeps⟩ := List.forall_mem_cons.1 hkeeps
    obtain ⟨hsame, hspells⟩ := hcs.trimLines hlexeme
    obtain ⟨trimmed, hsplits, hlexemes⟩ := ih hkeeps (start + byteLength cs)
    rw [hsame]
    exact ⟨_, .token hspells hsplits, congrArg (lexeme :: ·) hlexemes⟩

end Trimming

end Token

namespace Reader

theorem Brackets.like_of_lexemes {tokens moved : List Token} {forms : List Node} (store : Store)
    (h : Brackets tokens forms) (hsame : moved.map Token.lexeme = tokens.map Token.lexeme) :
    ∃ others, Brackets moved others ∧
      List.Forall₂ (Node.Like (Comparison.sameButSpans.likeness store)) forms others := by
  induction h generalizing moved with
  | nil =>
    obtain rfl := List.map_eq_nil_iff.1 hsame
    exact ⟨[], .nil, .nil⟩
  | @word run value span rest forms hvalue _ ih =>
    obtain ⟨⟨_, span'⟩, rest', rfl, rfl, hrest⟩ := List.map_eq_cons_iff.1 hsame
    obtain ⟨others, hothers, hlike⟩ := ih hrest
    exact ⟨_, .word hvalue hothers, .cons (.atom value.like_same fun h => h.elim) hlike⟩
  | @string raw cs span rest forms hcs _ ih =>
    obtain ⟨⟨_, span'⟩, rest', rfl, rfl, hrest⟩ := List.map_eq_cons_iff.1 hsame
    obtain ⟨others, hothers, hlike⟩ := ih hrest
    exact ⟨_, .string hcs hothers, .cons (.atom (.string _) fun h => h.elim) hlike⟩
  | @list opening closing inner rest items forms _ _ ihitems ih =>
    obtain ⟨front, back, rfl, hfront, hback⟩ := List.map_eq_append_iff.1 (hsame.trans List.map_append)
    obtain ⟨⟨_, opening'⟩, inner', rfl, rfl, hinner⟩ := List.map_eq_cons_iff.1 hfront
    obtain ⟨⟨_, closing'⟩, rest', rfl, rfl, hrest⟩ := List.map_eq_cons_iff.1 hback
    obtain ⟨items', hitems, hlikeItems⟩ := ihitems hinner
    obtain ⟨others, hothers, hlike⟩ := ih hrest
    exact ⟨_, .list hitems hothers, .cons (Node.like_list hlikeItems fun h => h.elim) hlike⟩
  | @prefixed t span rest form forms _ ih =>
    obtain ⟨⟨_, span'⟩, rest', rfl, rfl, hrest⟩ := List.map_eq_cons_iff.1 hsame
    obtain ⟨others, hothers, hlike⟩ := ih hrest
    cases hlike with
    | cons hform hlike =>
      exact ⟨_, .prefixed hothers,
        .cons (Node.like_form trivial (.cons hform .nil) fun h => h.elim) hlike⟩

/-- Accepted text whose tokens keep their lines is accepted without the blanks at line ends too, and
read as the same forms up to spans. -/
theorem parse_trimLines {text : String} {form : Node} {forms : List Node} (store : Store)
    (h : parse text = .ok (form :: forms))
    (hkeeps : ∀ token ∈ Token.scan text.toList, token.lexeme.KeepsLines) :
    ∃ others, parse (String.ofList (trimLines text.toList)) = .ok others ∧
      List.Forall₂ (Node.Like (Comparison.sameButSpans.likeness store)) (form :: forms) others := by
  have hblank := not_allBlank_of_parse h
  obtain ⟨tokens, hsplits, hforms⟩ := parse_splits hblank h
  rw [Token.scan, hsplits.scanFrom_eq] at hkeeps
  obtain ⟨trimmed, htrimmed, hsame⟩ := hsplits.trimLines hkeeps 0
  obtain ⟨others, hothers, hlike⟩ := hforms.like_of_lexemes store hsame
  refine ⟨others, parse_of_splits ?_ ?_ hothers, hlike⟩
  · rw [String.toList_ofList, Text.allBlank_trimLines, hblank]
  · rwa [String.toList_ofList]

end Reader

end MacroLisp
