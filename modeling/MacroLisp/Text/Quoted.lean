/-!
# Quoted strings

`encode` writes the characters of a string between its quotes: a quote, a backslash, a line feed
and a tab are escaped and every other character stands for itself. `decode` reads such contents
back; it leaves a pair of a backslash and any other character as it stands, so it is total, and it
undoes `encode`.
-/

namespace MacroLisp.Text.Quoted

def encode : List Char → List Char
  | [] => []
  | '"' :: cs => '\\' :: '"' :: encode cs
  | '\\' :: cs => '\\' :: '\\' :: encode cs
  | '\n' :: cs => '\\' :: 'n' :: encode cs
  | '\t' :: cs => '\\' :: 't' :: encode cs
  | c :: cs => c :: encode cs

def decode : List Char → List Char
  | [] => []
  | '\\' :: 'n' :: cs => '\n' :: decode cs
  | '\\' :: 't' :: cs => '\t' :: decode cs
  | '\\' :: '\\' :: cs => '\\' :: decode cs
  | '\\' :: '"' :: cs => '"' :: decode cs
  | '\\' :: c :: cs => '\\' :: c :: decode cs
  | c :: cs => c :: decode cs

/-- The text up to the first quote that no backslash escapes, and what follows that quote. -/
def close? : List Char → Option (List Char × List Char)
  | [] => none
  | '"' :: cs => some ([], cs)
  | '\\' :: c :: cs => (close? cs).map fun r => ('\\' :: c :: r.1, r.2)
  | c :: cs => (close? cs).map fun r => (c :: r.1, r.2)

theorem decode_cons {c : Char} (h : c ≠ '\\') (cs : List Char) :
    decode (c :: cs) = c :: decode cs := by
  rw [decode.eq_def]
  split <;> simp_all

theorem close?_cons {c : Char} (hquote : c ≠ '"') (hslash : c ≠ '\\') (cs : List Char) :
    close? (c :: cs) = (close? cs).map fun r => (c :: r.1, r.2) := by
  rw [close?.eq_def]
  split <;> simp_all

theorem decode_encode (cs : List Char) : decode (encode cs) = cs := by
  fun_induction encode cs with
  | case1 => rfl
  | case2 cs ih | case3 cs ih | case4 cs ih | case5 cs ih => simp [decode, ih]
  | case6 c cs _ hslash _ _ ih => rw [decode_cons hslash, ih]

/-- The contents that `encode` writes hold no quote that closes them early. -/
theorem close?_encode (cs rest : List Char) :
    close? (encode cs ++ '"' :: rest) = some (encode cs, rest) := by
  fun_induction encode cs with
  | case1 => rfl
  | case2 cs ih | case3 cs ih | case4 cs ih | case5 cs ih => simp [close?, ih]
  | case6 c cs hquote hslash _ _ ih => simp [close?_cons hquote hslash, ih]

theorem close?_eq_append {cs body rest : List Char} (h : close? cs = some (body, rest)) :
    cs = body ++ '"' :: rest := by
  fun_induction close? cs generalizing body with
  | case1 => simp at h
  | case2 cs =>
    simp only [Option.some.injEq, Prod.mk.injEq] at h
    simp [← h.1, ← h.2]
  | case3 c cs ih | case4 c cs _ _ ih =>
    obtain ⟨⟨b, r⟩, hb, he⟩ := Option.map_eq_some_iff.1 h
    simp only [Prod.mk.injEq] at he
    obtain ⟨rfl, rfl⟩ := he
    simp [ih hb]

theorem close?_length_lt {cs body rest : List Char} (h : close? cs = some (body, rest)) :
    rest.length < cs.length := by
  rw [close?_eq_append h]
  simp
  omega

end MacroLisp.Text.Quoted
