import MacroLisp.Json
import MacroLisp.Proofs.Number.Document

/-!
# Documents are told apart by their texts

A document is determined by how it is written, together with what follows it, if what follows does
not go on with a number. The first character tells what sort of document it is. An escaped character
shows where it ends and never begins with a quote, so a string ends at its quote; a number ends
before the first character that numbers do not have; and inside an array or an object a comma stands
before every entry but the first, and a line break before the closing bracket.
-/

namespace MacroLisp.Json

open Number (inNumber)

/-- What is written can be told from the beginning of a text. -/
def PrefixFree {α : Type} (f : α → List Char) : Prop :=
  ∀ x y r s, f x ++ r = f y ++ s → x = y ∧ r = s

section Strings

def hexValue (c : Char) : Nat := if c.isDigit then c.toNat - '0'.toNat else c.toNat - 'a'.toNat + 10

def ofShortEscape : Char → Char
  | 'b' => Char.ofNat 0x08
  | 'f' => Char.ofNat 0x0C
  | 'n' => '\n'
  | 'r' => '\r'
  | 't' => '\t'
  | c => c

def escaped? : List Char → Option (Char × List Char)
  | 'u' :: _ :: _ :: high :: low :: cs =>
    some (Char.ofNat (16 * hexValue high + hexValue low), cs)
  | c :: cs => some (ofShortEscape c, cs)
  | [] => none

def unescape? : List Char → Option (Char × List Char)
  | [] => none
  | c :: cs => if c = '\\' then escaped? cs else some (c, cs)

theorem hexValue_hexDigit : ∀ n < 16, hexValue (hexDigit n) = n := by decide

theorem unescape?_escape (c : Char) (rest : List Char) :
    unescape? (escape c ++ rest) = some (c, rest) := by
  have hc : Char.ofNat c.toNat = c := Char.ofNat_toNat c
  unfold escape
  split_ifs with hquote hslash hbackspace hfeed hline hreturn htab hcontrol
  · rw [hquote]
    rfl
  · rw [hslash]
    rfl
  · rw [← hc, hbackspace]
    rfl
  · rw [← hc, hfeed]
    rfl
  · rw [hline]
    rfl
  · rw [hreturn]
    rfl
  · rw [htab]
    rfl
  · have hhigh := hexValue_hexDigit (c.toNat / 16) (by omega)
    have hlow := hexValue_hexDigit (c.toNat % 16) (by omega)
    show some (Char.ofNat (16 * hexValue (hexDigit (c.toNat / 16)) +
      hexValue (hexDigit (c.toNat % 16))), rest) = _
    rw [hhigh, hlow, Nat.div_add_mod, hc]
  · rw [List.singleton_append, unescape?, if_neg hslash]

theorem prefixFree_escape : PrefixFree escape := by
  intro c d r s h
  have hread := congrArg unescape? h
  rw [unescape?_escape, unescape?_escape] at hread
  exact Prod.mk.inj (Option.some.inj hread)

theorem escape_append_ne (c : Char) (r s : List Char) : escape c ++ r ≠ '"' :: s := by
  intro h
  have hread := congrArg unescape? h
  rw [unescape?_escape] at hread
  obtain ⟨rfl, rfl⟩ := Prod.mk.inj (Option.some.inj hread)
  exact absurd (List.cons.inj h).1 (by decide)

theorem escaped_inj {cs ds r s : List Char}
    (h : cs.flatMap escape ++ '"' :: r = ds.flatMap escape ++ '"' :: s) : cs = ds ∧ r = s := by
  induction cs generalizing ds with
  | nil =>
    cases ds with
    | nil => exact ⟨rfl, (List.cons.inj h).2⟩
    | cons d ds =>
      rw [List.flatMap_cons, List.append_assoc] at h
      exact absurd h.symm (escape_append_ne d _ r)
  | cons c cs ih =>
    rw [List.flatMap_cons, List.append_assoc] at h
    cases ds with
    | nil => exact absurd h (escape_append_ne c _ s)
    | cons d ds =>
      rw [List.flatMap_cons, List.append_assoc] at h
      obtain ⟨rfl, hrest⟩ := prefixFree_escape c d _ _ h
      obtain ⟨rfl, hr⟩ := ih hrest
      exact ⟨rfl, hr⟩

theorem prefixFree_quoted : PrefixFree quoted := by
  intro x y r s h
  simp only [quoted, List.cons_append, List.append_assoc, List.nil_append] at h
  obtain ⟨hchars, hrest⟩ := escaped_inj (List.cons.inj h).2
  exact ⟨String.toList_inj.1 hchars, hrest⟩

end Strings

section Entries

/-- The text does not go on with a number. -/
def EndsNumber (rest : List Char) : Prop := ∀ c cs, rest = c :: cs → inNumber c = false

theorem endsNumber_cons {c : Char} (h : inNumber c = false) (cs : List Char) :
    EndsNumber (c :: cs) := by
  intro d ds heq
  rwa [← (List.cons.inj heq).1]

theorem number_inj {cs ds r s : List Char} (hcs : ∀ c ∈ cs, inNumber c = true)
    (hds : ∀ c ∈ ds, inNumber c = true) (hr : EndsNumber r) (hs : EndsNumber s)
    (h : cs ++ r = ds ++ s) : cs = ds ∧ r = s := by
  have htake {rest : List Char} (hrest : EndsNumber rest) : rest.takeWhile inNumber = [] := by
    cases rest with
    | nil => rfl
    | cons c rest => rw [List.takeWhile_cons, hrest c rest rfl, if_neg Bool.false_ne_true]
  have hnumber := congrArg (List.takeWhile inNumber) h
  rw [List.takeWhile_append_of_pos hcs, List.takeWhile_append_of_pos hds, htake hr, htake hs,
    List.append_nil, List.append_nil] at hnumber
  subst hnumber
  exact ⟨rfl, List.append_cancel_left h⟩

variable {α : Type}

def furtherEntries (depth : Nat) (entry : α → List Char) (xs : List α) : List Char :=
  xs.flatMap fun x => ',' :: newline depth ++ entry x

def entries (depth : Nat) (entry : α → List Char) : List α → List Char
  | [] => []
  | x :: xs =>
    newline (depth + 1) ++ entry x ++ furtherEntries (depth + 1) entry xs ++ newline depth

def writeField (depth : Nat) (field : String × Json) : List Char :=
  quoted field.1 ++ ": ".toList ++ write depth field.2

theorem writeItems_eq (depth : Nat) (items : List Json) :
    writeItems depth items = furtherEntries depth (write depth) items := by
  induction items with
  | nil => rfl
  | cons item items ih =>
    show ',' :: newline depth ++ write depth item ++ writeItems depth items = _
    rw [ih]
    rfl

theorem writeFields_eq (depth : Nat) (fields : List (String × Json)) :
    writeFields depth fields = furtherEntries depth (writeField depth) fields := by
  induction fields with
  | nil => rfl
  | cons field fields ih =>
    show ',' :: newline depth ++ quoted field.1 ++ ": ".toList ++ write depth field.2 ++
      writeFields depth fields = _
    rw [ih, furtherEntries, furtherEntries, List.flatMap_cons, writeField]
    simp only [List.append_assoc]

theorem write_array (depth : Nat) (items : List Json) :
    write depth (array items) = '[' :: entries depth (write (depth + 1)) items ++ [']'] := by
  cases items with
  | nil => rfl
  | cons item items =>
    show '[' :: newline (depth + 1) ++ write (depth + 1) item ++ writeItems (depth + 1) items ++
      newline depth ++ [']'] = _
    rw [writeItems_eq]
    rfl

theorem write_object (depth : Nat) (fields : List (String × Json)) :
    write depth (object fields) =
      '\x7b' :: entries depth (writeField (depth + 1)) fields ++ ['\x7d'] := by
  cases fields with
  | nil => rfl
  | cons field fields =>
    show '\x7b' :: newline (depth + 1) ++ quoted field.1 ++ ": ".toList ++
      write (depth + 1) field.2 ++ writeFields (depth + 1) fields ++ newline depth ++ ['\x7d'] = _
    rw [writeFields_eq, entries, writeField]
    simp only [List.cons_append, List.append_assoc]

/-- The two are written differently, or are the same. -/
def Apart (f : α → List Char) (x y : α) : Prop :=
  ∀ r s, EndsNumber r → EndsNumber s → f x ++ r = f y ++ s → x = y ∧ r = s

theorem endsNumber_furtherEntries (depth : Nat) (entry : α → List Char) (xs : List α)
    (rest : List Char) : EndsNumber (furtherEntries depth entry xs ++ '\n' :: rest) := by
  cases xs with
  | nil => exact endsNumber_cons (by decide) rest
  | cons x xs => exact endsNumber_cons (by decide) _

variable {depth : Nat} {entry : α → List Char} {xs ys : List α} {r s : List Char}

theorem furtherEntries_inj (hapart : ∀ x ∈ xs, ∀ y ∈ ys, Apart entry x y)
    (h : furtherEntries depth entry xs ++ '\n' :: r = furtherEntries depth entry ys ++ '\n' :: s) :
    xs = ys ∧ r = s := by
  have hcomma : ',' ≠ '\n' := by decide
  induction xs generalizing ys with
  | nil =>
    cases ys with
    | nil => exact ⟨rfl, (List.cons.inj h).2⟩
    | cons y ys => exact absurd (List.cons.inj h).1.symm hcomma
  | cons x xs ih =>
    cases ys with
    | nil => exact absurd (List.cons.inj h).1 hcomma
    | cons y ys =>
      obtain ⟨hx, hxs⟩ := List.forall_mem_cons.1 hapart
      simp only [furtherEntries, List.flatMap_cons, List.append_assoc] at h
      obtain ⟨rfl, hrest⟩ := hx y List.mem_cons_self _ _
        (endsNumber_furtherEntries depth entry xs r) (endsNumber_furtherEntries depth entry ys s)
        (List.append_cancel_left h)
      obtain ⟨rfl, hr⟩ := ih (fun x hx y hy => hxs x hx y (List.mem_cons_of_mem _ hy)) hrest
      exact ⟨rfl, hr⟩

/-- Between brackets, entries that are told apart are told from what follows. -/
theorem entries_inj {close : Char} (hclose : close ≠ '\n')
    (hapart : ∀ x ∈ xs, ∀ y ∈ ys, Apart entry x y)
    (h : entries depth entry xs ++ close :: r = entries depth entry ys ++ close :: s) :
    xs = ys ∧ r = s := by
  have hline (depth : Nat) (rest : List Char) :
      newline depth ++ rest = '\n' :: (List.replicate (2 * depth) ' ' ++ rest) := rfl
  cases xs with
  | nil =>
    cases ys with
    | nil => exact ⟨rfl, (List.cons.inj h).2⟩
    | cons y ys => exact absurd (List.cons.inj h).1 hclose
  | cons x xs =>
    cases ys with
    | nil => exact absurd (List.cons.inj h).1.symm hclose
    | cons y ys =>
      obtain ⟨hx, hxs⟩ := List.forall_mem_cons.1 hapart
      simp only [entries, List.append_assoc] at h
      have hfirst := List.append_cancel_left h
      rw [hline depth, hline depth] at hfirst
      obtain ⟨rfl, hrest⟩ := hx y List.mem_cons_self _ _ (endsNumber_furtherEntries _ entry xs _)
        (endsNumber_furtherEntries _ entry ys _) hfirst
      obtain ⟨rfl, hlast⟩ :=
        furtherEntries_inj (fun x hx y hy => hxs x hx y (List.mem_cons_of_mem _ hy)) hrest
      exact ⟨rfl, (List.cons.inj (List.append_cancel_left hlast)).2⟩

end Entries

section Documents

/-- Every number has the characters of a number, and one at least. -/
inductive IsProper : Json → Prop where
  | null : IsProper null
  | bool (value : Bool) : IsProper (bool value)
  | number {digits : List Char} (hne : digits ≠ []) (h : ∀ c ∈ digits, inNumber c = true) :
      IsProper (number digits)
  | string (value : String) : IsProper (string value)
  | array {items : List Json} (h : ∀ item ∈ items, IsProper item) : IsProper (array items)
  | object {fields : List (String × Json)} (h : ∀ field ∈ fields, IsProper field.2) :
      IsProper (object fields)

/-- A character that a document of the same sort may begin with. -/
def lead : Json → Char
  | null => 'n'
  | bool _ => 't'
  | number _ => '0'
  | string _ => '"'
  | array _ => '['
  | object _ => '\x7b'

def leadOf (c : Char) : Char := if inNumber c then '0' else if c = 'f' then 't' else c

variable {j k : Json} {depth : Nat} {r s : List Char}

theorem IsProper.exists_lead (h : j.IsProper) (depth : Nat) :
    ∃ c cs, write depth j = c :: cs ∧ leadOf c = j.lead := by
  cases h with
  | null => exact ⟨'n', _, rfl, rfl⟩
  | bool value =>
    cases value with
    | true => exact ⟨'t', _, rfl, rfl⟩
    | false => exact ⟨'f', _, rfl, rfl⟩
  | number hne h =>
    obtain ⟨c, cs, rfl⟩ := List.exists_cons_of_ne_nil hne
    exact ⟨c, cs, rfl, by rw [leadOf, if_pos (h c List.mem_cons_self), lead]⟩
  | string value => exact ⟨'"', _, rfl, rfl⟩
  | array h => exact ⟨'[', _, write_array depth _, rfl⟩
  | object h => exact ⟨'\x7b', _, write_object depth _, rfl⟩

theorem lead_eq (hj : j.IsProper) (hk : k.IsProper) (h : write depth j ++ r = write depth k ++ s) :
    j.lead = k.lead := by
  obtain ⟨c, cs, hwrite, hc⟩ := hj.exists_lead depth
  obtain ⟨d, ds, hwrite', hd⟩ := hk.exists_lead depth
  rw [hwrite, hwrite'] at h
  rw [← hc, ← hd, (List.cons.inj h).1]

theorem bool_inj {a b : Bool} (h : write depth (bool a) ++ r = write depth (bool b) ++ s) :
    a = b ∧ r = s := by
  have hletter : 't' ≠ 'f' := by decide
  cases a <;> cases b
  · exact ⟨rfl, List.append_cancel_left h⟩
  · exact absurd (List.cons.inj h).1.symm hletter
  · exact absurd (List.cons.inj h).1 hletter
  · exact ⟨rfl, List.append_cancel_left h⟩

/-- The key and the value of a field are told from what follows if the value is. -/
theorem apart_field {field other : String × Json}
    (h : Apart (write depth) field.2 other.2) : Apart (writeField depth) field other := by
  intro r s hr hs heq
  simp only [writeField, List.append_assoc] at heq
  obtain ⟨hkey, hrest⟩ := prefixFree_quoted _ _ _ _ heq
  obtain ⟨hvalue, hrest⟩ := h r s hr hs (List.append_cancel_left hrest)
  exact ⟨Prod.ext hkey hvalue, hrest⟩

theorem apart_array {items others : List Json}
    (h : ∀ item ∈ items, ∀ other ∈ others, Apart (write (depth + 1)) item other) :
    Apart (write depth) (array items) (array others) := by
  intro r s _ _ heq
  rw [write_array, write_array] at heq
  simp only [List.cons_append, List.append_assoc, List.nil_append] at heq
  obtain ⟨rfl, hrest⟩ := entries_inj (by decide) h (List.cons.inj heq).2
  exact ⟨rfl, hrest⟩

theorem apart_object {fields others : List (String × Json)}
    (h : ∀ field ∈ fields, ∀ other ∈ others, Apart (write (depth + 1)) field.2 other.2) :
    Apart (write depth) (object fields) (object others) := by
  intro r s _ _ heq
  rw [write_object, write_object] at heq
  simp only [List.cons_append, List.append_assoc, List.nil_append] at heq
  obtain ⟨rfl, hrest⟩ := entries_inj (by decide)
    (fun field hfield other hother => apart_field (h field hfield other hother))
    (List.cons.inj heq).2
  exact ⟨rfl, hrest⟩

/-- Only documents of the same sort have to be told apart by what follows the first character. -/
theorem IsProper.apart_of_lead (hj : j.IsProper) (hk : k.IsProper)
    (h : j.lead = k.lead → Apart (write depth) j k) : Apart (write depth) j k :=
  fun r s hr hs heq => h (lead_eq hj hk heq) r s hr hs heq

theorem IsProper.apart (hj : j.IsProper) (hk : k.IsProper) (depth : Nat) :
    Apart (write depth) j k := by
  induction hj generalizing k depth with
  | null =>
    refine IsProper.null.apart_of_lead hk fun hlead => ?_
    cases hk with
    | null => exact fun r s _ _ h => ⟨rfl, List.append_cancel_left h⟩
    | _ => simp [lead] at hlead
  | bool a =>
    refine (IsProper.bool a).apart_of_lead hk fun hlead => ?_
    cases hk with
    | bool b => exact fun r s _ _ h => (bool_inj h).imp_left (congrArg Json.bool)
    | _ => simp [lead] at hlead
  | number hne hdigits =>
    refine (IsProper.number hne hdigits).apart_of_lead hk fun hlead => ?_
    cases hk with
    | number _ hothers =>
      exact fun r s hr hs h => (number_inj hdigits hothers hr hs h).imp_left (congrArg Json.number)
    | _ => simp [lead] at hlead
  | string a =>
    refine (IsProper.string a).apart_of_lead hk fun hlead => ?_
    cases hk with
    | string b =>
      exact fun r s _ _ h => (prefixFree_quoted a b r s h).imp_left (congrArg Json.string)
    | _ => simp [lead] at hlead
  | array hitems ih =>
    refine (IsProper.array hitems).apart_of_lead hk fun hlead => ?_
    cases hk with
    | array hothers =>
      exact apart_array fun item hitem other hother =>
        ih item hitem (hothers other hother) (depth + 1)
    | _ => simp [lead] at hlead
  | object hfields ih =>
    refine (IsProper.object hfields).apart_of_lead hk fun hlead => ?_
    cases hk with
    | object hothers =>
      exact apart_object fun field hfield other hother =>
        ih field hfield (hothers other hother) (depth + 1)
    | _ => simp [lead] at hlead

/-- Documents with the same text are the same. -/
theorem IsProper.pretty_inj (hj : j.IsProper) (hk : k.IsProper) (h : j.pretty = k.pretty) :
    j = k := by
  have hends : EndsNumber [] := fun c cs heq => by cases heq
  have hchars := congrArg String.toList h
  rw [pretty, pretty, String.toList_ofList, String.toList_ofList] at hchars
  exact (hj.apart hk 0 [] [] hends hends (congrArg (· ++ []) hchars)).1

end Documents

end MacroLisp.Json
