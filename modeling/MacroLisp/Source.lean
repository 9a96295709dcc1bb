/-!
# Spans and sources

A span is a range of byte offsets into a text. `join` is the smallest span that covers two given
ones, and `extent` is the length shown under a label, which is never zero. A source is a named text.
Offsets count UTF-8 bytes, so the length of a text is its byte size.
-/

namespace MacroLisp

structure Span where
  start : Nat
  stop : Nat
deriving DecidableEq, Inhabited

namespace Span

def join (a b : Span) : Span := ⟨min a.start b.start, max a.stop b.stop⟩

/-- An empty or inverted span is labelled as one byte wide. -/
def extent (s : Span) : Nat := if s.start < s.stop then s.stop - s.start else 1

end Span

structure Source where
  name : String
  text : String
deriving DecidableEq, Inhabited

namespace Source

def size (s : Source) : Nat := s.text.utf8ByteSize

def whole (s : Source) : Span := ⟨0, s.size⟩

def Contains (s : Source) (span : Span) : Prop := span.start ≤ s.size ∧ span.stop ≤ s.size

theorem contains_whole (s : Source) : s.Contains s.whole := ⟨Nat.zero_le _, Nat.le_refl _⟩

end Source

def byteLength : List Char → Nat
  | [] => 0
  | c :: cs => c.utf8Size + byteLength cs

@[simp] theorem byteLength_nil : byteLength [] = 0 := rfl

@[simp] theorem byteLength_cons (c : Char) (cs : List Char) :
    byteLength (c :: cs) = c.utf8Size + byteLength cs := rfl

@[simp] theorem byteLength_append (cs ds : List Char) :
    byteLength (cs ++ ds) = byteLength cs + byteLength ds := by
  induction cs with
  | nil => simp
  | cons c cs ih => simp [ih, Nat.add_assoc]

theorem byteLength_eq_zero_iff {cs : List Char} : byteLength cs = 0 ↔ cs = [] := by
  cases cs with
  | nil => simp
  | cons c cs =>
    have hpos := c.utf8Size_pos
    simp only [byteLength_cons, reduceCtorEq, iff_false]
    omega

/-- A text is cut in one way only at a given number of bytes. -/
theorem append_inj_of_byteLength {cs cs' ds ds' : List Char} (h : cs ++ ds = cs' ++ ds')
    (hlength : byteLength cs = byteLength cs') : cs = cs' ∧ ds = ds' := by
  rcases List.append_eq_append_iff.1 h with ⟨more, rfl, rfl⟩ | ⟨more, rfl, rfl⟩
  all_goals
    obtain rfl : more = [] := byteLength_eq_zero_iff.1 (by rw [byteLength_append] at hlength; omega)
    simp

theorem utf8ByteSize_ofList (cs : List Char) :
    (String.ofList cs).utf8ByteSize = byteLength cs := by
  induction cs with
  | nil => simp
  | cons c cs ih =>
    rw [show c :: cs = [c] ++ cs from rfl, String.ofList_append, String.utf8ByteSize_append, ih,
      ← String.singleton_eq_ofList, String.utf8ByteSize_singleton]
    simp

theorem byteLength_toList (s : String) : byteLength s.toList = s.utf8ByteSize := by
  rw [← utf8ByteSize_ofList, String.ofList_toList]

end MacroLisp
