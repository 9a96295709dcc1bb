import MacroLisp.Proofs.Reader.Beginning
import MacroLisp.Proofs.Spans.Node

/-!
# The reader's spans

The tokens of a text lie within its length, and the reader makes the spans of its forms, and of what
it complains of, out of those of the tokens. So a form that was read lies within the length of its
source, and a text that cannot be read is complained of at a span of its own.
-/

namespace MacroLisp

open Reader

theorem Token.scanFrom_within (offset : Nat) (cs : List Char) :
    ∀ token ∈ scanFrom offset cs, token.span.Within (offset + byteLength cs) := by
  obtain ⟨before, rest, tokens, rfl, hleads, hstuck⟩ := leadsOn offset cs
  rw [hleads.scanFrom_append, byteLength_append]
  refine List.forall_mem_append.2 ⟨fun token htoken => ?_, ?_⟩
  · obtain ⟨hstart, hlt, hstop⟩ := hleads.span_bounds token htoken
    constructor <;> omega
  · cases hstuck with
    | done =>
      rw [scanFrom_nil]
      exact List.forall_mem_nil _
    | unclosed hclose =>
      rw [scanFrom_unclosed _ hclose]
      refine List.forall_mem_singleton.2 ?_
      constructor <;> dsimp only <;> omega

variable {n : Nat}

/-- What waits for forms began within the length, and so did the forms that it has. -/
def Reader.Pending.Within (n : Nat) : Pending → Prop
  | .list start items => start ≤ n ∧ ∀ item ∈ items, item.Within n
  | .trigger _ start => start ≤ n

structure Reader.Progress.Within (n : Nat) (p : Progress) : Prop where
  pending : ∀ waiting ∈ p.pending, waiting.Within n
  forms : ∀ form ∈ p.forms, form.Within n

theorem Node.within_ofWord (run : List Char) {s : Span} (h : s.Within n) :
    (Node.ofWord run s).Within n := by
  unfold Node.ofWord
  split
  · exact .atom h
  · split
    · exact .atom h
    · split
      · exact .atom h
      · split <;> exact .atom h

namespace Reader

theorem place_within {forms : List Node} (hforms : ∀ form ∈ forms, form.Within n) :
    ∀ {pending : List Pending} {node : Node}, node.Within n →
      (∀ waiting ∈ pending, waiting.Within n) → (place forms node pending).Within n
  | [], _, hnode, _ => ⟨nofun, List.forall_mem_cons.2 ⟨hnode, hforms⟩⟩
  | .list _ _ :: _, _, hnode, hpending => by
    obtain ⟨⟨hstart, hitems⟩, hpending⟩ := List.forall_mem_cons.1 hpending
    exact ⟨List.forall_mem_cons.2 ⟨⟨hstart, List.forall_mem_cons.2 ⟨hnode, hitems⟩⟩, hpending⟩,
      hforms⟩
  | .trigger _ _ :: _, _, hnode, hpending => by
    obtain ⟨hstart, hpending⟩ := List.forall_mem_cons.1 hpending
    rw [place]
    exact place_within hforms
      (Node.within_form (List.forall_mem_singleton.2 hnode) ⟨hstart, hnode.span.2⟩) hpending

namespace Progress

theorem take_within {p : Progress} (h : p.Within n) {token : Token} (htoken : token.span.Within n) :
    Checked (·.Within [.parse] n) (·.Within n) (p.take token) := by
  have hrefuse : (p.refuse token.span.start).Within [.parse] n :=
    ⟨List.mem_singleton.2 rfl, htoken.1, htoken.1⟩
  unfold take
  cases token.lexeme with
  | opening => exact ⟨List.forall_mem_cons.2 ⟨⟨htoken.1, nofun⟩, h.pending⟩, h.forms⟩
  | trigger t => exact ⟨List.forall_mem_cons.2 ⟨htoken.1, h.pending⟩, h.forms⟩
  | string raw => exact place_within h.forms (.atom htoken) h.pending
  | word run => exact place_within h.forms (Node.within_ofWord run htoken) h.pending
  | unclosed => exact hrefuse
  | closing =>
    dsimp only
    split
    · next start items pending hp =>
      have hpending := h.pending
      rw [hp] at hpending
      obtain ⟨⟨hstart, hitems⟩, hpending⟩ := List.forall_mem_cons.1 hpending
      have hreverse (item : Node) (hitem : item ∈ items.reverse) : item.Within n :=
        hitems item (List.mem_reverse.1 hitem)
      exact place_within h.forms (.list hreverse ⟨hstart, htoken.2⟩) hpending
    · exact hrefuse

theorem takeAll_within {p : Progress} (h : p.Within n) :
    ∀ {tokens : List Token}, (∀ token ∈ tokens, token.span.Within n) →
      Checked (·.Within [.parse] n) (·.Within n) (p.takeAll tokens) := by
  intro tokens htokens
  induction tokens generalizing p with
  | nil => exact h
  | cons token tokens ih =>
    obtain ⟨htoken, htokens⟩ := List.forall_mem_cons.1 htokens
    have htake := take_within h htoken
    unfold takeAll
    cases hnext : p.take token with
    | ok next =>
      rw [hnext] at htake
      exact ih htake htokens
    | error c =>
      rw [hnext] at htake
      exact htake

end Progress

theorem formsOf_within {tokens : List Token} (htokens : ∀ token ∈ tokens, token.span.Within n) :
    Checked (·.Within [.parse] n) (fun forms => ∀ form ∈ forms, form.Within n)
      (formsOf tokens n) := by
  have hall := Progress.takeAll_within (p := Progress.start) ⟨nofun, nofun⟩ htokens
  unfold formsOf
  rcases h : Progress.start.takeAll tokens with c | ⟨_ | ⟨_, _⟩, forms⟩
  · rw [h] at hall
    exact hall
  · rw [h] at hall
    exact fun form hform => hall.forms form (List.mem_reverse.1 hform)
  · exact ⟨List.mem_singleton.2 rfl, Nat.le_refl n, Nat.le_refl n⟩

theorem parse_within (text : String) :
    Checked (·.Within [.parse] text.utf8ByteSize)
      (fun forms => ∀ form ∈ forms, form.Within text.utf8ByteSize) (parse text) := by
  unfold parse
  split
  · exact nofun
  · have htokens := Token.scanFrom_within 0 text.toList
    rw [Nat.zero_add, byteLength_toList] at htokens
    exact formsOf_within htokens

theorem single_within {source : Source} {forms : List Node}
    (h : ∀ form ∈ forms, form.Within source.size) :
    Checked (·.Within [.parse] source.size) (·.Within source.size) (single source forms) := by
  match forms with
  | [] => exact ⟨List.mem_singleton.2 rfl, source.contains_whole⟩
  | [form] => exact h form List.mem_cons_self
  | _ :: next :: rest =>
    have hnext : next.Within source.size := h next (by simp)
    have hlast : ((next :: rest).getLast (by simp)).Within source.size :=
      h _ (List.mem_cons_of_mem _ (List.getLast_mem _))
    exact ⟨List.mem_singleton.2 rfl, Span.within_join hnext.span hlast.span⟩

variable {source : Source}

/-- The forms of a source lie within its length. -/
theorem read_within {forms : List Node} (h : read source = .ok forms) :
    ∀ form ∈ forms, form.Within source.size :=
  (parse_within source.text).of_inSource_ok h

theorem read_error {f : Fault} (h : read source = .error f) :
    ∃ c : Complaint, f = c.inSource source ∧ c.Within [.parse] source.size :=
  (parse_within source.text).of_inSource_error h

theorem readOne_error {f : Fault} (h : readOne source = .error f) :
    ∃ c : Complaint, f = c.inSource source ∧ c.Within [.parse] source.size := by
  unfold readOne at h
  cases hforms : read source with
  | ok forms =>
    rw [hforms] at h
    exact (single_within (read_within hforms)).of_inSource_error h
  | error fault =>
    rw [hforms] at h
    cases h
    exact read_error hforms

end Reader

end MacroLisp
