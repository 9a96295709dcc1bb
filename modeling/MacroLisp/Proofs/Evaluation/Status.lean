import MacroLisp.Proofs.Evaluation.Convergence

/-!
# Computations without their results

What a computation leaves behind apart from its result: whether it succeeds, the fault it fails
with, and the state it ends in. `Eval.dropped` is the computation with its result dropped, so that
computations with results of different types can be compared.
-/

namespace MacroLisp

namespace Outcome

variable {α : Type}

/-- Success, whatever the value is, or the fault. -/
def status (o : Outcome α) : Outcome Unit := o.map fun _ => ()

theorem status_eq_value {o : Outcome α} (h : o.status = .value ()) : ∃ a, o = .value a := by
  cases o with
  | value a => exact ⟨a, rfl⟩
  | fault f => cases h
  | unfinished => cases h

theorem finished_status {o : Outcome α} : o.status.Finished ↔ o.Finished := by
  cases o <;> exact Iff.rfl

theorem finished_of_status_eq {β : Type} {o : Outcome α} {o' : Outcome β}
    (h : o.status = o'.status) (hfin : o.Finished) : o'.Finished :=
  finished_status.1 (h ▸ finished_status.2 hfin)

end Outcome

namespace Eval

variable {α β : Type}

def dropped (x : Eval α) : Eval Unit := do
  let _ ← x
  pure ()

theorem dropped_apply (x : Eval α) (s : EvalState) : x.dropped s = ((x s).1.status, (x s).2) := by
  unfold dropped
  rw [bind_apply]
  rcases x s with ⟨_ | _ | _, _⟩ <;> rfl

theorem bind_eq_value {x : Eval α} {f : α → Eval β} {b : β} {s u : EvalState}
    (h : (x >>= f) s = (.value b, u)) :
    ∃ a t, x s = (.value a, t) ∧ f a t = (.value b, u) := by
  rw [bind_apply] at h
  rcases hx : x s with ⟨a | e | _, t⟩ <;> rw [hx] at h
  · exact ⟨a, t, rfl, h⟩
  · cases h
  · cases h

theorem bind_outcome_iff {x : Eval α} {f : α → Eval β} {b : β} {s : EvalState} :
    ((x >>= f) s).1 = .value b ↔ ∃ a, (x s).1 = .value a ∧ (f a (x s).2).1 = .value b := by
  rw [bind_apply]
  rcases x s with ⟨a | e | _, t⟩
  · simp
  · exact ⟨nofun, nofun⟩
  · exact ⟨nofun, nofun⟩

theorem dropped_bind (x : Eval α) (f : α → Eval β) :
    (x >>= f).dropped = x >>= fun a => (f a).dropped := by
  simp only [dropped, bind_assoc]

theorem dropped_seq {γ : Type} (x : Eval α) (y : Eval β) (g : α → β → γ) :
    (do
      let a ← x
      let b ← y
      pure (g a b) : Eval γ).dropped = x.dropped >>= fun _ => y.dropped := by
  simp only [dropped, bind_assoc, pure_bind]

theorem dropped_congr {x : Eval α} {y : Eval β} (h : x.dropped = y.dropped) (s : EvalState) :
    (x s).1.status = (y s).1.status ∧ (x s).2 = (y s).2 := by
  have hs := congrFun h s
  rw [dropped_apply, dropped_apply] at hs
  exact Prod.mk.inj hs

end Eval

end MacroLisp
