import BindingCompiler.Problem

/-!
Results of steps taken one after the other: the first failure is the failure of all of them.
-/

namespace BindingCompiler

section Steps

variable {ε δ α β : Type}

theorem ok_bind (a : α) (f : α → Except ε β) : (Except.ok a >>= f) = f a := rfl

theorem error_bind (e : ε) (f : α → Except ε β) : (Except.error e >>= f) = .error e := rfl

theorem ok_mapError (a : α) (f : ε → δ) : (Except.ok a).mapError f = .ok a := rfl

theorem exists_of_bind_eq_ok {x : Except ε α} {f : α → Except ε β} {b : β}
    (h : x >>= f = .ok b) : ∃ a, x = .ok a ∧ f a = .ok b := by
  cases x with
  | error e => cases h
  | ok a => exact ⟨a, rfl, h⟩

theorem eq_ok_of_mapError_eq_ok {x : Except ε α} {f : ε → δ} {a : α}
    (h : x.mapError f = .ok a) : x = .ok a := by
  cases x with
  | error e => cases h
  | ok b =>
      cases h
      rfl

/-- Where a run of steps fails, all steps in front of some step succeed and that step fails. -/
theorem foldlM_eq_error_iff {f : β → α → Except ε β} {xs : List α} {b : β} {e : ε} :
    xs.foldlM f b = .error e ↔ ∃ before x after b', xs = before ++ x :: after ∧
      before.foldlM f b = .ok b' ∧ f b' x = .error e := by
  constructor
  · intro h
    induction xs generalizing b with
    | nil => cases h
    | cons x xs ih =>
        rw [List.foldlM_cons] at h
        cases hx : f b x with
        | error failure =>
            rw [hx, error_bind] at h
            cases h
            exact ⟨[], x, xs, b, rfl, rfl, hx⟩
        | ok b' =>
            rw [hx, ok_bind] at h
            obtain ⟨before, y, after, last, rfl, hbefore, hy⟩ := ih h
            refine ⟨x :: before, y, after, last, rfl, ?_, hy⟩
            rw [List.foldlM_cons, hx, ok_bind, hbefore]
  · rintro ⟨before, x, after, b', rfl, hbefore, hx⟩
    rw [List.foldlM_append, hbefore, ok_bind, List.foldlM_cons, hx, error_bind]

end Steps

end BindingCompiler
