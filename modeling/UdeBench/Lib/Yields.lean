/-
Partial correctness with excuses, for code in `Except`: `Yields excused
x Q` says that `x` ends in a value with `Q`, or in an error that is
excused. Where the excuse is a broken assumption of the environment (an
allocator out of memory), every other error is ruled out, and so is
running out of fuel when that is an error too.

The rules follow the code: a value, a bind, a weakening.
-/
import Mathlib.Tactic.Common

namespace UdeBench

variable {ε α β : Type} {excused : ε → Prop}

/-- A value with `Q`, or an excused error. -/
def Yields (excused : ε → Prop) (x : Except ε α) (Q : α → Prop) : Prop :=
  match x with
  | .error e => excused e
  | .ok a => Q a

instance {Q : α → Prop} [DecidablePred excused] [DecidablePred Q] :
    ∀ x : Except ε α, Decidable (Yields excused x Q)
  | .ok a => inferInstanceAs (Decidable (Q a))
  | .error e => inferInstanceAs (Decidable (excused e))

theorem Yields.ok {a : α} {Q : α → Prop} (h : Q a) :
    Yields excused (.ok a) Q := h

theorem Yields.error {e : ε} {Q : α → Prop} (h : excused e) :
    Yields excused (.error e : Except ε α) Q := h

/-- What follows a step may use what the step yields. -/
theorem Yields.bind {x : Except ε α} {f : α → Except ε β} {Q : α → Prop}
    {R : β → Prop} (h : Yields excused x Q)
    (hf : ∀ a, Q a → Yields excused (f a) R) :
    Yields excused (x >>= f) R := by
  cases x with
  | error e => exact h
  | ok a => exact hf a h

theorem Yields.mono {x : Except ε α} {Q R : α → Prop}
    (h : Yields excused x Q) (hQR : ∀ a, Q a → R a) :
    Yields excused x R := by
  cases x with
  | error e => exact h
  | ok a => exact hQR a h

/-- More may be excused. -/
theorem Yields.excuse {excused' : ε → Prop} {x : Except ε α}
    {Q : α → Prop} (h : Yields excused x Q)
    (he : ∀ e, excused e → excused' e) : Yields excused' x Q := by
  cases x with
  | error e => exact he e h
  | ok a => exact h

/-- A step that ends in a value. -/
theorem ok_bind (a : α) (f : α → Except ε β) : (.ok a >>= f) = f a := rfl

/-- The value, where there is one. -/
theorem Yields.of_ok {x : Except ε α} {Q : α → Prop} {a : α}
    (h : Yields excused x Q) (hx : x = .ok a) : Q a := by
  rw [hx] at h
  exact h

/-- The error, where there is one. -/
theorem Yields.of_error {x : Except ε α} {Q : α → Prop} {e : ε}
    (h : Yields excused x Q) (hx : x = .error e) : excused e := by
  rw [hx] at h
  exact h

/-- A value of a bind comes from a value of its first part. -/
theorem bind_eq_ok {x : Except ε α} {f : α → Except ε β} {b : β}
    (h : (x >>= f) = .ok b) : ∃ a, x = .ok a ∧ f a = .ok b := by
  cases x with
  | error e => cases h
  | ok a => exact ⟨a, rfl, h⟩

/-- And so does a part of a value. -/
theorem map_eq_ok {x : Except ε α} {f : α → β} {b : β}
    (h : x.map f = .ok b) : ∃ a, x = .ok a ∧ f a = b := by
  cases x with
  | error e => cases h
  | ok a => exact ⟨a, rfl, Except.ok.inj h⟩

/-- A run that can be evaluated to the end has a value. -/
theorem exists_ok {x : Except ε α} (h : x.isOk = true) : ∃ a, x = .ok a := by
  cases x with
  | error e => cases h
  | ok a => exact ⟨a, rfl⟩

/-- A loop whose steps all end in a value. Induction on the steps. -/
theorem mapM_ok {f : α → Except ε β} {g : α → β} : ∀ {l : List α},
    (∀ a ∈ l, f a = .ok (g a)) → l.mapM f = .ok (l.map g) := by
  intro l
  induction l with
  | nil => exact fun _ => rfl
  | cons a l ih =>
      intro h
      rw [List.mapM_cons, h a List.mem_cons_self, ok_bind,
        ih fun b hb => h b (List.mem_cons_of_mem _ hb), ok_bind]
      rfl

end UdeBench
