/-
Runs of a machine given by a partial step function, with what is
observed on the way: `Runs step obs s t s'` says that from `s` the
machine steps to `s'`, and that the states it left on the way were
observed as `t`.

# Rules

`Runs.straight` runs a block that is left one instruction at a time,
under an invariant indexed by the instructions done. `Runs.countdown`
runs a loop whose counter starts at `n` and ends at zero, under an
invariant indexed by the iterations left; the trace is the body's, `n`
times over.

# Determinism

A step function has one run, and two that agree on the states a run leaves
share it (`Runs.congr`). Two runs that stop where an observation is
made for the first time are the same run (`Runs.first_unique`), so what
is true of one first arrival is true of all.
-/
import Mathlib.Tactic.Common

namespace UdeBench.Trace

variable {S O : Type} {step : S → Option S} {obs : S → O}

/-- Zero or more steps, with their observations. -/
inductive Runs (step : S → Option S) (obs : S → O) :
    S → List O → S → Prop
  | nil (s : S) : Runs step obs s [] s
  | cons {s s' s'' : S} {t : List O} (h : step s = some s')
      (r : Runs step obs s' t s'') : Runs step obs s (obs s :: t) s''

/-- One step. -/
theorem Runs.single {s s' : S} (h : step s = some s') :
    Runs step obs s [obs s] s' :=
  .cons h (.nil s')

/-- Runs compose. -/
theorem Runs.append {s s' s'' : S} {t t' : List O}
    (r : Runs step obs s t s') (r' : Runs step obs s' t' s'') :
    Runs step obs s (t ++ t') s'' := by
  induction r with
  | nil s => exact r'
  | cons h _ ih => exact .cons h (ih r')

/-- A block of `n` instructions left one at a time: the invariant says
where each one starts, and `site` what is observed there. -/
theorem Runs.straight (I : Nat → S → Prop) (site : Nat → O) (n : Nat)
    (hobs : ∀ i s, I i s → obs s = site i)
    (hstep : ∀ i, i < n → ∀ s, I i s →
      ∃ s', step s = some s' ∧ I (i + 1) s')
    {s : S} (h0 : I 0 s) :
    ∃ s', Runs step obs s ((List.range n).map site) s' ∧ I n s' := by
  induction n with
  | zero => exact ⟨s, .nil s, h0⟩
  | succ n ih =>
      obtain ⟨s₁, hr, h₁⟩ := ih fun i hi => hstep i (Nat.lt_succ_of_lt hi)
      obtain ⟨s₂, hs, h₂⟩ := hstep n (Nat.lt_succ_self n) s₁ h₁
      refine ⟨s₂, ?_, h₂⟩
      rw [List.range_succ, List.map_append, List.map_singleton,
        ← hobs n s₁ h₁]
      exact hr.append (.single hs)

/-- A loop counted down to zero: every iteration is observed alike. -/
theorem Runs.countdown (I : Nat → S → Prop) {t : List O}
    (hbody : ∀ n s, I (n + 1) s → ∃ s', Runs step obs s t s' ∧ I n s') :
    ∀ n s, I n s →
      ∃ s', Runs step obs s (List.replicate n t).flatten s' ∧ I 0 s' := by
  intro n
  induction n with
  | zero =>
      intro s h
      exact ⟨s, .nil s, h⟩
  | succ n ih =>
      intro s h
      obtain ⟨s₁, hr₁, h₁⟩ := hbody n s h
      obtain ⟨s₂, hr₂, h₂⟩ := ih s₁ h₁
      refine ⟨s₂, ?_, h₂⟩
      rw [List.replicate_succ, List.flatten_cons]
      exact hr₁.append hr₂

/-- Machines that agree on the states a run leaves make the same run. -/
theorem Runs.congr {step' : S → Option S} {s s' : S} {t : List S}
    (r : Runs step id s t s') (h : ∀ u ∈ t, step u = step' u) :
    Runs step' id s t s' := by
  induction r with
  | nil s => exact .nil s
  | cons hs _ ih =>
      have hfirst := h _ List.mem_cons_self
      exact .cons (hfirst.symm.trans hs)
        (ih fun u hu => h u (List.mem_cons_of_mem _ hu))

/-- First arrivals coincide: two runs that end where `a` is observed, and
not before, are the same. -/
theorem Runs.first_unique {s u u' : S} {t t' : List O} {a : O}
    (r : Runs step obs s t u) (r' : Runs step obs s t' u')
    (hu : obs u = a) (hu' : obs u' = a) (ht : a ∉ t) (ht' : a ∉ t') :
    t = t' ∧ u = u' := by
  induction r generalizing t' with
  | nil s =>
      cases r' with
      | nil => exact ⟨rfl, rfl⟩
      | cons h r' =>
          rw [hu] at ht'
          exact absurd List.mem_cons_self ht'
  | @cons s s₁ u t h r ih =>
      cases r' with
      | nil =>
          rw [hu'] at ht
          exact absurd List.mem_cons_self ht
      | cons h' r' =>
          rw [h] at h'
          cases h'
          obtain ⟨rfl, rfl⟩ := ih r' hu
            (fun hm => ht (List.mem_cons_of_mem _ hm))
            (fun hm => ht' (List.mem_cons_of_mem _ hm))
          exact ⟨rfl, rfl⟩

end UdeBench.Trace
