/-
Runs of calls that may fail, and what holds along them: `Along exec ok s
cs` says that every call of the run `cs` from `s` has `ok` at the state
it is made in, up to the first call that fails.

A condition that keeps an invariant keeps it over the run
(`Along.yields`). Two conditions that agree call by call agree on the
run (`along_iff`): this is how "every state of the run has P, exactly if
every call of it meets Q" is proved from one call.
-/
import UdeBench.Lib.Yields

namespace UdeBench.Calls

variable {ε σ ι : Type} (exec : σ → ι → Except ε σ)

/-- Every call meets the condition at its state. -/
def Along (ok : σ → ι → Prop) : σ → List ι → Prop
  | _, [] => True
  | s, c :: cs => ok s c ∧
      match exec s c with
      | .ok s' => Along ok s' cs
      | .error _ => True

instance Along.decide {ok : σ → ι → Prop} [∀ s c, Decidable (ok s c)] :
    ∀ (s : σ) (cs : List ι), Decidable (Along exec ok s cs)
  | _, [] => inferInstanceAs (Decidable True)
  | s, c :: cs =>
      match h : exec s c with
      | .ok s' =>
          have : Decidable (Along exec ok s' cs) := Along.decide s' cs
          decidable_of_iff (ok s c ∧ Along exec ok s' cs) (by
            rw [Along, h])
      | .error _ => decidable_of_iff (ok s c) (by
            rw [Along, h]
            simp)

variable {exec} {ok P Q : σ → ι → Prop} {I : σ → Prop}
  {excused : ε → Prop}

/-- The rest of a run. -/
theorem Along.rest {s s' : σ} {c : ι} {cs : List ι}
    (h : Along exec ok s (c :: cs)) (hs : exec s c = .ok s') :
    Along exec ok s' cs := by
  rw [Along, hs] at h
  exact h.2

/-- A run in two parts. -/
theorem along_append {t : σ} {ds : List ι} :
    ∀ (cs : List ι) {s : σ}, cs.foldlM exec s = .ok t →
      (Along exec ok s (cs ++ ds) ↔ Along exec ok s cs ∧ Along exec ok t ds) := by
  intro cs
  induction cs with
  | nil =>
      intro s hrun
      cases hrun
      exact ⟨fun h => ⟨trivial, h⟩, And.right⟩
  | cons c cs ih =>
      intro s hrun
      rw [List.foldlM_cons] at hrun
      obtain ⟨s', hexec, hrun⟩ := bind_eq_ok hrun
      rw [List.cons_append, Along, Along, hexec]
      simp only
      rw [ih hrun, and_assoc]

/-- What holds of every state the run comes to holds where it ends. -/
theorem Along.last {G : σ → Prop} {t : σ} :
    ∀ (cs : List ι) {s : σ}, cs ≠ [] → cs.foldlM exec s = .ok t →
      Along exec (fun s c => ∀ s', exec s c = .ok s' → G s') s cs → G t := by
  intro cs
  induction cs with
  | nil =>
      intro s hne _ _
      exact absurd rfl hne
  | cons c cs ih =>
      intro s _ hrun h
      rw [List.foldlM_cons] at hrun
      obtain ⟨s', hexec, hrun⟩ := bind_eq_ok hrun
      cases cs with
      | nil =>
          cases hrun
          exact h.1 _ hexec
      | cons d cs => exact ih (List.cons_ne_nil _ _) hrun (h.rest hexec)

/-- An invariant kept by every call that meets the condition. Induction
on the calls. -/
theorem Along.yields (hstep : ∀ s c, I s → ok s c →
      Yields excused (exec s c) I) :
    ∀ (cs : List ι) (s : σ), I s → Along exec ok s cs →
      Yields excused (cs.foldlM exec s) I := by
  intro cs
  induction cs with
  | nil =>
      intro s hs _
      exact hs
  | cons c cs ih =>
      intro s hs h
      have hc := hstep s c hs h.1
      rw [List.foldlM_cons]
      cases hexec : exec s c with
      | error e =>
          rw [hexec] at hc
          exact hc
      | ok s' =>
          rw [hexec] at hc
          exact ih s' hc (h.rest hexec)

/-- What holds of a call where an invariant does, of which every call that
meets the condition keeps it. Induction on the calls. -/
theorem Along.holds {V : σ → ι → Prop} (hstep : ∀ s c, I s → V s c →
      P s c ∧ ∀ s', exec s c = .ok s' → I s') :
    ∀ (cs : List ι) {s : σ}, I s → Along exec V s cs →
      Along exec P s cs := by
  intro cs
  induction cs with
  | nil => exact fun _ _ => trivial
  | cons c cs ih =>
      intro s hs h
      obtain ⟨hP, hkeep⟩ := hstep s c hs h.1
      refine ⟨hP, ?_⟩
      cases hexec : exec s c with
      | error e => trivial
      | ok s' => exact ih (hkeep s' hexec) (h.rest hexec)

/-- A condition on every call. -/
theorem along_of_forall {V : ι → Prop} :
    ∀ {cs : List ι} {s : σ}, (∀ c ∈ cs, V c) →
      Along exec (fun _ c => V c) s cs := by
  intro cs
  induction cs with
  | nil => exact fun _ => trivial
  | cons c cs ih =>
      intro s hV
      refine ⟨hV c List.mem_cons_self, ?_⟩
      cases exec s c with
      | error e => trivial
      | ok s' => exact ih fun d hd => hV d (List.mem_cons_of_mem _ hd)

/-- Two conditions along a run. -/
theorem Along.and {V : σ → ι → Prop} :
    ∀ (cs : List ι) {s : σ}, Along exec ok s cs → Along exec V s cs →
      Along exec (fun s c => ok s c ∧ V s c) s cs := by
  intro cs
  induction cs with
  | nil => exact fun _ _ => trivial
  | cons c cs ih =>
      intro s h h'
      refine ⟨⟨h.1, h'.1⟩, ?_⟩
      cases hexec : exec s c with
      | error e => trivial
      | ok s' => exact ih (h.rest hexec) (h'.rest hexec)

/-- An error a run does not end in ends none of its calls. -/
theorem along_ne_error {e : ε} :
    ∀ (cs : List ι) {s : σ}, cs.foldlM exec s ≠ .error e →
      Along exec (fun s c => exec s c ≠ .error e) s cs := by
  intro cs
  induction cs with
  | nil => exact fun _ => trivial
  | cons c cs ih =>
      intro s hrun
      rw [List.foldlM_cons] at hrun
      rw [Along]
      cases hexec : exec s c with
      | error e' =>
          rw [hexec] at hrun
          exact ⟨hrun, trivial⟩
      | ok s' =>
          rw [hexec] at hrun
          exact ⟨fun h => (nomatch h), ih hrun⟩

/-- Every call of a run that ends well ends well. -/
theorem along_ok {V : ι → Prop} {t : σ} :
    ∀ (cs : List ι) {s : σ}, (∀ c ∈ cs, V c) → cs.foldlM exec s = .ok t →
      Along exec (fun s c => V c ∧ ∃ s', exec s c = .ok s') s cs := by
  intro cs
  induction cs with
  | nil => exact fun _ _ => trivial
  | cons c cs ih =>
      intro s hV hrun
      rw [List.foldlM_cons] at hrun
      obtain ⟨s', hexec, hrun⟩ := bind_eq_ok hrun
      rw [Along, hexec]
      exact ⟨⟨hV c List.mem_cons_self, s', rfl⟩,
        ih (fun d hd => hV d (List.mem_cons_of_mem _ hd)) hrun⟩

/-- Conditions that agree at every call agree on the run. Induction on
the calls. -/
theorem along_congr {V : σ → ι → Prop}
    (hiff : ∀ s c, I s → V s c → (P s c ↔ Q s c))
    (hkeep : ∀ s c s', I s → V s c → Q s c → exec s c = .ok s' → I s') :
    ∀ (cs : List ι) (s : σ), I s → Along exec V s cs →
      (Along exec P s cs ↔ Along exec Q s cs) := by
  intro cs
  induction cs with
  | nil =>
      intro s _ _
      exact Iff.rfl
  | cons c cs ih =>
      intro s hs hV
      have hPQ := hiff s c hs hV.1
      cases hexec : exec s c with
      | error e =>
          rw [Along, Along, hexec]
          simp only [and_true]
          exact hPQ
      | ok s' =>
          have hrest := fun hQ => ih s' (hkeep s c s' hs hV.1 hQ hexec)
            (hV.rest hexec)
          rw [Along, Along, hexec]
          constructor
          · intro h
            have hQ := hPQ.mp h.1
            exact ⟨hQ, (hrest hQ).mp h.2⟩
          · intro h
            exact ⟨hPQ.mpr h.1, (hrest h.1).mpr h.2⟩

/-- Conditions that agree at every call of a run that ends well. -/
theorem along_iff {V : ι → Prop}
    (hiff : ∀ s c s', I s → V c → exec s c = .ok s' → (P s c ↔ Q s c))
    (hkeep : ∀ s c s', I s → V c → Q s c → exec s c = .ok s' → I s')
    (cs : List ι) (s t : σ) (hV : ∀ c ∈ cs, V c) (hs : I s)
    (hrun : cs.foldlM exec s = .ok t) :
    Along exec P s cs ↔ Along exec Q s cs := by
  refine along_congr (I := I) ?_ ?_ cs s hs (along_ok cs hV hrun)
  · rintro s c hs ⟨hc, s', hexec⟩
    exact hiff s c s' hs hc hexec
  · rintro s c s' hs ⟨hc, _⟩ hQ hexec
    exact hkeep s c s' hs hc hQ hexec

end UdeBench.Calls
