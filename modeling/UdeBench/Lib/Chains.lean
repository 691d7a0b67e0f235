/-
Null-terminated chains through byte memory: the link of an object lies
`off` bytes behind its address.

An array of objects is a chain when each one's link is the next one and
the last one's is null (`threaded_array`).
-/
import UdeBench.Lib.Buckets
import UdeBench.Lib.ByteMem

namespace UdeBench.Chains

open Hashing ByteMem Spans

/-- The object a pointer points to. -/
def pointee (a : Addr) : Option Addr := if a = 0 then none else some a

/-- The chain from `a` on. -/
def Threaded (off : Addr) (m : ByteMem) (a : Addr) (l : List Addr) : Prop :=
  Chain (fun p => pointee (m.load64 (p + off))) (pointee a) l

variable {off a p : Addr} {m m' : ByteMem} {l : List Addr}

theorem pointee_eq_some : pointee a = some p ↔ a = p ∧ p ≠ 0 := by
  unfold pointee
  split
  · rename_i ha
    constructor
    · intro h
      cases h
    · rintro ⟨rfl, hp⟩
      exact absurd ha hp
  · rename_i ha
    constructor
    · intro h
      cases h
      exact ⟨rfl, ha⟩
    · rintro ⟨rfl, _⟩
      rfl

/-- A link at the start of its object. -/
@[simp] theorem addr_zero (p : Addr) : p + 0 = p := BitVec.add_zero p

theorem threaded_nil : Threaded off m a [] ↔ a = 0 := by
  show pointee a = none ↔ _
  unfold pointee
  simp

theorem threaded_cons : Threaded off m a (p :: l)
    ↔ a = p ∧ p ≠ 0 ∧ Threaded off m (m.load64 (p + off)) l := by
  show pointee a = some p ∧ _ ↔ _
  rw [pointee_eq_some, and_assoc]
  rfl

theorem Threaded.nodup (h : Threaded off m a l) : l.Nodup := Chain.nodup h

/-- A chain survives where its links do. -/
theorem Threaded.congr (h : Threaded off m a l)
    (hl : ∀ p ∈ l, m'.load64 (p + off) = m.load64 (p + off)) :
    Threaded off m' a l :=
  Chain.congr h fun p hp => by rw [hl p hp]

/-- An array of objects, each linked to the next. Induction on their
number. -/
theorem threaded_array (off : Addr) (m : ByteMem) :
    ∀ (n : Nat) (f : Nat → Addr),
    (∀ i, i ≤ n → f i ≠ 0) →
    (∀ i, i < n → m.load64 (f i + off) = f (i + 1)) →
    m.load64 (f n + off) = 0 →
    Threaded off m (f 0) ((List.range (n + 1)).map f) := by
  intro n
  induction n with
  | zero =>
      intro f hf _ hlast
      refine threaded_cons.mpr ⟨rfl, hf 0 (Nat.le_refl 0), ?_⟩
      exact threaded_nil.mpr hlast
  | succ n ih =>
      intro f hf hnext hlast
      rw [List.range_succ_eq_map, List.map_cons, List.map_map]
      refine threaded_cons.mpr ⟨rfl, hf 0 (Nat.zero_le _), ?_⟩
      rw [hnext 0 (Nat.succ_pos n)]
      exact ih (fun i => f (i + 1)) (fun i hi => hf (i + 1) (by omega))
        (fun i hi => hnext (i + 1) (by omega)) hlast

end UdeBench.Chains
