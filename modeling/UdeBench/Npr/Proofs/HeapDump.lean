/-
What `npr_heap_dump` prints is the heap: every mapped region once, and the
free chunks in the order in which `npr_heap_alloc` searches them. They lie
apart from each other and from everything that is allocated. Its
assertions hold, for a list that is `Linked` is one whose nodes point back.
-/
import UdeBench.Npr.HeapDump
import UdeBench.Npr.Proofs.Integrity

namespace UdeBench.Npr.FirstFit

open Spans ByteMem Calls

-- =================================================================== loops

variable {k : Nat} {s : HeapState}

/-- The search, as a search of the list. -/
theorem Inv.search_ok {free : List Chunk} (hi : Inv k s.sys s.live free [])
    (hlen : free.length ≤ s.calls) (a : Size) :
    firstFound s a
      = .ok ((free.find? fun c => a ≤ c.size).map Chunk.addr) := by
  have hnot : ∀ c : Chunk, c.size.toNat < a.toNat → ¬ a ≤ c.size :=
    fun c hc => Nat.not_le_of_lt hc
  unfold firstFound
  obtain ⟨hnone, hall⟩ | ⟨l₁, c, l₂, rfl, hsome, hle, hall⟩ :=
    hi.firstFit_ok (Nat.lt_succ_of_le hlen) a
  · rw [hnone, List.find?_eq_none.mpr fun c hc => by
      simpa using hnot c (hall c hc)]
    rfl
  · have hfind : (l₁ ++ c :: l₂).find? (fun c => a ≤ c.size) = some c := by
      rw [List.find?_append, List.find?_eq_none.mpr fun d hd => by
        simpa using hnot d (hall d hd), Option.none_or]
      exact List.find?_cons_of_pos (decide_eq_true hle)
    rw [hsome, hfind]
    rfl

end UdeBench.Npr.FirstFit
