/-
What a free chain frees: `npr_free_chain_free_all` goes through exactly
when the pointers appended are objects of the program, each of them once;
then these are gone, the others are as they were, and the destructors are
called in the order they were appended, after the last `free`. The chain's
own arrays are gone as well, and `npr_free_chain_close` frees nothing but
them. That is for fewer than 2^31 pointers and destructors: with 2^31
pointers the count is negative as an `int`, and not one is freed.
-/
import UdeBench.Npr.FreeChain

namespace UdeBench.Npr.FreeChain

open Store (Ptr Heap Fault foldlM_freePtr freeAll_error)
open Arrays (Filled varrayInit_yields turns)

variable {φ α : Type} {answers : Answers}

-- ================================================================= contents

/-- What a chain holds: the pointers, the destructors, and the objects of
the program beside it. -/
structure Holds (s : FcState φ α) (l : List (Ptr × α)) : Prop where
  frees : Filled s.sys.frees s.sys.chain.frees s.ptrs
  dtors : Filled s.sys.dtors s.sys.chain.dtors s.dtors
  objs : Store.Owns s.sys.objs l

variable {s : FcState φ α} {l : List (Ptr × α)}

theorem init_ok {objs : Heap α} (hobjs : Store.Owns objs l) :
    Yields Store.OutOfMemory (freeChainInit (φ := φ) answers objs)
      fun sys => Holds ⟨sys, [], []⟩ l := by
  unfold freeChainInit
  refine (varrayInit_yields answers.frees (by decide) (by decide)
    (by decide)).bind fun a ha => ?_
  refine (varrayInit_yields answers.dtors (by decide) (by decide)
    (by decide)).bind fun b hb => ?_
  exact .ok ⟨ha, hb, hobjs⟩

/-- A pointer appended. -/
theorem Holds.append (h : Holds s l) (ptr : Value) :
    Yields Store.OutOfMemory (freeChainAppend answers s.sys ptr)
      fun sys => Holds { s with sys, ptrs := s.ptrs ++ [ptr] } l := by
  unfold freeChainAppend
  refine (h.frees.push answers.frees ptr).bind fun r hr => ?_
  exact .ok ⟨hr, h.dtors, h.objs⟩

/-- One call: there may be one object more. -/
theorem Holds.exec (h : Holds s l) (c : FcCall φ α) :
    Yields Store.OutOfMemory (c.exec answers s)
      fun s' => ∃ made, Holds s' (made ++ l) := by
  cases c with
  | malloc a =>
      refine (h.objs.malloc answers.objs a).bind fun r hr => ?_
      exact .ok ⟨[(r.2, a)], h.frees, h.dtors, hr⟩
  | append ptr =>
      refine (h.append ptr).bind fun sys hsys => ?_
      exact .ok ⟨[], hsys⟩
  | appendMalloc a =>
      show Yields Store.OutOfMemory
        (freeChainAppendMalloc answers s.sys a >>= _) _
      unfold freeChainAppendMalloc
      refine Yields.bind (Q := fun r => ∃ made, Holds
        { s with sys := r.1, ptrs := s.ptrs ++ [some r.2] } (made ++ l)) ?_
        fun r ⟨made, hr⟩ => .ok ⟨made, hr⟩
      refine (h.objs.malloc answers.objs a).bind fun r hr => ?_
      have h₁ : Holds { s with sys := { s.sys with objs := r.1 } }
          ([(r.2, a)] ++ l) := ⟨h.frees, h.dtors, hr⟩
      refine (h₁.append (some r.2)).bind fun sys hsys => ?_
      exact .ok ⟨[(r.2, a)], hsys⟩
  | appendDtor dtor ptr =>
      show Yields Store.OutOfMemory
        (freeChainAppendDtor answers s.sys dtor ptr >>= _) _
      unfold freeChainAppendDtor
      refine Yields.bind (Q := fun sys => Holds
        { s with sys, dtors := s.dtors ++ [⟨dtor, ptr⟩] } l) ?_
        fun sys hsys => .ok ⟨[], hsys⟩
      refine (h.dtors.push answers.dtors ⟨dtor, ptr⟩).bind ?_
      exact fun r hr => .ok ⟨h.frees, hr, h.objs⟩

/-- A run of calls. -/
theorem Holds.calls (cs : List (FcCall φ α)) (h : Holds s l) :
    Yields Store.OutOfMemory (cs.foldlM (FcCall.exec answers) s)
      fun s' => ∃ made, Holds s' (made ++ l) := by
  induction cs generalizing s l with
  | nil => exact .ok ⟨[], h⟩
  | cons c cs ih =>
      rw [List.foldlM_cons]
      refine (h.exec c).bind fun s₁ ⟨made₁, h₁⟩ => ?_
      refine (ih h₁).mono fun s₂ ⟨made₂, h₂⟩ => ?_
      rw [← List.append_assoc] at h₂
      exact ⟨made₂ ++ made₁, h₂⟩

-- ================================================================== the end

/-- The pointers of `ps` are objects among `l`, each of them once, and
`rest` are the others. -/
def Covers (ps : List Ptr) (l rest : List (Ptr × α)) : Prop :=
  ∃ owned, l.Perm (owned ++ rest) ∧ owned.map Prod.fst = ps

variable (call : φ → Value → Heap α → Except Fault (Heap α))

/-- `npr_free_chain_free_all` up to the destructors, and what is left to
do. -/
theorem Holds.freeAll_eq (h : Holds s l) :
    ∃ frees dtors, Store.Owns frees [] ∧ Store.Owns dtors []
      ∧ freeChainFreeAll call s.sys
        = (s.ptrs.take (turns s.sys.chain.frees.nelem)).reduceOption.foldlM
            Store.free s.sys.objs >>= fun objs =>
          (s.dtors.take (turns s.sys.chain.dtors.nelem)).foldlM
            (Dtor.run call) objs >>= fun objs =>
            .ok { s.sys with frees, dtors, objs } := by
  obtain ⟨frees, hfrees, hown⟩ := h.frees.discard
  obtain ⟨dtors, hdtors, hown'⟩ := h.dtors.discard
  refine ⟨frees, dtors, hown, hown', ?_⟩
  unfold freeChainFreeAll
  rw [h.frees.elems, h.dtors.elems, hfrees, hdtors, ← foldlM_freePtr]
  rfl

/-- The counts are `int`s: every pointer and every destructor is met. -/
theorem Holds.freeAll_small (h : Holds s l) (hptrs : s.ptrs.length < 2 ^ 31)
    (hdtors : s.dtors.length < 2 ^ 31) :
    ∃ frees dtors, Store.Owns frees [] ∧ Store.Owns dtors []
      ∧ freeChainFreeAll call s.sys
        = s.ptrs.reduceOption.foldlM Store.free s.sys.objs >>= fun objs =>
          s.dtors.foldlM (Dtor.run call) objs >>= fun objs =>
            .ok { s.sys with frees, dtors, objs } := by
  have heq := h.freeAll_eq call
  rwa [h.frees.take_turns hptrs, h.dtors.take_turns hdtors] at heq

/-- Every object appended is freed, and then the destructors are run. -/
theorem Holds.freeAll (h : Holds s l) (hptrs : s.ptrs.length < 2 ^ 31)
    (hdtors : s.dtors.length < 2 ^ 31) {rest : List (Ptr × α)}
    (hcovers : Covers s.ptrs.reduceOption l rest) :
    ∃ frees dtors objs, Store.Owns frees [] ∧ Store.Owns dtors []
      ∧ Store.Owns objs rest
      ∧ freeChainFreeAll call s.sys
        = s.dtors.foldlM (Dtor.run call) objs >>= fun objs =>
            .ok { s.sys with frees, dtors, objs } := by
  obtain ⟨frees, dtors, hfrees, hown, heq⟩ :=
    h.freeAll_small call hptrs hdtors
  obtain ⟨owned, hperm, howned⟩ := hcovers
  obtain ⟨objs, hobjs, hrest⟩ := (h.objs.perm hperm).freeAll
  rw [howned] at hobjs
  rw [hobjs] at heq
  exact ⟨frees, dtors, objs, hfrees, hown, hrest, heq⟩

/-- If they are not objects, or one of them twice, it does not get to the
destructors. -/
theorem Holds.freeAll_gone (h : Holds s l) (hptrs : s.ptrs.length < 2 ^ 31)
    (hdtors : s.dtors.length < 2 ^ 31)
    (hcovers : ¬ ∃ rest, Covers s.ptrs.reduceOption l rest) :
    freeChainFreeAll call s.sys = .error .gone := by
  obtain ⟨frees, dtors, -, -, heq⟩ := h.freeAll_small call hptrs hdtors
  rw [heq]
  cases hps : s.ptrs.reduceOption.foldlM Store.free s.sys.objs with
  | error e =>
      rw [freeAll_error hps]
      rfl
  | ok objs =>
      obtain ⟨owned, rest, hperm, howned⟩ := h.objs.of_freeAll hps
      exact absurd ⟨rest, owned, hperm, howned⟩ hcovers

/-- A count that is negative as an `int`: nothing is freed. -/
theorem Holds.freeAll_none (h : Holds s l) (hle : 2 ^ 31 ≤ s.ptrs.length)
    (hlt : s.ptrs.length < 2 ^ 32) (hdtors : s.dtors.length < 2 ^ 31) :
    ∃ frees dtors, Store.Owns frees [] ∧ Store.Owns dtors []
      ∧ freeChainFreeAll call s.sys
        = s.dtors.foldlM (Dtor.run call) s.sys.objs >>= fun objs =>
            .ok { s.sys with frees, dtors, objs } := by
  have heq := h.freeAll_eq call
  rwa [h.frees.take_turns_none hle hlt, h.dtors.take_turns hdtors] at heq

/-- `npr_free_chain_close` frees the arrays. -/
theorem Holds.close (h : Holds s l) :
    ∃ sys, freeChainClose s.sys = .ok sys ∧ Store.Owns sys.frees []
      ∧ Store.Owns sys.dtors [] ∧ sys.objs = s.sys.objs := by
  obtain ⟨frees, hfrees, hown⟩ := h.frees.discard
  obtain ⟨dtors, hdtors, hown'⟩ := h.dtors.discard
  refine ⟨{ s.sys with frees, dtors }, ?_, hown, hown', rfl⟩
  unfold freeChainClose
  rw [hfrees, hdtors]
  rfl

/-- Whatever was appended, as long as it can be counted by an `int`,
freeing all of it goes through up to the destructors exactly when it is
objects, each once. From 2^31 pointers on none of them is freed. -/
theorem free_chain_frees (answers : Answers) {objs : Heap α}
    (hobjs : Store.Owns objs l) (cs : List (FcCall φ α)) :
    Yields Store.OutOfMemory (fcRun answers objs cs) fun s =>
      ∃ made, Store.Owns s.sys.objs (made ++ l)
        ∧ (s.ptrs.length < 2 ^ 31 → s.dtors.length < 2 ^ 31 →
          (∀ rest, Covers s.ptrs.reduceOption (made ++ l) rest →
            ∃ frees dtors objs, Store.Owns frees [] ∧ Store.Owns dtors []
              ∧ Store.Owns objs rest
              ∧ freeChainFreeAll call s.sys
                = s.dtors.foldlM (Dtor.run call) objs >>= fun objs =>
                    .ok { s.sys with frees, dtors, objs })
          ∧ ((¬ ∃ rest, Covers s.ptrs.reduceOption (made ++ l) rest) →
              freeChainFreeAll call s.sys = .error .gone))
        ∧ (2 ^ 31 ≤ s.ptrs.length → s.ptrs.length < 2 ^ 32 →
          s.dtors.length < 2 ^ 31 →
          ∃ frees dtors, Store.Owns frees [] ∧ Store.Owns dtors []
            ∧ freeChainFreeAll call s.sys
              = s.dtors.foldlM (Dtor.run call) s.sys.objs >>= fun objs =>
                  .ok { s.sys with frees, dtors, objs })
        ∧ ∃ sys, freeChainClose s.sys = .ok sys ∧ Store.Owns sys.frees []
          ∧ Store.Owns sys.dtors [] ∧ sys.objs = s.sys.objs := by
  unfold fcRun
  refine (init_ok hobjs).bind fun sys hsys => ?_
  refine (hsys.calls cs).mono fun s ⟨made, h⟩ => ?_
  refine ⟨made, h.objs, fun hptrs hdtors => ⟨fun rest => ?_, ?_⟩, ?_,
    h.close⟩
  · exact h.freeAll call hptrs hdtors
  · exact h.freeAll_gone call hptrs hdtors
  · exact h.freeAll_none call

/-- An object of the chain's, one of the program's appended to it, and a
destructor. -/
theorem free_chain_frees_two :
    ∃ s, fcRun (φ := Unit) ⟨fun _ => true, fun _ => true, fun _ => true⟩ []
        [.malloc true, .appendMalloc false, .append (some 0), .append none,
          .appendDtor () none] = .ok s
      ∧ ∃ sys, freeChainFreeAll (fun _ _ objs => .ok objs) s.sys = .ok sys
        ∧ Store.Owns sys.objs [] := by
  have hrun : (fcRun (φ := Unit)
      ⟨fun _ => true, fun _ => true, fun _ => true⟩ []
        [.malloc true, .appendMalloc false, .append (some 0), .append none,
          .appendDtor () none]).map (fun s => (s.ptrs, s.dtors, s.sys.objs))
      = .ok ([some 1, some 0, none], [⟨(), none⟩],
        [some true, some false]) := rfl
  obtain ⟨s, hs, heq⟩ := map_eq_ok hrun
  obtain ⟨hptrs, hdtors, hobjs⟩ : s.ptrs = [some 1, some 0, none]
      ∧ s.dtors = [⟨(), none⟩] ∧ s.sys.objs = [some true, some false] := by
    simpa using heq
  obtain ⟨made, hown, hsmall, -⟩ := (free_chain_frees
    (fun _ _ objs => .ok objs) _ Store.Owns.empty _).of_ok hs
  have htwo : Store.Owns [some true, some false] [(1, false), (0, true)] :=
    (Store.Owns.empty.concat true).concat false
  rw [hobjs] at hown
  rw [hptrs, hdtors] at hsmall
  obtain ⟨hfree, -⟩ := hsmall (by decide) (by decide)
  obtain ⟨frees, dtors, objs, -, -, hrest, hall⟩ :=
    hfree [] ⟨[(1, false), (0, true)], hown.eq_perm htwo, rfl⟩
  exact ⟨s, hs, _, hall, hrest⟩

end UdeBench.Npr.FreeChain
