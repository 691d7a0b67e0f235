/-
Every run of calls on a pool is safe.

One call keeps the invariant of the pool (`PoolCall.exec_yields`), so a
run does (`poolRun_yields`); what the invariant says of a state is
`PoolSafe`. An error of a run is the allocator's, never the pool's: no
write outside a block or past an array's end, no free of what is not
live, no retry without end.
-/
import UdeBench.Npr.Proofs.Mempool

namespace UdeBench.Npr

-- =========================================================== the copies

section
variable (place : Placement) {fuel : Nat} (hfuel : 34 ≤ fuel)
  {rest : List Block} {s : PoolState}

/-- What was returned last lies in a live block. -/
theorem PoolInv.returned_within {m : Mem} {p : Mempool} {ret size : Word}
    (hi : PoolInv rest (returned s size (m, p, ret))) :
    ∃ b ∈ m.live, Block.Within ⟨ret, size⟩ b
      ∧ b.base.toNat + b.size.toNat < 2 ^ 32 := by
  obtain ⟨h, ho, _, hh⟩ := hi
  have howned : ∀ b ∈ owned p h, b ∈ m.live := fun b hb =>
    ho.perm.mem_iff.mpr (List.mem_append_left _ hb)
  have hin : ∃ b ∈ m.live, Block.Within ⟨ret, size⟩ b := by
    rcases hh.within _ List.mem_cons_self with ⟨b, hb, hin⟩ | ⟨hin, _⟩
    · exact ⟨b, howned b (List.mem_cons_of_mem _ (List.mem_cons_of_mem _
        (List.mem_cons_of_mem _ hb))), hin⟩
    · exact ⟨h.cur, howned _ (List.mem_cons_of_mem _
        (List.mem_cons_of_mem _ List.mem_cons_self)), hin⟩
  obtain ⟨b, hb, hin⟩ := hin
  exact ⟨b, hb, hin, ho.live.bound b hb⟩

/-- A region takes a copy of its first bytes. -/
theorem PoolInv.writeBytes_head {m : Mem} {p : Mempool}
    {ret size len : Word} (hle : len.toNat ≤ size.toNat)
    (hi : PoolInv rest (returned s size (m, p, ret))) :
    writeBytes m ret len = .ok () := by
  obtain ⟨b, hb, ⟨hlo, hhi⟩, _⟩ := hi.returned_within
  exact writeBytes_ok hb hlo (by simp only at hhi; omega)

/-- And the byte behind them, where it has one more. -/
theorem PoolInv.writeBytes_last {m : Mem} {p : Mempool}
    {ret size len : Word} (hlt : len.toNat < size.toNat)
    (hi : PoolInv rest (returned s size (m, p, ret))) :
    writeBytes m (ret + len) 1 = .ok () := by
  obtain ⟨b, hb, ⟨hlo, hhi⟩, hbound⟩ := hi.returned_within
  simp only at hlo hhi
  have h1 : (1 : Word).toNat = 1 := rfl
  have hsum : (ret + len).toNat = ret.toNat + len.toNat := by
    rw [BitVec.toNat_add]
    exact Nat.mod_eq_of_lt (by omega)
  exact writeBytes_ok hb (by omega) (by omega)

/-- A length that is not negative leaves room to count one more. -/
theorem toNat_succ_of_nonneg {len : Word} (hlen : 0 ≤ len.toInt) :
    (len + 1).toNat = len.toNat + 1 := by
  have hsigned := signed len
  have h1 : (1 : Word).toNat = 1 := rfl
  rw [BitVec.toNat_add, h1]
  exact Nat.mod_eq_of_lt (by omega)

include hfuel in
/-- `npr_mempool_strndup` copies into a region of its own. -/
theorem mempoolStrndup_yields (hi : PoolInv rest s) {len : Word}
    (hlen : 0 ≤ len.toInt) :
    Yields OutOfMemory (mempoolStrndup place fuel s.mem s.pool len) fun r =>
      PoolInv rest (returned s (len + 1) r) := by
  have hsucc := toNat_succ_of_nonneg hlen
  unfold mempoolStrndup
  refine (mempoolAllocAlignStat_yields place hfuel hi (by decide) _).bind
    fun ⟨m, p, mem⟩ hi' => ?_
  show Yields OutOfMemory (writeBytes m mem len >>= _) _
  rw [hi'.writeBytes_head (by omega)]
  show Yields OutOfMemory (writeBytes m (mem + len) 1 >>= _) _
  rw [hi'.writeBytes_last (by omega)]
  exact hi'

include hfuel in
/-- `npr_mempool_copy`, too. -/
theorem mempoolCopy_yields (hi : PoolInv rest s) (len : Word) :
    Yields OutOfMemory (mempoolCopy place fuel s.mem s.pool len) fun r =>
      PoolInv rest (returned s len r) := by
  unfold mempoolCopy
  refine (mempoolAllocAlignStat_yields place hfuel hi (by decide) _).bind
    fun ⟨m, p, mem⟩ hi' => ?_
  show Yields OutOfMemory (writeBytes m mem len >>= _) _
  rw [hi'.writeBytes_head (Nat.le_refl _)]
  exact hi'

-- ================================================================ clear

/-- `npr_mempool_clear` starts over: in the one block there is, or in a
new one. -/
theorem mempoolClear_yields (hi : PoolInv rest s) :
    Yields OutOfMemory (mempoolClear place s.mem s.pool) fun r =>
      PoolInv rest ⟨r.1, r.2, []⟩ := by
  obtain ⟨h, ho, hroom, _⟩ := hi
  unfold mempoolClear
  by_cases hkeep : s.pool.entryIndex = 0 ∧ s.pool.largeIndex = 0
  · rw [if_pos hkeep]
    refine ⟨h, { ho with }, ?_, fun r hr => absurd hr List.not_mem_nil,
      List.Pairwise.nil⟩
    -- what is left is still counted from the old position
    rcases hroom with ⟨_, hremain⟩ | ⟨hsum, hlow, hbig⟩
    · exact .inl ⟨rfl, hremain⟩
    · refine .inr ⟨?_, hlow, hbig⟩
      show s.pool.entryByteRemain.toInt + ((0 : Word).toNat : Int) ≤ _
      have h0 : (0 : Word).toNat = 0 := rfl
      omega
  · rw [if_neg hkeep]
    obtain ⟨m', ps, hm', hperm, _, _, hl⟩ := mempoolDestroy_ok ho
    rw [hm']
    exact mempoolInit_yields place hl hperm _

end

-- ================================================================= runs

/-- What a call may be given: alignments up to 2^20, and lengths that are
lengths. -/
def PoolCall.Valid : PoolCall → Prop
  | alloc alignShift _ => alignShift.toNat ≤ 20
  | strdup len => 0 ≤ len.toInt
  | strndup len => 0 ≤ len.toInt
  | copy len => 0 ≤ len.toInt
  | clear => True

instance (c : PoolCall) : Decidable c.Valid :=
  match c with
  | .alloc _ _ => inferInstanceAs (Decidable (_ ≤ _))
  | .strdup _ => inferInstanceAs (Decidable (_ ≤ _))
  | .strndup _ => inferInstanceAs (Decidable (_ ≤ _))
  | .copy _ => inferInstanceAs (Decidable (_ ≤ _))
  | .clear => inferInstanceAs (Decidable True)

/-- One call keeps the invariant. -/
theorem PoolCall.exec_yields (place : Placement) {fuel : Nat}
    (hfuel : 34 ≤ fuel) {rest : List Block} {s : PoolState}
    (hi : PoolInv rest s) {c : PoolCall} (hc : c.Valid) :
    Yields OutOfMemory (c.exec place fuel s) (PoolInv rest) := by
  cases c with
  | alloc alignShift size =>
      exact (mempoolAllocAlignStat_yields place hfuel hi hc size).bind
        fun _ hr => hr
  | strdup len =>
      -- the two functions have one body
      exact (mempoolStrndup_yields place hfuel hi hc).bind fun _ hr => hr
  | strndup len =>
      exact (mempoolStrndup_yields place hfuel hi hc).bind fun _ hr => hr
  | copy len =>
      exact (mempoolCopy_yields place hfuel hi len).bind fun _ hr => hr
  | clear =>
      exact (mempoolClear_yields place hi).bind fun _ hr => hr

/-- So does every run of calls. Induction on the calls. -/
theorem execAll_yields (place : Placement) {fuel : Nat}
    (hfuel : 34 ≤ fuel) {rest : List Block} :
    ∀ (cs : List PoolCall) {s : PoolState}, PoolInv rest s →
      (∀ c ∈ cs, c.Valid) →
      Yields OutOfMemory (cs.foldlM (PoolCall.exec place fuel) s)
        (PoolInv rest) := by
  intro cs
  induction cs with
  | nil =>
      intro s hi _
      exact hi
  | cons c cs ih =>
      intro s hi hvalid
      rw [List.foldlM_cons]
      refine (PoolCall.exec_yields place hfuel hi
        (hvalid c List.mem_cons_self)).bind fun s' hi' => ?_
      exact ih hi' fun d hd => hvalid d (List.mem_cons_of_mem _ hd)

/-- A pool in use is safe, the live blocks beside its own being `rest`:
what it has returned lies apart, each in a block behind one of its
pointers, and its destruction frees each of its blocks once. -/
structure PoolSafe (rest : List Block) (s : PoolState)
    (blocks : List Block) : Prop where
  owns : s.mem.live.Perm
    (s.pool.entryArray :: s.pool.largeArray :: blocks ++ rest)
  within : ∀ r ∈ s.regions, ∃ b ∈ blocks, r.Within b
  apart : s.regions.Pairwise fun a b => Spans.Apart a.span b.span
  destroy : ∃ m' ps, mempoolDestroy s.mem s.pool = .ok m'
    ∧ m'.live.Perm rest ∧ m'.freed = s.mem.freed ++ ps ∧ ps.Nodup
    ∧ ps.Perm ((s.pool.entryArray :: s.pool.largeArray :: blocks).map
        Block.base)

/-- The invariant says so. -/
theorem PoolInv.safe {rest : List Block} {s : PoolState}
    (hi : PoolInv rest s) : ∃ blocks, PoolSafe rest s blocks := by
  obtain ⟨h, ho, _, hh⟩ := hi
  refine ⟨h.cur :: (h.old ++ h.large), ho.perm, ?_, hh.apart, ?_⟩
  · intro r hr
    rcases hh.within r hr with ⟨b, hb, hin⟩ | ⟨hin, _⟩
    · exact ⟨b, List.mem_cons_of_mem _ hb, hin⟩
    · exact ⟨h.cur, List.mem_cons_self, hin⟩
  · obtain ⟨m', ps, hm', hperm, hfreed, hps, _⟩ := mempoolDestroy_ok ho
    refine ⟨m', ps, hm', hperm, hfreed, ?_, hps⟩
    -- live blocks have different addresses
    have hnodup : ((owned s.pool h).map Block.base).Nodup := by
      have hbeside := (ho.live.perm ho.perm).beside
      rw [List.pairwise_append] at hbeside
      rw [List.Nodup, List.pairwise_map]
      exact hbeside.1.imp And.left
    exact hps.nodup_iff.mpr hnodup

/-- The memory pool is safe, whatever it is asked: a run from any state
of the allocator fails only where the allocator does, and leaves a safe
pool. -/
theorem mempool_safe (place : Placement) {fuel : Nat} (hfuel : 34 ≤ fuel)
    {m : Mem} (hm : Live m.live) (sizeHint : Word) {cs : List PoolCall}
    (hcs : ∀ c ∈ cs, c.Valid) :
    (∀ e, poolRun place fuel m sizeHint cs = .error e → e = .mallocFailed)
      ∧ ∀ s, poolRun place fuel m sizeHint cs = .ok s →
        ∃ blocks, PoolSafe m.live s blocks := by
  have hrun : Yields OutOfMemory (poolRun place fuel m sizeHint cs)
      (PoolInv m.live) := by
    unfold poolRun
    refine (mempoolInit_yields place hm (List.Perm.refl _) sizeHint).bind
      fun ⟨m', p⟩ hi => ?_
    exact execAll_yields place hfuel cs hi hcs
  exact ⟨fun e he => hrun.of_error he, fun s hs => (hrun.of_ok hs).safe⟩

/-- An allocator with a block at every megabyte. -/
def everyMegabyte : Placement := fun n => BitVec.ofNat 32 (2 ^ 20 * (n + 1))

/-- Calls that open a block, take a large one and start over. -/
def someCalls : List PoolCall :=
  [.alloc 3 10, .strdup 5, .alloc 4 2000, .copy 7, .clear, .alloc 5 3]

theorem mempool_safe_someCalls :
    (poolRun everyMegabyte 34 ⟨[], 0, []⟩ 16 someCalls).map
        PoolState.regions = .ok [⟨0x700000, 3⟩]
      ∧ ∀ s, poolRun everyMegabyte 34 ⟨[], 0, []⟩ 16 someCalls = .ok s →
        ∃ blocks, PoolSafe [] s blocks :=
  ⟨by rfl, (mempool_safe everyMegabyte (Nat.le_refl 34)
    ⟨List.Pairwise.nil, fun _ hb => absurd hb List.not_mem_nil⟩ 16
    (by decide)).2⟩

end UdeBench.Npr
