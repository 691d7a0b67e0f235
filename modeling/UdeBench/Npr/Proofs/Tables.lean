/-
A symbol table, alone or one of several on an allocator whose elements
come back.

A table holds rows, one for each symbol appended, in order: the symbol,
its entry and the data last written to it. `Table` is what holds of a
table wherever its entries are: they need not be the allocator's elements
in order, as long as no one else has them. The chains hold the entries of
the rows, each in the chain of its hash, and the counters count them. An
append takes an element from the pool, `npr_symtab_fini` gives all back,
and the elements of other tables stay as they are.

The slot the search ends at is the place for a new entry. Where the table
has grown meanwhile, the slot is stale and the new entry goes in front of
its new chain.
-/
import UdeBench.Npr.Proofs.Elements

namespace UdeBench.Npr.SymbolTable

open Hashing

-- ================================================================== the rows

/-- A symbol of the map. -/
structure Row where
  sym : Sym
  entry : ElemPtr
  data : Data
deriving DecidableEq, Repr

/-- The entry of a symbol. -/
def SymMap.find (rows : List Row) (x : Sym) : Option ElemPtr :=
  (rows.find? fun r => r.sym = x).map Row.entry

/-- What `find` finds. -/
theorem SymMap.find_eq_some {rows : List Row} {x : Sym} {e : ElemPtr}
    (h : SymMap.find rows x = some e) : ∃ r ∈ rows, r.sym = x ∧ r.entry = e := by
  unfold SymMap.find at h
  obtain ⟨r, hr, he⟩ := Option.map_eq_some_iff.mp h
  exact ⟨r, List.mem_of_find?_eq_some hr,
    by simpa using List.find?_some hr, he⟩

theorem SymMap.find_eq_none {rows : List Row} {x : Sym} :
    SymMap.find rows x = none ↔ ∀ r ∈ rows, r.sym ≠ x := by
  unfold SymMap.find
  rw [Option.map_eq_none_iff, List.find?_eq_none]
  simp

/-- Where the symbols are distinct, a row is found by its symbol. -/
theorem SymMap.find_of_mem {rows : List Row} {r : Row}
    (hsyms : (rows.map Row.sym).Nodup) (hr : r ∈ rows) :
    SymMap.find rows r.sym = some r.entry := by
  unfold SymMap.find
  induction rows with
  | nil => cases hr
  | cons r' rows ih =>
      rw [List.map_cons, List.nodup_cons] at hsyms
      rcases List.mem_cons.mp hr with rfl | hr
      · rw [List.find?_cons_of_pos (by simp)]
        rfl
      · rw [List.find?_cons_of_neg]
        · exact ih hsyms.2 hr
        · intro hsame
          have heq : r'.sym = r.sym := by simpa using hsame
          exact hsyms.1 (heq ▸ List.mem_map_of_mem hr)

-- ============================================================== the search

/-- The slot at the end of a chain. -/
def endSlot (ep : Slot) (l : List ElemPtr) : Slot :=
  match l.getLast? with
  | none => ep
  | some z => .chain z

theorem endSlot_cons (ep : Slot) (p : ElemPtr) (l : List ElemPtr) :
    endSlot ep (p :: l) = endSlot (.chain p) l := by
  unfold endSlot
  rw [List.getLast?_cons]
  cases l.getLast? <;> rfl

/-- The search along a chain. Induction on the chain. -/
theorem search_ok {s : Sys} {x : Sym} :
    ∀ (l : List ElemPtr) {fuel : Nat} {ep : Slot} {h : Option ElemPtr},
      l.length < fuel → readSlot s ep = .ok h → Chain (link s.elems) h l →
      (∀ p ∈ l, ∃ y, s.elems p = .used y) →
      (∃ p ∈ l, symOf s.elems p = x ∧ search s x fuel ep = .ok (.inr p))
        ∨ (∀ p ∈ l, symOf s.elems p ≠ x)
          ∧ search s x fuel ep = .ok (.inl (endSlot ep l)) := by
  intro l
  induction l with
  | nil =>
      intro fuel ep h hfuel hread hchain _
      cases hchain
      refine .inr ⟨fun p hp => (List.not_mem_nil hp).elim, ?_⟩
      cases fuel with
      | zero => simp at hfuel
      | succ fuel =>
          unfold search
          rw [hread]
          rfl
  | cons p l ih =>
      intro fuel ep h hfuel hread hchain hused
      obtain ⟨rfl, hrest⟩ := hchain
      obtain ⟨y, hy⟩ := hused p List.mem_cons_self
      obtain ⟨hentry, hlink, hsym⟩ := entry_ok hy
      cases fuel with
      | zero => simp at hfuel
      | succ fuel =>
          have hstep : search s x (fuel + 1) ep
              = if y.sym = x then .ok (.inr p)
                else search s x fuel (.chain p) := by
            rw [search]
            simp only [hread, bind, Except.bind, hentry]
          rw [hstep]
          by_cases hyx : y.sym = x
          · rw [if_pos hyx]
            exact .inl ⟨p, List.mem_cons_self, hsym.trans hyx, rfl⟩
          · rw [if_neg hyx, endSlot_cons]
            have hnext : readSlot s (.chain p) = .ok (link s.elems p) := by
              unfold readSlot
              simp only [hentry, bind, Except.bind, hlink]
            rcases ih (Nat.lt_of_succ_lt_succ hfuel) hnext hrest
                (fun q hq => hused q (List.mem_cons_of_mem _ hq)) with
              ⟨q, hq, hqx, hok⟩ | ⟨hnot, hok⟩
            · exact .inl ⟨q, List.mem_cons_of_mem _ hq, hqx, hok⟩
            · refine .inr ⟨?_, hok⟩
              intro q hq
              rcases List.mem_cons.mp hq with rfl | hq
              · rw [hsym]
                exact hyx
              · exact hnot q hq

/-- A store to an entry of the table that keeps its symbol and link. -/
theorem link_set {m : Elems} {p : ElemPtr} {y : Entry} (y' : Entry)
    (hy : m p = .used y) (hsym : y'.sym = y.sym) (hchain : y'.chain = y.chain)
    (q : ElemPtr) : link (m.set p (.used y')) q = link m q
      ∧ symOf (m.set p (.used y')) q = symOf m q := by
  by_cases hq : q = p
  · subst hq
    obtain ⟨_, hlink, hs⟩ := entry_ok (set_self m q (.used y'))
    obtain ⟨_, hlink', hs'⟩ := entry_ok hy
    exact ⟨by rw [hlink, hlink', hchain], by rw [hs, hs', hsym]⟩
  · unfold link symOf
    rw [set_other _ _ hq]
    exact ⟨rfl, rfl⟩

theorem link_other {m : Elems} {p q : ElemPtr} (x : Elem) (h : q ≠ p) :
    link (m.set p x) q = link m q ∧ symOf (m.set p x) q = symOf m q := by
  unfold link symOf
  rw [set_other _ _ h]
  exact ⟨rfl, rfl⟩

-- ================================================================= the table

section
variable (hashcode : Sym → Word)

/-- The table holds the rows. -/
structure Table (m : Elems) (tab : Symtab) (rows : List Row) : Prop where
  cells : ∀ r ∈ rows, ∃ c, m r.entry = .used ⟨r.sym, r.data, c⟩
  syms : (rows.map Row.sym).Nodup
  chains : ∃ chains, Buckets (link m) (slotOf hashcode m tab.numBin)
      tab.entries chains
    ∧ chains.flatten.Perm (rows.map Row.entry)
  bins : tab.entries.length = tab.numBin.toNat
  size : tab.numBin ∈ sizes
  count : tab.numEntry.toNat = rows.length
  load : rows.length < 4 * tab.numBin.toNat

end

variable {hashcode : Sym → Word} {m m' : Elems} {tab : Symtab}
  {rows : List Row} {s : Sys} {frees live : List ElemPtr}

/-- Links and indices stay where the elements do. -/
theorem same_buckets {size : Word} {bins : List (Option ElemPtr)}
    {chains : List (List ElemPtr)}
    (hb : Buckets (link m) (slotOf hashcode m size) bins chains)
    (hm : ∀ p ∈ chains.flatten, m' p = m p) :
    Buckets (link m') (slotOf hashcode m' size) bins chains := by
  refine hb.congr (fun p hp => ?_) fun p hp => ?_
  · unfold link
    rw [hm p hp]
  · unfold slotOf symOf
    rw [hm p hp]

/-- A table survives where its entries do. -/
theorem Table.congr (h : Table hashcode m tab rows)
    (hm : ∀ p ∈ rows.map Row.entry, m' p = m p) :
    Table hashcode m' tab rows := by
  obtain ⟨chains, hb, hperm⟩ := h.chains
  refine ⟨fun r hr => ?_, h.syms, ⟨chains, ?_, hperm⟩, h.bins, h.size,
    h.count, h.load⟩
  · rw [hm r.entry (List.mem_map_of_mem hr)]
    exact h.cells r hr
  · exact same_buckets hb fun p hp => hm p (hperm.mem_iff.mp hp)

theorem Table.entries_nodup (h : Table hashcode m tab rows) :
    (rows.map Row.entry).Nodup := by
  obtain ⟨chains, hb, hperm⟩ := h.chains
  exact hperm.nodup_iff.mp hb.nodup

theorem Table.used (h : Table hashcode m tab rows) {p : ElemPtr}
    (hp : p ∈ rows.map Row.entry) : ∃ x, m p = .used x := by
  obtain ⟨r, hr, rfl⟩ := List.mem_map.mp hp
  obtain ⟨c, hc⟩ := h.cells r hr
  exact ⟨_, hc⟩

/-- A new table holds no rows. -/
theorem Table.init (hashcode : Sym → Word) (m : Elems) {sizeHint : Word}
    (hsize : sizeHint.toInt < 2 ^ 30) :
    ∃ tab, symtabInit sizeHint = .ok tab ∧ Table hashcode m tab [] := by
  obtain ⟨p, hp, hnew⟩ := newSize_ok hsize
  have hpos := (sizes_pos hp).1
  refine ⟨⟨p, 0, List.replicate p.toNat none⟩, ?_,
    ⟨fun r hr => absurd hr List.not_mem_nil, List.nodup_nil,
      ⟨List.replicate p.toNat [], Buckets.empty _, ?_⟩,
      List.length_replicate, hp, rfl, ?_⟩⟩
  · unfold symtabInit
    rw [hnew]
    rfl
  · rw [List.flatten_replicate_nil]
    exact List.Perm.refl _
  · show 0 < 4 * p.toNat
    omega

-- ================================================================== a lookup

/-- The chain of a symbol's hash. -/
theorem Table.chain_of (h : Table hashcode s.elems s.tab rows)
    {chains : List (List ElemPtr)}
    (hb : Buckets (link s.elems) (slotOf hashcode s.elems s.tab.numBin)
      s.tab.entries chains) (x : Sym) :
    ∃ head l, readBin s.tab.entries (hashcode x % s.tab.numBin).toNat
        = .ok head
      ∧ s.tab.entries[(hashcode x % s.tab.numBin).toNat]? = some head
      ∧ chains[(hashcode x % s.tab.numBin).toNat]? = some l
      ∧ Chain (link s.elems) head l := by
  have hlt := slotOf_lt (sizes_pos h.size).1 (hashcode x)
  rw [← h.bins] at hlt
  obtain ⟨head, hread, hget⟩ := readBin_ok hlt
  obtain ⟨l, hl, hchain⟩ := hb.chain_at hget
  exact ⟨head, l, hread, hget, hl, hchain⟩

/-- The row of an entry whose symbol is looked for. -/
theorem Table.find_of (h : Table hashcode m tab rows) {p : ElemPtr}
    {x : Sym} (hp : p ∈ rows.map Row.entry) (hx : symOf m p = x) :
    SymMap.find rows x = some p := by
  obtain ⟨r, hr, rfl⟩ := List.mem_map.mp hp
  obtain ⟨c, hc⟩ := h.cells r hr
  have hsym : r.sym = x := (entry_ok hc).2.2.symm.trans hx
  rw [← hsym]
  exact SymMap.find_of_mem h.syms hr

/-- What the search of a lookup finds: the entry of the symbol's row, or
the end of the chain of its hash, when there is no row. -/
theorem Table.search_ok (h : Table hashcode s.elems s.tab rows)
    {chains : List (List ElemPtr)}
    (hb : Buckets (link s.elems) (slotOf hashcode s.elems s.tab.numBin)
      s.tab.entries chains)
    (hperm : chains.flatten.Perm (rows.map Row.entry)) {x : Sym}
    {l : List ElemPtr}
    (hl : chains[(hashcode x % s.tab.numBin).toNat]? = some l) :
    (∃ e, SymMap.find rows x = some e
      ∧ search s x (s.tab.numEntry.toNat + 1)
          (.bin (hashcode x % s.tab.numBin).toNat) = .ok (.inr e))
    ∨ SymMap.find rows x = none
      ∧ search s x (s.tab.numEntry.toNat + 1)
          (.bin (hashcode x % s.tab.numBin).toNat)
        = .ok (.inl (endSlot (.bin (hashcode x % s.tab.numBin).toNat) l)) := by
  obtain ⟨head, l', hread, _, hl', hchain⟩ := h.chain_of hb x
  obtain rfl := Option.some.inj (hl'.symm.trans hl)
  have hsub : l'.Sublist chains.flatten :=
    List.sublist_flatten_of_mem (List.mem_of_getElem? hl)
  have hmem : ∀ p ∈ l', p ∈ rows.map Row.entry :=
    fun p hp => hperm.mem_iff.mp (hsub.subset hp)
  have hlen : l'.length < s.tab.numEntry.toNat + 1 := by
    have hle := hsub.length_le
    rw [hperm.length_eq, List.length_map] at hle
    rw [h.count]
    omega
  obtain hfound | ⟨hnot, hok⟩ := SymbolTable.search_ok (x := x) l' hlen
    (show readSlot s (.bin _) = .ok head from hread) hchain
    fun p hp => h.used (hmem p hp)
  · obtain ⟨p, hp, hpx, hok⟩ := hfound
    exact .inl ⟨p, h.find_of (hmem p hp) hpx, hok⟩
  · refine .inr ⟨SymMap.find_eq_none.mpr fun r hr hx => ?_, hok⟩
    -- the entry of the row would be in the chain
    obtain ⟨c, hc⟩ := h.cells r hr
    have hsym : symOf s.elems r.entry = x := (entry_ok hc).2.2.trans hx
    have hin : r.entry ∈ chains.flatten :=
      hperm.mem_iff.mpr (List.mem_map_of_mem hr)
    refine hnot r.entry (hb.mem_chain hin ?_) hsym
    unfold slotOf
    rw [hsym]
    exact hl

/-- A lookup that appends nothing leaves all as it is. -/
theorem Table.lookup_ok (h : Table hashcode s.elems s.tab rows) (x : Sym) :
    lookupEntry hashcode s x .fail = .ok (s, SymMap.find rows x)
      ∧ ∀ e, SymMap.find rows x = some e →
        lookupEntry hashcode s x .append = .ok (s, some e) := by
  obtain ⟨chains, hb, hperm⟩ := h.chains
  obtain ⟨_, l, _, _, hl, _⟩ := h.chain_of hb x
  unfold lookupEntry
  obtain ⟨e, hfind, hsearch⟩ | ⟨hnone, hsearch⟩ := h.search_ok hb hperm hl
  · simp only [hsearch, bind, Except.bind, hfind]
    refine ⟨trivial, fun e' he' => ?_⟩
    rw [Option.some.inj he']
  · simp only [hsearch, bind, Except.bind, hnone]
    exact ⟨trivial, fun e he => by cases he⟩

-- ================================================================= an append

/-- The test for growing: four entries for each slot. -/
theorem ratio_iff {n b : Word} (hn : n.toNat < 2 ^ 31) (hb : 0 < b.toNat)
    (hb' : b.toNat < 2 ^ 31) :
    (3#32).slt (n.sdiv b) = true ↔ 4 * b.toNat ≤ n.toNat := by
  have hmsb : n.msb = false := by
    rw [BitVec.msb_eq_false_iff_two_mul_lt]
    omega
  have hmsb' : b.msb = false := by
    rw [BitVec.msb_eq_false_iff_two_mul_lt]
    omega
  have hdiv : n.sdiv b = n / b := by
    rw [BitVec.sdiv_eq, hmsb, hmsb']
    rfl
  have hle : n.toNat / b.toNat ≤ n.toNat := Nat.div_le_self _ _
  have hint : (n.sdiv b).toInt = ((n.toNat / b.toNat : Nat) : Int) := by
    rw [hdiv, BitVec.toInt_eq_toNat_cond, BitVec.toNat_udiv]
    omega
  have h3 : (3#32).toInt = 3 := rfl
  rw [BitVec.slt_iff_toInt_lt, hint, h3]
  have hiff := Nat.le_div_iff_mul_le (x := 4) (y := n.toNat) hb
  omega

/-- The table with a row more: the entry is in the chain of its hash, and
the others hold what they held. -/
theorem Table.added (h : Table hashcode m tab rows) {tab' : Symtab}
    {x : Sym} {p : ElemPtr} (hnew : SymMap.find rows x = none)
    (hold : ∀ q ∈ rows.map Row.entry, ∀ y, m q = .used y →
      ∃ c, m' q = .used { y with chain := c })
    (hcell : ∃ c, m' p = .used ⟨x, none, c⟩)
    (hchains : ∃ chains, Buckets (link m') (slotOf hashcode m' tab'.numBin)
        tab'.entries chains
      ∧ chains.flatten.Perm (p :: rows.map Row.entry))
    (hbins : tab'.entries.length = tab'.numBin.toNat)
    (hsize : tab'.numBin ∈ sizes)
    (hcount : tab'.numEntry.toNat = rows.length + 1)
    (hload : rows.length + 1 < 4 * tab'.numBin.toNat) :
    Table hashcode m' tab' (rows ++ [⟨x, p, none⟩]) := by
  have hlen : (rows ++ [(⟨x, p, none⟩ : Row)]).length = rows.length + 1 :=
    List.length_append
  refine ⟨fun r hr => ?_, ?_, ?_, hbins, hsize, by rwa [hlen], by rwa [hlen]⟩
  · obtain hr | hr := List.mem_append.mp hr
    · obtain ⟨c, hc⟩ := h.cells r hr
      exact hold r.entry (List.mem_map_of_mem hr) _ hc
    · rw [List.mem_singleton.mp hr]
      exact hcell
  · rw [List.map_append, List.nodup_append]
    refine ⟨h.syms, List.nodup_singleton _, ?_⟩
    intro y hy z hz
    obtain ⟨r, hr, rfl⟩ := List.mem_map.mp hy
    rw [List.mem_singleton.mp hz]
    exact SymMap.find_eq_none.mp hnew r hr
  · obtain ⟨chains, hb, hperm⟩ := hchains
    refine ⟨chains, hb, hperm.trans ?_⟩
    rw [List.map_append]
    exact (List.perm_append_singleton _ _).symm

/-- A table with room for a new entry `p`, and the element for it, in the
memory `m'`. -/
structure Room (hashcode : Sym → Word) (rows : List Row)
    (live frees : List ElemPtr) (p : ElemPtr) (m : Elems) (s₁ : Sys) :
    Prop where
  pool : Pool s₁.elems s₁.alloc frees (p :: live)
  old : ∀ q ∈ rows.map Row.entry, ∀ y, m q = .used y →
    ∃ c, s₁.elems q = .used { y with chain := c }
  others : ∀ q ∈ live, q ∉ rows.map Row.entry → s₁.elems q = m q
  chains : ∃ chains, Buckets (link s₁.elems)
      (slotOf hashcode s₁.elems s₁.tab.numBin) s₁.tab.entries chains
    ∧ chains.flatten.Perm (rows.map Row.entry)
  bins : s₁.tab.entries.length = s₁.tab.numBin.toNat
  size : s₁.tab.numBin ∈ sizes
  count : s₁.tab.numEntry.toNat = rows.length + 1
  load : rows.length + 1 < 4 * s₁.tab.numBin.toNat

/-- `alloc_entry` makes room, and leaves the table alone when it does not
grow. -/
theorem Table.allocEntry (h : Table hashcode s.elems s.tab rows)
    (hpool : Pool s.elems s.alloc frees live)
    (hlive : ∀ q ∈ rows.map Row.entry, q ∈ live)
    (hfew : rows.length + 1 < 2 ^ 31) :
    ∃ s₁ p frees' grown, SymbolTable.allocEntry hashcode s
        = .ok (s₁, p, grown)
      ∧ Room hashcode rows live frees' p s.elems s₁
      ∧ (grown = false → s₁.tab.entries = s.tab.entries
        ∧ s₁.tab.numBin = s.tab.numBin
        ∧ ∀ q ∈ live, s₁.elems q = s.elems q)
      ∧ (InOrder s.alloc frees live → InOrder s₁.alloc frees' (p :: live)) := by
  obtain ⟨m, a, p, frees', halloc, hpool', hsame, hord⟩ := hpool.alloc
  obtain ⟨chains, hb, hperm⟩ := h.chains
  have hload := h.load
  have hpos := sizes_pos h.size
  have hcount : (s.tab.numEntry + 1).toNat = rows.length + 1 := by
    have h1 : (1 : Word).toNat = 1 := rfl
    rw [BitVec.toNat_add, h.count, h1]
    omega
  have hratio := ratio_iff (by omega : (s.tab.numEntry + 1).toNat < 2 ^ 31)
    hpos.1 hpos.2
  rw [hcount] at hratio
  have hmem : ∀ q ∈ chains.flatten, q ∈ rows.map Row.entry :=
    fun q hq => hperm.mem_iff.mp hq
  have hb' := same_buckets hb fun q hq => hsame q (hlive q (hmem q hq))
  unfold SymbolTable.allocEntry
  rw [halloc]
  simp only [bind, Except.bind]
  by_cases hgrow : (3#32).slt ((s.tab.numEntry + 1).sdiv s.tab.numBin) = true
  · -- four entries for each slot: the next size
    have hfull := hratio.mp hgrow
    have hfuel : chains.flatten.length ≤ (s.tab.numEntry + 1).toNat := by
      rw [hperm.length_eq, List.length_map, hcount]
      exact Nat.le_succ _
    obtain ⟨q, hq, hnew, hlt⟩ := newSize_next h.size (by omega)
    obtain ⟨m', new, chains', hrelink, hb'', hperm', hlen, hrel⟩ :=
      relink_ok (sizes_pos hq).1 hb'
        (fun q hq => by
          obtain ⟨y, hy⟩ := h.used (hmem q hq)
          exact ⟨y, (hsame q (hlive q (hmem q hq))).trans hy⟩)
        hfuel
    rw [h.bins] at hrelink
    rw [if_pos hgrow, hnew]
    simp only [hrelink]
    refine ⟨⟨m', a, ⟨q, s.tab.numEntry + 1, new⟩⟩, p, frees', true, rfl,
      ⟨hpool'.congr ?_, ?_, ?_, ⟨chains', hb'', hperm'.trans hperm⟩, hlen,
        hq, hcount, ?_⟩, (fun hfalse => by cases hfalse), hord⟩
    · intro q hq
      refine hrel.off fun hin => hpool'.apart hq ?_
      exact List.mem_cons_of_mem _ (hlive q (hmem q hin))
    · intro q hq y hy
      exact hrel.used ((hsame q (hlive q hq)).trans hy)
    · intro q hq hnot
      exact (hrel.off fun hin => hnot (hmem q hin)).trans (hsame q hq)
    · show rows.length + 1 < 4 * q.toNat
      omega
  · rw [if_neg hgrow]
    have hroom := mt hratio.mpr hgrow
    refine ⟨⟨m, a, { s.tab with numEntry := s.tab.numEntry + 1 }⟩, p, frees',
      false, rfl, ⟨hpool', ?_, fun q hq _ => hsame q hq,
        ⟨chains, hb', hperm⟩, h.bins, h.size, hcount, ?_⟩,
      fun _ => ⟨rfl, rfl, hsame⟩, hord⟩
    · intro q hq y hy
      exact ⟨y.chain, (hsame q (hlive q hq)).trans hy⟩
    · show rows.length + 1 < 4 * s.tab.numBin.toNat
      omega

/-- What an append leaves: a row more, and the entries of others. -/
structure Appended (hashcode : Sym → Word) (rows : List Row)
    (live frees : List ElemPtr) (p : ElemPtr) (x : Sym) (m : Elems)
    (s' : Sys) : Prop where
  pool : Pool s'.elems s'.alloc frees (p :: live)
  table : Table hashcode s'.elems s'.tab (rows ++ [⟨x, p, none⟩])
  others : ∀ q ∈ live, q ∉ rows.map Row.entry → s'.elems q = m q

section
variable {s₁ : Sys} {p : ElemPtr} {x : Sym}

/-- The new element is nobody's. -/
theorem Room.new (hr : Room hashcode rows live frees p m s₁) : p ∉ live :=
  (List.nodup_cons.mp hr.pool.live_nodup).1

/-- A new entry in front of its chain. -/
theorem Room.pushHead (hr : Room hashcode rows live frees p m s₁)
    (h : Table hashcode m tab rows)
    (hlive : ∀ q ∈ rows.map Row.entry, q ∈ live)
    (hnew : SymMap.find rows x = none) {g : Option ElemPtr}
    (hg : s₁.tab.entries[(hashcode x % s₁.tab.numBin).toNat]? = some g) :
    Appended hashcode rows live frees p x m
      { s₁ with
        elems := s₁.elems.set p (.used ⟨x, none, g⟩)
        tab := { s₁.tab with
          entries := s₁.tab.entries.set (hashcode x % s₁.tab.numBin).toNat
            (some p) } } := by
  obtain ⟨chains, hb, hperm⟩ := hr.chains
  have hother : ∀ q ∈ live, q ≠ p := fun q hq hqp => hr.new (hqp ▸ hq)
  have hmem : ∀ q ∈ chains.flatten, q ∈ live :=
    fun q hq => hlive q (hperm.mem_iff.mp hq)
  obtain ⟨_, hlink, hsym⟩ := entry_ok
    (set_self s₁.elems p (.used ⟨x, none, g⟩))
  obtain ⟨chains', hb', hperm'⟩ := hb.pushHead
    (link (s₁.elems.set p (.used ⟨x, none, g⟩)))
    (slotOf hashcode (s₁.elems.set p (.used ⟨x, none, g⟩)) s₁.tab.numBin)
    hg (fun hin => hr.new (hmem p hin)) (by
      unfold slotOf
      rw [hsym]) hlink
    (fun q hq => (link_other _ (hother q (hmem q hq))).1)
    (fun q hq => by
      unfold slotOf
      rw [(link_other _ (hother q (hmem q hq))).2])
  refine ⟨hr.pool.congr fun q hq => set_other _ _ fun hqp => ?_,
    h.added hnew ?_ ⟨g, set_self _ _ _⟩
      ⟨chains', hb', hperm'.trans (hperm.cons _)⟩ ?_ hr.size hr.count hr.load,
    fun q hq hnot => (set_other _ _ (hother q hq)).trans
      (hr.others q hq hnot)⟩
  · exact hr.pool.apart hq (hqp ▸ List.mem_cons_self)
  · intro q hq y hy
    obtain ⟨c, hc⟩ := hr.old q hq y hy
    exact ⟨c, (set_other _ _ (hother q (hlive q hq))).trans hc⟩
  · rw [List.length_set]
    exact hr.bins

/-- A new entry behind the last of its chain. -/
theorem Room.pushTail (hr : Room hashcode rows live frees p m s₁)
    (h : Table hashcode m tab rows)
    (hlive : ∀ q ∈ rows.map Row.entry, q ∈ live)
    (hnew : SymMap.find rows x = none) {chains : List (List ElemPtr)}
    {g : Option ElemPtr} {l : List ElemPtr} {z : ElemPtr} {y : Entry}
    (hb : Buckets (link s₁.elems) (slotOf hashcode s₁.elems s₁.tab.numBin)
      s₁.tab.entries chains)
    (hperm : chains.flatten.Perm (rows.map Row.entry))
    (hg : s₁.tab.entries[(hashcode x % s₁.tab.numBin).toNat]? = some g)
    (hl : chains[(hashcode x % s₁.tab.numBin).toNat]? = some (l ++ [z]))
    (hy : s₁.elems z = .used y) :
    Appended hashcode rows live frees p x m
      { s₁ with
        elems := (s₁.elems.set p (.used ⟨x, none, none⟩)).set z
          (.used { y with chain := some p }) } := by
  have hother : ∀ q ∈ live, q ≠ p := fun q hq hqp => hr.new (hqp ▸ hq)
  have hmem : ∀ q ∈ chains.flatten, q ∈ live :=
    fun q hq => hlive q (hperm.mem_iff.mp hq)
  have hz : z ∈ chains.flatten := mem_flatten_of_getElem? hl
    (List.mem_append_right _ (List.mem_singleton.mpr rfl))
  have hzp : p ≠ z := (hother z (hmem z hz)).symm
  -- the two stores
  have hcell : ((s₁.elems.set p (.used ⟨x, none, none⟩)).set z
      (.used { y with chain := some p })) p = .used ⟨x, none, none⟩ :=
    (set_other _ _ hzp).trans (set_self _ _ _)
  have hoff : ∀ q, q ≠ p → q ≠ z →
      ((s₁.elems.set p (.used ⟨x, none, none⟩)).set z
        (.used { y with chain := some p })) q = s₁.elems q :=
    fun q hqp hqz => (set_other _ _ hqz).trans (set_other _ _ hqp)
  obtain ⟨_, hlinkz, hsymz⟩ := entry_ok (set_self (s₁.elems.set p
    (.used ⟨x, none, none⟩)) z (.used { y with chain := some p }))
  obtain ⟨_, hlinkp, hsymp⟩ := entry_ok hcell
  obtain ⟨chains', hb', hperm'⟩ := hb.pushTail
    (link ((s₁.elems.set p (.used ⟨x, none, none⟩)).set z
      (.used { y with chain := some p })))
    (slotOf hashcode ((s₁.elems.set p (.used ⟨x, none, none⟩)).set z
      (.used { y with chain := some p })) s₁.tab.numBin)
    hg hl (fun hin => hr.new (hmem p hin)) (by
      unfold slotOf
      rw [hsymp]) hlinkz hlinkp
    (fun q hq hqz => by
      unfold link
      rw [hoff q (hother q (hmem q hq)) hqz])
    (fun q hq => by
      by_cases hqz : q = z
      · rw [hqz]
        unfold slotOf
        rw [hsymz, (entry_ok hy).2.2]
      · unfold slotOf symOf
        rw [hoff q (hother q (hmem q hq)) hqz])
  refine ⟨hr.pool.congr fun q hq => hoff q ?_ ?_,
    h.added hnew ?_ ⟨none, hcell⟩
      ⟨chains', hb', hperm'.trans (hperm.cons _)⟩ hr.bins hr.size hr.count
      hr.load,
    fun q hq hnot => ?_⟩
  · intro hqp
    exact hr.pool.apart hq (hqp ▸ List.mem_cons_self)
  · intro hqz
    exact hr.pool.apart hq (hqz ▸ List.mem_cons_of_mem _ (hmem z hz))
  · intro q hq w hw
    obtain ⟨c, hc⟩ := hr.old q hq w hw
    by_cases hqz : q = z
    · rw [hqz] at hc ⊢
      have hsame := Elem.used.inj (hy.symm.trans hc)
      refine ⟨some p, (set_self _ _ _).trans ?_⟩
      rw [hsame]
    · exact ⟨c, (hoff q (hother q (hlive q hq)) hqz).trans hc⟩
  · refine (hoff q (hother q hq) fun hqz => hnot ?_).trans
      (hr.others q hq hnot)
    exact hperm.mem_iff.mp (hqz ▸ hz)

end

/-- An append of a new symbol. -/
theorem Table.append_ok (h : Table hashcode s.elems s.tab rows)
    (hpool : Pool s.elems s.alloc frees live)
    (hlive : ∀ q ∈ rows.map Row.entry, q ∈ live) {x : Sym}
    (hnew : SymMap.find rows x = none) (hfew : rows.length + 1 < 2 ^ 31) :
    ∃ s' p frees', lookupEntry hashcode s x .append = .ok (s', some p)
      ∧ Appended hashcode rows live frees' p x s.elems s'
      ∧ (InOrder s.alloc frees live → InOrder s'.alloc frees' (p :: live)) := by
  obtain ⟨chains, hb, hperm⟩ := h.chains
  obtain ⟨_, l, _, _, hl, _⟩ := h.chain_of hb x
  obtain ⟨e, hfind, _⟩ | ⟨_, hsearch⟩ := h.search_ok hb hperm hl
  · rw [hnew] at hfind
    cases hfind
  obtain ⟨s₁, p, frees', grown, halloc, hr, hstay, hord⟩ :=
    h.allocEntry hpool hlive hfew
  have hlt := slotOf_lt (sizes_pos hr.size).1 (hashcode x)
  rw [← hr.bins] at hlt
  obtain ⟨g, hread, hg⟩ := readBin_ok hlt
  unfold lookupEntry
  simp only [hsearch, bind, Except.bind, halloc]
  cases grown with
  | true =>
      simp only [if_true, hread, writeSlot, bind, Except.bind]
      exact ⟨_, p, frees', rfl, hr.pushHead h hlive hnew hg, hord⟩
  | false =>
      obtain ⟨hentries, hbin, hsame⟩ := hstay rfl
      have hflat : ∀ q ∈ chains.flatten, s₁.elems q = s.elems q :=
        fun q hq => hsame q (hlive q (hperm.mem_iff.mp hq))
      have hb₁ := same_buckets hb hflat
      rw [← hbin, ← hentries] at hb₁
      have hl₁ : chains[(hashcode x % s₁.tab.numBin).toNat]? = some l := by
        rw [hbin]
        exact hl
      simp only [Bool.false_eq_true, if_false]
      obtain rfl | ⟨l, z, rfl⟩ := l.eq_nil_or_concat'
      · -- an empty chain: the slot is in the table
        obtain ⟨l', hl', hchain⟩ := hb₁.chain_at hg
        obtain rfl := Option.some.inj (hl'.symm.trans hl₁)
        cases hchain
        simp only [endSlot, List.getLast?_nil, writeSlot, ← hbin]
        simp only [hread, bind, Except.bind]
        exact ⟨_, p, frees', rfl, hr.pushHead h hlive hnew hg, hord⟩
      · have hz : z ∈ chains.flatten := mem_flatten_of_getElem? hl
          (List.mem_append_right _ (List.mem_singleton.mpr rfl))
        have hzrow := hperm.mem_iff.mp hz
        obtain ⟨y, hy⟩ := h.used hzrow
        have hy₁ : s₁.elems z = .used y := (hflat z hz).trans hy
        have hzp : z ≠ p := fun hzp => hr.new (hzp ▸ hlive z hzrow)
        have hentry := (entry_ok ((set_other s₁.elems
          (.used ⟨x, none, none⟩) hzp).trans hy₁)).1
        simp only [endSlot, List.getLast?_concat, writeSlot, hentry, bind,
          Except.bind]
        exact ⟨_, p, frees', rfl,
          hr.pushTail h hlive hnew hb₁ hperm hg hl₁ hy₁, hord⟩

-- ================================================================== a store

/-- A row with other data. -/
def setData (rows : List Row) (x : Sym) (v : Data) : List Row :=
  rows.map fun r => if r.sym = x then { r with data := v } else r

theorem map_setData {β : Type} {f : Row → β} {x : Sym} {v : Data}
    (hf : ∀ r : Row, f { r with data := v } = f r) :
    (setData rows x v).map f = rows.map f := by
  unfold setData
  rw [List.map_map]
  apply List.map_congr_left
  intro r _
  simp only [Function.comp_apply]
  by_cases hx : r.sym = x
  · rw [if_pos hx]
    exact hf r
  · rw [if_neg hx]

/-- A store to the data of an entry. -/
theorem Table.write (h : Table hashcode m tab rows) {x : Sym} {e : ElemPtr}
    (hfind : SymMap.find rows x = some e) (v : Data) :
    ∃ y, m e = .used y
      ∧ Table hashcode (m.set e (.used { y with data := v })) tab
        (setData rows x v) := by
  obtain ⟨r, hr, rfl, rfl⟩ := SymMap.find_eq_some hfind
  obtain ⟨c, hc⟩ := h.cells r hr
  have hset := link_set ⟨r.sym, v, c⟩ hc rfl rfl
  obtain ⟨chains, hb, hperm⟩ := h.chains
  refine ⟨⟨r.sym, r.data, c⟩, hc, fun q hq => ?_, ?_, ⟨chains, ?_, ?_⟩,
    h.bins, h.size, ?_, ?_⟩
  · obtain ⟨q', hq', rfl⟩ := List.mem_map.mp hq
    by_cases hsym : q'.sym = r.sym
    · have hsame := List.inj_on_of_nodup_map h.syms hq' hr hsym
      rw [if_pos hsym, hsame]
      exact ⟨c, set_self _ _ _⟩
    · have hne : q'.entry ≠ r.entry := fun heq => hsym
        (congrArg Row.sym
          (List.inj_on_of_nodup_map h.entries_nodup hq' hr heq))
      rw [if_neg hsym]
      obtain ⟨c', hc'⟩ := h.cells q' hq'
      exact ⟨c', (set_other _ _ hne).trans hc'⟩
  · rw [map_setData fun _ => rfl]
    exact h.syms
  · refine hb.congr (fun p _ => (hset p).1) fun p _ => ?_
    unfold slotOf
    rw [(hset p).2]
  · rw [map_setData fun _ => rfl]
    exact hperm
  · show tab.numEntry.toNat = (rows.map _).length
    rw [List.length_map]
    exact h.count
  · show (rows.map _).length < _
    rw [List.length_map]
    exact h.load

-- ================================================================== the end

/-- The entries of a chain go back to the pool. Induction on the chain. -/
theorem freeEntries_ok : ∀ (l : List ElemPtr) {fuel : Nat}
    {h : Option ElemPtr} {m : Elems} {a : ChunkAllocator}
    {frees : List ElemPtr}, l.length ≤ fuel → Chain (link m) h l →
    (∀ p ∈ l, ∃ x, m p = .used x) → Pool m a frees (l ++ live) →
    ∃ m' a' frees', freeEntries fuel h m a = .ok (m', a')
      ∧ Pool m' a' frees' live ∧ ∀ q, q ∉ l → m' q = m q := by
  intro l
  induction l with
  | nil =>
      intro fuel h m a frees _ hchain _ hpool
      cases hchain
      refine ⟨m, a, frees, ?_, hpool, fun _ _ => rfl⟩
      unfold freeEntries
      rfl
  | cons p l ih =>
      intro fuel h m a frees hfuel hchain hused hpool
      obtain ⟨rfl, hrest⟩ := hchain
      obtain ⟨x, hx⟩ := hused p List.mem_cons_self
      obtain ⟨hentry, hlink, _⟩ := entry_ok hx
      have hp : p ∉ l := fun hin =>
        (List.nodup_cons.mp hpool.live_nodup).1 (List.mem_append_left _ hin)
      have hother : ∀ q ∈ l, m.set p (.free a.top) q = m q :=
        fun q hq => set_other _ _ fun hqp => hp (hqp ▸ hq)
      rw [hlink] at hrest
      cases fuel with
      | zero => exact absurd hfuel (Nat.not_succ_le_zero _)
      | succ fuel =>
          obtain ⟨m', a', frees', hok, hpool', hsame⟩ := ih
            (m := m.set p (.free a.top)) (a := { a with top := some p })
            (Nat.le_of_succ_le_succ hfuel)
            (hrest.congr fun q hq => by
              unfold link
              rw [hother q hq])
            (fun q hq => by
              rw [hother q hq]
              exact hused q (List.mem_cons_of_mem _ hq))
            hpool.free
          refine ⟨m', a', frees', ?_, hpool', fun q hq => ?_⟩
          · unfold freeEntries
            rw [hentry]
            exact hok
          · rw [List.mem_cons, not_or] at hq
            exact (hsame q hq.2).trans (set_other _ _ hq.1)

/-- `npr_symtab_fini`: every entry goes back, and nothing else changes. -/
theorem Table.fini (h : Table hashcode m tab rows) {a : ChunkAllocator}
    (hpool : Pool m a frees (rows.map Row.entry ++ live)) :
    ∃ m' a' frees', symtabFini m a tab = .ok (m', a')
      ∧ Pool m' a' frees' live ∧ ∀ q ∈ live, m' q = m q := by
  obtain ⟨chains, hb, hperm⟩ := h.chains
  have hlen := hb.chain.length_eq
  have hpool := hpool.perm (hperm.symm.append_right live)
  have hapart : ∀ q ∈ live, q ∉ chains.flatten := fun q hq hin =>
    (List.nodup_append.mp hpool.live_nodup).2.2 q hin q hq rfl
  -- the entries of the first chains are back, those of the others not yet
  have hloop : ∀ n, n ≤ tab.entries.length → ∃ m' a' frees',
      (List.range n).foldlM
          (fun (s : Elems × ChunkAllocator) i => do
            let e ← readBin tab.entries i
            freeEntries tab.numEntry.toNat e s.1 s.2) (m, a) = .ok (m', a')
        ∧ Pool m' a' frees' ((chains.drop n).flatten ++ live)
        ∧ ∀ q, q ∉ (chains.take n).flatten → m' q = m q := by
    intro n
    induction n with
    | zero => exact fun _ => ⟨m, a, frees, rfl, hpool, fun _ _ => rfl⟩
    | succ n ih =>
        intro hn
        obtain ⟨m', a', frees', hok, hpool', hsame⟩ := ih (by omega)
        obtain ⟨g, hread, hget⟩ :=
          readBin_ok (show n < tab.entries.length by omega)
        obtain ⟨l, hl, hchain⟩ := hb.chain_at hget
        obtain ⟨hlt, hln⟩ := List.getElem?_eq_some_iff.mp hl
        have hdrop : chains.drop n = l :: chains.drop (n + 1) := by
          rw [List.drop_eq_getElem_cons hlt, hln]
        have hsub : l.Sublist chains.flatten :=
          List.sublist_flatten_of_mem (List.mem_of_getElem? hl)
        have hoff : ∀ p ∈ l, m' p = m p := by
          intro p hp
          refine hsame p fun hin => ?_
          have hnodup := hb.nodup
          rw [← List.take_append_drop n chains, List.flatten_append, hdrop]
            at hnodup
          exact (List.nodup_append.mp hnodup).2.2 p hin p
            (List.mem_append_left _ hp) rfl
        rw [hdrop, List.flatten_cons, List.append_assoc] at hpool'
        have hlen : l.length ≤ tab.numEntry.toNat := by
          rw [h.count, ← List.length_map (f := Row.entry), ← hperm.length_eq]
          exact hsub.length_le
        obtain ⟨m'', a'', frees'', hok', hpool'', hsame'⟩ :=
          freeEntries_ok l (h := g) hlen
            (hchain.congr fun p hp => by
              unfold link
              rw [hoff p hp])
            (fun p hp => by
              rw [hoff p hp]
              exact h.used (hperm.mem_iff.mp (hsub.subset hp)))
            hpool'
        refine ⟨m'', a'', frees'', ?_, hpool'', fun q hq => ?_⟩
        · rw [List.range_succ, List.foldlM_append, hok, ok_bind,
            List.foldlM_cons, hread, ok_bind, hok']
          rfl
        · have htake : (chains.take (n + 1)).flatten
              = (chains.take n).flatten ++ l := by
            rw [List.take_add_one, hl, List.flatten_append]
            simp
          rw [htake, List.mem_append, not_or] at hq
          exact (hsame' q hq.2).trans (hsame q hq.1)
  obtain ⟨m', a', frees', hok, hpool', hsame⟩ :=
    hloop tab.entries.length (Nat.le_refl _)
  rw [hlen, List.drop_length] at hpool'
  rw [hlen, List.take_length] at hsame
  rw [h.bins] at hok
  exact ⟨m', a', frees', hok, hpool', fun q hq => hsame q (hapart q hq)⟩

-- ================================================================ statistics

/-- What is printed of an entry. -/
def printedOf (m : Elems) (p : ElemPtr) : Sym × Data :=
  match m p with
  | .used e => (e.sym, e.data)
  | .free _ => (0, none)

/-- The two loops along a chain. Induction on it. -/
theorem chain_stat : ∀ (l : List ElemPtr) {fuel : Nat} {h : Option ElemPtr}
    (n : Word), l.length ≤ fuel → Chain (link m) h l →
    (∀ p ∈ l, ∃ x, m p = .used x) →
    chainLen m fuel h n = .ok (n + BitVec.ofNat 32 l.length)
      ∧ printChain m fuel h = .ok (l.map (printedOf m)) := by
  intro l
  induction l with
  | nil =>
      intro fuel h n _ hchain _
      cases hchain
      unfold chainLen printChain
      exact ⟨by simp, rfl⟩
  | cons p l ih =>
      intro fuel h n hfuel hchain hused
      obtain ⟨rfl, hrest⟩ := hchain
      obtain ⟨x, hx⟩ := hused p List.mem_cons_self
      obtain ⟨hentry, hlink, _⟩ := entry_ok hx
      rw [hlink] at hrest
      have hprinted : printedOf m p = (x.sym, x.data) := by
        unfold printedOf
        rw [hx]
      cases fuel with
      | zero => exact absurd hfuel (Nat.not_succ_le_zero _)
      | succ fuel =>
          obtain ⟨hlen, hprint⟩ := ih (n + 1) (Nat.le_of_succ_le_succ hfuel)
            hrest fun q hq => hused q (List.mem_cons_of_mem _ hq)
          unfold chainLen printChain
          rw [hentry, ok_bind, ok_bind, hlen, hprint, ok_bind, List.map_cons,
            hprinted, List.length_cons, Nat.add_comm l.length,
            BitVec.ofNat_add, ← BitVec.add_assoc]
          exact ⟨rfl, rfl⟩

/-- The line of a chain. -/
def lineOf (m : Elems) (l : List ElemPtr) : StatLine :=
  ⟨BitVec.ofNat 32 l.length, l.map (printedOf m)⟩

/-- The lines are those of the chains. -/
theorem Table.lines (h : Table hashcode m tab rows)
    {chains : List (List ElemPtr)}
    (hb : Buckets (link m) (slotOf hashcode m tab.numBin) tab.entries chains)
    (hperm : chains.flatten.Perm (rows.map Row.entry)) :
    (List.range tab.numBin.toNat).mapM (statLine m tab true)
      = .ok (chains.map (lineOf m)) := by
  have hlen : tab.numBin.toNat = chains.length :=
    h.bins.symm.trans hb.chain.length_eq
  have hsteps : ∀ i ∈ List.range tab.numBin.toNat, statLine m tab true i
      = .ok (lineOf m (chains[i]?.getD [])) := by
    intro i hi
    rw [List.mem_range, ← h.bins] at hi
    obtain ⟨g, hread, hget⟩ := readBin_ok hi
    obtain ⟨l, hl, hchain⟩ := hb.chain_at hget
    have hsub : l.Sublist chains.flatten :=
      List.sublist_flatten_of_mem (List.mem_of_getElem? hl)
    have hlen : l.length ≤ tab.numEntry.toNat := by
      rw [h.count, ← List.length_map (f := Row.entry), ← hperm.length_eq]
      exact hsub.length_le
    obtain ⟨hcount, hprint⟩ := chain_stat l 0 hlen hchain
      fun p hp => h.used (hperm.mem_iff.mp (hsub.subset hp))
    unfold statLine
    rw [hread, ok_bind, hcount, ok_bind, if_pos rfl, hprint, ok_bind, hl,
      Option.getD_some]
    unfold lineOf
    rw [show (0 : Word) + BitVec.ofNat 32 l.length = BitVec.ofNat 32 l.length
      from BitVec.zero_add _]
  rw [mapM_ok hsteps, hlen]
  congr 1
  apply List.ext_getElem
  · rw [List.length_map, List.length_range, List.length_map]
  · intro i hi _
    rw [List.length_map, List.length_range] at hi
    rw [List.getElem_map, List.getElem_map, List.getElem_range,
      List.getElem?_eq_getElem hi]
    rfl

/-- `npr_symtab_stat` prints every row once, in the line of its hash, and
counts the rows of each line. -/
theorem Table.stat (h : Table hashcode m tab rows) :
    ∃ lines, symtabStat m tab true = .ok ⟨tab.numBin, tab.numEntry, lines⟩
      ∧ (lines.flatMap StatLine.printed).Perm
        (rows.map fun r => (r.sym, r.data))
      ∧ ∀ i line, lines[i]? = some line →
        line.len = BitVec.ofNat 32 line.printed.length
        ∧ ∀ x ∈ line.printed, (hashcode x.1 % tab.numBin).toNat = i := by
  obtain ⟨chains, hb, hperm⟩ := h.chains
  have hprinted : ∀ r ∈ rows, printedOf m r.entry = (r.sym, r.data) := by
    intro r hr
    obtain ⟨c, hc⟩ := h.cells r hr
    unfold printedOf
    rw [hc]
  refine ⟨chains.map (lineOf m), ?_, ?_, ?_⟩
  · unfold symtabStat
    rw [h.lines hb hperm]
    rfl
  · have hflat : (chains.map (lineOf m)).flatMap StatLine.printed
        = chains.flatten.map (printedOf m) := by
      rw [List.flatMap_map, List.map_flatten]
      rfl
    have hrows : (rows.map Row.entry).map (printedOf m)
        = rows.map fun r => (r.sym, r.data) := by
      rw [List.map_map]
      exact List.map_congr_left hprinted
    rw [hflat, ← hrows]
    exact hperm.map (printedOf m)
  · intro i line hline
    rw [List.getElem?_map] at hline
    obtain ⟨l, hl, rfl⟩ := Option.map_eq_some_iff.mp hline
    refine ⟨?_, fun x hx => ?_⟩
    · show BitVec.ofNat 32 l.length = BitVec.ofNat 32 (l.map _).length
      rw [List.length_map]
    · obtain ⟨p, hp, rfl⟩ := List.mem_map.mp hx
      have hin := hperm.mem_iff.mp (mem_flatten_of_getElem? hl hp)
      obtain ⟨r, hr, rfl⟩ := List.mem_map.mp hin
      obtain ⟨c, hc⟩ := h.cells r hr
      have hhome := hb.home i l hl r.entry hp
      unfold slotOf at hhome
      rw [(entry_ok hc).2.2] at hhome
      rw [hprinted r hr]
      exact hhome

end UdeBench.Npr.SymbolTable
