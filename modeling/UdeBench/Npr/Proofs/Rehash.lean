/-
The parts of a lookup that make a new entry: the chunks of elements, the
size of the new table, and the two loops that move the entries to it.

The elements are numbered chunk after chunk (`elemAt`), the order in which
a chunk is linked. `new_size` walks a table of primes that ends with one
above 2^30: from any size below that it finds the next, and the last would
be full only with more entries than an `int` counts. The loops move one
entry at a time in front of its new chain (`relinkChain_ok`), and what
they change in the entries is the link alone (`Relinked`).
-/
import UdeBench.Lib.Buckets
import UdeBench.Npr.Symtab

namespace UdeBench.Npr.SymbolTable

open Hashing

-- ============================================================ the chunks

/-- The `n`-th element. -/
def elemAt (n : Nat) : ElemPtr := ⟨n / 512, n % 512⟩

theorem elemAt_inj {n k : Nat} (h : elemAt n = elemAt k) : n = k := by
  unfold elemAt at h
  obtain ⟨hdiv, hmod⟩ := ElemPtr.mk.inj h
  omega

@[simp] theorem set_self (m : Elems) (p : ElemPtr) (x : Elem) :
    m.set p x p = x := if_pos rfl

theorem set_other (m : Elems) {p q : ElemPtr} (x : Elem) (h : q ≠ p) :
    m.set p x q = m q := if_neg h

/-- The free chain in the middle of a chunk. Induction on the elements
linked. -/
theorem linkLoop_apply (m : Elems) (c k : Nat) (p : ElemPtr) :
    (List.range k).foldl
        (fun m i => Elems.set m ⟨c, i⟩ (.free (some ⟨c, i + 1⟩))) m p
      = if p.chunk = c ∧ p.idx < k then .free (some ⟨c, p.idx + 1⟩)
        else m p := by
  induction k with
  | zero =>
      rw [if_neg (by omega)]
      rfl
  | succ k ih =>
      rw [List.range_succ, List.foldl_append]
      by_cases hp : p = ⟨c, k⟩
      · subst hp
        rw [if_pos ⟨rfl, Nat.lt_succ_self k⟩]
        exact set_self _ _ _
      · have hother := set_other ((List.range k).foldl
          (fun m i => Elems.set m ⟨c, i⟩ (.free (some ⟨c, i + 1⟩))) m)
          (.free (some ⟨c, k + 1⟩)) hp
        refine hother.trans (ih.trans ?_)
        have hne : ¬ (p.chunk = c ∧ p.idx = k) := by
          rintro ⟨hc, hk⟩
          exact hp (by
            obtain ⟨chunk, idx⟩ := p
            cases hc
            cases hk
            rfl)
        congr 1
        apply propext
        omega

/-- A chunk as it is made. -/
theorem allocChunk_apply (m : Elems) (c : Nat) (p : ElemPtr) :
    allocChunk m c 512 p
      = if p.chunk = c ∧ p.idx < 512 then
          .free (if p.idx + 1 < 512 then some ⟨c, p.idx + 1⟩ else none)
        else m p := by
  unfold allocChunk
  by_cases hp : p = ⟨c, 511⟩
  · subst hp
    rw [if_pos ⟨rfl, Nat.lt_succ_self 511⟩]
    exact set_self _ _ _
  · refine (set_other _ _ hp).trans ((linkLoop_apply m c 511 p).trans ?_)
    have hne : ¬ (p.chunk = c ∧ p.idx = 511) := by
      rintro ⟨hc, hk⟩
      exact hp (by
        obtain ⟨chunk, idx⟩ := p
        cases hc
        cases hk
        rfl)
    by_cases hin : p.chunk = c ∧ p.idx < 511
    · rw [if_pos hin, if_pos (by omega), if_pos (by omega)]
    · rw [if_neg hin, if_neg (by omega)]

-- ============================================================== the sizes

/-- The sizes a table can have. -/
def sizes : List Word := primes.take 28

theorem sizes_pos {p : Word} (hp : p ∈ sizes) :
    0 < p.toNat ∧ p.toNat < 2 ^ 31 := by
  have hall : sizes.all fun p => 0 < p.toNat ∧ p.toNat < 2 ^ 31 := by
    decide +kernel
  simpa using List.all_eq_true.mp hall p hp

/-- The loop ends at the first power that is large enough, at the
latest. Induction on the primes. -/
theorem newSizeFrom_ok {size : Word} : ∀ (ps : List Word) (n : Word) (k : Nat),
    k < ps.length → size.slt (n <<< k) = true →
    ∃ p ∈ ps.take (k + 1), newSizeFrom size ps n = .ok p := by
  intro ps
  induction ps with
  | nil => intro n k hk _; cases hk
  | cons p ps ih =>
      intro n k hk hslt
      unfold newSizeFrom
      by_cases hfirst : size.slt n = true
      · rw [if_pos hfirst]
        exact ⟨p, List.mem_cons_self, rfl⟩
      · rw [if_neg hfirst]
        cases k with
        | zero =>
            rw [BitVec.shiftLeft_zero] at hslt
            exact absurd hslt hfirst
        | succ k =>
            have hshift : n <<< 1 <<< k = n <<< (k + 1) := by
              rw [← BitVec.shiftLeft_add, Nat.add_comm]
            obtain ⟨q, hq, hok⟩ := ih (n <<< 1) k
              (Nat.lt_of_succ_lt_succ hk) (by rwa [hshift])
            exact ⟨q, List.mem_cons_of_mem _ hq, hok⟩

/-- Below 2^30 there is a size. -/
theorem newSize_ok {size : Word} (h : size.toInt < 2 ^ 30) :
    ∃ p ∈ sizes, newSize size = .ok p := by
  refine newSizeFrom_ok primes minSize 27 (by decide) ?_
  have hlast : (minSize <<< 27).toInt = 2 ^ 30 := by decide
  rw [BitVec.slt_iff_toInt_lt, hlast]
  exact h

/-- The table grows to a larger size, but for the last. -/
theorem newSize_next {p : Word} (hp : p ∈ sizes) (hlt : p.toNat < 2 ^ 30) :
    ∃ q ∈ sizes, newSize (p + 1) = .ok q ∧ p.toNat < q.toNat := by
  have hall : sizes.all fun p => 2 ^ 30 ≤ p.toNat
      || match newSize (p + 1) with
        | .ok q => sizes.contains q && decide (p.toNat < q.toNat)
        | .error _ => false := by
    decide +kernel
  have hnext := List.all_eq_true.mp hall p hp
  rw [decide_eq_false (by omega), Bool.false_or] at hnext
  cases hq : newSize (p + 1) with
  | error e =>
      rw [hq] at hnext
      cases hnext
  | ok q =>
      rw [hq, Bool.and_eq_true] at hnext
      exact ⟨q, by simpa using hnext.1, rfl, by simpa using hnext.2⟩

-- ============================================================ the chains

/-- The link of an entry. -/
def link (m : Elems) (p : ElemPtr) : Option ElemPtr :=
  match m p with
  | .used e => e.chain
  | .free _ => none

/-- The symbol of an entry. -/
def symOf (m : Elems) (p : ElemPtr) : Sym :=
  match m p with
  | .used e => e.sym
  | .free _ => 0

theorem entry_ok {m : Elems} {p : ElemPtr} {x : Entry} (h : m p = .used x) :
    m.entry p = .ok x ∧ link m p = x.chain ∧ symOf m p = x.sym := by
  unfold Elems.entry link symOf
  rw [h]
  exact ⟨rfl, rfl, rfl⟩

/-- A change of links alone, within a list. -/
def Relinked (l : List ElemPtr) (m m' : Elems) : Prop :=
  ∀ p, m' p = m p ∨ p ∈ l ∧ ∃ x c, m p = .used x
    ∧ m' p = .used { x with chain := c }

theorem Relinked.refl (l : List ElemPtr) (m : Elems) : Relinked l m m :=
  fun _ => .inl rfl

theorem Relinked.trans {l : List ElemPtr} {m m' m'' : Elems}
    (h : Relinked l m m') (h' : Relinked l m' m'') : Relinked l m m'' := by
  intro p
  rcases h p with heq | ⟨hp, x, c, hx, hx'⟩
  · rcases h' p with heq' | ⟨hp', x', c', hx, hx'⟩
    · exact .inl (heq'.trans heq)
    · exact .inr ⟨hp', x', c', heq.symm.trans hx, hx'⟩
  · rcases h' p with heq' | ⟨_, x', c', hy, hy'⟩
    · exact .inr ⟨hp, x, c, hx, heq'.trans hx'⟩
    · have hsame := Elem.used.inj (hx'.symm.trans hy)
      refine .inr ⟨hp, x, c', hx, hy'.trans ?_⟩
      rw [← hsame]

theorem Relinked.mono {l l' : List ElemPtr} {m m' : Elems}
    (h : Relinked l m m') (hl : ∀ p ∈ l, p ∈ l') : Relinked l' m m' :=
  fun p => (h p).imp_right fun hp => ⟨hl p hp.1, hp.2⟩

/-- Elsewhere nothing changes. -/
theorem Relinked.off {l : List ElemPtr} {m m' : Elems}
    (h : Relinked l m m') {p : ElemPtr} (hp : p ∉ l) : m' p = m p :=
  (h p).resolve_right fun hin => hp hin.1

/-- The symbols stay. -/
theorem Relinked.symOf {l : List ElemPtr} {m m' : Elems}
    (h : Relinked l m m') (p : ElemPtr) :
    SymbolTable.symOf m' p = SymbolTable.symOf m p := by
  unfold SymbolTable.symOf
  rcases h p with heq | ⟨_, x, c, hx, hx'⟩
  · rw [heq]
  · rw [hx, hx']

/-- Entries stay entries, with their symbol and data. -/
theorem Relinked.used {l : List ElemPtr} {m m' : Elems}
    (h : Relinked l m m') {p : ElemPtr} {x : Entry} (hx : m p = .used x) :
    ∃ c, m' p = .used { x with chain := c } := by
  rcases h p with heq | ⟨_, y, c, hy, hy'⟩
  · exact ⟨x.chain, heq.trans hx⟩
  · have hsame := Elem.used.inj (hy.symm.trans hx)
    subst hsame
    exact ⟨c, hy'⟩

variable (hashcode : Sym → Word)

/-- The index of an entry in a table of `size` slots. -/
def slotOf (m : Elems) (size : Word) (p : ElemPtr) : Nat :=
  (hashcode (symOf m p) % size).toNat

variable {hashcode} {size : Word}

theorem slotOf_lt (hsize : 0 < size.toNat) (x : Word) :
    (x % size).toNat < size.toNat := by
  rw [BitVec.toNat_umod]
  exact Nat.mod_lt _ hsize

/-- A slot of an array that is long enough. -/
theorem readBin_ok {bins : List (Option ElemPtr)} {i : Nat}
    (h : i < bins.length) : ∃ g, readBin bins i = .ok g ∧ bins[i]? = some g := by
  refine ⟨bins[i], ?_, List.getElem?_eq_getElem h⟩
  unfold readBin
  rw [List.getElem?_eq_getElem h]

/-- A chain moved to the new array: one entry after the other comes in
front of its chain there. Induction on the chain. -/
theorem relinkChain_ok (hsize : 0 < size.toNat) :
    ∀ (l : List ElemPtr) {fuel : Nat} {h : Option ElemPtr} {m : Elems}
      {new : List (Option ElemPtr)} {chains : List (List ElemPtr)},
      l.length ≤ fuel → Chain (link m) h l →
      (∀ p ∈ l, ∃ x, m p = .used x) → l.Nodup →
      (∀ p ∈ l, p ∉ chains.flatten) → new.length = size.toNat →
      Buckets (link m) (slotOf hashcode m size) new chains →
      ∃ m' new' chains',
        relinkChain hashcode size fuel h m new = .ok (m', new')
        ∧ Buckets (link m') (slotOf hashcode m' size) new' chains'
        ∧ chains'.flatten.Perm (l ++ chains.flatten)
        ∧ new'.length = size.toNat ∧ Relinked l m m' := by
  intro l
  induction l with
  | nil =>
      intro fuel h m new chains _ hchain _ _ _ hlen hb
      cases hchain
      refine ⟨m, new, chains, ?_, hb, List.Perm.refl _, hlen,
        Relinked.refl _ _⟩
      cases fuel <;> rfl
  | cons p l ih =>
      intro fuel h m new chains hfuel hchain hused hnodup hnew hlen hb
      obtain ⟨rfl, hrest⟩ := hchain
      obtain ⟨hp, hnodup'⟩ := List.nodup_cons.mp hnodup
      obtain ⟨x, hx⟩ := hused p List.mem_cons_self
      obtain ⟨hentry, hlink, hsym⟩ := entry_ok hx
      have hlt := slotOf_lt hsize (hashcode x.sym)
      obtain ⟨head, hread, hget⟩ :=
        readBin_ok (show (hashcode x.sym % size).toNat < new.length by omega)
      cases fuel with
      | zero => simp at hfuel
      | succ fuel =>
          -- the entry in front of its new chain
          have hmoved : Relinked [p] m
              (m.set p (.used { x with chain := head })) := by
            intro q
            by_cases hq : q = p
            · subst hq
              exact .inr ⟨List.mem_singleton.mpr rfl, x, head, hx,
                set_self _ _ _⟩
            · exact .inl (set_other _ _ hq)
          have hoff : ∀ q, q ≠ p →
              m.set p (.used { x with chain := head }) q = m q :=
            fun q hq => set_other _ _ hq
          have hkeep : ∀ q, q ≠ p →
              link (m.set p (.used { x with chain := head })) q = link m q := by
            intro q hq
            unfold link
            rw [hoff q hq]
          obtain ⟨chains₁, hb₁, hperm₁⟩ := hb.pushHead
            (link (m.set p (.used { x with chain := head })))
            (slotOf hashcode (m.set p (.used { x with chain := head })) size)
            hget (hnew p List.mem_cons_self)
            (by
              unfold slotOf
              rw [hmoved.symOf, hsym])
            (entry_ok (set_self m p (.used { x with chain := head }))).2.1
            (fun q hq => hkeep q (by
              rintro rfl
              exact hnew q List.mem_cons_self hq))
            (fun q _ => by
              unfold slotOf
              rw [hmoved.symOf])
          obtain ⟨m', new', chains', hok, hb', hperm', hlen', hrel⟩ :=
            ih (h := x.chain) (m := m.set p (.used { x with chain := head }))
              (Nat.le_of_succ_le_succ hfuel)
              ((hlink ▸ hrest).congr fun q hq => hkeep q (by
                rintro rfl
                exact hp hq))
              (fun q hq => by
                obtain ⟨y, hy⟩ := hused q (List.mem_cons_of_mem _ hq)
                exact ⟨y, (hoff q (by
                  rintro rfl
                  exact hp hq)).trans hy⟩)
              hnodup'
              (fun q hq hin => by
                rcases List.mem_cons.mp (hperm₁.mem_iff.mp hin) with rfl | hin
                · exact hp hq
                · exact hnew q (List.mem_cons_of_mem _ hq) hin)
              (by rw [List.length_set, hlen]) hb₁
          refine ⟨m', new', chains', ?_, hb', ?_, hlen', ?_⟩
          · unfold relinkChain
            rw [hentry]
            simp only [bind, Except.bind]
            rw [hread]
            exact hok
          · refine hperm'.trans ?_
            refine (hperm₁.append_left l).trans ?_
            exact List.perm_middle
          · refine (hmoved.mono ?_).trans (hrel.mono ?_)
            · intro q hq
              rw [List.mem_singleton.mp hq]
              exact List.mem_cons_self
            · exact fun q hq => List.mem_cons_of_mem _ hq

/-- The rehash: every entry moves to the new array. Induction on the
slots of the old one. -/
theorem relink_ok (hsize : 0 < size.toNat) {fuel : Nat} {old : Word}
    {m : Elems} {bins : List (Option ElemPtr)}
    {chains : List (List ElemPtr)}
    (hb : Buckets (link m) (slotOf hashcode m old) bins chains)
    (hused : ∀ p ∈ chains.flatten, ∃ x, m p = .used x)
    (hfuel : chains.flatten.length ≤ fuel) :
    ∃ m' new' chains', relink hashcode size fuel bins bins.length m
        = .ok (m', new')
      ∧ Buckets (link m') (slotOf hashcode m' size) new' chains'
      ∧ chains'.flatten.Perm chains.flatten
      ∧ new'.length = size.toNat ∧ Relinked chains.flatten m m' := by
  have hloop : ∀ n, n ≤ bins.length → ∃ m' new' chains',
      (List.range n).foldlM
          (fun (s : Elems × List (Option ElemPtr)) i => do
            let e ← readBin bins i
            relinkChain hashcode size fuel e s.1 s.2)
          (m, List.replicate size.toNat none) = .ok (m', new')
        ∧ Buckets (link m') (slotOf hashcode m' size) new' chains'
        ∧ chains'.flatten.Perm (chains.take n).flatten
        ∧ new'.length = size.toNat
        ∧ Relinked (chains.take n).flatten m m' := by
    intro n
    induction n with
    | zero =>
        intro _
        refine ⟨m, List.replicate size.toNat none,
          List.replicate size.toNat [], rfl, Buckets.empty _, ?_, ?_,
          Relinked.refl _ _⟩
        · rw [List.flatten_replicate_nil]
          exact List.Perm.refl _
        · exact List.length_replicate
    | succ n ih =>
        intro hn
        obtain ⟨m', new', chains', hok, hb', hperm, hlen, hrel⟩ :=
          ih (by omega)
        obtain ⟨h, hread, hget⟩ := readBin_ok (show n < bins.length by omega)
        obtain ⟨l, hl, hchain⟩ := hb.chain_at hget
        have htake : chains.take (n + 1) = chains.take n ++ [l] := by
          rw [List.take_add_one, hl]
          rfl
        have hflat : (chains.take (n + 1)).flatten
            = (chains.take n).flatten ++ l := by
          rw [htake, List.flatten_append]
          simp
        have hnodup : ((chains.take n).flatten ++ l).Nodup := by
          rw [← hflat]
          have hall := hb.nodup
          rw [← List.take_append_drop (n + 1) chains,
            List.flatten_append] at hall
          exact (List.nodup_append.mp hall).1
        have hsub : l.Sublist chains.flatten :=
          List.sublist_flatten_of_mem (List.mem_of_getElem? hl)
        obtain ⟨_, hnodupl, hdisj⟩ := List.nodup_append.mp hnodup
        have hoff : ∀ p ∈ l, m' p = m p := fun p hp =>
          hrel.off fun hin => hdisj p hin p hp rfl
        obtain ⟨m'', new'', chains'', hok', hb'', hperm', hlen', hrel'⟩ :=
          relinkChain_ok hsize l (h := h) (m := m')
            (Nat.le_trans hsub.length_le hfuel)
            (hchain.congr fun p hp => by
              unfold link
              rw [hoff p hp])
            (fun p hp => by
              obtain ⟨x, hx⟩ := hused p (hsub.subset hp)
              exact ⟨x, (hoff p hp).trans hx⟩)
            hnodupl
            (fun p hp hin => hdisj p (hperm.mem_iff.mp hin) p hp rfl)
            hlen hb'
        refine ⟨m'', new'', chains'', ?_, hb'', ?_, hlen', ?_⟩
        · rw [List.range_succ, List.foldlM_append, hok]
          simp only [bind, Except.bind, List.foldlM_cons, List.foldlM_nil]
          rw [hread]
          simp only [pure, Except.pure]
          rw [hok']
        · rw [hflat]
          refine hperm'.trans ?_
          exact (hperm.append_left l).trans List.perm_append_comm
        · rw [hflat]
          refine (hrel.mono ?_).trans (hrel'.mono ?_)
          · exact fun p hp => List.mem_append_left _ hp
          · exact fun p hp => List.mem_append_right _ hp
  have hall := hloop bins.length (Nat.le_refl _)
  rw [hb.chain.length_eq, List.take_length] at hall
  unfold relink
  rw [hb.chain.length_eq]
  exact hall

end UdeBench.Npr.SymbolTable
