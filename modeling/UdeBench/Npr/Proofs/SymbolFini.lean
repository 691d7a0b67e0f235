/-
The symbols have one life: `npr_symbol_finish` frees every block there is,
each of them once, and the table; but it leaves `init` set, so a second
`npr_symbol_init` makes no second table, and whatever is interned, or
finished, then uses the one that is gone.

A program goes through three phases (`Phase`), and its calls succeed
exactly as far as the phases go (`life_iff`).
-/
import Mathlib.Data.List.Perm.Subperm
import UdeBench.Npr.SymbolFini
import UdeBench.Npr.Proofs.Symbol

namespace UdeBench.Npr.Symbols

open Hashing

variable {toUnsigned : Byte → Word} {s : State} {rows : List Row}

-- ================================================================ the blocks

/-- The string of a symbol, and the symbol of a backet. -/
def strOf (s : State) (p : Ptr) : Ptr :=
  match s.blocks[p]? with
  | some (.symbol x) => x.symstr
  | _ => 0

def symOf (s : State) (b : Ptr) : Ptr :=
  match s.blocks[b]? with
  | some (.backet x) => x.value
  | _ => 0

/-- The three blocks behind a backet, in the order they are freed. -/
def blocksOf (s : State) (b : Ptr) : List Ptr :=
  [strOf s (symOf s b), symOf s b, b]

/-- What the blocks of a row are. -/
theorem Row.Ok.blocks {r : Row} (h : r.Ok toUnsigned s) :
    ∃ q, blocksOf s r.backet = [q, r.sym, r.backet]
      ∧ s.blocks[q]? = some (.string (r.bytes ++ [0]))
      ∧ (∃ x, s.blocks[r.sym]? = some (.symbol x) ∧ x.symstr = q)
      ∧ ∃ chain, s.blocks[r.backet]? = some (.backet ⟨chain, r.sym⟩) := by
  obtain ⟨q, hsym, hstr⟩ := h.symbol
  obtain ⟨chain, hb⟩ := h.backet
  refine ⟨q, ?_, hstr, ⟨_, hsym, rfl⟩, chain, hb⟩
  have hsymOf : symOf s r.backet = r.sym := by
    rw [symOf, hb]
  have hstrOf : strOf s r.sym = q := by
    rw [strOf, hsym]
  rw [blocksOf, hsymOf, hstrOf]

/-- The blocks of a row are three. -/
theorem Row.Ok.blocks_nodup {r : Row} (h : r.Ok toUnsigned s) :
    (blocksOf s r.backet).Nodup := by
  obtain ⟨q, hblocks, hstr, ⟨x, hsym, -⟩, chain, hb⟩ := h.blocks
  have hqs : q ≠ r.sym := by
    rintro rfl
    rw [hstr] at hsym
    cases hsym
  have hqb : q ≠ r.backet := by
    rintro rfl
    rw [hstr] at hb
    cases hb
  have hsb : r.sym ≠ r.backet := by
    intro heq
    rw [heq, hb] at hsym
    cases hsym
  rw [hblocks]
  simp [hqs, hqb, hsb]

/-- Two strings have no block in common. -/
theorem Row.Ok.blocks_disjoint {r r' : Row} (h : r.Ok toUnsigned s)
    (h' : r'.Ok toUnsigned s) (hne : r.bytes ≠ r'.bytes) :
    List.Disjoint (blocksOf s r.backet) (blocksOf s r'.backet) := by
  obtain ⟨q, hblocks, hstr, ⟨x, hsym, hxq⟩, chain, hb⟩ := h.blocks
  obtain ⟨q', hblocks', hstr', ⟨x', hsym', hxq'⟩, chain', hb'⟩ := h'.blocks
  have hsyms : r.sym ≠ r'.sym := by
    intro heq
    have hdesc := h'.symbol
    rw [← heq] at hdesc
    exact hne (h.symbol.inj hdesc)
  have hstrs : q ≠ q' := by
    rintro rfl
    rw [hstr] at hstr'
    exact hne (List.append_cancel_right
      (Block.string.inj (Option.some.inj hstr')))
  have hbackets : r.backet ≠ r'.backet := by
    intro heq
    rw [heq, hb'] at hb
    exact hsyms (congrArg Backet.value
      (Block.backet.inj (Option.some.inj hb))).symm
  rw [hblocks, hblocks']
  intro p hp hp'
  simp only [List.mem_cons, List.not_mem_nil, or_false] at hp hp'
  -- a block of one kind is none of another
  rcases hp with rfl | rfl | rfl <;> rcases hp' with heq | heq | heq
  · exact hstrs heq
  · rw [heq, hsym'] at hstr
    cases hstr
  · rw [heq, hb'] at hstr
    cases hstr
  · rw [heq, hstr'] at hsym
    cases hsym
  · exact hsyms heq
  · rw [heq, hb'] at hsym
    cases hsym
  · rw [heq, hstr'] at hb
    cases hb
  · rw [heq, hsym'] at hb
    cases hb
  · exact hbackets heq

theorem Row.Ok.blocks_lt {r : Row} (h : r.Ok toUnsigned s) {p : Ptr}
    (hp : p ∈ blocksOf s r.backet) : p < s.blocks.length := by
  obtain ⟨q, hblocks, hstr, ⟨x, hsym, -⟩, chain, hb⟩ := h.blocks
  rw [hblocks] at hp
  simp only [List.mem_cons, List.not_mem_nil, or_false] at hp
  rcases hp with rfl | rfl | rfl
  · exact (List.getElem?_eq_some_iff.mp hstr).1
  · exact (List.getElem?_eq_some_iff.mp hsym).1
  · exact (List.getElem?_eq_some_iff.mp hb).1

/-- The blocks of the rows are the blocks there are, each of them once. -/
theorem Inv.blocks_perm (h : Inv toUnsigned s rows) {bs : List Ptr}
    (hbs : bs.Perm (rows.map Row.backet)) :
    (bs.flatMap (blocksOf s)).Perm (List.range s.blocks.length) := by
  have hperm := hbs.flatMap_right (blocksOf s)
  rw [List.flatMap_map] at hperm
  refine hperm.trans ?_
  have hnodup : (rows.flatMap fun r => blocksOf s r.backet).Nodup := by
    refine List.nodup_flatMap.mpr ⟨fun r hr => (h.ok r hr).blocks_nodup, ?_⟩
    refine (List.pairwise_map.mp h.bytes).imp_of_mem ?_
    intro r r' hr hr' hne
    exact (h.ok r hr).blocks_disjoint (h.ok r' hr') hne
  have hsub : (rows.flatMap fun r => blocksOf s r.backet)
      ⊆ List.range s.blocks.length := by
    intro p hp
    obtain ⟨r, hr, hpr⟩ := List.mem_flatMap.mp hp
    exact List.mem_range.mpr ((h.ok r hr).blocks_lt hpr)
  have hlength : (rows.flatMap fun r => blocksOf s r.backet).length
      = s.blocks.length := by
    rw [h.blocks, List.length_flatMap]
    simp [blocksOf, Nat.mul_comm]
  refine (List.subperm_of_subset hnodup hsub).perm_of_length_le ?_
  rw [List.length_range, hlength]

-- =================================================================== the walk

theorem Life.read_ok {α : Type} {l : Life} {p : Ptr} {a : α}
    (hp : p ∉ l.freed) : l.read p (.ok a) = .ok a := by
  rw [Life.read, if_neg hp]
  rfl

theorem Life.free_ok {l : Life} {p : Ptr} (hp : p ∉ l.freed)
    (hlt : p < l.state.blocks.length) :
    l.free p = .ok { l with freed := l.freed ++ [p] } := by
  rw [Life.free, if_neg (not_or.mpr ⟨hp, Nat.not_le.mpr hlt⟩)]

/-- The three blocks behind a backet that has a row, freed. -/
theorem finishChain_cons {r : Row} (hr : r.Ok toUnsigned s)
    {freed : List Ptr} {gone : Bool} (fuel : Nat)
    (hnodup : (freed ++ blocksOf s r.backet).Nodup) :
    finishChain (fuel + 1) ⟨s, freed, gone⟩ (some r.backet)
      = finishChain fuel ⟨s, freed ++ blocksOf s r.backet, gone⟩
        (next s r.backet) := by
  obtain ⟨q, hblocks, hstr, ⟨x, hsym, rfl⟩, chain, hb⟩ := hr.blocks
  have hlt : ∀ p ∈ blocksOf s r.backet, p < s.blocks.length :=
    fun p hp => hr.blocks_lt hp
  rw [hblocks] at hnodup hlt ⊢
  obtain ⟨-, hthree, hdisjoint⟩ := List.nodup_append'.mp hnodup
  simp only [List.nodup_cons, List.mem_cons, List.not_mem_nil, or_false,
    not_or] at hthree
  obtain ⟨⟨hqs, hqb⟩, hsb, -⟩ := hthree
  have hq : x.symstr ∉ freed := fun hmem => hdisjoint hmem (by simp)
  have hs : r.sym ∉ freed := fun hmem => hdisjoint hmem (by simp)
  have hbf : r.backet ∉ freed := fun hmem => hdisjoint hmem (by simp)
  have hreadb : s.backet r.backet = .ok ⟨chain, r.sym⟩ := by
    rw [State.backet, hb]
  have hreads : s.symbol r.sym = .ok x := by
    rw [State.symbol, hsym]
  have hnext : next s r.backet = chain := by
    rw [next, hb]
  rw [hnext]
  show (Life.read ⟨s, freed, gone⟩ r.backet (s.backet r.backet) >>= _) = _
  rw [hreadb, Life.read_ok hbf]
  show (Life.read ⟨s, freed, gone⟩ r.sym (s.symbol r.sym) >>= _) = _
  rw [hreads, Life.read_ok hs]
  show (Life.free ⟨s, freed, gone⟩ x.symstr >>= _) = _
  rw [Life.free_ok hq (hlt _ (by simp))]
  show (Life.free ⟨s, freed ++ [x.symstr], gone⟩ r.sym >>= _) = _
  rw [Life.free_ok (by simp [hs, Ne.symm hqs]) (hlt _ (by simp))]
  show (Life.free ⟨s, freed ++ [x.symstr] ++ [r.sym], gone⟩ r.backet
    >>= _) = _
  rw [Life.free_ok (by simp [hbf, Ne.symm hqb, Ne.symm hsb])
    (hlt _ (by simp))]
  show finishChain fuel ⟨s, freed ++ [x.symstr] ++ [r.sym] ++ [r.backet],
    gone⟩ chain = _
  rw [List.append_assoc, List.append_assoc]
  rfl

/-- A chain of backets that have rows, freed. -/
theorem finishChain_ok {l : List Ptr} {g : Option Ptr} {freed : List Ptr}
    {gone : Bool} {fuel : Nat} (hchain : Chain (next s) g l)
    (hrows : ∀ b ∈ l, ∃ r : Row, r.Ok toUnsigned s ∧ r.backet = b)
    (hnodup : (freed ++ l.flatMap (blocksOf s)).Nodup)
    (hfuel : l.length ≤ fuel) :
    finishChain fuel ⟨s, freed, gone⟩ g
      = .ok ⟨s, freed ++ l.flatMap (blocksOf s), gone⟩ := by
  induction l generalizing g freed fuel with
  | nil =>
      rw [show g = none from hchain, List.flatMap_nil, List.append_nil]
      cases fuel <;> rfl
  | cons b l ih =>
      obtain ⟨rfl, htail⟩ := hchain
      obtain ⟨fuel, rfl⟩ :=
        Nat.exists_eq_succ_of_ne_zero (Nat.ne_zero_of_lt hfuel)
      obtain ⟨r, hr, rfl⟩ := hrows b List.mem_cons_self
      rw [List.flatMap_cons, ← List.append_assoc] at hnodup ⊢
      rw [finishChain_cons hr fuel hnodup.of_append_left]
      exact ih htail (fun b hb => hrows b (List.mem_cons_of_mem _ hb))
        hnodup (Nat.le_of_succ_le_succ hfuel)

/-- The slots before the `n`-th, freed. -/
theorem Inv.finishBins (h : Inv toUnsigned s rows) {chains : List (List Ptr)}
    (hb : Buckets (next s) (slotOf s) s.backets chains)
    (hperm : chains.flatten.Perm (rows.map Row.backet)) {n : Nat}
    (hn : n ≤ 173) :
    (List.range n).foldlM finishBin ⟨s, [], false⟩
      = .ok ⟨s, (chains.take n).flatten.flatMap (blocksOf s), false⟩ := by
  induction n with
  | zero => rfl
  | succ n ih =>
      have hlt : n < s.backets.length := by
        rw [h.bins]
        omega
      obtain ⟨l, hl, hchain⟩ := hb.chain_at (List.getElem?_eq_getElem hlt)
      have htake : chains.take (n + 1) = chains.take n ++ [l] := by
        rw [List.take_add_one, hl]
        rfl
      have hrows : ∀ b ∈ l, ∃ r : Row, r.Ok toUnsigned s
          ∧ r.backet = b := by
        intro b hbl
        obtain ⟨r, hr, rfl⟩ := List.mem_map.mp
          (hperm.mem_iff.mp (mem_flatten_of_getElem? hl hbl))
        exact ⟨r, h.ok r hr, rfl⟩
      -- what is freed so far is a part of all there is
      have hprefix : (chains.take (n + 1)).flatten.flatMap (blocksOf s)
          <+: chains.flatten.flatMap (blocksOf s) := by
        conv_rhs => rw [← List.take_append_drop (n + 1) chains,
          List.flatten_append, List.flatMap_append]
        exact List.prefix_append _ _
      have hnodup := ((h.blocks_perm hperm).nodup_iff.mpr
        List.nodup_range).sublist hprefix.sublist
      have hfuel : l.length ≤ s.blocks.length := by
        have hsub :=
          (List.sublist_flatten_of_mem (List.mem_of_getElem? hl)).length_le
        have hrowsLen := hperm.length_eq
        rw [List.length_map] at hrowsLen
        have hblocks := h.blocks
        omega
      rw [htake, List.flatten_append, List.flatten_singleton,
        List.flatMap_append] at hnodup ⊢
      rw [List.range_succ, List.foldlM_append, ih (by omega)]
      show (finishBin ⟨s, _, false⟩ n >>= pure) = _
      have hbin : Life.bin ⟨s, (chains.take n).flatten.flatMap (blocksOf s),
          false⟩ n = .ok s.backets[n] := by
        show ((s.bin n).mapError LifeError.sym) = _
        rw [State.bin, List.getElem?_eq_getElem hlt]
        rfl
      unfold finishBin
      rw [hbin]
      show (finishChain s.blocks.length _ s.backets[n] >>= pure) = _
      rw [finishChain_ok hchain hrows hnodup hfuel]
      rfl

/-- `npr_symbol_finish` frees every block once, and the table. -/
theorem Inv.finish (h : Inv toUnsigned s rows) :
    ∃ freed, symbolFinish ⟨s, [], false⟩ = .ok ⟨s, freed, true⟩
      ∧ freed.Perm (List.range s.blocks.length) := by
  obtain ⟨chains, hb, hperm⟩ := h.chains
  have hlength : chains.length = 173 := by
    rw [← hb.chain.length_eq, h.bins]
  have hbins := h.finishBins hb hperm (Nat.le_refl 173)
  rw [List.take_of_length_le (by omega)] at hbins
  refine ⟨chains.flatten.flatMap (blocksOf s), ?_, h.blocks_perm hperm⟩
  unfold symbolFinish
  rw [hbins]
  rfl

-- =================================================================== phases

/-- What a program has done to its symbols. -/
inductive Phase
  | fresh | opened | finished
deriving DecidableEq, Repr

/-- The phase after a call, if the call is in order. -/
def LifeCall.phase : Phase → LifeCall → Option Phase
  | .fresh, init => some .opened
  | .opened, init => some .opened
  | .opened, intern _ => some .opened
  | .opened, finish => some .finished
  | .finished, init => some .finished
  | _, _ => none

/-- What is interned is what a caller may. -/
def LifeCall.Valid (toUnsigned : Byte → Word) : LifeCall → Prop
  | intern c => c.Valid toUnsigned
  | _ => True

instance (c : LifeCall) : Decidable (c.Valid toUnsigned) := by
  unfold LifeCall.Valid
  cases c <;> exact inferInstance

/-- A state in each of the phases: nothing made, nothing freed, or nothing
left. -/
def Phase.Holds (toUnsigned : Byte → Word) (l : Life) : Phase → Prop
  | .fresh => l = ⟨⟨[], false, 0, []⟩, [], false⟩
  | .opened => l.freed = [] ∧ l.tableFreed = false
      ∧ ∃ rows, Inv toUnsigned l.state rows
  | .finished => l.freed.Perm (List.range l.state.blocks.length)
      ∧ l.tableFreed = true ∧ l.state.init = true

/-- Nothing is interned in a table that is not there. -/
theorem intern_fresh (c : InternCall) :
    c.exec toUnsigned ⟨[], false, 0, []⟩ = .error .outOfBounds := by
  cases c <;> rfl

/-- A call that is in order succeeds, and one that is not does not. -/
theorem Phase.Holds.exec {ph : Phase} {l : Life}
    (h : ph.Holds toUnsigned l) {c : LifeCall}
    (hc : c.Valid toUnsigned) :
    match c.phase ph with
    | some ph' => ∃ l', c.exec toUnsigned l = .ok l'
        ∧ ph'.Holds toUnsigned l'
    | none => ∃ e, c.exec toUnsigned l = .error e := by
  cases ph with
  | fresh =>
      subst h
      cases c with
      | init => exact ⟨_, rfl, rfl, rfl, [], symbolInit_inv⟩
      | intern c =>
          refine ⟨.sym .outOfBounds, ?_⟩
          show ((c.exec toUnsigned ⟨[], false, 0, []⟩).mapError LifeError.sym
            >>= _) = _
          rw [intern_fresh]
          rfl
      | finish => exact ⟨_, rfl⟩
  | opened =>
      obtain ⟨hfreed, htable, rows, hinv⟩ := h
      cases c with
      | init =>
          refine ⟨_, rfl, hfreed, htable, rows, ?_⟩
          show Inv toUnsigned (symbolInit l.state) rows
          rw [symbolInit, if_pos hinv.init]
          exact hinv
      | intern c =>
          obtain ⟨s', rows', r, -, hexec, hinv', -⟩ := exec_ok hinv hc
          refine ⟨{ l with state := s' }, ?_, hfreed, htable, rows', hinv'⟩
          show (if l.tableFreed then _ else _) = _
          rw [htable, hexec]
          rfl
      | finish =>
          obtain ⟨freed, hfinish, hperm⟩ := hinv.finish
          obtain ⟨s, freed₀, gone⟩ := l
          cases hfreed
          cases htable
          exact ⟨_, hfinish, hperm, rfl, hinv.init⟩
  | finished =>
      obtain ⟨hperm, htable, hinit⟩ := h
      cases c with
      | init =>
          refine ⟨l, ?_, hperm, htable, hinit⟩
          show Except.ok { l with state := symbolInit l.state } = _
          rw [symbolInit, if_pos hinit]
      | intern c =>
          refine ⟨.gone, ?_⟩
          show (if l.tableFreed then _ else _) = _
          rw [htable]
          rfl
      | finish =>
          refine ⟨.gone, ?_⟩
          show symbolFinish l = _
          have hbin : l.bin 0 = .error .gone := by
            rw [Life.bin, htable]
            rfl
          unfold symbolFinish
          rw [show List.range 173 = 0 :: (List.range 172).map (· + 1) from
            List.range_succ_eq_map, List.foldlM_cons, finishBin, hbin]
          rfl

/-- The calls of a program succeed as long as they are in order. What was
made is then there, or freed, each block once. -/
theorem symbol_life (toUnsigned : Byte → Word) {cs : List LifeCall}
    (hcs : ∀ c ∈ cs, c.Valid toUnsigned) :
    match cs.foldlM LifeCall.phase .fresh with
    | some ph => ∃ l, lifeRun toUnsigned cs = .ok l
        ∧ ph.Holds toUnsigned l
    | none => ∃ e, lifeRun toUnsigned cs = .error e := by
  have hrun : ∀ (cs : List LifeCall) (ph : Phase) (l : Life),
      ph.Holds toUnsigned l → (∀ c ∈ cs, c.Valid toUnsigned) →
      match cs.foldlM LifeCall.phase ph with
      | some ph' => ∃ l', cs.foldlM (LifeCall.exec toUnsigned) l = .ok l'
          ∧ ph'.Holds toUnsigned l'
      | none => ∃ e, cs.foldlM (LifeCall.exec toUnsigned) l = .error e := by
    intro cs
    induction cs with
    | nil =>
        intro ph l h _
        exact ⟨l, rfl, h⟩
    | cons c cs ih =>
        intro ph l h hcs
        have hcall := h.exec (hcs c List.mem_cons_self)
        rw [List.foldlM_cons, List.foldlM_cons]
        cases hph : c.phase ph with
        | none =>
            rw [hph] at hcall
            obtain ⟨e, he⟩ := hcall
            refine ⟨e, ?_⟩
            rw [he]
            rfl
        | some ph₁ =>
            rw [hph] at hcall
            obtain ⟨l₁, hl₁, h₁⟩ := hcall
            rw [hl₁]
            exact ih ph₁ l₁ h₁ fun c' hc' =>
              hcs c' (List.mem_cons_of_mem _ hc')
  exact hrun cs .fresh _ rfl hcs

/-- A string interned, all freed; a second string is one too many. -/
theorem symbol_life_twice :
    (∃ l, lifeRun (BitVec.setWidth 32) [.init, .intern (.intern [97]),
        .finish, .init] = .ok l
      ∧ l.freed.Perm (List.range l.state.blocks.length))
    ∧ ∃ e, lifeRun (BitVec.setWidth 32) [.init, .intern (.intern [97]),
        .finish, .init, .intern (.intern [98])] = .error e := by
  obtain ⟨l, hl, hperm, -⟩ := symbol_life (BitVec.setWidth 32)
    (show ∀ c ∈ [LifeCall.init, .intern (.intern [97]), .finish, .init],
      c.Valid (BitVec.setWidth 32) by decide)
  exact ⟨⟨l, hl, hperm⟩, symbol_life (BitVec.setWidth 32)
    (show ∀ c ∈ [LifeCall.init, .intern (.intern [97]), .finish, .init,
        .intern (.intern [98])],
      c.Valid (BitVec.setWidth 32) by decide)⟩

end UdeBench.Npr.Symbols
