/-
Interning is injective and stable.

A row is a string that has been interned: its bytes, its symbol and its
backet. `Inv` says that the chains hold the backets of the rows, each in
the chain of its hash, and that no two rows have the same bytes. A call
finds the row of its string or makes it (`internWithHash_ok`), whatever
the entry point: all of them hash the bytes by the same push
(`hash_eq`). Blocks are only added (`Extends`), so what a symbol says
once it says for ever.
-/
import Mathlib.Data.List.Nodup
import UdeBench.Lib.Buckets
import UdeBench.Npr.Symbol

namespace UdeBench.Npr.Symbols

open Hashing

-- ================================================================ the calls

section
variable (toUnsigned : Byte → Word)

/-- The FNV hash of a string, pushed byte by byte. -/
def fnv (bytes : List Byte) : Word :=
  bytes.foldl (symbolHashPush toUnsigned) symbolFnv132aInit

/-- The string of a call. -/
def InternCall.bytes : InternCall → List Byte
  | .intern symstr => symstr.takeWhile (· ≠ 0)
  | .internStr symstr => symstr.takeWhile (· ≠ 0)
  | .internWithLength symstr strLen => symstr.take strLen
  | .internWithHash symstr strLen _ => symstr.take strLen

/-- What a caller keeps to: a string shorter than 2^31, a length within
it, and its hash. -/
def InternCall.Valid (c : InternCall) : Prop :=
  c.bytes.length < 2 ^ 31 ∧
    match c with
    | .internWithLength symstr strLen => strLen ≤ symstr.length
    | .internWithHash symstr strLen hval =>
        strLen ≤ symstr.length ∧ hval = fnv toUnsigned (symstr.take strLen)
    | _ => True

instance (c : InternCall) : Decidable (c.Valid toUnsigned) := by
  unfold InternCall.Valid
  cases c <;> exact inferInstance

end

variable {toUnsigned : Byte → Word}

/-- The loop of `hash` pushes the bytes of the string. -/
theorem hash_eq (symstr : List Byte) {strLen : Nat} (hlt : strLen < 2 ^ 31) :
    hash toUnsigned symstr (BitVec.ofNat 32 strLen)
      = fnv toUnsigned (symstr.take strLen) := by
  have hint : (BitVec.ofNat 32 strLen).toInt.toNat = strLen := by
    rw [BitVec.toInt_eq_toNat_cond, BitVec.toNat_ofNat]
    omega
  unfold hash fnv
  rw [hint]

theorem take_strlen (symstr : List Byte) :
    symstr.take (strlen symstr) = symstr.takeWhile (· ≠ 0) := by
  have hpre := List.takeWhile_prefix (l := symstr) (fun c => decide (c ≠ 0))
  exact (List.prefix_iff_eq_take.mp hpre).symm

theorem strlen_le (symstr : List Byte) : strlen symstr ≤ symstr.length :=
  (List.takeWhile_prefix _).length_le

-- =============================================================== the blocks

/-- The memory grows. -/
def Extends (s s' : State) : Prop :=
  ∀ (p : Ptr) (b : Block), s.blocks[p]? = some b → s'.blocks[p]? = some b

theorem Extends.refl (s : State) : Extends s s := fun _ _ h => h

theorem Extends.trans {s s' s'' : State} (h : Extends s s')
    (h' : Extends s' s'') : Extends s s'' := fun p b hb => h' p b (h p b hb)

section
variable (toUnsigned : Byte → Word)

/-- A symbol describes a string: its bytes with a zero behind them, their
number and their hash. -/
def Describes (s : State) (p : Ptr) (bytes : List Byte) : Prop :=
  ∃ q, s.blocks[p]? = some (.symbol
      ⟨q, BitVec.ofNat 32 bytes.length, fnv toUnsigned bytes⟩)
    ∧ s.blocks[q]? = some (.string (bytes ++ [0]))

end

theorem Describes.extends {s s' : State} {p : Ptr} {bytes : List Byte}
    (h : Describes toUnsigned s p bytes) (hs : Extends s s') :
    Describes toUnsigned s' p bytes := by
  obtain ⟨q, hp, hq⟩ := h
  exact ⟨q, hs _ _ hp, hs _ _ hq⟩

/-- Its string is the one described. -/
theorem Describes.string {s : State} {p : Ptr} {bytes : List Byte}
    {x : NprSymbol} (h : Describes toUnsigned s p bytes)
    (hx : s.blocks[p]? = some (.symbol x)) :
    s.blocks[x.symstr]? = some (.string (bytes ++ [0])) := by
  obtain ⟨q, hp, hq⟩ := h
  rw [hp] at hx
  have hsame := congrArg NprSymbol.symstr
    (Block.symbol.inj (Option.some.inj hx))
  rwa [← hsame]

/-- A symbol describes one string. -/
theorem Describes.inj {s : State} {p : Ptr} {bytes bytes' : List Byte}
    (h : Describes toUnsigned s p bytes)
    (h' : Describes toUnsigned s p bytes') : bytes = bytes' := by
  obtain ⟨q, hp, hq⟩ := h'
  have hstring := h.string hp
  rw [show s.blocks[q]? = some (.string (bytes' ++ [0])) from hq] at hstring
  exact (List.append_cancel_right
    (Block.string.inj (Option.some.inj hstring))).symm

/-- The link of a backet, and the hash of its symbol. -/
def next (s : State) (b : Ptr) : Option Ptr :=
  match s.blocks[b]? with
  | some (.backet x) => x.chain
  | _ => none

def hashOf (s : State) (b : Ptr) : Word :=
  match s.blocks[b]? with
  | some (.backet x) =>
      match s.blocks[x.value]? with
      | some (.symbol y) => y.hashcode
      | _ => 0
  | _ => 0

/-- The index of a backet. -/
def slotOf (s : State) (b : Ptr) : Nat := (hashOf s b % s.numBackets).toNat

-- ============================================================ the invariant

/-- A string that has been interned. -/
structure Row where
  bytes : List Byte
  sym : Ptr
  backet : Ptr

section
variable (toUnsigned : Byte → Word)

/-- What the blocks of a row hold. -/
structure Row.Ok (s : State) (r : Row) : Prop where
  short : r.bytes.length < 2 ^ 31
  symbol : Describes toUnsigned s r.sym r.bytes
  backet : ∃ chain, s.blocks[r.backet]? = some (.backet ⟨chain, r.sym⟩)

/-- The table holds the rows. -/
structure Inv (s : State) (rows : List Row) : Prop where
  init : s.init = true
  numBackets : s.numBackets = 173#32
  bins : s.backets.length = 173
  blocks : s.blocks.length = 3 * rows.length
  ok : ∀ r ∈ rows, r.Ok toUnsigned s
  bytes : (rows.map Row.bytes).Nodup
  chains : ∃ chains, Buckets (next s) (slotOf s) s.backets chains
    ∧ chains.flatten.Perm (rows.map Row.backet)

end

variable {s : State} {rows : List Row}

theorem Row.Ok.extends {s' : State} {r : Row} (h : r.Ok toUnsigned s)
    (hs : Extends s s') : r.Ok toUnsigned s' := by
  obtain ⟨chain, hb⟩ := h.backet
  exact ⟨h.short, h.symbol.extends hs, ⟨chain, hs _ _ hb⟩⟩

/-- What is read of a row's backet. -/
theorem Row.Ok.reads {r : Row} (h : r.Ok toUnsigned s) :
    ∃ chain q, s.backet r.backet = .ok ⟨chain, r.sym⟩
      ∧ next s r.backet = chain
      ∧ hashOf s r.backet = fnv toUnsigned r.bytes
      ∧ s.symbol r.sym = .ok
        ⟨q, BitVec.ofNat 32 r.bytes.length, fnv toUnsigned r.bytes⟩
      ∧ s.string q = .ok (r.bytes ++ [0]) := by
  obtain ⟨chain, hb⟩ := h.backet
  obtain ⟨q, hp, hq⟩ := h.symbol
  refine ⟨chain, q, ?_, ?_, ?_, ?_, ?_⟩
  · unfold State.backet
    rw [hb]
  · unfold next
    rw [hb]
  · unfold hashOf
    rw [hb]
    simp only
    rw [hp]
  · unfold State.symbol
    rw [hp]
  · unfold State.string
    rw [hq]

/-- The comparison of the loop is that of the strings. -/
theorem compare_iff {bytes symstr : List Byte} {strLen : Nat}
    (hbytes : bytes.length < 2 ^ 31) (hlen : strLen ≤ symstr.length) :
    ((BitVec.ofNat 32 bytes.length).toNat = strLen
        ∧ (bytes ++ [0]).take strLen = symstr.take strLen)
      ↔ bytes = symstr.take strLen := by
  have hnat : (BitVec.ofNat 32 bytes.length).toNat = bytes.length := by
    rw [BitVec.toNat_ofNat]
    omega
  rw [hnat]
  constructor
  · rintro ⟨rfl, htake⟩
    rw [List.take_left] at htake
    exact htake
  · intro heq
    have hlength : bytes.length = strLen := by
      rw [heq, List.length_take]
      omega
    refine ⟨hlength, ?_⟩
    rw [← hlength, List.take_left, hlength]
    exact heq

/-- The search along a chain of rows. Induction on the chain. -/
theorem search_ok {symstr : List Byte} {strLen : Nat}
    (hok : ∀ r ∈ rows, r.Ok toUnsigned s) (hlen : strLen ≤ symstr.length) :
    ∀ (l : List Ptr) {fuel : Nat} {h : Option Ptr}, l.length ≤ fuel →
      Chain (next s) h l → (∀ b ∈ l, ∃ r ∈ rows, r.backet = b) →
      (∃ r ∈ rows, r.bytes = symstr.take strLen
          ∧ search s symstr strLen fuel h = .ok (some r.sym))
        ∨ (∀ b ∈ l, ∃ r ∈ rows, r.backet = b ∧ r.bytes ≠ symstr.take strLen)
          ∧ search s symstr strLen fuel h = .ok none := by
  intro l
  induction l with
  | nil =>
      intro fuel h _ hchain _
      cases hchain
      refine .inr ⟨fun b hb => (List.not_mem_nil hb).elim, ?_⟩
      cases fuel <;> rfl
  | cons b l ih =>
      intro fuel h hfuel hchain hrows
      obtain ⟨rfl, hrest⟩ := hchain
      obtain ⟨r, hr, rfl⟩ := hrows b List.mem_cons_self
      obtain ⟨chain, q, hbacket, hnext, _, hsym, hstr⟩ := (hok r hr).reads
      cases fuel with
      | zero => simp at hfuel
      | succ fuel =>
          have hstep : search s symstr strLen (fuel + 1) (some r.backet)
              = if r.bytes = symstr.take strLen then .ok (some r.sym)
                else search s symstr strLen fuel chain := by
            rw [search]
            simp only [hbacket, bind, Except.bind, hsym, hstr,
              compare_iff (hok r hr).short hlen]
          rw [hstep]
          by_cases heq : r.bytes = symstr.take strLen
          · rw [if_pos heq]
            exact .inl ⟨r, hr, heq, rfl⟩
          · rw [if_neg heq]
            rw [hnext] at hrest
            rcases ih (Nat.le_of_succ_le_succ hfuel) hrest
                (fun b hb => hrows b (List.mem_cons_of_mem _ hb)) with
              hfound | ⟨hnot, hnone⟩
            · exact .inl hfound
            · refine .inr ⟨?_, hnone⟩
              intro b hb
              rcases List.mem_cons.mp hb with rfl | hb
              · exact ⟨r, hr, rfl, heq⟩
              · exact hnot b hb

-- ================================================================ one call

/-- An index in the table. -/
theorem Inv.bin (h : Inv toUnsigned s rows) (hval : Word) :
    ∃ g, s.bin (hval % s.numBackets).toNat = .ok g
      ∧ s.backets[(hval % s.numBackets).toNat]? = some g := by
  have hlt : (hval % s.numBackets).toNat < s.backets.length := by
    rw [h.bins, h.numBackets, BitVec.toNat_umod]
    exact Nat.mod_lt _ (by decide)
  refine ⟨s.backets[(hval % s.numBackets).toNat], ?_,
    List.getElem?_eq_getElem hlt⟩
  unfold State.bin
  rw [List.getElem?_eq_getElem hlt]

/-- The table with a row more: three blocks, and the backet in front of
its chain. -/
theorem Inv.added (h : Inv toUnsigned s rows) {bytes : List Byte}
    {g : Option Ptr} (hshort : bytes.length < 2 ^ 31)
    (hnew : ∀ r ∈ rows, r.bytes ≠ bytes)
    (hg : s.backets[(fnv toUnsigned bytes % s.numBackets).toNat]? = some g) :
    Inv toUnsigned
      { s with
        blocks := s.blocks ++
          [.symbol ⟨s.blocks.length + 1, BitVec.ofNat 32 bytes.length,
              fnv toUnsigned bytes⟩,
            .string (bytes ++ [0]), .backet ⟨g, s.blocks.length⟩]
        backets := s.backets.set (fnv toUnsigned bytes % s.numBackets).toNat
          (some (s.blocks.length + 2)) }
      (rows ++ [⟨bytes, s.blocks.length, s.blocks.length + 2⟩]) := by
  obtain ⟨chains, hb, hperm⟩ := h.chains
  let s' : State := { s with
    blocks := s.blocks ++
      [.symbol ⟨s.blocks.length + 1, BitVec.ofNat 32 bytes.length,
          fnv toUnsigned bytes⟩,
        .string (bytes ++ [0]), .backet ⟨g, s.blocks.length⟩]
    backets := s.backets.set (fnv toUnsigned bytes % s.numBackets).toNat
      (some (s.blocks.length + 2)) }
  have hext : Extends s s' := fun p b hpb => by
    have hlt := (List.getElem?_eq_some_iff.mp hpb).1
    show (s.blocks ++ _)[p]? = _
    rw [List.getElem?_append_left hlt]
    exact hpb
  have hat : ∀ i, s'.blocks[s.blocks.length + i]?
      = [Block.symbol ⟨s.blocks.length + 1, BitVec.ofNat 32 bytes.length,
          fnv toUnsigned bytes⟩,
        .string (bytes ++ [0]), .backet ⟨g, s.blocks.length⟩][i]? := by
    intro i
    show (s.blocks ++ _)[s.blocks.length + i]? = _
    rw [List.getElem?_append_right (Nat.le_add_right _ _),
      Nat.add_sub_cancel_left]
  have hrow : Row.Ok toUnsigned s'
      ⟨bytes, s.blocks.length, s.blocks.length + 2⟩ :=
    ⟨hshort, ⟨s.blocks.length + 1, hat 0, hat 1⟩, ⟨g, hat 2⟩⟩
  obtain ⟨chain, _, _, hlink, hhash, _⟩ := hrow.reads
  have hchain : chain = g := by
    rw [← hlink]
    unfold next
    rw [hat 2]
    rfl
  -- the backets of the other rows stay
  have hold : ∀ b ∈ chains.flatten, next s' b = next s b
      ∧ slotOf s' b = slotOf s b ∧ b < s.blocks.length := by
    intro b hbc
    obtain ⟨r, hr, rfl⟩ := List.mem_map.mp (hperm.mem_iff.mp hbc)
    obtain ⟨c, q, _, hn, hh, _⟩ := (h.ok r hr).reads
    obtain ⟨c', q', hbacket', hn', hh', _⟩ := ((h.ok r hr).extends hext).reads
    obtain ⟨c₀, hc₀⟩ := (h.ok r hr).backet
    have hn₀ : next s' r.backet = c₀ := by
      unfold next
      rw [hext _ _ hc₀]
    have hn₁ : next s r.backet = c₀ := by
      unfold next
      rw [hc₀]
    refine ⟨hn₀.trans hn₁.symm, ?_, (List.getElem?_eq_some_iff.mp hc₀).1⟩
    unfold slotOf
    rw [hh, hh']
  have hnot : s.blocks.length + 2 ∉ chains.flatten := by
    intro hin
    exact Nat.not_lt.mpr (Nat.le_add_right _ 2) (hold _ hin).2.2
  obtain ⟨chains', hb', hperm'⟩ := hb.pushHead (next s') (slotOf s') hg hnot
    (by
      unfold slotOf
      rw [hhash])
    (hlink.trans hchain)
    (fun b hbc => (hold b hbc).1) (fun b hbc => (hold b hbc).2.1)
  refine ⟨h.init, h.numBackets, ?_, ?_, ?_, ?_, chains', hb', ?_⟩
  · rw [List.length_set]
    exact h.bins
  · rw [List.length_append, List.length_append, h.blocks]
    rfl
  · intro r hr
    rcases List.mem_append.mp hr with hr | hr
    · exact (h.ok r hr).extends hext
    · rw [List.mem_singleton.mp hr]
      exact hrow
  · rw [List.map_append, List.nodup_append]
    refine ⟨h.bytes, List.nodup_singleton _, ?_⟩
    intro x hx y hy
    obtain ⟨r, hr, rfl⟩ := List.mem_map.mp hx
    rw [List.mem_singleton.mp hy]
    exact hnew r hr
  · refine hperm'.trans ((hperm.cons _).trans ?_)
    rw [List.map_append]
    exact (List.perm_append_singleton _ _).symm

/-- `npr_intern_with_hash` answers with the row of the string. -/
theorem internWithHash_ok (h : Inv toUnsigned s rows) {symstr : List Byte}
    {strLen : Nat} (hlen : strLen ≤ symstr.length) (hshort : strLen < 2 ^ 31) :
    ∃ s' rows' r, internWithHash s symstr strLen
        (fnv toUnsigned (symstr.take strLen)) = .ok (s', r.sym)
      ∧ Inv toUnsigned s' rows' ∧ Extends s s' ∧ rows <+: rows'
      ∧ r ∈ rows' ∧ r.bytes = symstr.take strLen := by
  have hlength : (symstr.take strLen).length = strLen := by
    rw [List.length_take]
    omega
  obtain ⟨g, hbin, hget⟩ := h.bin (fnv toUnsigned (symstr.take strLen))
  obtain ⟨chains, hb, hperm⟩ := h.chains
  obtain ⟨l, hl, hchain⟩ := hb.chain_at hget
  have hsub : l.Sublist chains.flatten :=
    List.sublist_flatten_of_mem (List.mem_of_getElem? hl)
  have hfuel : l.length ≤ s.blocks.length + 1 := by
    have hle := hsub.length_le
    rw [hperm.length_eq, List.length_map] at hle
    have hblocks := h.blocks
    omega
  unfold internWithHash
  simp only [hbin, bind, Except.bind]
  rcases search_ok h.ok hlen l hfuel hchain (fun b hbl => by
      obtain ⟨r, hr, heq⟩ :=
        List.mem_map.mp (hperm.mem_iff.mp (hsub.subset hbl))
      exact ⟨r, hr, heq⟩) with ⟨r, hr, hbytes, hok⟩ | ⟨hnot, hok⟩
  · rw [hok]
    exact ⟨s, rows, r, rfl, h, Extends.refl s, List.prefix_rfl, hr, hbytes⟩
  · rw [hok]
    have hnew : ∀ r ∈ rows, r.bytes ≠ symstr.take strLen := by
      intro r hr heq
      -- its backet would be in this chain
      obtain ⟨_, _, _, _, hhash, _⟩ := (h.ok r hr).reads
      have hslot : slotOf s r.backet
          = (fnv toUnsigned (symstr.take strLen) % s.numBackets).toNat := by
        unfold slotOf
        rw [hhash, heq]
      have hin : r.backet ∈ l :=
        hb.mem_chain (hperm.mem_iff.mpr (List.mem_map_of_mem hr)) (by
          rw [hslot]
          exact hl)
      obtain ⟨r', hr', hsame, hne⟩ := hnot r.backet hin
      have hnodup : (rows.map Row.backet).Nodup :=
        hperm.nodup_iff.mp hb.nodup
      have hrow := List.inj_on_of_nodup_map hnodup hr' hr hsame
      subst hrow
      exact hne heq
    have hadded := h.added (by rw [hlength]; exact hshort) hnew hget
    rw [hlength] at hadded
    refine ⟨_, _, ⟨symstr.take strLen, s.blocks.length, s.blocks.length + 2⟩,
      rfl, hadded, ?_, List.prefix_append _ _,
      List.mem_append_right _ (List.mem_singleton.mpr rfl), rfl⟩
    intro p b hpb
    have hlt := (List.getElem?_eq_some_iff.mp hpb).1
    show (s.blocks ++ _)[p]? = _
    rw [List.getElem?_append_left hlt]
    exact hpb

/-- A result is a symbol, or the string of one. -/
def Result.Is (s : State) (p : Ptr) : Result → Prop
  | .symbol p' => p' = p
  | .string q => ∃ x, s.blocks[p]? = some (.symbol x) ∧ x.symstr = q

theorem Result.Is.extends {s s' : State} {p : Ptr} {r : Result}
    (h : r.Is s p) (hs : Extends s s') : r.Is s' p := by
  cases r with
  | symbol p' => exact h
  | string q =>
      obtain ⟨x, hx, hq⟩ := h
      exact ⟨x, hs _ _ hx, hq⟩

/-- One call: it answers with the row of its string. -/
theorem exec_ok (h : Inv toUnsigned s rows) {c : InternCall}
    (hc : c.Valid toUnsigned) :
    ∃ s' rows' r row, c.exec toUnsigned s = .ok (s', r)
      ∧ Inv toUnsigned s' rows' ∧ Extends s s' ∧ rows <+: rows'
      ∧ row ∈ rows' ∧ row.bytes = c.bytes ∧ r.Is s' row.sym := by
  -- by its length
  have hlength : ∀ (symstr : List Byte) {strLen : Nat},
      strLen ≤ symstr.length → (symstr.take strLen).length < 2 ^ 31 →
      ∃ s' rows' r, internWithLength toUnsigned s symstr strLen
          = .ok (s', r.sym)
        ∧ Inv toUnsigned s' rows' ∧ Extends s s' ∧ rows <+: rows'
        ∧ r ∈ rows' ∧ r.bytes = symstr.take strLen := by
    intro symstr strLen hlen hshort
    rw [List.length_take, Nat.min_eq_left hlen] at hshort
    unfold internWithLength
    rw [hash_eq symstr hshort]
    exact internWithHash_ok h hlen hshort
  cases c with
  | intern symstr =>
      obtain ⟨s', rows', r, hok, hinv, hext, hpre, hr, hbytes⟩ :=
        hlength symstr (strlen_le symstr) (by
          rw [take_strlen]
          exact hc.1)
      rw [take_strlen] at hbytes
      refine ⟨s', rows', .symbol r.sym, r, ?_, hinv, hext, hpre, hr, hbytes,
        rfl⟩
      simp only [InternCall.exec, Symbols.intern, hok, bind, Except.bind]
  | internStr symstr =>
      obtain ⟨s', rows', r, hok, hinv, hext, hpre, hr, hbytes⟩ :=
        hlength symstr (strlen_le symstr) (by
          rw [take_strlen]
          exact hc.1)
      rw [take_strlen] at hbytes
      obtain ⟨_, q, _, _, _, hsym, _⟩ := (hinv.ok r hr).reads
      obtain ⟨q', hp, _⟩ := (hinv.ok r hr).symbol
      have hq : q = q' := by
        unfold State.symbol at hsym
        rw [hp] at hsym
        exact (congrArg NprSymbol.symstr (Except.ok.inj hsym)).symm
      refine ⟨s', rows', .string q, r, ?_, hinv, hext, hpre, hr, hbytes,
        ⟨_, hp, hq.symm⟩⟩
      simp only [InternCall.exec, Symbols.internStr, Symbols.intern, hok, bind,
        Except.bind, hsym]
  | internWithLength symstr strLen =>
      obtain ⟨s', rows', r, hok, hinv, hext, hpre, hr, hbytes⟩ :=
        hlength symstr hc.2 hc.1
      refine ⟨s', rows', .symbol r.sym, r, ?_, hinv, hext, hpre, hr, hbytes,
        rfl⟩
      simp only [InternCall.exec, hok, bind, Except.bind]
  | internWithHash symstr strLen hval =>
      obtain ⟨hshort, hlen, rfl⟩ := hc
      have hshort' : strLen < 2 ^ 31 := by
        rw [InternCall.bytes, List.length_take, Nat.min_eq_left hlen] at hshort
        exact hshort
      obtain ⟨s', rows', r, hok, hinv, hext, hpre, hr, hbytes⟩ :=
        internWithHash_ok h hlen hshort'
      refine ⟨s', rows', .symbol r.sym, r, ?_, hinv, hext, hpre, hr, hbytes,
        rfl⟩
      simp only [InternCall.exec, hok, bind, Except.bind]

-- =================================================================== a run

/-- A run: its results are symbols of the rows of its strings. Induction
on the calls. -/
theorem runFrom_ok (cs : List InternCall) :
    ∀ {s : State} {rows : List Row}, Inv toUnsigned s rows →
      (∀ c ∈ cs, c.Valid toUnsigned) →
      ∃ s' rows' rs, runFrom toUnsigned s cs = .ok (s', rs)
        ∧ Inv toUnsigned s' rows' ∧ Extends s s' ∧ rows <+: rows'
        ∧ ∃ ps, List.Forall₂ (Result.Is s') ps rs
          ∧ List.Forall₂ (fun c p => ∃ row ∈ rows', row.sym = p
            ∧ row.bytes = c.bytes) cs ps := by
  induction cs with
  | nil =>
      intro s rows h _
      exact ⟨s, rows, [], rfl, h, Extends.refl s, List.prefix_rfl, [], .nil,
        .nil⟩
  | cons c cs ih =>
      intro s rows h hcs
      obtain ⟨s₁, rows₁, r, row, hexec, h₁, hext₁, hpre₁, hrow, hbytes, his⟩ :=
        exec_ok h (hcs c List.mem_cons_self)
      obtain ⟨s₂, rows₂, rs, hrun, h₂, hext₂, hpre₂, ps, hps, hrows⟩ :=
        ih h₁ fun c' hc' => hcs c' (List.mem_cons_of_mem _ hc')
      refine ⟨s₂, rows₂, r :: rs, ?_, h₂, hext₁.trans hext₂,
        hpre₁.trans hpre₂, row.sym :: ps,
        .cons (his.extends hext₂) hps,
        .cons ⟨row, hpre₂.subset hrow, rfl, hbytes⟩ hrows⟩
      simp only [runFrom, hexec, bind, Except.bind, hrun]

/-- The table as `npr_symbol_init` makes it. -/
theorem symbolInit_inv : Inv toUnsigned (symbolInit ⟨[], false, 0, []⟩) [] :=
  ⟨rfl, rfl, List.length_replicate, rfl, fun _ hr => (List.not_mem_nil hr).elim,
    List.nodup_nil, List.replicate 173 [], Buckets.empty 173, by
      rw [List.flatten_replicate_nil]
      exact List.Perm.refl _⟩

/-- Rows with one symbol are rows of one string. -/
theorem Inv.sym_eq_iff (h : Inv toUnsigned s rows) {row row' : Row}
    (hrow : row ∈ rows) (hrow' : row' ∈ rows) :
    row.sym = row'.sym ↔ row.bytes = row'.bytes := by
  constructor
  · intro hsym
    have hdesc := (h.ok row' hrow').symbol
    rw [← hsym] at hdesc
    exact (h.ok row hrow).symbol.inj hdesc
  · intro hsame
    rw [List.inj_on_of_nodup_map h.bytes hrow hrow' hsame]

/-- The row behind a string returned. -/
theorem string_row {cs : List InternCall} {ps : List Ptr} {rs : List Result}
    (hps : List.Forall₂ (Result.Is s) ps rs)
    (hrows : List.Forall₂ (fun (c : InternCall) p =>
      ∃ row ∈ rows, row.sym = p ∧ row.bytes = c.bytes) cs ps)
    {i : Nat} {c : InternCall} {q : Ptr} (hc : cs[i]? = some c)
    (hq : rs[i]? = some (.string q)) :
    ∃ row ∈ rows, row.bytes = c.bytes
      ∧ ∃ x, s.blocks[row.sym]? = some (.symbol x) ∧ x.symstr = q := by
  obtain ⟨hi, rfl⟩ := List.getElem?_eq_some_iff.mp hc
  obtain ⟨hi', hri⟩ := List.getElem?_eq_some_iff.mp hq
  have hlen := hps.length_eq
  have his := hps.get (by omega) hi'
  obtain ⟨row, hrow, hsym, hbytes⟩ := hrows.get hi (by omega)
  simp only [List.get_eq_getElem] at his hsym hbytes
  rw [hri, ← hsym] at his
  exact ⟨row, hrow, hbytes, his⟩

/-- Interning is injective and stable. A run of calls ends. Its results
are symbols, or strings of symbols (`ps`), that describe the strings of
the calls. Two of the symbols are one exactly if the strings are equal,
and so for two strings returned. Whatever is called then, no block
changes. -/
theorem intern_injective (toUnsigned : Byte → Word) {cs : List InternCall}
    (hcs : ∀ c ∈ cs, c.Valid toUnsigned) :
    ∃ s rs ps, internRun toUnsigned cs = .ok (s, rs)
      ∧ List.Forall₂ (Result.Is s) ps rs
      ∧ List.Forall₂ (fun c p => Describes toUnsigned s p c.bytes) cs ps
      ∧ (∀ (i j : Nat) (c c' : InternCall), cs[i]? = some c →
        cs[j]? = some c' →
        (∀ p p', ps[i]? = some p → ps[j]? = some p' →
          (p = p' ↔ c.bytes = c'.bytes))
        ∧ ∀ q q', rs[i]? = some (.string q) → rs[j]? = some (.string q') →
          (q = q' ↔ c.bytes = c'.bytes))
      ∧ ∀ ds : List InternCall, (∀ d ∈ ds, d.Valid toUnsigned) →
        ∃ s' rs', runFrom toUnsigned s ds = .ok (s', rs') ∧ Extends s s' := by
  obtain ⟨s, rows, rs, hrun, h, _, _, ps, hps, hrows⟩ :=
    runFrom_ok cs symbolInit_inv hcs
  have hat : ∀ (i : Nat) (c : InternCall) (p : Ptr), cs[i]? = some c →
      ps[i]? = some p → ∃ row ∈ rows, row.sym = p ∧ row.bytes = c.bytes := by
    intro i c p hc hp
    obtain ⟨hi, rfl⟩ := List.getElem?_eq_some_iff.mp hc
    obtain ⟨hi', rfl⟩ := List.getElem?_eq_some_iff.mp hp
    exact hrows.get hi hi'
  refine ⟨s, rs, ps, hrun, hps, ?_, ?_, ?_⟩
  · refine hrows.imp fun c p hcp => ?_
    obtain ⟨row, hrow, rfl, hbytes⟩ := hcp
    rw [← hbytes]
    exact (h.ok row hrow).symbol
  · intro i j c c' hc hc'
    constructor
    · intro p p' hp hp'
      obtain ⟨row, hrow, rfl, hbytes⟩ := hat i c p hc hp
      obtain ⟨row', hrow', rfl, hbytes'⟩ := hat j c' p' hc' hp'
      rw [← hbytes, ← hbytes']
      exact h.sym_eq_iff hrow hrow'
    · intro q q' hq hq'
      obtain ⟨row, hrow, hbytes, x, hx, hxq⟩ :=
        string_row hps hrows hc hq
      obtain ⟨row', hrow', hbytes', x', hx', hxq'⟩ :=
        string_row hps hrows hc' hq'
      rw [← hbytes, ← hbytes', ← h.sym_eq_iff hrow hrow']
      constructor
      · rintro rfl
        have hstring := (h.ok row hrow).symbol.string hx
        have hstring' := (h.ok row' hrow').symbol.string hx'
        rw [hxq] at hstring
        rw [hxq', hstring] at hstring'
        exact (h.sym_eq_iff hrow hrow').mpr (List.append_cancel_right
          (Block.string.inj (Option.some.inj hstring')))
      · intro hsym
        rw [hsym, hx'] at hx
        have hsame := Block.symbol.inj (Option.some.inj hx)
        rw [← hxq, ← hxq', hsame]
  · intro ds hds
    obtain ⟨s', _, rs', hrun', _, hext, _⟩ := runFrom_ok ds h hds
    exact ⟨s', rs', hrun', hext⟩

/-- "a" by three ways, and "a" with a zero behind it. -/
theorem intern_injective_a : ∃ s rs ps,
    internRun (BitVec.setWidth 32) [.intern [97], .internWithLength [97, 0] 2,
        .internStr [97], .internWithHash [97] 1 (fnv (BitVec.setWidth 32) [97])]
      = .ok (s, rs)
    ∧ List.Forall₂ (Result.Is s) ps rs := by
  obtain ⟨s, rs, ps, hrun, hps, _⟩ := intern_injective (BitVec.setWidth 32)
    (show ∀ c ∈ [InternCall.intern [97], .internWithLength [97, 0] 2,
        .internStr [97],
        .internWithHash [97] 1 (fnv (BitVec.setWidth 32) [97])],
      c.Valid (BitVec.setWidth 32) by decide)
  exact ⟨s, rs, ps, hrun, hps⟩

end UdeBench.Npr.Symbols
