/-
Symbol tables keyed by interned symbols are maps keyed by strings.

Two refinements on top of each other. The tables are maps of symbols
(`Holds`), for the hash the memory of the symbols gives. The maps of
symbols are maps of strings: putting for each symbol the bytes it stands
for changes nothing a program sees (`exec_mapKeys`), because two interned
symbols never stand for the same bytes.

Interning while tables are in use leaves both alone: symbols that exist
keep their bytes and their hash.
-/
import UdeBench.Npr.Names
import UdeBench.Npr.Proofs.Keys
import UdeBench.Npr.Proofs.Symbol

namespace UdeBench.Npr.SymbolTable

open Hashing

variable {hashcode hashcode' : Sym → Word} {m : Elems} {tab : Symtab}
  {rows : List Row} {s : Tables} {rs : List (Option (List Row))}
  {a : Maps Sym}

-- ============================================================= another hash

/-- A table sees the hashes of its own symbols only. -/
theorem Table.rehash (h : Table hashcode m tab rows)
    (hsame : ∀ r ∈ rows, hashcode' r.sym = hashcode r.sym) :
    Table hashcode' m tab rows := by
  obtain ⟨chains, hb, hperm⟩ := h.chains
  refine ⟨h.cells, h.syms, ⟨chains, hb.congr (fun _ _ => rfl) ?_, hperm⟩,
    h.bins, h.size, h.count, h.load⟩
  intro p hp
  obtain ⟨r, hr, rfl⟩ := List.mem_map.mp (hperm.mem_iff.mp hp)
  obtain ⟨c, hc⟩ := h.cells r hr
  unfold slotOf
  rw [(entry_ok hc).2.2, hsame r hr]

theorem Holds.rehash {P : Sym → Prop} (h : Holds hashcode s rs a)
    (ha : a.Keys P) (hsame : ∀ x, P x → hashcode' x = hashcode x) :
    Holds hashcode' s rs a := by
  refine ⟨h.pool, List.forall₂_iff_get.mpr ⟨h.tabs.length_eq, ?_⟩, h.maps,
    h.ptrs⟩
  intro t ht ht'
  have htab := h.tabs.get ht ht'
  have hkeys : ∀ rows, rs.get ⟨t, ht'⟩ = some rows → ∀ r ∈ rows, P r.sym := by
    intro rows hrows r hr
    refine ha.maps (contents rows) ?_ _ (List.mem_map_of_mem hr)
    rw [h.maps]
    exact List.mem_map.mpr ⟨some rows, hrows ▸ List.get_mem rs ⟨t, ht'⟩, rfl⟩
  cases ho : s.tabs.get ⟨t, ht⟩ with
  | none =>
      rw [ho] at htab
      cases hro : rs.get ⟨t, ht'⟩ with
      | none => trivial
      | some rows =>
          rw [hro] at htab
          exact absurd htab id
  | some tab =>
      rw [ho] at htab
      cases hro : rs.get ⟨t, ht'⟩ with
      | none =>
          rw [hro] at htab
          exact absurd htab id
      | some rows =>
          rw [hro] at htab
          exact Table.rehash htab fun r hr => hsame _ (hkeys rows hro r hr)

/-- A call whose key is looked up first. -/
theorem mapKey_map {κ κ' κ'' : Type} {g : κ → Option κ'} {f : κ' → κ''}
    (c : TablesCall κ) : c.mapKey (fun k => (g k).map f)
      = (c.mapKey g).map (TablesCall.map f) := by
  cases c with
  | lookup t k com =>
      show Option.map _ ((g k).map f) = Option.map _ (Option.map _ (g k))
      rw [Option.map_map, Option.map_map]
      rfl
  | _ => rfl

theorem mapKey_key {κ κ' : Type} {g : κ → Option κ'} {P : κ' → Prop}
    {c : TablesCall κ} {c' : TablesCall κ'} (hc : c.mapKey g = some c')
    (hg : ∀ k x, g k = some x → P x) : c'.Key P := by
  cases c with
  | lookup t k com =>
      obtain ⟨x, hx, rfl⟩ := Option.map_eq_some_iff.mp hc
      exact hg k x hx
  | init _ | write _ _ | read _ | same _ _ | fini _ =>
      cases hc
      trivial

end UdeBench.Npr.SymbolTable

namespace UdeBench.Npr.Names

open SymbolTable (Elems Sym Tables TablesCall Seen Maps KeyData
  StatLine symtabStat symtabGlobalInit symtabGlobalInit_pool exec_mapKeys
  mapKey_map mapKey_key mapKeys_get)
open Symbols (State InternCall Inv Describes Extends symbolInit)

-- ================================================================ the strings

section
variable (toUnsigned : Symbols.Byte → Symbols.Word)

/-- The maps, and the strings the program has interned. -/
structure NameMaps where
  maps : Maps (List Symbols.Byte)
  names : List (List Symbols.Byte)
deriving DecidableEq, Repr

/-- The string of a call that returns a symbol. -/
def stringOf : InternCall → List (List Symbols.Byte)
  | .internStr _ => []
  | c => [c.bytes]

/-- What a call does to the maps. -/
def NameMaps.exec (a : NameMaps) : NamesCall → Option (NameMaps × Seen)
  | .intern c =>
      if c.Valid toUnsigned then
        some ({ a with names := a.names ++ stringOf c }, .nothing)
      else none
  | .table c => do
      let c ← c.mapKey (a.names[·]?)
      let (maps, seen) ← a.maps.exec c
      some ({ a with maps }, seen)

/-- A run of calls, and what the program sees. -/
def NameMaps.run : NameMaps → List NamesCall →
    Option (NameMaps × List Seen)
  | a, [] => some (a, [])
  | a, c :: cs => do
      let (a, r) ← a.exec toUnsigned c
      let (a, rs) ← NameMaps.run a cs
      some (a, r :: rs)

end

variable {toUnsigned : Symbols.Byte → Symbols.Word}

/-- What the fields of a symbol that describes a string are. -/
theorem reads_of {st : State} {p : Sym} {bytes : List Symbols.Byte}
    (h : Describes toUnsigned st p bytes) (hshort : bytes.length < 2 ^ 31) :
    symstr st p = bytes ∧ hashcode st p = Symbols.fnv toUnsigned bytes := by
  obtain ⟨q, hp, hq⟩ := h
  have hsym : st.symbol p = .ok ⟨q, BitVec.ofNat 32 bytes.length,
      Symbols.fnv toUnsigned bytes⟩ := by
    rw [State.symbol, hp]
  have hstr : st.string q = .ok (bytes ++ [0]) := by
    rw [State.string, hq]
  have hlen : (BitVec.ofNat 32 bytes.length).toNat = bytes.length := by
    rw [BitVec.toNat_ofNat]
    omega
  unfold symstr hashcode
  rw [hsym]
  simp only
  rw [hstr, hlen]
  exact ⟨List.take_left, trivial⟩

/-- The result of a call is a symbol, or the string of one. -/
theorem exec_kind {st st' : State} {c : InternCall} {r : Symbols.Result}
    (h : c.exec toUnsigned st = .ok (st', r)) :
    (∃ p, r = .symbol p ∧ stringOf c = [c.bytes])
      ∨ (∃ q, r = .string q ∧ stringOf c = []) := by
  cases c with
  | intern symstr =>
      obtain ⟨⟨st₁, p⟩, _, h⟩ := bind_eq_ok h
      cases h
      exact .inl ⟨p, rfl, rfl⟩
  | internStr symstr =>
      obtain ⟨⟨st₁, q⟩, _, h⟩ := bind_eq_ok h
      cases h
      exact .inr ⟨q, rfl, rfl⟩
  | internWithLength symstr strLen =>
      obtain ⟨⟨st₁, p⟩, _, h⟩ := bind_eq_ok h
      cases h
      exact .inl ⟨p, rfl, rfl⟩
  | internWithHash symstr strLen hval =>
      obtain ⟨⟨st₁, p⟩, _, h⟩ := bind_eq_ok h
      cases h
      exact .inl ⟨p, rfl, rfl⟩

/-- The symbols that have been interned. -/
def Interned (rows : List Symbols.Row) (p : Sym) : Prop :=
  ∃ r ∈ rows, r.sym = p

section
variable {st st' : State} {rows rows' : List Symbols.Row}

/-- Interned symbols stand for different strings. -/
theorem symstr_inj (h : Inv toUnsigned st rows) (p p' : Sym)
    (hp : Interned rows p) (hp' : Interned rows p')
    (heq : symstr st p = symstr st p') : p = p' := by
  obtain ⟨r, hr, rfl⟩ := hp
  obtain ⟨r', hr', rfl⟩ := hp'
  have hok := h.ok r hr
  have hok' := h.ok r' hr'
  rw [(reads_of hok.symbol hok.short).1,
    (reads_of hok'.symbol hok'.short).1] at heq
  exact (h.sym_eq_iff hr hr').mpr heq

/-- Symbols keep their strings and their hashes. -/
theorem reads_extends (h : Inv toUnsigned st rows) (hext : Extends st st')
    (p : Sym) (hp : Interned rows p) :
    symstr st p = symstr st' p ∧ hashcode st' p = hashcode st p := by
  obtain ⟨r, hr, rfl⟩ := hp
  have hok := h.ok r hr
  have hread := reads_of hok.symbol hok.short
  have hread' := reads_of (hok.symbol.extends hext) hok.short
  exact ⟨hread.1.trans hread'.1.symm, hread'.2.trans hread.2.symm⟩

end

-- ============================================================= the invariant

/-- The tables are maps of symbols, and these are the maps of strings. -/
structure Rel (toUnsigned : Symbols.Byte → Symbols.Word) (s : Program)
    (a : NameMaps) : Prop where
  rel : ∃ rows rs am, Inv toUnsigned s.syms rows
    ∧ SymbolTable.Holds (hashcode s.syms) s.tabs rs am
    ∧ am.Keys (Interned rows)
    ∧ (∀ p ∈ s.names, Interned rows p)
    ∧ a.maps = am.mapKeys (symstr s.syms)
    ∧ a.names = s.names.map (symstr s.syms)

variable {s : Program} {a : NameMaps}

/-- A string interned. -/
theorem Rel.intern (h : Rel toUnsigned s a) {c : InternCall}
    (hc : c.Valid toUnsigned) :
    ∃ s', (NamesCall.intern c).exec toUnsigned s = .ok (s', .nothing)
      ∧ Rel toUnsigned s' { a with names := a.names ++ stringOf c } := by
  obtain ⟨rows, rs, am, hinv, hholds, hkeys, hnames, hmaps, hstrs⟩ := h.rel
  obtain ⟨st', rows', r, row, hexec, hinv', hext, hpre, hrow, hbytes, his⟩ :=
    Symbols.exec_ok hinv hc
  have hreads := reads_extends hinv hext
  have hgrow : ∀ p, Interned rows p → Interned rows' p := by
    intro p hp
    obtain ⟨q, hq, hqp⟩ := hp
    exact ⟨q, hpre.subset hq, hqp⟩
  -- the symbol returned, and its string
  have hnew : (∀ p ∈ symbolOf r, Interned rows' p)
      ∧ (symbolOf r).map (symstr st') = stringOf c := by
    have hok := hinv'.ok row hrow
    obtain ⟨p, rfl, hstr⟩ | ⟨q, rfl, hstr⟩ := exec_kind hexec
    · rw [hstr, show p = row.sym from his]
      refine ⟨fun p hp => ⟨row, hrow, (List.mem_singleton.mp hp).symm⟩, ?_⟩
      exact congrArg (fun b => [b])
        ((reads_of hok.symbol hok.short).1.trans hbytes)
    · rw [hstr]
      exact ⟨fun p hp => absurd hp List.not_mem_nil, rfl⟩
  refine ⟨⟨st', s.tabs, s.names ++ symbolOf r⟩, ?_,
    ⟨rows', rs, am, hinv', ?_, hkeys.mono hgrow, ?_, ?_, ?_⟩⟩
  · show ((c.exec toUnsigned s.syms).mapError NamesError.sym >>= _) = _
    rw [hexec]
    rfl
  · exact hholds.rehash hkeys fun p hp => (hreads p hp).2
  · intro p hp
    obtain hp | hp := List.mem_append.mp hp
    · exact hgrow p (hnames p hp)
    · exact hnew.1 p hp
  · rw [hmaps]
    exact Maps.mapKeys_congr hkeys fun p hp => (hreads p hp).1
  · show a.names ++ stringOf c = (s.names ++ symbolOf r).map (symstr st')
    rw [hstrs, List.map_append, hnew.2,
      List.map_congr_left fun p hp => (hreads p (hnames p hp)).1]

/-- A call on the tables. -/
theorem Rel.table (h : Rel toUnsigned s a) {c : TablesCall Nat}
    {r : NameMaps × Seen} (hr : a.exec toUnsigned (.table c) = some r) :
    ∃ s', (NamesCall.table c).exec toUnsigned s = .ok (s', r.2)
      ∧ Rel toUnsigned s' r.1 := by
  obtain ⟨rows, rs, am, hinv, hholds, hkeys, hnames, hmaps, hstrs⟩ := h.rel
  obtain ⟨c', hc', hr⟩ := Option.bind_eq_some_iff.mp hr
  obtain ⟨⟨maps', seen⟩, hexec, hr⟩ := Option.bind_eq_some_iff.mp hr
  cases hr
  have hlook : (fun k : Nat => a.names[k]?)
      = fun k => (s.names[k]?).map (symstr s.syms) := by
    funext k
    rw [hstrs, List.getElem?_map]
  rw [hlook, mapKey_map] at hc'
  obtain ⟨c₁, hc₁, rfl⟩ := Option.map_eq_some_iff.mp hc'
  have hkey : c₁.Key (Interned rows) :=
    mapKey_key hc₁ fun k x hx => hnames x (List.mem_of_getElem? hx)
  rw [hmaps, exec_mapKeys (symstr_inj hinv) hkeys hkey] at hexec
  obtain ⟨r₁, hr₁, heq⟩ := Option.map_eq_some_iff.mp hexec
  cases heq
  obtain ⟨tabs', rs', hok, hholds'⟩ := hholds.exec hr₁
  refine ⟨{ s with tabs := tabs' }, ?_, ⟨rows, rs', r₁.1, hinv, hholds',
    hkeys.exec hkey hr₁, hnames, rfl, hstrs⟩⟩
  unfold NamesCall.exec
  simp only [hc₁]
  rw [hok]
  rfl

/-- One call. -/
theorem Rel.exec (h : Rel toUnsigned s a) {c : NamesCall}
    {r : NameMaps × Seen} (hr : a.exec toUnsigned c = some r) :
    ∃ s', c.exec toUnsigned s = .ok (s', r.2) ∧ Rel toUnsigned s' r.1 := by
  cases c with
  | intern c =>
      simp only [NameMaps.exec] at hr
      by_cases hc : c.Valid toUnsigned
      · rw [if_pos hc] at hr
        cases hr
        exact h.intern hc
      · rw [if_neg hc] at hr
        cases hr
  | table c => exact h.table hr

-- ==================================================================== a run

/-- Every call of a run. Induction on the calls. -/
theorem Rel.run (cs : List NamesCall) :
    ∀ {s : Program} {a : NameMaps} {r : NameMaps × List Seen},
      Rel toUnsigned s a → a.run toUnsigned cs = some r →
      ∃ s', namesRunFrom toUnsigned s cs = .ok (s', r.2)
        ∧ Rel toUnsigned s' r.1 := by
  induction cs with
  | nil =>
      intro s a r h hr
      cases hr
      exact ⟨s, rfl, h⟩
  | cons c cs ih =>
      intro s a r h hr
      obtain ⟨⟨a₁, seen⟩, hc, hr⟩ := Option.bind_eq_some_iff.mp hr
      obtain ⟨⟨a₂, rest⟩, hcs, hr⟩ := Option.bind_eq_some_iff.mp hr
      cases hr
      obtain ⟨s₁, hexec, h₁⟩ := h.exec hc
      obtain ⟨s₂, hrun, h₂⟩ := ih h₁ hcs
      refine ⟨s₂, ?_, h₂⟩
      show (c.exec toUnsigned s >>= _) = _
      rw [hexec, ok_bind]
      show (namesRunFrom toUnsigned s₁ cs >>= _) = _
      rw [hrun]
      rfl

end UdeBench.Npr.Names
