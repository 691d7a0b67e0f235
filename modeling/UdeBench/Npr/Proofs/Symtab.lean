/-
The symbol table is a finite map.

The map is the list of rows, one for each symbol appended, in order.
`SymMap.exec` says what a call does to the rows and what it returns.
`Inv` relates the table to the rows: it holds them, and their entries are
the elements of the allocator in order, for none comes back. One call
keeps it and returns what the map returns (`exec_ok`), so a run does
(`runFrom_ok`).
-/
import UdeBench.Npr.Proofs.Tables

namespace UdeBench.Npr.SymbolTable

open Hashing

-- ================================================================= the map

/-- What a call does to the map, and what it returns. The entry of a new
symbol is the allocator's next. -/
def SymMap.exec (rows : List Row) :
    SymtabCall → List Row × Option ElemPtr
  | .lookup x .append =>
      match SymMap.find rows x with
      | some e => (rows, some e)
      | none => (rows ++ [⟨x, elemAt rows.length, none⟩],
          some (elemAt rows.length))
  | .lookup x .fail => (rows, SymMap.find rows x)
  | .write e v =>
      (rows.map fun r => if r.entry = e then { r with data := v } else r, none)

/-- A run of calls on the map, and what they return. -/
def SymMap.run (rows : List Row) :
    List SymtabCall → List Row × List (Option ElemPtr)
  | [] => (rows, [])
  | c :: cs =>
      let (rows, r) := SymMap.exec rows c
      let (rows, rs) := SymMap.run rows cs
      (rows, r :: rs)

/-- A program writes to entries it has got from a lookup. -/
def SymMap.Allowed (rows : List Row) : SymtabCall → Prop
  | .lookup _ _ => True
  | .write e _ => e ∈ rows.map Row.entry

instance (rows : List Row) : (c : SymtabCall) →
    Decidable (SymMap.Allowed rows c)
  | .lookup _ _ => inferInstanceAs (Decidable True)
  | .write _ _ => inferInstanceAs (Decidable (_ ∈ _))

/-- All along a run. -/
def SymMap.AllAllowed : List Row → List SymtabCall → Prop
  | _, [] => True
  | rows, c :: cs => SymMap.Allowed rows c
      ∧ SymMap.AllAllowed (SymMap.exec rows c).1 cs

instance SymMap.decideAllAllowed : ∀ (rows : List Row)
    (cs : List SymtabCall), Decidable (SymMap.AllAllowed rows cs)
  | _, [] => inferInstanceAs (Decidable True)
  | rows, c :: cs =>
      have := SymMap.decideAllAllowed (SymMap.exec rows c).1 cs
      inferInstanceAs (Decidable (_ ∧ _))

/-- No call takes a row away. -/
theorem SymMap.length_le_exec (rows : List Row) (c : SymtabCall) :
    rows.length ≤ (SymMap.exec rows c).1.length := by
  cases c with
  | lookup x com =>
      cases com with
      | append =>
          simp only [SymMap.exec]
          split
          · exact Nat.le_refl _
          · rw [List.length_append]
            exact Nat.le_add_right _ _
      | fail => exact Nat.le_refl _
  | write e v => exact Nat.le_of_eq (List.length_map _).symm

theorem SymMap.length_le_run (cs : List SymtabCall) :
    ∀ rows : List Row, rows.length ≤ (SymMap.run rows cs).1.length := by
  induction cs with
  | nil => exact fun rows => Nat.le_refl _
  | cons c cs ih =>
      intro rows
      exact Nat.le_trans (SymMap.length_le_exec rows c) (ih _)

-- =========================================================== the invariant

section
variable (hashcode : Sym → Word)

/-- The table holds the rows, and their entries are the first elements, in
order. -/
structure Inv (s : Sys) (rows : List Row) : Prop where
  table : Table hashcode s.elems s.tab rows
  pool : ∃ frees, Pool s.elems s.alloc frees (rows.map Row.entry).reverse
    ∧ InOrder s.alloc frees (rows.map Row.entry).reverse

end

variable {hashcode : Sym → Word} {s : Sys} {rows : List Row}

-- ================================================================ one call

/-- An append of a new symbol: its entry is the next element. -/
theorem append_ok (h : Inv hashcode s rows) {x : Sym}
    (hnew : SymMap.find rows x = none) (hfew : rows.length + 1 < 2 ^ 31) :
    ∃ s', lookupEntry hashcode s x .append
        = .ok (s', some (elemAt rows.length))
      ∧ Inv hashcode s' (rows ++ [⟨x, elemAt rows.length, none⟩]) := by
  obtain ⟨frees, hpool, hord⟩ := h.pool
  obtain ⟨s', p, frees', hlookup, happ, hkeep⟩ := h.table.append_ok hpool
    (fun q hq => List.mem_reverse.mpr hq) hnew hfew
  have hord' := hkeep hord
  have hp := hord'.last
  rw [List.length_reverse, List.length_map] at hp
  have hentries : ((rows ++ [(⟨x, p, none⟩ : Row)]).map Row.entry).reverse
      = p :: (rows.map Row.entry).reverse := by
    rw [List.map_append, List.reverse_append]
    rfl
  rw [← hp]
  refine ⟨s', hlookup, happ.table, frees', ?_⟩
  rw [hentries]
  exact ⟨happ.pool, hord'⟩

/-- A store to the data of an entry. -/
theorem write_ok (h : Inv hashcode s rows) {e : ElemPtr} (v : Data)
    (he : e ∈ rows.map Row.entry) :
    ∃ s', SymtabCall.exec hashcode s (.write e v) = .ok (s', none)
      ∧ Inv hashcode s' (rows.map fun r =>
          if r.entry = e then { r with data := v } else r) := by
  obtain ⟨r, hr, rfl⟩ := List.mem_map.mp he
  obtain ⟨frees, hpool, hord⟩ := h.pool
  obtain ⟨y, hy, htable⟩ :=
    h.table.write (SymMap.find_of_mem h.table.syms hr) v
  -- a row is known by its symbol, and by its entry
  have hrows : setData rows r.sym v = rows.map fun q =>
      if q.entry = r.entry then { q with data := v } else q := by
    refine List.map_congr_left fun q hq => ?_
    have hiff : q.sym = r.sym ↔ q.entry = r.entry :=
      ⟨fun hsym => congrArg Row.entry
        (List.inj_on_of_nodup_map h.table.syms hq hr hsym),
        fun hentry => congrArg Row.sym
          (List.inj_on_of_nodup_map h.table.entries_nodup hq hr hentry)⟩
    simp only [hiff]
  have hentries : (setData rows r.sym v).map Row.entry
      = rows.map Row.entry := map_setData fun _ => rfl
  rw [← hrows]
  refine ⟨_, by
    simp only [SymtabCall.exec, (entry_ok hy).1, bind, Except.bind]
    rfl, htable, frees, ?_⟩
  rw [hentries]
  refine ⟨hpool.congr fun q hq => set_other _ _ fun heq => ?_, hord⟩
  exact hpool.apart hq (heq ▸ List.mem_reverse.mpr he)

/-- One call: the table does what the map does. -/
theorem exec_ok (h : Inv hashcode s rows) {c : SymtabCall}
    (hc : SymMap.Allowed rows c)
    (hfew : (SymMap.exec rows c).1.length < 2 ^ 31) :
    ∃ s', c.exec hashcode s = .ok (s', (SymMap.exec rows c).2)
      ∧ Inv hashcode s' (SymMap.exec rows c).1 := by
  cases c with
  | lookup x com =>
      obtain ⟨hfail, happend⟩ := h.table.lookup_ok x
      cases com with
      | fail => exact ⟨s, hfail, h⟩
      | append =>
          simp only [SymMap.exec] at hfew ⊢
          cases hfind : SymMap.find rows x with
          | some e => exact ⟨s, happend e hfind, h⟩
          | none =>
              rw [hfind] at hfew
              refine append_ok h hfind ?_
              rw [List.length_append] at hfew
              exact hfew
  | write e v => exact write_ok h v hc

-- =================================================================== a run

/-- A run: every call of it. Induction on the calls. -/
theorem runFrom_ok (cs : List SymtabCall) :
    ∀ {s : Sys} {rows : List Row}, Inv hashcode s rows →
      SymMap.AllAllowed rows cs → (SymMap.run rows cs).1.length < 2 ^ 31 →
      ∃ s', runFrom hashcode s cs = .ok (s', (SymMap.run rows cs).2)
        ∧ Inv hashcode s' (SymMap.run rows cs).1 := by
  induction cs with
  | nil => exact fun h _ _ => ⟨_, rfl, h⟩
  | cons c cs ih =>
      intro s rows h hcs hfew
      have hle := SymMap.length_le_run cs (SymMap.exec rows c).1
      obtain ⟨s₁, hexec, h₁⟩ := exec_ok h hcs.1 (Nat.lt_of_le_of_lt hle hfew)
      obtain ⟨s₂, hrun, h₂⟩ := ih h₁ hcs.2 hfew
      refine ⟨s₂, ?_, h₂⟩
      simp only [runFrom, hexec, bind, Except.bind, hrun]
      rfl

variable (hashcode) in
/-- A new table holds no rows. -/
theorem symtabInit_ok (m : Elems) {sizeHint : Word}
    (hsize : sizeHint.toInt < 2 ^ 30) :
    ∃ tab, symtabInit sizeHint = .ok tab
      ∧ Inv hashcode ⟨(symtabGlobalInit m).1, (symtabGlobalInit m).2, tab⟩ [] := by
  obtain ⟨tab, hinit, htable⟩ :=
    Table.init hashcode (symtabGlobalInit m).1 hsize
  exact ⟨tab, hinit, htable, _, symtabGlobalInit_pool m,
    symtabGlobalInit_inOrder m⟩

/-- The rows' symbols are the ones appended. -/
theorem SymMap.mem_run (x : Sym) (cs : List SymtabCall) :
    ∀ rows : List Row, x ∈ (SymMap.run rows cs).1.map Row.sym
      ↔ x ∈ rows.map Row.sym ∨ .lookup x .append ∈ cs := by
  induction cs with
  | nil =>
      intro rows
      simp [SymMap.run]
  | cons c cs ih =>
      intro rows
      have hstep : x ∈ (SymMap.exec rows c).1.map Row.sym
          ↔ x ∈ rows.map Row.sym ∨ c = .lookup x .append := by
        cases c with
        | lookup y com =>
            cases com with
            | fail => simp [SymMap.exec]
            | append =>
                simp only [SymMap.exec]
                cases hfind : SymMap.find rows y with
                | some e =>
                    obtain ⟨r, hr, hry, _⟩ := SymMap.find_eq_some hfind
                    have hmem : y ∈ rows.map Row.sym :=
                      hry ▸ List.mem_map_of_mem hr
                    simp only [SymtabCall.lookup.injEq, and_true]
                    constructor
                    · exact .inl
                    · rintro (hin | rfl)
                      · exact hin
                      · exact hmem
                | none => simp [eq_comm]
        | write e v =>
            simp only [SymMap.exec, List.map_map]
            have hsame : (Row.sym ∘ fun r =>
                if r.entry = e then { r with data := v } else r) = Row.sym := by
              funext r
              simp only [Function.comp_apply]
              split <;> rfl
            rw [hsame]
            simp
      show x ∈ (SymMap.run (SymMap.exec rows c).1 cs).1.map Row.sym ↔ _
      rw [ih, hstep, List.mem_cons, or_assoc, eq_comm]

/-- The table as a program sees it: one entry for each symbol of the
rows, with the symbol and the data in it, each in one chain, that of its
hash, and the counters. -/
structure IsTable (hashcode : Sym → Word) (s : Sys) (rows : List Row) :
    Prop where
  syms : (rows.map Row.sym).Nodup
  entries : (rows.map Row.entry).Nodup
  cells : ∀ r ∈ rows, ∃ c, s.elems r.entry = .used ⟨r.sym, r.data, c⟩
  chains : ∃ chains : List (List ElemPtr),
    List.Forall₂ (Chain (link s.elems)) s.tab.entries chains
      ∧ chains.length = s.tab.numBin.toNat
      ∧ chains.flatten.Perm (rows.map Row.entry)
      ∧ ∀ i l, chains[i]? = some l → ∀ r ∈ rows, r.entry ∈ l →
        (hashcode r.sym).toNat % s.tab.numBin.toNat = i
  count : s.tab.numEntry.toInt = rows.length
  load : s.tab.numEntry.toInt < 4 * s.tab.numBin.toInt

theorem Table.isTable (h : Table hashcode s.elems s.tab rows)
    (hfew : rows.length < 2 ^ 31) : IsTable hashcode s rows := by
  obtain ⟨chains, hb, hperm⟩ := h.chains
  have hload := h.load
  have hcount := h.count
  have hsize := sizes_pos h.size
  have hn : s.tab.numEntry.toInt = rows.length := by
    rw [BitVec.toInt_eq_toNat_cond]
    omega
  refine ⟨h.syms, h.entries_nodup, h.cells, ⟨chains, hb.chain, ?_, hperm, ?_⟩,
    hn, ?_⟩
  · rw [← hb.chain.length_eq]
    exact h.bins
  · intro i l hl r hr hrl
    have hhome := hb.home i l hl r.entry hrl
    obtain ⟨c, hc⟩ := h.cells r hr
    unfold slotOf at hhome
    rwa [(entry_ok hc).2.2, BitVec.toNat_umod] at hhome
  · rw [hn, BitVec.toInt_eq_toNat_cond]
    omega

/-- The symbol table is a stable finite map. Every run of lookups, and of
stores to entries they returned, ends, returns what the map returns, and
leaves the table of the rows: those of the symbols appended. A lookup
that only looks then answers for the map and changes nothing. -/
theorem symtab_is_map (hashcode : Sym → Word) (m : Elems) {sizeHint : Word}
    (hsize : sizeHint.toInt < 2 ^ 30) {cs : List SymtabCall}
    (hcs : SymMap.AllAllowed [] cs)
    (hfew : (SymMap.run [] cs).1.length < 2 ^ 31) :
    ∃ s, symtabRun hashcode m sizeHint cs
        = .ok (s, (SymMap.run [] cs).2)
      ∧ IsTable hashcode s (SymMap.run [] cs).1
      ∧ (∀ x, x ∈ (SymMap.run [] cs).1.map Row.sym
        ↔ .lookup x .append ∈ cs)
      ∧ ∀ x, lookupEntry hashcode s x .fail
        = .ok (s, SymMap.find (SymMap.run [] cs).1 x) := by
  obtain ⟨tab, hinit, hinv⟩ := symtabInit_ok hashcode m hsize
  obtain ⟨s, hrun, h⟩ := runFrom_ok cs hinv hcs hfew
  refine ⟨s, ?_, h.table.isTable hfew, ?_, fun x => (h.table.lookup_ok x).1⟩
  · unfold symtabRun
    simp only [hinit, bind, Except.bind]
    exact hrun
  · intro x
    rw [SymMap.mem_run]
    simp

/-- Two symbols with one hash, and data in the first. -/
theorem symtab_is_map_two : ∃ s,
    symtabRun (fun _ => 7) (fun _ => .free none) 5
        [.lookup 1 .append, .lookup 2 .append, .write (elemAt 0) (some 9),
          .lookup 1 .append, .lookup 3 .fail]
      = .ok (s, [some (elemAt 0), some (elemAt 1), none, some (elemAt 0), none])
    ∧ IsTable (fun _ => 7) s
      [⟨1, elemAt 0, some 9⟩, ⟨2, elemAt 1, none⟩] := by
  obtain ⟨s, hrun, htable, _⟩ := symtab_is_map (fun _ => 7)
    (fun _ => .free none) (show (5 : Word).toInt < 2 ^ 30 by decide)
    (show SymMap.AllAllowed [] [.lookup 1 .append, .lookup 2 .append,
      .write (elemAt 0) (some 9), .lookup 1 .append, .lookup 3 .fail]
      by decide) (by decide)
  exact ⟨s, hrun, htable⟩

end UdeBench.Npr.SymbolTable
