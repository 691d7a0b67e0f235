/-
Several symbol tables on one allocator are as many finite maps.

`Maps` is what a program may rely on: a list of maps that know nothing of
each other, and pointers that stand for a symbol in one of them while its
table has not ended. `Maps.exec` is `none` for a call the code does not
support: a size `new_size` aborts on, a table with more entries than an
`int` counts, a table that has ended, a pointer into it, or a null
pointer followed.

# The invariant

`Holds` keeps the rows of every table as a ghost. The elements in use are
the entries of all rows, each once, so a call on one table does not reach
those of another; `Holds.change` is that argument, made once for the
append, the store and the end.
-/
import UdeBench.Npr.Proofs.Tables

namespace UdeBench.Npr.SymbolTable

open Hashing

-- ================================================================== the maps

section
variable (κ : Type)

/-- The keys in the order they were appended, with their data. -/
abbrev KeyData := List (κ × Data)

/-- The maps, and what the pointers stand for. -/
structure Maps where
  maps : List (Option (KeyData κ))
  handles : List (Option (Nat × κ))
deriving DecidableEq, Repr

end

section
variable {κ : Type}

/-- A map whose table has not ended. -/
def Maps.get (a : Maps κ) (t : Nat) : Option (KeyData κ) := a.maps[t]?.join

/-- What a pointer stands for, with the map. -/
def Maps.deref (a : Maps κ) (k : Nat) : Option ((Nat × κ) × KeyData κ) := do
  let h ← a.handles[k]?.join
  let m ← a.get h.1
  some (h, m)

/-- How many keys there are in all. -/
def Maps.size (a : Maps κ) : Nat :=
  (a.maps.map fun o => (o.getD []).length).sum

variable [DecidableEq κ]

/-- A lookup in map `t`. -/
def Maps.lookup (a : Maps κ) (t : Nat) (x : κ) (com : LookupCommand)
    (m : KeyData κ) : Option (Maps κ × Seen) :=
  if x ∈ m.map Prod.fst then
    some ({ a with handles := a.handles ++ [some (t, x)] }, .found true)
  else
    match com with
    | .fail => some ({ a with handles := a.handles ++ [none] }, .found false)
    | .append =>
        if m.length + 1 < 2 ^ 31 then
          some (⟨a.maps.set t (some (m ++ [(x, none)])),
            a.handles ++ [some (t, x)]⟩, .found true)
        else none

/-- A map with other data for a key. -/
def storeData (m : KeyData κ) (x : κ) (v : Data) : KeyData κ :=
  m.map fun p => if p.1 = x then (p.1, v) else p

/-- What a call does to the maps, and what the program sees. -/
def Maps.exec (a : Maps κ) : TablesCall κ → Option (Maps κ × Seen)
  | .init sizeHint =>
      if sizeHint.toInt < 2 ^ 30 then
        some ({ a with maps := a.maps ++ [some []] }, .nothing)
      else none
  | .lookup t x com => do
      let m ← a.get t
      a.lookup t x com m
  | .write k v => do
      let (h, m) ← a.deref k
      some ({ a with maps := a.maps.set h.1 (some (storeData m h.2 v)) },
        .nothing)
  | .read k => do
      let (h, m) ← a.deref k
      let p ← m.find? fun p => p.1 = h.2
      some (a, .data p.2)
  | .same j k => do
      let (h, _) ← a.deref j
      let (h', _) ← a.deref k
      some (a, .equal (h = h'))
  | .fini t => do
      let _ ← a.get t
      some ({ a with maps := a.maps.set t none }, .nothing)

/-- A run of calls, and what the program sees. -/
def Maps.run : Maps κ → List (TablesCall κ) → Option (Maps κ × List Seen)
  | a, [] => some (a, [])
  | a, c :: cs => do
      let (a, r) ← a.exec c
      let (a, rs) ← a.run cs
      some (a, r :: rs)

end

-- ================================================================== the rows

/-- What a program sees of the rows. -/
def contents (rows : List Row) : KeyData Sym :=
  rows.map fun r => (r.sym, r.data)

theorem contents_syms (rows : List Row) :
    (contents rows).map Prod.fst = rows.map Row.sym := by
  unfold contents
  rw [List.map_map]
  rfl

theorem contents_setData (rows : List Row) (x : Sym) (v : Data) :
    contents (setData rows x v) = storeData (contents rows) x v := by
  unfold contents setData storeData
  rw [List.map_map, List.map_map]
  apply List.map_congr_left
  intro r _
  simp only [Function.comp_apply]
  by_cases hx : r.sym = x
  · rw [if_pos hx, if_pos hx]
  · rw [if_neg hx, if_neg hx]

/-- A symbol is in the map where it has a row. -/
theorem mem_contents {rows : List Row} {x : Sym} :
    x ∈ (contents rows).map Prod.fst ↔ SymMap.find rows x ≠ none := by
  rw [contents_syms, Ne, SymMap.find_eq_none]
  constructor
  · intro hx hall
    obtain ⟨r, hr, hrx⟩ := List.mem_map.mp hx
    exact hall r hr hrx
  · intro h
    by_contra hx
    exact h fun r hr hrx => hx (List.mem_map.mpr ⟨r, hr, hrx⟩)

theorem find_append {rows : List Row} {x : Sym} {e : ElemPtr} (r : Row)
    (h : SymMap.find rows x = some e) :
    SymMap.find (rows ++ [r]) x = some e := by
  unfold SymMap.find at h ⊢
  obtain ⟨q, hq, hqe⟩ := Option.map_eq_some_iff.mp h
  rw [List.find?_append, hq]
  exact congrArg some hqe

theorem find_new {rows : List Row} {x : Sym} {e : ElemPtr} {v : Data}
    (h : SymMap.find rows x = none) :
    SymMap.find (rows ++ [⟨x, e, v⟩]) x = some e := by
  unfold SymMap.find at h ⊢
  rw [List.find?_append, Option.map_eq_none_iff.mp h]
  simp

theorem find_setData (rows : List Row) (x y : Sym) (v : Data) :
    SymMap.find (setData rows x v) y = SymMap.find rows y := by
  unfold SymMap.find setData
  rw [List.find?_map, Option.map_map]
  have hsym : ∀ r : Row,
      (if r.sym = x then { r with data := v } else r).sym = r.sym := by
    intro r
    by_cases hx : r.sym = x
    · rw [if_pos hx]
    · rw [if_neg hx]
  have hentry : (Row.entry ∘ fun r : Row =>
      if r.sym = x then { r with data := v } else r) = Row.entry := by
    funext r
    simp only [Function.comp_apply]
    by_cases hx : r.sym = x
    · rw [if_pos hx]
    · rw [if_neg hx]
  have htest : ((fun r : Row => decide (r.sym = y)) ∘ fun r : Row =>
      if r.sym = x then { r with data := v } else r)
        = fun r => decide (r.sym = y) := by
    funext r
    simp only [Function.comp_apply, hsym r]
  rw [hentry, htest]

/-- The entries of a table, and of all tables. -/
def entriesIn (o : Option (List Row)) : List ElemPtr :=
  (o.getD []).map Row.entry

def entriesOf (rs : List (Option (List Row))) : List ElemPtr :=
  rs.flatMap entriesIn

/-- The entries with one table changed. -/
theorem entriesOf_set (o : Option (List Row)) :
    ∀ {rs : List (Option (List Row))} {t : Nat}, t < rs.length →
      (entriesOf (rs.set t o)).Perm
        (entriesIn o ++ entriesOf (rs.set t none)) := by
  intro rs
  induction rs with
  | nil => intro t ht; exact absurd ht (Nat.not_lt_zero _)
  | cons o' rs ih =>
      intro t ht
      cases t with
      | zero => exact List.Perm.refl _
      | succ t =>
          have hrest := ih (Nat.lt_of_succ_lt_succ ht)
          exact (hrest.append_left (entriesIn o')).trans
            (List.perm_append_comm_assoc _ _ _)

/-- An entry of another table. -/
theorem mem_entriesOf_set {rs : List (Option (List Row))} {t j : Nat}
    {rows : List Row} {e : ElemPtr} (hj : rs[j]? = some (some rows))
    (hne : j ≠ t) (he : e ∈ rows.map Row.entry) :
    e ∈ entriesOf (rs.set t none) := by
  refine List.mem_flatMap.mpr ⟨some rows, ?_, he⟩
  apply List.mem_of_getElem? (i := j)
  rw [List.getElem?_set_ne hne.symm]
  exact hj

-- ============================================================= the invariant

section
variable (hashcode : Sym → Word)

/-- A table and its rows, or neither. -/
def IsTab (m : Elems) : Option Symtab → Option (List Row) → Prop
  | some tab, some rows => Table hashcode m tab rows
  | none, none => True
  | _, _ => False

/-- A pointer and what it stands for: the entry of the symbol, as long as
the table has rows. -/
def Points (rs : List (Option (List Row))) :
    Option ElemPtr → Option (Nat × Sym) → Prop
  | some e, some (t, x) => ∃ o, rs[t]? = some o
      ∧ ∀ rows, o = some rows → SymMap.find rows x = some e
  | none, none => True
  | _, _ => False

/-- The tables are the maps. -/
structure Holds (s : Tables) (rs : List (Option (List Row))) (a : Maps Sym) :
    Prop where
  pool : ∃ frees, Pool s.elems s.alloc frees (entriesOf rs)
  tabs : List.Forall₂ (IsTab hashcode s.elems) s.tabs rs
  maps : a.maps = rs.map (Option.map contents)
  ptrs : List.Forall₂ (Points rs) s.ptrs a.handles

end

variable {hashcode : Sym → Word} {s : Tables} {rs : List (Option (List Row))}
  {a : Maps Sym}

/-- A table stored back. -/
theorem Tables.set_tab {t : Nat} {tab : Symtab} (h : s.tab t = .ok tab) :
    s.tabs.set t (some tab) = s.tabs := by
  unfold Tables.tab at h
  split at h
  · next tab' htab =>
    cases h
    obtain ⟨hlt, hget⟩ := List.getElem?_eq_some_iff.mp htab
    rw [← hget, List.set_getElem_self]
  · cases h

/-- A table that has not ended, and its rows. -/
theorem Holds.get (h : Holds hashcode s rs a) {t : Nat} {m : KeyData Sym}
    (hm : a.get t = some m) : ∃ tab rows, s.tab t = .ok tab
      ∧ rs[t]? = some (some rows) ∧ Table hashcode s.elems tab rows
      ∧ m = contents rows := by
  unfold Maps.get at hm
  rw [h.maps, List.getElem?_map] at hm
  cases hrs : rs[t]? with
  | none =>
      rw [hrs] at hm
      cases hm
  | some o =>
      rw [hrs] at hm
      obtain ⟨rows, rfl, rfl⟩ := Option.map_eq_some_iff.mp
        (show o.map contents = some m from hm)
      obtain ⟨hlt, hget⟩ := List.getElem?_eq_some_iff.mp hrs
      have hlen := h.tabs.length_eq
      have hlt' : t < s.tabs.length := by omega
      have htab := h.tabs.get hlt' hlt
      simp only [List.get_eq_getElem, hget] at htab
      cases ho : s.tabs[t] with
      | none =>
          rw [ho] at htab
          exact absurd htab id
      | some tab =>
          rw [ho] at htab
          refine ⟨tab, rows, ?_, rfl, htab, rfl⟩
          unfold Tables.tab
          rw [List.getElem?_eq_getElem hlt', ho]

/-- A pointer that can be followed. -/
theorem Holds.deref (h : Holds hashcode s rs a) {k : Nat} {hd : Nat × Sym}
    {m : KeyData Sym} (hm : a.deref k = some (hd, m)) :
    ∃ e tab rows, s.ptr k = .ok e ∧ s.tab hd.1 = .ok tab
      ∧ rs[hd.1]? = some (some rows) ∧ Table hashcode s.elems tab rows
      ∧ m = contents rows ∧ SymMap.find rows hd.2 = some e := by
  unfold Maps.deref at hm
  obtain ⟨hd', hhd, hm⟩ := Option.bind_eq_some_iff.mp hm
  obtain ⟨m', hget, hm⟩ := Option.bind_eq_some_iff.mp hm
  cases hm
  obtain ⟨tab, rows, htab, hrs, htable, rfl⟩ := h.get hget
  have hsome := Option.join_eq_some_iff.mp hhd
  obtain ⟨hlt, hat⟩ := List.getElem?_eq_some_iff.mp hsome
  have hlen := h.ptrs.length_eq
  have hlt' : k < s.ptrs.length := by omega
  have hptr := h.ptrs.get hlt' hlt
  simp only [List.get_eq_getElem, hat] at hptr
  cases hp : s.ptrs[k] with
  | none =>
      rw [hp] at hptr
      exact absurd hptr id
  | some e =>
      rw [hp] at hptr
      obtain ⟨o, ho, hfind⟩ := hptr
      obtain rfl := Option.some.inj (ho.symm.trans hrs)
      refine ⟨e, tab, rows, ?_, htab, hrs, htable, rfl, hfind rows rfl⟩
      unfold Tables.ptr
      rw [List.getElem?_eq_getElem hlt', hp]

/-- The entries of one table, and those of the others. -/
theorem Holds.split (h : Holds hashcode s rs a) {t : Nat} {rows : List Row}
    (hrs : rs[t]? = some (some rows)) : ∃ frees, Pool s.elems s.alloc frees
      (rows.map Row.entry ++ entriesOf (rs.set t none)) := by
  obtain ⟨frees, hpool⟩ := h.pool
  obtain ⟨hlt, hget⟩ := List.getElem?_eq_some_iff.mp hrs
  have hperm := entriesOf_set (some rows) hlt
  rw [← hget, List.set_getElem_self, hget] at hperm
  exact ⟨frees, hpool.perm hperm⟩

/-- One table changes, and with it no more than the elements that were
its own or free. -/
theorem Holds.change (h : Holds hashcode s rs a) {t : Nat} {rows : List Row}
    (hrs : rs[t]? = some (some rows)) {m' : Elems} {alloc' : ChunkAllocator}
    {frees : List ElemPtr} {tab' : Option Symtab} {ro : Option (List Row)}
    (hpool : Pool m' alloc' frees
      (entriesIn ro ++ entriesOf (rs.set t none)))
    (htab : IsTab hashcode m' tab' ro)
    (hothers : ∀ q ∈ entriesOf (rs.set t none), m' q = s.elems q)
    (hkeep : ∀ rows', ro = some rows' → ∀ x e,
      SymMap.find rows x = some e → SymMap.find rows' x = some e) :
    Holds hashcode ⟨m', alloc', s.tabs.set t tab', s.ptrs⟩ (rs.set t ro)
      ⟨a.maps.set t (ro.map contents), a.handles⟩ := by
  obtain ⟨hlt, hget⟩ := List.getElem?_eq_some_iff.mp hrs
  refine ⟨⟨frees, hpool.perm (entriesOf_set ro hlt).symm⟩,
    forall₂_set h.tabs ?_ htab, ?_, h.ptrs.imp ?_⟩
  · -- the other tables
    intro j o o' hj hne ho
    cases o with
    | none => cases o' with
      | none => exact ho
      | some rows' => exact absurd ho id
    | some tab => cases o' with
      | none => exact absurd ho id
      | some rows' =>
          exact Table.congr ho fun q hq =>
            hothers q (mem_entriesOf_set hj hne hq)
  · show a.maps.set t (ro.map contents) = (rs.set t ro).map _
    rw [h.maps, List.map_set]
  · intro p hd hp
    cases p with
    | none => cases hd with
      | none => exact hp
      | some hd => exact absurd hp id
    | some e => cases hd with
      | none => exact absurd hp id
      | some hd =>
          obtain ⟨o, ho, hfind⟩ := hp
          by_cases hne : hd.1 = t
          · refine ⟨ro, ?_, fun rows' hro => ?_⟩
            · rw [hne, List.getElem?_set_self hlt]
            · rw [hne, hrs] at ho
              exact hkeep rows' hro _ _
                (hfind rows (Option.some.inj ho).symm)
          · refine ⟨o, ?_, hfind⟩
            rw [List.getElem?_set_ne (Ne.symm hne)]
            exact ho

/-- A pointer more. -/
theorem Holds.push (h : Holds hashcode s rs a) {p : Option ElemPtr}
    {hd : Option (Nat × Sym)} (hp : Points rs p hd) :
    Holds hashcode { s with ptrs := s.ptrs ++ [p] } rs
      { a with handles := a.handles ++ [hd] } :=
  ⟨h.pool, h.tabs, h.maps, List.rel_append h.ptrs (.cons hp .nil)⟩

-- ================================================================= one call

/-- `npr_symtab_init`. -/
theorem Holds.init (h : Holds hashcode s rs a) {sizeHint : Word}
    (hsize : sizeHint.toInt < 2 ^ 30) :
    ∃ s', (TablesCall.init sizeHint).exec hashcode s = .ok (s', .nothing)
      ∧ Holds hashcode s' (rs ++ [some []])
        { a with maps := a.maps ++ [some []] } := by
  obtain ⟨tab, hinit, htable⟩ := Table.init hashcode s.elems hsize
  obtain ⟨frees, hpool⟩ := h.pool
  refine ⟨{ s with tabs := s.tabs ++ [some tab] }, ?_, ⟨frees, ?_⟩,
    List.rel_append h.tabs (.cons htable .nil), ?_, h.ptrs.imp ?_⟩
  · show (symtabInit sizeHint >>= _) = _
    rw [hinit]
    rfl
  · have hnone : entriesOf (rs ++ [some []]) = entriesOf rs := by
      unfold entriesOf
      rw [List.flatMap_append]
      exact List.append_nil _
    rw [hnone]
    exact hpool
  · show a.maps ++ [some []] = (rs ++ [some []]).map _
    rw [h.maps, List.map_append]
    rfl
  · intro p hd hp
    cases p with
    | none => cases hd with
      | none => exact hp
      | some hd => exact absurd hp id
    | some e => cases hd with
      | none => exact absurd hp id
      | some hd =>
          obtain ⟨o, ho, hfind⟩ := hp
          refine ⟨o, ?_, hfind⟩
          rw [List.getElem?_append_left
            (List.getElem?_eq_some_iff.mp ho).1]
          exact ho

/-- A symbol appended. -/
theorem Holds.append (h : Holds hashcode s rs a) {t : Nat} {tab : Symtab}
    {rows : List Row} {x : Sym} (htab : s.tab t = .ok tab)
    (hrs : rs[t]? = some (some rows))
    (htable : Table hashcode s.elems tab rows)
    (hnew : SymMap.find rows x = none) (hfew : rows.length + 1 < 2 ^ 31) :
    ∃ s' rs', (TablesCall.lookup t x .append).exec hashcode s
        = .ok (s', .found true)
      ∧ Holds hashcode s' rs'
        ⟨a.maps.set t (some (contents rows ++ [(x, none)])),
          a.handles ++ [some (t, x)]⟩ := by
  obtain ⟨frees, hpool⟩ := h.split hrs
  obtain ⟨s', p, frees', hlookup, happ, -⟩ := htable.append_ok
    (s := ⟨s.elems, s.alloc, tab⟩) hpool
    (fun q hq => List.mem_append_left _ hq) hnew hfew
  have hpool' : Pool s'.elems s'.alloc frees'
      (entriesIn (some (rows ++ [⟨x, p, none⟩]))
        ++ entriesOf (rs.set t none)) := by
    refine happ.pool.perm ?_
    show List.Perm _ ((rows ++ [(⟨x, p, none⟩ : Row)]).map Row.entry ++ _)
    rw [List.map_append, List.append_assoc]
    exact List.perm_middle.symm
  have htab' : IsTab hashcode s'.elems (some s'.tab)
      (some (rows ++ [⟨x, p, none⟩])) := happ.table
  have hset := h.change hrs hpool' htab' ?_ ?_
  · have hlt := (List.getElem?_eq_some_iff.mp hrs).1
    have hpoints : Points (rs.set t (some (rows ++ [⟨x, p, none⟩])))
        (some p) (some (t, x)) :=
      ⟨some (rows ++ [⟨x, p, none⟩]), List.getElem?_set_self hlt,
        fun rows' hrows => by
          rw [← Option.some.inj hrows]
          exact find_new hnew⟩
    have hpush := hset.push hpoints
    refine ⟨⟨s'.elems, s'.alloc, s.tabs.set t (some s'.tab),
      s.ptrs ++ [some p]⟩, rs.set t (some (rows ++ [⟨x, p, none⟩])), ?_, ?_⟩
    · show (s.tab t >>= _) = _
      rw [htab, ok_bind, hlookup]
      rfl
    · rw [Option.map_some, contents, List.map_append] at hpush
      exact hpush
  · intro q hq
    refine happ.others q (List.mem_append_right _ hq) fun hin => ?_
    exact (List.nodup_append.mp hpool.live_nodup).2.2 q hin q hq rfl
  · intro rows' hrows y e hy
    rw [← Option.some.inj hrows]
    exact find_append _ hy

/-- `npr_symtab_lookup_entry`. -/
theorem Holds.lookup (h : Holds hashcode s rs a) {t : Nat} {x : Sym}
    {com : LookupCommand} {m : KeyData Sym} {r : Maps Sym × Seen}
    (hm : a.get t = some m) (hr : a.lookup t x com m = some r) :
    ∃ s' rs', (TablesCall.lookup t x com).exec hashcode s = .ok (s', r.2)
      ∧ Holds hashcode s' rs' r.1 := by
  obtain ⟨tab, rows, htab, hrs, htable, rfl⟩ := h.get hm
  obtain ⟨hfail, happend⟩ := htable.lookup_ok
    (s := ⟨s.elems, s.alloc, tab⟩) x
  have hstay : ∀ p b, lookupEntry hashcode ⟨s.elems, s.alloc, tab⟩ x com
      = .ok (⟨s.elems, s.alloc, tab⟩, p) → p.isSome = b →
      (TablesCall.lookup t x com).exec hashcode s
        = .ok ({ s with ptrs := s.ptrs ++ [p] }, .found b) := by
    intro p b hlookup hb
    show (s.tab t >>= _) = _
    rw [htab, ok_bind, hlookup, ok_bind]
    simp only
    rw [Tables.set_tab htab, hb]
  unfold Maps.lookup at hr
  cases hfind : SymMap.find rows x with
  | some e =>
      rw [if_pos (mem_contents.mpr (by rw [hfind]; exact Option.some_ne_none e))]
        at hr
      cases hr
      refine ⟨_, rs, hstay (some e) true ?_ rfl,
        h.push ⟨some rows, hrs, fun rows' hrows => ?_⟩⟩
      · cases com with
        | append => exact happend e hfind
        | fail => rw [hfail, hfind]
      · rw [← Option.some.inj hrows]
        exact hfind
  | none =>
      rw [if_neg (fun hin => mem_contents.mp hin hfind)] at hr
      cases com with
      | fail =>
          cases hr
          refine ⟨_, rs, hstay none false ?_ rfl, h.push trivial⟩
          rw [hfail, hfind]
      | append =>
          simp only at hr
          split at hr
          · next hfew =>
            cases hr
            rw [contents, List.length_map] at hfew
            exact h.append htab hrs htable hfind hfew
          · cases hr

/-- A store through a pointer. -/
theorem Holds.write (h : Holds hashcode s rs a) {k : Nat} {v : Data}
    {hd : Nat × Sym} {m : KeyData Sym} (hm : a.deref k = some (hd, m)) :
    ∃ s' rs', (TablesCall.write k v).exec hashcode s = .ok (s', .nothing)
      ∧ Holds hashcode s' rs'
        { a with maps := a.maps.set hd.1 (some (storeData m hd.2 v)) } := by
  obtain ⟨e, tab, rows, hptr, htab, hrs, htable, rfl, hfind⟩ := h.deref hm
  obtain ⟨frees, hpool⟩ := h.split hrs
  obtain ⟨y, hy, hnew⟩ := htable.write hfind v
  obtain ⟨r, hr, _, hre⟩ := SymMap.find_eq_some hfind
  have hmem : e ∈ rows.map Row.entry := hre ▸ List.mem_map_of_mem hr
  have hpool' : Pool (s.elems.set e (.used { y with data := v })) s.alloc
      frees (entriesIn (some (setData rows hd.2 v))
        ++ entriesOf (rs.set hd.1 none)) := by
    show Pool _ s.alloc frees ((setData rows hd.2 v).map Row.entry ++ _)
    rw [map_setData fun _ => rfl]
    refine hpool.congr fun q hq => set_other _ _ fun hqe => ?_
    exact hpool.apart hq (List.mem_append_left _ (hqe ▸ hmem))
  have htab' : IsTab hashcode (s.elems.set e (.used { y with data := v }))
      (some tab) (some (setData rows hd.2 v)) := hnew
  have hset := h.change hrs hpool' htab' ?_ ?_
  · refine ⟨{ s with elems := s.elems.set e (.used { y with data := v }) },
      rs.set hd.1 (some (setData rows hd.2 v)), ?_, ?_⟩
    · show (s.ptr k >>= _) = _
      rw [hptr, ok_bind, (entry_ok hy).1]
      rfl
    · rw [Tables.set_tab htab, Option.map_some, contents_setData] at hset
      exact hset
  · intro q hq
    refine set_other _ _ fun hqe => ?_
    exact (List.nodup_append.mp hpool.live_nodup).2.2 e hmem q hq hqe.symm
  · intro rows' hrows x p hp
    rw [← Option.some.inj hrows, find_setData]
    exact hp

/-- A load through a pointer. -/
theorem Holds.read (h : Holds hashcode s rs a) {k : Nat} {hd : Nat × Sym}
    {m : KeyData Sym} {p : Sym × Data} (hm : a.deref k = some (hd, m))
    (hp : m.find? (fun p => p.1 = hd.2) = some p) :
    (TablesCall.read k).exec hashcode s = .ok (s, .data p.2) := by
  obtain ⟨e, tab, rows, hptr, htab, hrs, htable, rfl, hfind⟩ := h.deref hm
  unfold contents at hp
  rw [List.find?_map] at hp
  obtain ⟨r, hr, rfl⟩ := Option.map_eq_some_iff.mp hp
  have he : e = r.entry := by
    unfold SymMap.find at hfind
    obtain ⟨r', hr', rfl⟩ := Option.map_eq_some_iff.mp hfind
    rw [Option.some.inj (hr'.symm.trans hr)]
  obtain ⟨c, hc⟩ := htable.cells r (List.mem_of_find?_eq_some hr)
  show (s.ptr k >>= _) = _
  rw [hptr, ok_bind, he, (entry_ok hc).1]
  rfl

/-- Two entries are one where their symbols and tables are. -/
theorem Holds.same (h : Holds hashcode s rs a) {j k : Nat}
    {hd hd' : Nat × Sym} {m m' : KeyData Sym} (hm : a.deref j = some (hd, m))
    (hm' : a.deref k = some (hd', m')) :
    (TablesCall.same j k).exec hashcode s = .ok (s, .equal (hd = hd')) := by
  obtain ⟨e, _, rows, hptr, _, hrs, htable, _, hfind⟩ := h.deref hm
  obtain ⟨e', _, rows', hptr', _, hrs', _, _, hfind'⟩ := h.deref hm'
  obtain ⟨r, hr, hsym, rfl⟩ := SymMap.find_eq_some hfind
  obtain ⟨r', hr', hsym', rfl⟩ := SymMap.find_eq_some hfind'
  have hiff : r.entry = r'.entry ↔ hd = hd' := by
    constructor
    · intro heq
      by_cases ht : hd.1 = hd'.1
      · rw [ht, hrs'] at hrs
        obtain rfl := Option.some.inj (Option.some.inj hrs)
        have hrow := List.inj_on_of_nodup_map htable.entries_nodup hr hr' heq
        exact Prod.ext ht (hsym.symm.trans ((congrArg Row.sym hrow).trans hsym'))
      · -- the entries of different tables are apart
        obtain ⟨frees, hpool⟩ := h.split hrs
        exact absurd heq ((List.nodup_append.mp hpool.live_nodup).2.2
          r.entry (List.mem_map_of_mem hr) r'.entry
          (mem_entriesOf_set hrs' (Ne.symm ht) (List.mem_map_of_mem hr')))
    · intro heq
      rw [heq, hrs'] at hrs
      obtain rfl := Option.some.inj (Option.some.inj hrs)
      rw [heq, hfind'] at hfind
      exact (Option.some.inj hfind).symm
  show (s.ptr j >>= _) = _
  rw [hptr, ok_bind, hptr', ok_bind, decide_eq_decide.mpr hiff]

/-- `npr_symtab_fini`. -/
theorem Holds.fini (h : Holds hashcode s rs a) {t : Nat} {m : KeyData Sym}
    (hm : a.get t = some m) :
    ∃ s' rs', (TablesCall.fini t).exec hashcode s = .ok (s', .nothing)
      ∧ Holds hashcode s' rs' { a with maps := a.maps.set t none } := by
  obtain ⟨tab, rows, htab, hrs, htable, _⟩ := h.get hm
  obtain ⟨frees, hpool⟩ := h.split hrs
  obtain ⟨m', alloc', frees', hfini, hpool', hsame⟩ := htable.fini hpool
  refine ⟨⟨m', alloc', s.tabs.set t none, s.ptrs⟩, rs.set t none, ?_,
    h.change hrs hpool' trivial hsame
      fun rows' hrows => by cases hrows⟩
  show (s.tab t >>= _) = _
  rw [htab, ok_bind, hfini]
  rfl

/-- One call: the tables do what the maps do. -/
theorem Holds.exec (h : Holds hashcode s rs a) {c : TablesCall Sym}
    {r : Maps Sym × Seen} (hr : a.exec c = some r) :
    ∃ s' rs', c.exec hashcode s = .ok (s', r.2)
      ∧ Holds hashcode s' rs' r.1 := by
  cases c with
  | init sizeHint =>
      simp only [Maps.exec] at hr
      by_cases hsize : sizeHint.toInt < 2 ^ 30
      · rw [if_pos hsize] at hr
        cases hr
        obtain ⟨s', hexec, h'⟩ := h.init hsize
        exact ⟨s', _, hexec, h'⟩
      · rw [if_neg hsize] at hr
        cases hr
  | lookup t x com =>
      obtain ⟨m, hm, hr⟩ := Option.bind_eq_some_iff.mp hr
      exact h.lookup hm hr
  | write k v =>
      obtain ⟨⟨hd, m⟩, hm, hr⟩ := Option.bind_eq_some_iff.mp hr
      cases hr
      exact h.write hm
  | read k =>
      obtain ⟨⟨hd, m⟩, hm, hr⟩ := Option.bind_eq_some_iff.mp hr
      obtain ⟨p, hp, hr⟩ := Option.bind_eq_some_iff.mp hr
      cases hr
      exact ⟨s, rs, h.read hm hp, h⟩
  | same j k =>
      obtain ⟨⟨hd, m⟩, hm, hr⟩ := Option.bind_eq_some_iff.mp hr
      obtain ⟨⟨hd', m'⟩, hm', hr⟩ := Option.bind_eq_some_iff.mp hr
      cases hr
      exact ⟨s, rs, h.same hm hm', h⟩
  | fini t =>
      obtain ⟨m, hm, hr⟩ := Option.bind_eq_some_iff.mp hr
      cases hr
      exact h.fini hm

-- ==================================================================== a run

/-- Every call of a run. Induction on the calls. -/
theorem Holds.run (cs : List (TablesCall Sym)) :
    ∀ {s : Tables} {rs : List (Option (List Row))} {a : Maps Sym}
      {r : Maps Sym × List Seen}, Holds hashcode s rs a → a.run cs = some r →
      ∃ s' rs', tablesRunFrom hashcode s cs = .ok (s', r.2)
        ∧ Holds hashcode s' rs' r.1 := by
  induction cs with
  | nil =>
      intro s rs a r h hr
      cases hr
      exact ⟨s, rs, rfl, h⟩
  | cons c cs ih =>
      intro s rs a r h hr
      obtain ⟨⟨a₁, seen⟩, hc, hr⟩ := Option.bind_eq_some_iff.mp hr
      obtain ⟨⟨a₂, rest⟩, hcs, hr⟩ := Option.bind_eq_some_iff.mp hr
      cases hr
      obtain ⟨s₁, rs₁, hexec, h₁⟩ := h.exec hc
      obtain ⟨s₂, rs₂, hrun, h₂⟩ := ih h₁ hcs
      refine ⟨s₂, rs₂, ?_, h₂⟩
      show (c.exec hashcode s >>= _) = _
      rw [hexec, ok_bind]
      show (tablesRunFrom hashcode s₁ cs >>= _) = _
      rw [hrun]
      rfl

/-- The entries in use are the symbols of all maps. -/
theorem Holds.size (h : Holds hashcode s rs a) :
    (entriesOf rs).length = a.size := by
  unfold Maps.size entriesOf
  rw [h.maps, List.map_map, List.length_flatMap]
  congr 1
  apply List.map_congr_left
  intro o _
  cases o with
  | none => rfl
  | some rows =>
      show (rows.map _).length = (rows.map _).length
      rw [List.length_map, List.length_map]

/-- Several symbol tables share their allocator, and a program cannot
tell: on every run the maps support, it sees what the maps say, with every
pointer good until its own table ends. The statistics count the symbols of
all tables that have not ended as used, so nothing of those that have is
lost; and each table is printed as its map, the symbols by their hash. -/
theorem symtabs_are_maps (hashcode : Sym → Word) (m : Elems)
    {cs : List (TablesCall Sym)} {a : Maps Sym} {seen : List Seen}
    (hcs : Maps.run ⟨[], []⟩ cs = some (a, seen)) :
    ∃ s, tablesRun hashcode m cs = .ok (s, seen)
      ∧ (∃ stat, chunkAllocatorStat s.elems s.alloc = .ok stat
        ∧ stat.used = BitVec.ofNat 32 a.size
        ∧ stat.total = stat.used + stat.free
        ∧ stat.total = 512 * stat.chunkCount)
      ∧ ∀ t map, a.get t = some map → ∃ tab lines, s.tab t = .ok tab
        ∧ tab.numEntry.toNat = map.length
        ∧ symtabStat s.elems tab true = .ok ⟨tab.numBin, tab.numEntry, lines⟩
        ∧ (lines.flatMap StatLine.printed).Perm map
        ∧ ∀ i line, lines[i]? = some line →
          line.len = BitVec.ofNat 32 line.printed.length
          ∧ ∀ x ∈ line.printed, (hashcode x.1 % tab.numBin).toNat = i := by
  have hinit : Holds hashcode
      ⟨(symtabGlobalInit m).1, (symtabGlobalInit m).2, [], []⟩ [] ⟨[], []⟩ :=
    ⟨⟨_, symtabGlobalInit_pool m⟩, .nil, rfl, .nil⟩
  obtain ⟨s, rs, hrun, h⟩ := Holds.run cs hinit hcs
  refine ⟨s, hrun, ?_, fun t map hmap => ?_⟩
  · obtain ⟨frees, hpool⟩ := h.pool
    have hlen := hpool.length
    refine ⟨_, hpool.stat, by rw [h.size], ?_, ?_⟩
    · rw [← BitVec.ofNat_add, Nat.add_comm, hlen]
    · rw [BitVec.ofNat_mul]
      rfl
  · obtain ⟨tab, rows, htab, _, htable, rfl⟩ := h.get hmap
    obtain ⟨lines, hstat, hperm, hlines⟩ := htable.stat
    refine ⟨tab, lines, htab, ?_, hstat, hperm, hlines⟩
    rw [htable.count, contents, List.length_map]

/-- One symbol in two tables, data in the first of them, and its end. -/
theorem symtabs_are_maps_two : ∃ s,
    tablesRun (fun _ => 7) (fun _ => .free none)
        [.init 5, .init 5, .lookup 0 1 .append, .lookup 1 1 .append,
          .write 0 (some 9), .read 0, .read 1, .same 0 1, .fini 0,
          .lookup 1 2 .append, .read 1]
      = .ok (s, [.nothing, .nothing, .found true, .found true, .nothing,
          .data (some 9), .data none, .equal false, .nothing, .found true,
          .data none])
    ∧ ∃ stat, chunkAllocatorStat s.elems s.alloc = .ok stat
      ∧ stat.used = 2#32 := by
  obtain ⟨s, hrun, ⟨stat, hstat, hused, _⟩, _⟩ := symtabs_are_maps
    (fun _ => 7) (fun _ => .free none)
    (show Maps.run ⟨[], []⟩ [.init 5, .init 5, .lookup 0 1 .append,
      .lookup 1 1 .append, .write 0 (some 9), .read 0, .read 1, .same 0 1,
      .fini 0, .lookup 1 2 .append, .read 1] = some
        (⟨[none, some [(1, none), (2, none)]],
          [some (0, 1), some (1, 1), some (1, 2)]⟩,
        [.nothing, .nothing, .found true, .found true, .nothing,
          .data (some 9), .data none, .equal false, .nothing, .found true,
          .data none])
      by decide)
  exact ⟨s, hrun, stat, hstat, hused⟩

end UdeBench.Npr.SymbolTable
