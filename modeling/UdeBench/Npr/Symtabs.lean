/-
Several symbol tables of npr/int-map.c on the one allocator of their
entries, the end of a table (`npr_symtab_fini`), and what the two
statistics functions report.

# A program

A program names a table by the order of `npr_symtab_init`, and keeps what
every lookup returns: the `k`-th pointer. It stores to and loads from the
`data` of an entry through a pointer, compares pointers, and ends tables.
A table that has ended is `none`; a call on it is `outOfBounds`, and a
null pointer followed is `badElem`, as is a pointer to a free element.

The array of slots of a table belongs to it alone, so `malloc` and `free`
of it are not seen.
-/
import UdeBench.Npr.Symtab

namespace UdeBench.Npr.SymbolTable

-- ========================================================== an entry freed

/-- `npr_chunk_allocator_free`. -/
def chunkAllocatorFree (m : Elems) (a : ChunkAllocator) (e : ElemPtr) :
    Elems × ChunkAllocator :=
  (m.set e (.free a.top), { a with top := some e })

/-- The inner loop of `npr_symtab_fini`. -/
def freeEntries : Nat → Option ElemPtr → Elems → ChunkAllocator →
    Except TabError (Elems × ChunkAllocator)
  | _, none, m, a => .ok (m, a)
  | 0, some _, _, _ => .error .noReturn
  | fuel + 1, some e, m, a => do
      let x ← m.entry e
      let n := x.chain
      let (m, a) := chunkAllocatorFree m a e
      freeEntries fuel n m a

/-- `npr_symtab_fini`. -/
def symtabFini (m : Elems) (a : ChunkAllocator) (tab : Symtab) :
    Except TabError (Elems × ChunkAllocator) :=
  (List.range tab.numBin.toNat).foldlM
    (fun (s : Elems × ChunkAllocator) i => do
      let e ← readBin tab.entries i
      freeEntries tab.numEntry.toNat e s.1 s.2)
    (m, a)

-- ============================================================== statistics

/-- The loop of `npr_chunk_allocator_stat` along the free chain. -/
def countFree (m : Elems) : Nat → Option ElemPtr → Word →
    Except TabError Word
  | _, none, freeCount => .ok freeCount
  | 0, some _, _ => .error .noReturn
  | fuel + 1, some e, freeCount =>
      match m e with
      | .free next => countFree m fuel next (freeCount + 1)
      | .used _ => .error .badElem

/-- What `npr_chunk_allocator_stat` prints. -/
structure ChunkStat where
  total : Word
  chunkCount : Word
  used : Word
  free : Word
deriving DecidableEq, Repr

/-- `npr_chunk_allocator_stat`. -/
def chunkAllocatorStat (m : Elems) (a : ChunkAllocator) :
    Except TabError ChunkStat := do
  let chunkCount := BitVec.ofNat 32 a.chunks
  let total := chunkCount * BitVec.ofNat 32 a.chunkCount
  let freeCount ← countFree m (a.chunks * a.chunkCount) a.top 0
  .ok ⟨total, chunkCount, total - freeCount, freeCount⟩

/-- The two loops of `npr_symtab_stat` along a chain: its length, and
what is printed of its entries. -/
def chainLen (m : Elems) : Nat → Option ElemPtr → Word → Except TabError Word
  | _, none, len => .ok len
  | 0, some _, _ => .error .noReturn
  | fuel + 1, some e, len => do
      let x ← m.entry e
      chainLen m fuel x.chain (len + 1)

def printChain (m : Elems) : Nat → Option ElemPtr →
    Except TabError (List (Sym × Data))
  | _, none => .ok []
  | 0, some _ => .error .noReturn
  | fuel + 1, some e => do
      let x ← m.entry e
      let rest ← printChain m fuel x.chain
      .ok ((x.sym, x.data) :: rest)

/-- A slot of the table, as printed. -/
structure StatLine where
  len : Word
  printed : List (Sym × Data)
deriving DecidableEq, Repr

/-- The body of the loop of `npr_symtab_stat`. -/
def statLine (m : Elems) (tab : Symtab) (verbose : Bool) (i : Nat) :
    Except TabError StatLine := do
  let e ← readBin tab.entries i
  let len ← chainLen m tab.numEntry.toNat e 0
  if verbose then do
    let printed ← printChain m tab.numEntry.toNat e
    .ok ⟨len, printed⟩
  else .ok ⟨len, []⟩

/-- What `npr_symtab_stat` prints. -/
structure TabStat where
  numBin : Word
  numEntry : Word
  lines : List StatLine
deriving DecidableEq, Repr

/-- `npr_symtab_stat`. -/
def symtabStat (m : Elems) (tab : Symtab) (verbose : Bool) :
    Except TabError TabStat := do
  let lines ← (List.range tab.numBin.toNat).mapM (statLine m tab verbose)
  .ok ⟨tab.numBin, tab.numEntry, lines⟩

-- ================================================================ programs

/-- The entries and their allocator, the tables, and the pointers the
program has got. -/
structure Tables where
  elems : Elems
  alloc : ChunkAllocator
  tabs : List (Option Symtab)
  ptrs : List (Option ElemPtr)

/-- A table that has not ended. -/
def Tables.tab (s : Tables) (t : Nat) : Except TabError Symtab :=
  match s.tabs[t]? with
  | some (some tab) => .ok tab
  | _ => .error .outOfBounds

/-- A pointer to be followed. -/
def Tables.ptr (s : Tables) (k : Nat) : Except TabError ElemPtr :=
  match s.ptrs[k]? with
  | some (some e) => .ok e
  | _ => .error .badElem

/-- What a program does, where it names symbols by a type of keys.
`write`, `read` and `same` name pointers. -/
inductive TablesCall (κ : Type)
  | init (sizeHint : Word)
  | lookup (t : Nat) (key : κ) (com : LookupCommand)
  | write (k : Nat) (v : Data)
  | read (k : Nat)
  | same (j k : Nat)
  | fini (t : Nat)
deriving DecidableEq, Repr

/-- A call with its key, if it has one, put for another. -/
def TablesCall.mapKey {κ κ' : Type} (f : κ → Option κ') :
    TablesCall κ → Option (TablesCall κ')
  | init sizeHint => some (.init sizeHint)
  | lookup t key com => (f key).map fun key => .lookup t key com
  | write k v => some (.write k v)
  | read k => some (.read k)
  | same j k => some (.same j k)
  | fini t => some (.fini t)

/-- What it sees: whether a lookup returned an entry, data, and whether
two pointers are equal. -/
inductive Seen
  | nothing
  | found (b : Bool)
  | data (d : Data)
  | equal (b : Bool)
deriving DecidableEq, Repr

section
variable (hashcode : Sym → Word)

/-- One call. -/
def TablesCall.exec (s : Tables) :
    TablesCall Sym → Except TabError (Tables × Seen)
  | init sizeHint => do
      let tab ← symtabInit sizeHint
      .ok ({ s with tabs := s.tabs ++ [some tab] }, .nothing)
  | lookup t sym com => do
      let tab ← s.tab t
      let (s', e) ← lookupEntry hashcode ⟨s.elems, s.alloc, tab⟩ sym com
      .ok (⟨s'.elems, s'.alloc, s.tabs.set t (some s'.tab), s.ptrs ++ [e]⟩,
        .found e.isSome)
  | write k v => do
      let e ← s.ptr k
      let x ← s.elems.entry e
      .ok ({ s with elems := s.elems.set e (.used { x with data := v }) },
        .nothing)
  | read k => do
      let e ← s.ptr k
      let x ← s.elems.entry e
      .ok (s, .data x.data)
  | same j k => do
      let e ← s.ptr j
      let e' ← s.ptr k
      .ok (s, .equal (e = e'))
  | fini t => do
      let tab ← s.tab t
      let (elems, alloc) ← symtabFini s.elems s.alloc tab
      .ok (⟨elems, alloc, s.tabs.set t none, s.ptrs⟩, .nothing)

/-- A run of calls, and what the program sees. -/
def tablesRunFrom : Tables → List (TablesCall Sym) →
    Except TabError (Tables × List Seen)
  | s, [] => .ok (s, [])
  | s, c :: cs => do
      let (s, r) ← c.exec hashcode s
      let (s, rs) ← tablesRunFrom s cs
      .ok (s, r :: rs)

/-- A run from `npr_symtab_global_init` on. -/
def tablesRun (m : Elems) (cs : List (TablesCall Sym)) :
    Except TabError (Tables × List Seen) :=
  let (m, a) := symtabGlobalInit m
  tablesRunFrom hashcode ⟨m, a, [], []⟩ cs

end

end UdeBench.Npr.SymbolTable
