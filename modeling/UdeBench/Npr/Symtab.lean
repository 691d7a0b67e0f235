/-
The symbol table of npr/int-map.c, with the allocator of its entries
(npr/chunk-alloc.c).

# Representation

The allocator takes chunks of 512 elements from `malloc`, which answers
with a block apart from all others, so an element is named by its chunk
and its place there. A free element holds the link of the free chain in
the memory that later is an entry: `Elem` is the union of the two. A
symbol is its address, and what the table reads of it, `hashcode`, a
parameter. `int` and `unsigned` are 32 bits wide. A `size_t` is wide
enough for an array of pointers, as on an LP64 target: no Makefile builds
npr/int-map.c, and memory for as many entries as an `int` counts is to be
had there only.

# Errors

An index past an array is `outOfBounds`, an element read as what it is
not `badElem`, and `abort()` is `aborted`. The loops along chains are
recursions on fuel that end in `noReturn` when it runs out: there are no
more than `num_entry` entries.
-/
import Mathlib.Tactic.Ring

namespace UdeBench.Npr.SymbolTable

/-- An `int` or `unsigned`. -/
abbrev Word := BitVec 32

/-- The address of a symbol, and what a `data` field holds. -/
abbrev Sym := Nat
abbrev Data := Option Nat

inductive TabError
  | outOfBounds | badElem | noReturn | aborted
deriving DecidableEq, Repr

-- ============================================================ elements

/-- The address of an element. -/
structure ElemPtr where
  chunk : Nat
  idx : Nat
deriving DecidableEq, Repr

/-- `struct npr_symtab_entry`. -/
structure Entry where
  sym : Sym
  data : Data
  chain : Option ElemPtr
deriving DecidableEq, Repr

/-- An element: free, or an entry. -/
inductive Elem
  | free (chain : Option ElemPtr)
  | used (e : Entry)
deriving DecidableEq, Repr

/-- The memory of the elements. -/
abbrev Elems := ElemPtr → Elem

def Elems.set (m : Elems) (p : ElemPtr) (x : Elem) : Elems := fun q =>
  if q = p then x else m q

/-- An entry read. -/
def Elems.entry (m : Elems) (p : ElemPtr) : Except TabError Entry :=
  match m p with
  | .used e => .ok e
  | .free _ => .error .badElem

-- =========================================================== allocator

/-- `struct npr_chunk_allocator`: `chunks` is the length of its list. -/
structure ChunkAllocator where
  top : Option ElemPtr
  chunkCount : Nat
  chunks : Nat
deriving DecidableEq, Repr

/-- `alloc_chunk`: the elements of the chunk linked in order. -/
def allocChunk (m : Elems) (c chunkCount : Nat) : Elems :=
  let m := (List.range (chunkCount - 1)).foldl
    (fun m i => m.set ⟨c, i⟩ (.free (some ⟨c, i + 1⟩))) m
  m.set ⟨c, chunkCount - 1⟩ (.free none)

/-- `npr_chunk_allocator_init`. -/
def chunkAllocatorInit (m : Elems) (chunkCount : Nat) :
    Elems × ChunkAllocator :=
  (allocChunk m 0 chunkCount, ⟨some ⟨0, 0⟩, chunkCount, 1⟩)

/-- `npr_chunk_allocator_alloc`. -/
def chunkAllocatorAlloc (m : Elems) (a : ChunkAllocator) :
    Except TabError (Elems × ChunkAllocator × ElemPtr) :=
  match a.top with
  | some ret =>
      match m ret with
      | .free next => .ok (m, { a with top := next }, ret)
      | .used _ => .error .badElem
  | none =>
      let m := allocChunk m a.chunks a.chunkCount
      let e : ElemPtr := ⟨a.chunks, 0⟩
      match m e with
      | .free next =>
          .ok (m, { a with top := next, chunks := a.chunks + 1 }, e)
      | .used _ => .error .badElem

-- =============================================================== table

/-- `struct npr_symtab`. -/
structure Symtab where
  numBin : Word
  numEntry : Word
  entries : List (Option ElemPtr)
deriving DecidableEq, Repr

/-- The table, and the memory of its entries. -/
structure Sys where
  elems : Elems
  alloc : ChunkAllocator
  tab : Symtab

/-- `MINSIZE`. -/
def minSize : Word := 8

/-- `primes`. -/
def primes : List Word :=
  [8 + 3, 16 + 3, 32 + 5, 64 + 3, 128 + 3, 256 + 27, 512 + 9, 1024 + 9,
    2048 + 5, 4096 + 3, 8192 + 27, 16384 + 43, 32768 + 3, 65536 + 45,
    131072 + 29, 262144 + 3, 524288 + 21, 1048576 + 7, 2097152 + 17,
    4194304 + 15, 8388608 + 9, 16777216 + 43, 33554432 + 35,
    67108864 + 15, 134217728 + 29, 268435456 + 3, 536870912 + 11,
    1073741824 + 85, 0]

/-- The loop of `new_size`. -/
def newSizeFrom (size : Word) : List Word → Word → Except TabError Word
  | [], _ => .error .aborted
  | p :: ps, newsize =>
      if size.slt newsize then .ok p else newSizeFrom size ps (newsize <<< 1)

/-- `new_size`. -/
def newSize (size : Word) : Except TabError Word :=
  newSizeFrom size primes minSize

/-- A slot of an array read. -/
def readBin (bins : List (Option ElemPtr)) (i : Nat) :
    Except TabError (Option ElemPtr) :=
  match bins[i]? with
  | some h => .ok h
  | none => .error .outOfBounds

/-- What `struct npr_symtab_entry **ep` points to: a slot of the table, or
the `chain` of an entry. -/
inductive Slot
  | bin (i : Nat)
  | chain (e : ElemPtr)
deriving DecidableEq, Repr

/-- `*ep`. -/
def readSlot (s : Sys) : Slot → Except TabError (Option ElemPtr)
  | .bin i => readBin s.tab.entries i
  | .chain e => do
      let x ← s.elems.entry e
      .ok x.chain

/-- `*ep = e`. -/
def writeSlot (s : Sys) (e : ElemPtr) : Slot → Except TabError Sys
  | .bin i => do
      let _ ← readBin s.tab.entries i
      .ok { s with tab := { s.tab with
        entries := s.tab.entries.set i (some e) } }
  | .chain p => do
      let x ← s.elems.entry p
      .ok { s with elems := s.elems.set p (.used { x with chain := some e }) }

section
variable (hashcode : Sym → Word)

/-- The inner loop of the rehash: a chain moved to the new array. -/
def relinkChain (size : Word) : Nat → Option ElemPtr → Elems →
    List (Option ElemPtr) → Except TabError (Elems × List (Option ElemPtr))
  | _, none, m, newEntries => .ok (m, newEntries)
  | 0, some _, _, _ => .error .noReturn
  | fuel + 1, some e, m, newEntries => do
      let x ← m.entry e
      let newIdx := (hashcode x.sym % size).toNat
      let n := x.chain
      let head ← readBin newEntries newIdx
      relinkChain size fuel n (m.set e (.used { x with chain := head }))
        (newEntries.set newIdx (some e))

/-- The outer loop, over the slots of the old array. -/
def relink (size : Word) (fuel : Nat) (oldEntries : List (Option ElemPtr))
    (oldSize : Nat) (m : Elems) :
    Except TabError (Elems × List (Option ElemPtr)) :=
  (List.range oldSize).foldlM
    (fun (s : Elems × List (Option ElemPtr)) i => do
      let e ← readBin oldEntries i
      relinkChain hashcode size fuel e s.1 s.2)
    (m, List.replicate size.toNat none)

/-- `alloc_entry`: the new entry, and whether the table has grown. -/
def allocEntry (s : Sys) : Except TabError (Sys × ElemPtr × Bool) := do
  let (m, a, e) ← chunkAllocatorAlloc s.elems s.alloc
  let tab := { s.tab with numEntry := s.tab.numEntry + 1 }
  let ratio := tab.numEntry.sdiv tab.numBin
  if (3#32).slt ratio then
    let oldSize := tab.numBin
    let size ← newSize (tab.numBin + 1)
    let (m, newEntries) ← relink hashcode size tab.numEntry.toNat tab.entries
      oldSize.toNat m
    .ok (⟨m, a, { tab with numBin := size, entries := newEntries }⟩, e, true)
  else
    .ok (⟨m, a, tab⟩, e, false)

/-- The loop of the lookup: the entry of the symbol, or the slot at the
end of its chain. -/
def search (s : Sys) (sym : Sym) : Nat → Slot →
    Except TabError (Slot ⊕ ElemPtr)
  | 0, _ => .error .noReturn
  | fuel + 1, ep => do
      match ← readSlot s ep with
      | none => .ok (.inl ep)
      | some e =>
          let x ← s.elems.entry e
          if x.sym = sym then .ok (.inr e) else search s sym fuel (.chain e)

/-- `enum npr_lookup_command`. -/
inductive LookupCommand
  | append | fail
deriving DecidableEq, Repr

/-- `npr_symtab_lookup_entry`. -/
def lookupEntry (s : Sys) (sym : Sym) (com : LookupCommand) :
    Except TabError (Sys × Option ElemPtr) := do
  let hash := hashcode sym
  let idx := (hash % s.tab.numBin).toNat
  match ← search s sym (s.tab.numEntry.toNat + 1) (.bin idx) with
  | .inr e => .ok (s, some e)
  | .inl ep =>
      match com with
      | .append =>
          let (s, e, doRehash) ← allocEntry hashcode s
          if doRehash then
            let idx := (hash % s.tab.numBin).toNat
            let head ← readBin s.tab.entries idx
            let s := { s with elems := s.elems.set e (.used ⟨sym, none, head⟩) }
            let s ← writeSlot s e (.bin idx)
            .ok (s, some e)
          else
            let s := { s with elems := s.elems.set e (.used ⟨sym, none, none⟩) }
            let s ← writeSlot s e ep
            .ok (s, some e)
      | .fail => .ok (s, none)

/-- `npr_symtab_init`. -/
def symtabInit (sizeHint : Word) : Except TabError Symtab := do
  let size ← newSize sizeHint
  .ok ⟨size, 0, List.replicate size.toNat none⟩

/-- `npr_symtab_global_init`. -/
def symtabGlobalInit (m : Elems) : Elems × ChunkAllocator :=
  chunkAllocatorInit m 512

-- ================================================================ runs

/-- What a program does with the table: a lookup, or a store to the
`data` of an entry. -/
inductive SymtabCall
  | lookup (sym : Sym) (com : LookupCommand)
  | write (e : ElemPtr) (v : Data)
deriving DecidableEq, Repr

/-- One call, and what it returns. -/
def SymtabCall.exec (s : Sys) :
    SymtabCall → Except TabError (Sys × Option ElemPtr)
  | lookup sym com => lookupEntry hashcode s sym com
  | write e v => do
      let x ← s.elems.entry e
      .ok ({ s with elems := s.elems.set e (.used { x with data := v }) },
        none)

/-- A run of calls, and what they return. -/
def runFrom : Sys → List SymtabCall →
    Except TabError (Sys × List (Option ElemPtr))
  | s, [] => .ok (s, [])
  | s, c :: cs => do
      let (s, r) ← c.exec hashcode s
      let (s, rs) ← runFrom s cs
      .ok (s, r :: rs)

/-- A run of calls on a new table. -/
def symtabRun (m : Elems) (sizeHint : Word) (cs : List SymtabCall) :
    Except TabError (Sys × List (Option ElemPtr)) := do
  let (m, a) := symtabGlobalInit m
  let tab ← symtabInit sizeHint
  runFrom hashcode ⟨m, a, tab⟩ cs

end

end UdeBench.Npr.SymbolTable
