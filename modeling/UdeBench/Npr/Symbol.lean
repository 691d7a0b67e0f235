/-
The symbols of npr/symbol.c.

# Representation

No block of `malloc` is freed or changed once it is filled, and all of
them lie apart, so the memory is the list of its blocks and an address
the place in the list. `int` and `unsigned` are 32 bits wide; a `size_t`
is a number. What converting a `char` to `unsigned` gives depends on
whether `char` is signed, and is a parameter. The fields of a symbol that
interning does not read (its keyword and values) are left out.

# Errors

An index past the table is `outOfBounds`, and a block read as what it is
not `badBlock`. The search of a chain is a recursion on fuel that ends in
`noReturn` when it runs out.
-/
import Mathlib.Tactic.Ring

namespace UdeBench.Npr.Symbols

abbrev Word := BitVec 32
abbrev Byte := BitVec 8

/-- An address of a block. -/
abbrev Ptr := Nat

inductive SymError
  | outOfBounds | badBlock | noReturn
deriving DecidableEq, Repr

-- ============================================================== hashing

/-- `NPR_SYMBOL_FNV_32_PRIME`, `NPR_SYMBOL_FNV1_32A_INIT`. -/
def symbolFnv32Prime : Word := 0x01000193
def symbolFnv132aInit : Word := 0x811c9dc5

section
variable (toUnsigned : Byte → Word)

/-- `npr_symbol_hash_push`. -/
def symbolHashPush (hval : Word) (c : Byte) : Word :=
  (hval ^^^ toUnsigned c) * symbolFnv32Prime

/-- `hash`: the length is an `int`. -/
def hash (string : List Byte) (len : Word) : Word :=
  (string.take len.toInt.toNat).foldl (symbolHashPush toUnsigned)
    symbolFnv132aInit

end

-- =============================================================== memory

/-- `struct npr_symbol`. -/
structure NprSymbol where
  symstr : Ptr
  symstrLen : Word
  hashcode : Word
deriving DecidableEq, Repr

/-- `struct backet`. -/
structure Backet where
  chain : Option Ptr
  value : Ptr
deriving DecidableEq, Repr

/-- What a block holds. -/
inductive Block
  | symbol (x : NprSymbol)
  | string (s : List Byte)
  | backet (b : Backet)
deriving DecidableEq, Repr

/-- The blocks, the table, and whether it has been made. -/
structure State where
  blocks : List Block
  init : Bool
  numBackets : Word
  backets : List (Option Ptr)
deriving DecidableEq, Repr

def State.symbol (s : State) (p : Ptr) : Except SymError NprSymbol :=
  match s.blocks[p]? with
  | some (.symbol x) => .ok x
  | _ => .error .badBlock

def State.string (s : State) (p : Ptr) : Except SymError (List Byte) :=
  match s.blocks[p]? with
  | some (.string x) => .ok x
  | _ => .error .badBlock

def State.backet (s : State) (p : Ptr) : Except SymError Backet :=
  match s.blocks[p]? with
  | some (.backet x) => .ok x
  | _ => .error .badBlock

/-- `table.backets[h]`. -/
def State.bin (s : State) (h : Nat) : Except SymError (Option Ptr) :=
  match s.backets[h]? with
  | some x => .ok x
  | none => .error .outOfBounds

-- ============================================================ interning

/-- The loop of `npr_intern_with_hash`: the symbol of the string in a
chain. -/
def search (s : State) (symstr : List Byte) (strLen : Nat) :
    Nat → Option Ptr → Except SymError (Option Ptr)
  | _, none => .ok none
  | 0, some _ => .error .noReturn
  | fuel + 1, some chain => do
      let b ← s.backet chain
      let x ← s.symbol b.value
      let str ← s.string x.symstr
      if x.symstrLen.toNat = strLen
          ∧ str.take strLen = symstr.take strLen then
        .ok (some b.value)
      else search s symstr strLen fuel b.chain

/-- `npr_intern_with_hash`: a new symbol is three blocks, itself, its
string and its backet. -/
def internWithHash (s : State) (symstr : List Byte) (strLen : Nat)
    (hval : Word) : Except SymError (State × Ptr) := do
  let h := (hval % s.numBackets).toNat
  let begin ← s.bin h
  match ← search s symstr strLen (s.blocks.length + 1) begin with
  | some p => .ok (s, p)
  | none =>
      let sym := s.blocks.length
      let str := s.blocks.length + 1
      let b := s.blocks.length + 2
      let chain ← s.bin h
      .ok ({ s with
        blocks := s.blocks ++
          [.symbol ⟨str, BitVec.ofNat 32 strLen, hval⟩,
            .string (symstr.take strLen ++ [0]), .backet ⟨chain, sym⟩]
        backets := s.backets.set h (some b) }, sym)

section
variable (toUnsigned : Byte → Word)

/-- `npr_intern_with_length`. -/
def internWithLength (s : State) (symstr : List Byte) (strLen : Nat) :
    Except SymError (State × Ptr) :=
  let hval := hash toUnsigned symstr (BitVec.ofNat 32 strLen)
  internWithHash s symstr strLen hval

/-- `strlen`: what is behind the list is the end of the string. -/
def strlen (symstr : List Byte) : Nat := (symstr.takeWhile (· ≠ 0)).length

/-- `npr_intern`. -/
def intern (s : State) (symstr : List Byte) :
    Except SymError (State × Ptr) :=
  internWithLength toUnsigned s symstr (strlen symstr)

/-- `npr_intern_str`: the string of the symbol. -/
def internStr (s : State) (symstr : List Byte) :
    Except SymError (State × Ptr) := do
  let (s, sym) ← intern toUnsigned s symstr
  let x ← s.symbol sym
  .ok (s, x.symstr)

/-- `npr_symbol_init`. -/
def symbolInit (s : State) : State :=
  if s.init then s
  else { s with init := true, numBackets := 173
                backets := List.replicate 173 none }

-- ================================================================= runs

/-- The four ways to intern a string. -/
inductive InternCall
  | intern (symstr : List Byte)
  | internStr (symstr : List Byte)
  | internWithLength (symstr : List Byte) (strLen : Nat)
  | internWithHash (symstr : List Byte) (strLen : Nat) (hval : Word)
deriving DecidableEq, Repr

/-- What is returned: a symbol, or the string of one. -/
inductive Result
  | symbol (p : Ptr)
  | string (p : Ptr)
deriving DecidableEq, Repr

/-- One call. -/
def InternCall.exec (s : State) : InternCall →
    Except SymError (State × Result)
  | .intern symstr => do
      let (s, p) ← Symbols.intern toUnsigned s symstr
      .ok (s, .symbol p)
  | .internStr symstr => do
      let (s, p) ← Symbols.internStr toUnsigned s symstr
      .ok (s, .string p)
  | .internWithLength symstr strLen => do
      let (s, p) ← Symbols.internWithLength toUnsigned s symstr strLen
      .ok (s, .symbol p)
  | .internWithHash symstr strLen hval => do
      let (s, p) ← Symbols.internWithHash s symstr strLen hval
      .ok (s, .symbol p)

/-- A run of calls, and what they return. -/
def runFrom : State → List InternCall →
    Except SymError (State × List Result)
  | s, [] => .ok (s, [])
  | s, c :: cs => do
      let (s, r) ← c.exec toUnsigned s
      let (s, rs) ← runFrom s cs
      .ok (s, r :: rs)

/-- A run after `npr_symbol_init`, in a program that has used nothing of
it before. -/
def internRun (cs : List InternCall) :
    Except SymError (State × List Result) :=
  runFrom toUnsigned (symbolInit ⟨[], false, 0, []⟩) cs

end

end UdeBench.Npr.Symbols
