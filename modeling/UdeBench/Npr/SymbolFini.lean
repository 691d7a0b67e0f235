/-
The whole life of the symbols of npr/symbol.c: `npr_symbol_init`,
interning, and `npr_symbol_finish`, in any order a program calls them in.

Beside the blocks and the table of Symbol.lean there is what has been
freed of them. Until `npr_symbol_finish` nothing is, so interning looks at
the table only; after it, the table is gone, and `init` still set.
-/
import UdeBench.Npr.Symbol

namespace UdeBench.Npr.Symbols

/-- What can go wrong: a fault of interning, or a use of what is gone. -/
inductive LifeError
  | sym (e : SymError)
  | gone
deriving DecidableEq, Repr

/-- The program's symbols, the blocks freed, and whether the table is. -/
structure Life where
  state : State
  freed : List Ptr
  tableFreed : Bool
deriving DecidableEq, Repr

/-- A read, of a block that is not gone. -/
def Life.read {α : Type} (l : Life) (p : Ptr) (x : Except SymError α) :
    Except LifeError α :=
  if p ∈ l.freed then .error .gone
  else x.mapError .sym

/-- `free` of a block. -/
def Life.free (l : Life) (p : Ptr) : Except LifeError Life :=
  if p ∈ l.freed ∨ l.state.blocks.length ≤ p then .error .gone
  else .ok { l with freed := l.freed ++ [p] }

/-- `table.backets[h]`. -/
def Life.bin (l : Life) (h : Nat) : Except LifeError (Option Ptr) :=
  if l.tableFreed then .error .gone
  else (l.state.bin h).mapError .sym

/-- The inner loop of `npr_symbol_finish`: a chain is freed, each backet
behind its symbol, each symbol behind its string. -/
def finishChain : Nat → Life → Option Ptr → Except LifeError Life
  | _, l, none => .ok l
  | 0, _, some _ => .error (.sym .noReturn)
  | fuel + 1, l, some p => do
      let b ← l.read p (l.state.backet p)
      let x ← l.read b.value (l.state.symbol b.value)
      let l ← l.free x.symstr
      let l ← l.free b.value
      let l ← l.free p
      finishChain fuel l b.chain

/-- One turn of its outer loop, with fuel for every block there is. -/
def finishBin (l : Life) (i : Nat) : Except LifeError Life := do
  let p ← l.bin i
  finishChain l.state.blocks.length l p

/-- `npr_symbol_finish`. -/
def symbolFinish (l : Life) : Except LifeError Life := do
  let l ← (List.range 173).foldlM finishBin l
  .ok { l with tableFreed := true }

/-- A call. -/
inductive LifeCall
  | init
  | intern (c : InternCall)
  | finish
deriving DecidableEq, Repr

section
variable (toUnsigned : Byte → Word)

/-- One call: interning begins with a read of the table. -/
def LifeCall.exec (l : Life) : LifeCall → Except LifeError Life
  | init => .ok { l with state := symbolInit l.state }
  | intern c =>
      if l.tableFreed then .error .gone
      else do
        let (state, _) ← (c.exec toUnsigned l.state).mapError .sym
        .ok { l with state }
  | finish => symbolFinish l

/-- The calls of a program, from its start. -/
def lifeRun (cs : List LifeCall) : Except LifeError Life :=
  cs.foldlM (LifeCall.exec toUnsigned) ⟨⟨[], false, 0, []⟩, [], false⟩

end

end UdeBench.Npr.Symbols
