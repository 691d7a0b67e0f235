/-
A program that interns strings (npr/symbol.c) and keys symbol tables
(npr/int-map.c) by the symbols it gets.

A symbol is the address of its block, and `sym->hashcode`, wherever a
table reads it, what `npr_intern` stored there. A block that is no symbol
has the hash zero; the tables hold symbols only.

The program names a symbol by the order in which it got them.
-/
import UdeBench.Npr.Symbol
import UdeBench.Npr.Symtabs

namespace UdeBench.Npr.Names

open SymbolTable (Elems Sym Tables TablesCall Seen TabError
  symtabGlobalInit)
open Symbols (State InternCall SymError symbolInit)

inductive NamesError
  | sym (e : SymError)
  | tab (e : TabError)
  | noName
deriving DecidableEq, Repr

/-- `sym->hashcode`. -/
def hashcode (st : State) (p : Sym) : Symbols.Word :=
  match st.symbol p with
  | .ok x => x.hashcode
  | .error _ => 0

/-- The bytes of `sym->symstr`, `sym->symstr_len` of them. -/
def symstr (st : State) (p : Sym) : List Symbols.Byte :=
  match st.symbol p with
  | .error _ => []
  | .ok x =>
      match st.string x.symstr with
      | .error _ => []
      | .ok str => str.take x.symstrLen.toNat

/-- The symbols, the tables, and the symbols the program has got. -/
structure Program where
  syms : State
  tabs : Tables
  names : List Sym

/-- The symbol returned, if it is one. -/
def symbolOf : Symbols.Result → List Sym
  | .symbol p => [p]
  | .string _ => []

/-- A call: a string interned, or a call on the tables, where keys are
names. -/
inductive NamesCall
  | intern (c : InternCall)
  | table (c : TablesCall Nat)
deriving DecidableEq, Repr

section
variable (toUnsigned : Symbols.Byte → Symbols.Word)

/-- One call. -/
def NamesCall.exec (s : Program) :
    NamesCall → Except NamesError (Program × Seen)
  | intern c => do
      let (syms, r) ← (c.exec toUnsigned s.syms).mapError .sym
      .ok ({ s with syms, names := s.names ++ symbolOf r }, .nothing)
  | table c =>
      match c.mapKey (s.names[·]?) with
      | none => .error .noName
      | some c => do
          let (tabs, seen) ← (c.exec (hashcode s.syms) s.tabs).mapError .tab
          .ok ({ s with tabs }, seen)

/-- A run of calls, and what the program sees. -/
def namesRunFrom : Program → List NamesCall →
    Except NamesError (Program × List Seen)
  | s, [] => .ok (s, [])
  | s, c :: cs => do
      let (s, r) ← c.exec toUnsigned s
      let (s, rs) ← namesRunFrom s cs
      .ok (s, r :: rs)

end

end UdeBench.Npr.Names
