/-
The singly linked list of npr/list.c, with the iteration of npr/list.h.

# Representation

The elements are objects in a heap of their own, and so is what their
values point to, which only `npr_singly_list_fini` touches. `tail_chain`
points to a pointer: the list's `head`, or the `chain` of an element
(`Link`).

# Iteration

The body of `NPR_SINGLY_LIST_FOR_EACH` may push to the list it runs over.
Which pushes it makes is a function of the values visited so far and of
the one it is at. `NSle->chain` is read after the body.

Loops along the chain are recursions on fuel, and `noReturn` when it runs
out.
-/
import UdeBench.Lib.Store

namespace UdeBench.Npr.Slist

open Store (Ptr Heap Fault load store freePtr)

/-- A `void *`. -/
abbrev Value := Option Ptr

/-- `struct npr_singly_list_elem`. -/
structure Elem where
  chain : Option Ptr
  value : Value
deriving DecidableEq, Repr

/-- What `tail_chain` points to. -/
inductive Link
  | head
  | chain (e : Ptr)
deriving DecidableEq, Repr

/-- `struct npr_singly_list`. -/
structure SinglyList where
  head : Option Ptr
  tailChain : Link
deriving DecidableEq, Repr

/-- The elements, and the list. -/
structure Sys where
  elems : Heap Elem
  list : SinglyList
deriving DecidableEq, Repr

/-- `*l = e`. -/
def writeLink (s : Sys) (l : Link) (e : Option Ptr) : Except Fault Sys :=
  match l with
  | .head => .ok { s with list := { s.list with head := e } }
  | .chain p => do
      let x ← load s.elems (some p)
      let elems ← store s.elems (some p) { x with chain := e }
      .ok { s with elems }

section
variable (answers : Nat → Bool)

/-- `npr_singly_list_push_head`. -/
def pushHead (s : Sys) (ptr : Value) : Except Fault Sys := do
  let (elems, e) ← Store.malloc answers s.elems ⟨none, none⟩
  let tailChain :=
    if s.list.head = none then .chain e else s.list.tailChain
  let elems ← store elems (some e) ⟨s.list.head, ptr⟩
  .ok ⟨elems, ⟨some e, tailChain⟩⟩

/-- `npr_singly_list_push_tail`. -/
def pushTail (s : Sys) (ptr : Value) : Except Fault Sys := do
  let (elems, e) ← Store.malloc answers s.elems ⟨none, none⟩
  let s ← writeLink { s with elems } s.list.tailChain (some e)
  let elems ← store s.elems (some e) ⟨none, ptr⟩
  .ok ⟨elems, { s.list with tailChain := .chain e }⟩

/-- A push. -/
inductive Push
  | head (v : Value)
  | tail (v : Value)
deriving DecidableEq, Repr

def Push.exec (s : Sys) : Push → Except Fault Sys
  | head v => pushHead answers s v
  | tail v => pushTail answers s v

-- ================================================================ iteration

/-- What the body of a loop pushes. -/
abbrev Body := List Value → Value → List Push

/-- `NPR_SINGLY_LIST_FOR_EACH` from `NSle` on, with the values visited
before: the list at the end, and the values visited. -/
def forEachFrom (body : Body) : Nat → Sys → List Value → Option Ptr →
    Except Fault (Sys × List Value)
  | _, s, visited, none => .ok (s, visited)
  | 0, _, _, some _ => .error .noReturn
  | fuel + 1, s, visited, some e => do
      let x ← load s.elems (some e)
      let s ← (body visited x.value).foldlM (Push.exec answers) s
      let next ← load s.elems (some e)
      forEachFrom body fuel s (visited ++ [x.value]) next.chain

/-- `NPR_SINGLY_LIST_FOR_EACH`. -/
def forEach (body : Body) (fuel : Nat) (s : Sys) :
    Except Fault (Sys × List Value) :=
  forEachFrom answers body fuel s [] s.list.head

end

-- =================================================================== the end

/-- `free(e->value)`, if it is asked for. -/
def freeIf {α : Type} (freeElem : Bool) (values : Heap α) (v : Value) :
    Except Fault (Heap α) :=
  if freeElem then freePtr values v else .ok values

/-- The loop of `npr_singly_list_fini`. -/
def freeElems {α : Type} (freeElem : Bool) : Nat → Heap Elem → Heap α →
    Option Ptr → Except Fault (Heap Elem × Heap α)
  | _, elems, values, none => .ok (elems, values)
  | 0, _, _, some _ => .error .noReturn
  | fuel + 1, elems, values, some e => do
      let x ← load elems (some e)
      let values ← freeIf freeElem values x.value
      let elems ← Store.free elems e
      freeElems freeElem fuel elems values x.chain

/-- `npr_singly_list_fini`, with fuel for every element there has been. -/
def singlyListFini {α : Type} (s : Sys) (freeElem : Bool)
    (values : Heap α) : Except Fault (Heap Elem × Heap α) :=
  freeElems freeElem s.elems.length s.elems values s.list.head

-- ==================================================================== calls

/-- What a program does with a list. -/
inductive SlistCall
  | push (p : Push)
  | forEach (body : Body) (fuel : Nat)

section
variable (answers : Nat → Bool)

/-- One call: a loop returns what it visited. -/
def SlistCall.exec (s : Sys) : SlistCall → Except Fault (Sys × List Value)
  | push p => do
      let s ← p.exec answers s
      .ok (s, [])
  | forEach body fuel => Slist.forEach answers body fuel s

/-- A run of calls, and what they return. -/
def runFrom : Sys → List SlistCall →
    Except Fault (Sys × List (List Value))
  | s, [] => .ok (s, [])
  | s, c :: cs => do
      let (s, r) ← c.exec answers s
      let (s, rs) ← runFrom s cs
      .ok (s, r :: rs)

end

end UdeBench.Npr.Slist
