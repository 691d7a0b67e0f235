/-
`NPR_DLIST_FOR_EACH` with a body that changes the list it runs over.

# What the body can do

A body pushes values to the list and removes elements of it; what it does
depends on the values the loop has visited and on the one it is at. The
program names an element by the number of its push, which stands for the
pointer that push returned. The loop reads `npr_cur->val` before the body
and `npr_cur->next` after it, from the memory the body leaves. A pointer
that is null, or that leads nowhere, makes these reads a `badAccess`.
-/
import UdeBench.Npr.Dlist

namespace UdeBench.Npr.LinkedList

open Spans ByteMem
open Blocks (Fault Sys)

/-- A program's list, and the pointers its pushes have returned. -/
structure Client where
  sys : Sys
  list : Dlist
  ptrs : List Addr

/-- What a body does: it pushes a value, or removes the element of the
`k`-th push. -/
inductive ListCall
  | push (v : Addr)
  | remove (k : Nat)
deriving DecidableEq, Repr

/-- The pointer of the `k`-th push. -/
def Client.ptr (s : Client) (k : Nat) : Except Fault Addr :=
  match s.ptrs[k]? with
  | some e => .ok e
  | none => .error .badAccess

/-- A field of the element `e` points to. -/
def field (s : Sys) (e off : Addr) : Except Fault Addr :=
  if e = 0 then .error .badAccess else Blocks.load s (e + off)

/-- What the body of a loop does. -/
abbrev Body := List Addr → Addr → List ListCall

section
variable (place : Blocks.Placement)

/-- One call. -/
def ListCall.exec (s : Client) : ListCall → Except Fault Client
  | push v => do
      let (sys, l, e) ← dlistPushBack place s.sys s.list v
      .ok ⟨sys, l, s.ptrs ++ [e]⟩
  | remove k => do
      let e ← s.ptr k
      let (sys, l) ← dlistRemove s.sys s.list e
      .ok { s with sys, list := l }

/-- `NPR_DLIST_FOR_EACH` from `npr_cur` on, with the values visited
before: the list at the end, and the values visited. -/
def loopFrom (body : Body) : Nat → Client → List Addr → Addr →
    Except Fault (Client × List Addr)
  | 0, _, _, _ => .error .noReturn
  | fuel + 1, s, visited, cur =>
      if cur = s.list.tail then .ok (s, visited)
      else do
        let v ← field s.sys cur 16
        let s ← (body visited v).foldlM (ListCall.exec place) s
        let cur ← field s.sys cur links
        loopFrom body fuel s (visited ++ [v]) cur

/-- `NPR_DLIST_FOR_EACH` and its body. -/
def loop (body : Body) (fuel : Nat) (s : Client) :
    Except Fault (Client × List Addr) :=
  loopFrom place body fuel s [] (DList.next links s.sys.mem s.list.head)

end

-- ==================================================================== runs

/-- What a program does with a list. -/
inductive LoopCall
  | call (c : ListCall)
  | forEach (body : Body) (fuel : Nat)

section
variable (place : Blocks.Placement)

/-- One call: a loop returns what it visited. -/
def LoopCall.exec (s : Client) :
    LoopCall → Except Fault (Client × List Addr)
  | call c => do
      let s ← c.exec place s
      .ok (s, [])
  | forEach body fuel => loop place body fuel s

/-- A run of calls, and what they return. -/
def loopRunFrom : Client → List LoopCall →
    Except Fault (Client × List (List Addr))
  | s, [] => .ok (s, [])
  | s, c :: cs => do
      let (s, r) ← c.exec place s
      let (s, rs) ← loopRunFrom s cs
      .ok (s, r :: rs)

/-- A run of calls on a list that has just been set up. -/
def loopRun (mem : ByteMem) (addr : Addr) (cs : List LoopCall) :
    Except Fault (Client × List (List Addr)) := do
  let s ← dlistBoot place mem addr
  loopRunFrom place ⟨s.sys, s.list, []⟩ cs

end

end UdeBench.Npr.LinkedList
