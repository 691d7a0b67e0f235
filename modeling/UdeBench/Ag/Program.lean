/-
What a run of emitter calls means, before any word is laid out: a program
of statements, with the labels at the statements they stand before.

A call that emits a code word is a statement. A branch goes to where its
label stands, `ldr rd, =imm` puts `imm` in `rd`, and any other word does
what the machine does with it. There are no offsets, no literals and no
pending references, and the place of a statement is its number.

The state is the machine's: the word of statement `i` would lie at
`site base i`, which is all that a word that reads the pc needs to know.
-/
import UdeBench.A32.Exec
import UdeBench.Ag.Proofs.Labels

namespace UdeBench.Ag

open A32 (Word State site off)

-- =========================================================== statements

/-- A statement of a program. -/
inductive Stmt
  | word (w : Word)
  | branch (cc : AgCond) (l : Word) (dst : Nat)
  | movldr (cc : AgCond) (rd imm : Word)
deriving DecidableEq, Repr

/-- The statement a call writes; an immediate that does not fit writes
none. -/
def Call.stmt : Call → Option Stmt
  | .insn i => some (.word i.word)
  | .dataProcessImm cc opc s rd rn imm =>
      if imm &&& 0xffffff00#32 ≠ 0#32 then none
      else some (.word (dataProcessImmWord cc opc s rd rn imm))
  | .branch cc l dst => some (.branch cc l dst)
  | .movldrImm cc rd imm => some (.movldr cc rd imm)
  | _ => none

/-- A program: its statements, and where its labels stand. -/
structure Program where
  stmts : List Stmt
  target : Nat → Option Nat

/-- The program of a run of calls with this listing. -/
def program (cs : List Call) (L : Listing) : Program :=
  ⟨cs.filterMap Call.stmt, L.pos⟩

-- ============================================================ execution

/-- A branch taken to an address, the return address in lr with `l`. -/
def branchTo (s : State) (l a : Word) : State :=
  { (if l = 1#32 then s.setReg 14 (off s.pc 4) else s) with pc := a }

/-- What a statement does; `target` is where a label's statement lies. A
branch to a label that stands nowhere is stuck. -/
def Stmt.exec (other : Word → State → Option State)
    (target : Nat → Option Word) (s : State) : Stmt → Option State
  | word w => A32.exec other w s
  | branch cc l dst =>
      if A32.condPassed cc.code s then (target dst).map (branchTo s l)
      else some s.next
  | movldr cc rd imm =>
      if A32.condPassed cc.code s then
        some (s.setReg (rd.setWidth 4) imm).next
      else some s.next

/-- One statement of a program that would lie at `base`, stuck outside of
it. -/
def Program.step (other : Word → State → Option State) (P : Program)
    (base : Word) (s : State) : Option State :=
  let i := (s.pc - base).toNat / 4
  if s.pc = site base i then
    (P.stmts[i]?).bind fun st =>
      st.exec other (fun dst => (P.target dst).map (site base)) s
  else none

end UdeBench.Ag
