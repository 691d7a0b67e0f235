/-
The image of a run of calls does what its program says: in the memory it
was loaded into, the machine and the program take the same steps.

A step reads one word, and the word of each statement decodes to what the
statement means: a branch holds the distance to its label and the machine
adds it to the pc (`branch_step`), a load of a literal finds it behind the
code (`literal_step`), and a MOV or an MVN holds its value
(`byte_step`). Runs agree because their steps do (`Runs.congr`), for as
long as they stay in the code and do not change it.

# What is asked of the calls

`InReach` says that offsets fit their fields: 24 bits, in words, of a
branch, and 12 bits, in bytes and without a sign, of a load.
-/
import UdeBench.Ag.Program
import UdeBench.Ag.Proofs.Literal
import UdeBench.Lib.Trace

namespace UdeBench.Ag

open A32 (Word State site off At Loaded)
open Trace

-- =========================================================== statements

/-- The calls of a run that write statements, one by one. Induction on the
calls. -/
theorem filterMap_split {α β : Type} {f : α → Option β} {b : β} :
    ∀ {as : List α} {i : Nat}, (as.filterMap f)[i]? = some b →
      ∃ pre a post, as = pre ++ a :: post ∧ f a = some b
        ∧ (pre.filterMap f).length = i := by
  intro as
  induction as with
  | nil =>
      intro i h
      cases h
  | cons a as ih =>
      intro i h
      cases ha : f a with
      | none =>
          rw [List.filterMap_cons_none ha] at h
          obtain ⟨pre, a', post, rfl, hf, hlen⟩ := ih h
          refine ⟨a :: pre, a', post, rfl, hf, ?_⟩
          rw [List.filterMap_cons_none ha, hlen]
      | some b' =>
          rw [List.filterMap_cons_some ha] at h
          cases i with
          | zero =>
              cases h
              exact ⟨[], a, as, rfl, ha, rfl⟩
          | succ i =>
              obtain ⟨pre, a', post, rfl, hf, hlen⟩ := ih h
              refine ⟨a :: pre, a', post, rfl, hf, ?_⟩
              rw [List.filterMap_cons_some ha, List.length_cons, hlen]

/-- A statement is one code word. -/
theorem Listing.step_length {L L' : Listing} {c : Call}
    (h : L.step c = some L') :
    L'.code.length = L.code.length + c.stmt.toList.length := by
  cases c with
  | insn i => cases h; simp [emit, Call.stmt]
  | dataProcessImm cc opc s rd rn imm =>
      simp only [step] at h
      simp only [Call.stmt]
      by_cases himm : imm &&& 0xffffff00#32 ≠ 0#32
      · rw [if_pos himm] at h ⊢
        cases h
        rfl
      · rw [if_neg himm] at h ⊢
        cases h
        simp [emit]
  | branch cc l dst =>
      simp only [step] at h
      split at h <;> cases h
      simp [emit, Call.stmt]
  | movldrImm cc rd imm =>
      cases h
      unfold movldr
      split
      · simp [Call.stmt]
      · split <;> simp [emit, Call.stmt]
  | label id =>
      simp only [step] at h
      split at h <;> cases h
      rfl
  | dataLabel id =>
      simp only [step] at h
      split at h <;> cases h
      rfl
  | allocLabel uninit => cases h; rfl
  | newLabel => cases h; rfl
  | newDataLabel => cases h; rfl

/-- The statements of a run are numbered as its code words are. -/
theorem length_stmts {cs : List Call} :
    ∀ {L : Listing}, listing cs = some L →
      L.code.length = (cs.filterMap Call.stmt).length := by
  induction cs using List.reverseRecOn with
  | nil =>
      intro L h
      cases h
      rfl
  | append_singleton cs c ih =>
      intro L h
      rw [listing_snoc] at h
      obtain ⟨L₀, h₀, hstep⟩ := Option.bind_eq_some_iff.mp h
      have hone : [c].filterMap Call.stmt = c.stmt.toList := by
        cases hc : c.stmt <;> simp [hc]
      rw [Listing.step_length hstep, ih h₀, List.filterMap_append,
        List.length_append, hone]

/-- A call that writes a plain word writes the statement of it. -/
theorem Call.word_of_stmt {c : Call} {w : Word}
    (h : c.stmt = some (.word w)) : c.word = some w := by
  cases c with
  | insn i => cases h; rfl
  | dataProcessImm cc opc s rd rn imm =>
      simp only [stmt] at h
      simp only [word]
      by_cases himm : imm &&& 0xffffff00#32 ≠ 0#32
      · rw [if_pos himm] at h
        cases h
      · rw [if_neg himm] at h ⊢
        cases h
        rfl
  | _ => cases h

/-- Only a branch call writes a branch. -/
theorem Call.branch_of_stmt {c : Call} {cc : AgCond} {l : Word} {dst : Nat}
    (h : c.stmt = some (.branch cc l dst)) : c = .branch cc l dst := by
  cases c with
  | branch cc' l' dst' => cases h; rfl
  | dataProcessImm cc' opc s rd rn imm =>
      simp only [stmt] at h
      split at h <;> cases h
  | _ => cases h

/-- Only `ag_emit_movldr_imm` writes its statement. -/
theorem Call.movldr_of_stmt {c : Call} {cc : AgCond} {rd imm : Word}
    (h : c.stmt = some (.movldr cc rd imm)) : c = .movldrImm cc rd imm := by
  cases c with
  | movldrImm cc' rd' imm' => cases h; rfl
  | dataProcessImm cc' opc s rd' rn imm' =>
      simp only [stmt] at h
      split at h <;> cases h
  | _ => cases h

-- ============================================================ conditions

/-- The arguments of a call are what their names say: `l` a bit, `rd` a
register other than the pc. -/
def Call.ArgsOk : Call → Prop
  | .branch _ l _ => l = 0#32 ∨ l = 1#32
  | .movldrImm _ rd _ => rd.toNat < 15
  | _ => True

instance : (c : Call) → Decidable c.ArgsOk
  | .branch _ l _ => inferInstanceAs (Decidable (l = 0#32 ∨ l = 1#32))
  | .movldrImm _ rd _ => inferInstanceAs (Decidable (rd.toNat < 15))
  | .insn _ | .dataProcessImm .. | .label _ | .dataLabel _
  | .allocLabel _ | .newLabel | .newDataLabel => .isTrue trivial

/-- The field of a branch holds a word distance. -/
def FitsBranch (d : Int) : Prop := -2 ^ 23 ≤ d ∧ d < 2 ^ 23

/-- The field of a load holds a byte distance, counted up. -/
def FitsLoad (d : Int) : Prop := 0 ≤ d ∧ d ≤ 4095

instance (d : Int) : Decidable (FitsBranch d) :=
  inferInstanceAs (Decidable (_ ∧ _))

instance (d : Int) : Decidable (FitsLoad d) :=
  inferInstanceAs (Decidable (_ ∧ _))

/-- The offset of a call made after `L₀`, in the finished listing `L`,
fits its field. -/
def Call.Reaches (L L₀ : Listing) : Call → Prop
  | .branch _ _ dst =>
      ∀ p ∈ L.pos dst, FitsBranch ((p : Int) - L₀.code.length - 2)
  | .movldrImm _ _ imm => needsLiteral imm = true →
      FitsLoad (literalDistance L.code.length L₀.code.length L₀.data.length)
  | _ => True

instance (L L₀ : Listing) : (c : Call) → Decidable (c.Reaches L L₀)
  | .branch .. => inferInstanceAs (Decidable (∀ p ∈ _, FitsBranch _))
  | .movldrImm .. => inferInstanceAs (Decidable (_ → FitsLoad _))
  | .insn _ | .dataProcessImm .. | .label _ | .dataLabel _
  | .allocLabel _ | .newLabel | .newDataLabel => .isTrue trivial

/-- Every offset of a run fits its field. -/
def InReach (cs : List Call) (L : Listing) : Prop :=
  ∀ pre c post L₀, cs = pre ++ c :: post → listing pre = some L₀ →
    c.Reaches L L₀

/-- It is enough to look at the calls by index. -/
theorem inReach_of_index {cs : List Call} {L : Listing}
    (h : ∀ i (hi : i < cs.length),
      ∀ L₀ ∈ listing (cs.take i), cs[i].Reaches L L₀) : InReach cs L := by
  rintro pre c post L₀ rfl hL₀
  have hi := h pre.length (by simp) L₀ (by simpa using hL₀)
  simpa using hi

-- =========================================================== single steps

section
variable (other : Word → State → Option State)
variable {image : List Word} {base : Word} {i : Nat} {s : State}

/-- A word of the machine's own, under its condition. -/
theorem step_op {w : Word} {cond : BitVec 4} {op : A32.Op}
    (h : At image base i s) (hw : image[i]? = some w)
    (hop : A32.decodeOp w = some (cond, op)) :
    A32.step other s
      = if A32.condPassed cond s then A32.execOp s op else some s.next := by
  rw [h.step_eq hw, A32.exec, hop]

/-- The pc and a fitting word distance make the address of the word that
far away. -/
theorem branch_target {p : Nat} {d : BitVec 24}
    (hd : d = (BitVec.ofNat 32 p - BitVec.ofNat 32 i - 2#32).setWidth 24)
    (hi : 4 * i < 2 ^ 32) (hfits : FitsBranch ((p : Int) - i - 2)) :
    off (site base i) 8 + (d.signExtend 32 <<< 2) = site base p := by
  obtain ⟨hlo, hhi⟩ := hfits
  have hint : d.toInt = (p : Int) - i - 2 := by
    have hval : d.toNat
        = (2 ^ 32 - 2 + (2 ^ 32 - i + p) % 2 ^ 32) % 2 ^ 32 % 2 ^ 24 := by
      rw [hd, BitVec.toNat_setWidth, BitVec.toNat_sub, BitVec.toNat_sub,
        BitVec.toNat_ofNat, BitVec.toNat_ofNat, BitVec.toNat_ofNat,
        Nat.mod_eq_of_lt (show i < 2 ^ 32 by omega),
        Nat.mod_eq_of_lt (show p < 2 ^ 32 by omega)]
    rw [BitVec.toInt_eq_toNat_cond]
    rcases Nat.lt_or_ge p (i + 2) with hback | hforth
    · rw [if_neg (by omega)]
      omega
    · rw [if_pos (by omega)]
      omega
  apply BitVec.eq_of_toNat_eq
  unfold BitVec.signExtend site off
  rw [hint]
  simp only [BitVec.toNat_add, BitVec.toNat_shiftLeft, BitVec.toNat_ofInt,
    BitVec.toNat_ofNat, Nat.shiftLeft_eq]
  omega

theorem setWidth_eq_one : ∀ b : BitVec 1,
    b = 1#1 ↔ (b.setWidth 32 : Word) = 1#32 := by
  decide

/-- The word of a branch branches to its label. -/
theorem branch_step {cc : AgCond} {l : Word} {p : Nat}
    (h : At image base i s)
    (hw : image[i]? = some (branchWord cc l
      (BitVec.ofNat 32 p - BitVec.ofNat 32 i - 2#32)))
    (hl : l = 0#32 ∨ l = 1#32) (hi : 4 * i < 2 ^ 32)
    (hfits : FitsBranch ((p : Int) - i - 2)) :
    A32.step other s = if A32.condPassed cc.code s then
        some (branchTo s l (site base p)) else some s.next := by
  obtain ⟨b, rfl⟩ : ∃ b : BitVec 1, l = b.setWidth 32 := by
    rcases hl with rfl | rfl
    · exact ⟨0, rfl⟩
    · exact ⟨1, rfl⟩
  generalize hd : (BitVec.ofNat 32 p - BitVec.ofNat 32 i - 2#32).setWidth 24
    = d
  have hmask : (BitVec.ofNat 32 p - BitVec.ofNat 32 i - 2#32)
      &&& 0x00ffffff#32 = d.setWidth 32 := by
    rw [← hd]
    exact Bits.and_mask_eq_setWidth _ (show 24 ≤ 32 by decide)
  have hdec := decode_branchOffset cc b d
  rw [← hmask] at hdec
  rw [step_op other h hw (A32.decodeOp_branch hdec)]
  have hlink := setWidth_eq_one b
  have hpc : (if b = 1#1 then s.setReg 14 (off s.pc 4) else s).pc = s.pc := by
    split <;> rfl
  unfold A32.execOp branchTo
  simp only [hlink, h.pc, branch_target hd.symm hi hfits]

/-- The word of a literal load loads the literal. -/
theorem literal_step {cc : AgCond} {rd : BitVec 4} {n k : Nat} {imm : Word}
    (h : At image base i s) (hbase : base &&& 3#32 = 0#32)
    (hw : image[i]? = some (loadWord cc.code rd
      (offset13 (literalDistance n i k))))
    (hlit : image[n + k]? = some imm) (hrd : rd ≠ A32.rPc)
    (hfits : FitsLoad (literalDistance n i k)) :
    A32.step other s = if A32.condPassed cc.code s then
        some (s.setReg rd imm).next else some s.next := by
  obtain ⟨h12, hlow⟩ := bits_of_distance hfits.1 hfits.2
  have hop : A32.decodeOp (loadWord cc.code rd
      (offset13 (literalDistance n i k)))
      = some (cc.code, .ldr rd A32.rPc (literalDistance n i k)) := by
    rw [A32.decodeOp_loadStore (decode_loadWord cc rd _), h12,
      BitVec.or_zero]
    have hoff : A32.immOffset 1
        (Bits.bits (offset13 (literalDistance n i k)) 0 12)
        = literalDistance n i k := by
      unfold A32.immOffset
      rw [if_pos (show (1 : BitVec 1) = 1#1 from rfl), hlow]
    unfold A32.opOfLoadStore
    simp only [true_and, ne_eq, hrd, not_false_eq_true, hoff]
    rfl
  rw [step_op other h hw hop]
  have haddr : (off s.pc 8 &&& ~~~3#32)
      + BitVec.ofInt 32 (literalDistance n i k) = site base (n + k) := by
    have hpc : off s.pc 8 = site base (i + 2) := by
      rw [h.pc, site, A32.off_off, site, Nat.mul_add]
    have hal : site base (i + 2) &&& 3#32 = 0#32 :=
      A32.aligned_off hbase (i + 2)
    rw [hpc, A32.align_eq hal]
    apply BitVec.eq_of_toNat_eq
    unfold literalDistance site off
    rw [BitVec.toNat_add, BitVec.toNat_add, BitVec.toNat_add,
      BitVec.toNat_ofNat, BitVec.toNat_ofNat, BitVec.toNat_ofInt]
    omega
  have hread : s.read A32.rPc = off s.pc 8 := if_pos rfl
  simp only [A32.execOp, if_pos, hread, haddr, h.loaded (n + k) imm hlit]

/-- The word of a byte-sized value holds it. -/
theorem byte_step {cc : AgCond} {rd : BitVec 4} {imm w : Word}
    (h : At image base i s) (hw : image[i]? = some w)
    (hl : needsLiteral imm = false) (hrd : rd ≠ A32.rPc)
    (hword : (Call.movldrImm cc (rd.setWidth 32) imm).word = some w) :
    A32.step other s = if A32.condPassed cc.code s then
        some (s.setReg rd imm).next else some s.next := by
  have hputs : PutsInRd image 0 i 0 cc.code rd imm w := putsInRd_byte hl hword
  have hsmall := (needsLiteral_iff imm).not.mp (by rw [hl]; decide)
  rcases Int.lt_or_le imm.toInt 0 with hneg | hpos
  · obtain ⟨imm12, hdec, hval⟩ := hputs.mvn (by omega) (by omega)
    have hop : A32.decodeOp w
        = some (cc.code, .mvn rd (A32.expandImm imm12)) := by
      rw [A32.decodeOp_dpImm hdec, A32.opOfDpImm, if_neg hrd]
      rfl
    rw [step_op other h hw hop, A32.execOp, hval]
  · obtain ⟨imm12, hdec, hval⟩ := hputs.mov hpos (by omega)
    have hop : A32.decodeOp w
        = some (cc.code, .mov rd (A32.expandImm imm12)) := by
      rw [A32.decodeOp_dpImm hdec, A32.opOfDpImm, if_neg hrd]
      rfl
    rw [step_op other h hw hop, A32.execOp, hval]

end

-- ============================================================== the result

/-- About to execute a word of the code, which is in memory at `base`. -/
def InCode (L : Listing) (image : List Word) (base : Word) (s : State) :
    Prop :=
  ∃ i, i < L.code.length ∧ At image base i s

/-- A program at its statement with number `i`. -/
theorem Program.step_at {P : Program} {image : List Word} {base : Word}
    {i : Nat} {s : State} {st : Stmt} (other : Word → State → Option State)
    (h : At image base i s) (hi : 4 * i < 2 ^ 32)
    (hst : P.stmts[i]? = some st) :
    P.step other base s
      = st.exec other (fun dst => (P.target dst).map (site base)) s := by
  have hnum : (s.pc - base).toNat / 4 = i := by
    rw [h.pc, site, off, BitVec.add_comm, BitVec.add_sub_cancel,
      BitVec.toNat_ofNat]
    omega
  simp only [step, hnum]
  rw [if_pos h.pc, hst, Option.bind_some]

/-- A branch of the image does what its statement says. -/
theorem step_eq_branch {pre post : List Call} {cc : AgCond} {l : Word}
    {dst : Nat} {L L₀ : Listing} {base : Word} {s : State}
    (hL : listing (pre ++ .branch cc l dst :: post) = some L)
    (hbind : BindOnce (pre ++ .branch cc l dst :: post))
    (hbound : BranchesBound (pre ++ .branch cc l dst :: post) L)
    (hreach : InReach (pre ++ .branch cc l dst :: post) L)
    (hl : l = 0#32 ∨ l = 1#32) (hL₀ : listing pre = some L₀)
    (hi : 4 * L₀.code.length < 2 ^ 32)
    (h : At L.image base L₀.code.length s)
    (other : Word → State → Option State) :
    A32.step other s
      = (Stmt.branch cc l dst).exec other
          (fun dst => (L.pos dst).map (site base)) s := by
  obtain ⟨L₀', L₁, hL₀', hstep, hgrows⟩ := listing_split hL
  rw [hL₀] at hL₀'
  cases hL₀'
  obtain ⟨known, hk⟩ := Listing.step_branch hstep
  have hitem := hgrows.item hk
  obtain ⟨p, hp⟩ := Option.isSome_iff_exists.mp
    (hbound cc l dst (by simp))
  have hstays : ∀ n, known = some n → L.labels[dst]? = some (.code n) := by
    rintro n rfl
    exact known_stays hL hbind cc l dst n (List.mem_of_getElem? hitem)
  have hw := Listing.image_getElem? hitem
  rw [final_jump hp hstays] at hw
  rw [branch_step other h hw hl hi (hreach pre _ post L₀ rfl hL₀ p hp)]
  simp only [Stmt.exec, hp, Option.map_some]

/-- So does the word that puts a value in a register. -/
theorem step_eq_movldr {pre post : List Call} {cc : AgCond}
    {rd : BitVec 4} {imm : Word} {L L₀ : Listing} {base : Word} {s : State}
    (hL : listing (pre ++ .movldrImm cc (rd.setWidth 32) imm :: post)
      = some L)
    (hown : OwnLabels (pre ++ .movldrImm cc (rd.setWidth 32) imm :: post))
    (hreach : InReach (pre ++ .movldrImm cc (rd.setWidth 32) imm :: post) L)
    (hrd : rd ≠ A32.rPc) (hbase : base &&& 3#32 = 0#32)
    (hL₀ : listing pre = some L₀) (h : At L.image base L₀.code.length s)
    (other : Word → State → Option State) :
    A32.step other s
      = (Stmt.movldr cc (rd.setWidth 32) imm).exec other
          (fun dst => (L.pos dst).map (site base)) s := by
  have hwidth : ((rd.setWidth 32).setWidth 4 : BitVec 4) = rd := by
    rw [BitVec.setWidth_setWidth_of_le rd (by decide), BitVec.setWidth_eq]
  simp only [Stmt.exec, hwidth]
  cases hl : needsLiteral imm with
  | true =>
      obtain ⟨L₀', hL₀', hit, hb, hdata⟩ := literal_stays hL hown hl
      rw [hL₀] at hL₀'
      cases hL₀'
      exact literal_step other h hbase (image_load hit hb)
        (Listing.image_literal hdata) hrd (hreach pre _ post L₀ rfl hL₀ hl)
  | false =>
      obtain ⟨L₀', L₁, hL₀', hstep, hgrows⟩ := listing_split hL
      rw [hL₀] at hL₀'
      cases hL₀'
      obtain ⟨w, hw⟩ : ∃ w, (Call.movldrImm cc (rd.setWidth 32) imm).word
          = some w := by
        simp only [Call.word, hl, Bool.false_eq_true, if_false]
        split <;> exact ⟨_, rfl⟩
      have hitem := hgrows.item (Listing.step_word hstep hw)
      exact byte_step other h (Listing.image_getElem? hitem) hl hrd hw

/-- At a word of the code the machine and the program take the same
step. -/
theorem step_eq_program {cs : List Call} {L : Listing} {base : Word}
    {s : State} (hL : listing cs = some L) (hmem : L.Placed)
    (hbind : BindOnce cs) (hbound : BranchesBound cs L)
    (hown : OwnLabels cs) (hargs : ∀ c ∈ cs, c.ArgsOk)
    (hreach : InReach cs L) (hbase : base &&& 3#32 = 0#32)
    (hs : InCode L L.image base s) (other : Word → State → Option State) :
    A32.step other s = (program cs L).step other base s := by
  obtain ⟨i, hi, hat⟩ := hs
  have hfits := hmem.fits
  have hi32 : 4 * i < 2 ^ 32 := by
    simp only [instSize] at hfits
    omega
  rw [length_stmts hL] at hi
  have hst := List.getElem?_eq_getElem hi
  generalize (cs.filterMap Call.stmt)[i] = st at hst
  rw [Program.step_at other hat hi32 hst]
  obtain ⟨pre, c, post, rfl, hc, hlen⟩ := filterMap_split hst
  obtain ⟨L₀, L₁, hL₀, hstep, hgrows⟩ := listing_split hL
  rw [← length_stmts hL₀] at hlen
  subst hlen
  have hok := hargs c (by simp)
  cases st with
  | word w =>
      have hw := Call.word_of_stmt hc
      have hitem := hgrows.item (Listing.step_word hstep hw)
      exact hat.step_eq (Listing.image_getElem? hitem) other
  | branch cc l dst =>
      obtain rfl := Call.branch_of_stmt hc
      exact step_eq_branch hL hbind hbound hreach hok hL₀ hi32 hat other
  | movldr cc rd imm =>
      obtain rfl := Call.movldr_of_stmt hc
      obtain ⟨rd', rfl⟩ : ∃ rd' : BitVec 4, rd = rd'.setWidth 32 := by
        refine ⟨rd.setWidth 4, ?_⟩
        apply BitVec.eq_of_toNat_eq
        have hlt : rd.toNat < 15 := hok
        rw [BitVec.toNat_setWidth, BitVec.toNat_setWidth]
        omega
      have hrd : rd' ≠ A32.rPc := by
        rintro rfl
        exact Nat.lt_irrefl 15 hok
      exact step_eq_movldr hL hown hreach hrd hbase hL₀ hat other

/-- What is assembled is what was written: a run of calls with its labels
bound once, its branches bound and its offsets within reach makes an image
whose runs are the program's, wherever it is loaded, for as long as a run
stays in the code and keeps it. -/
theorem assembled_runs (ps : PageSize) {cs : List Call} {L : Listing}
    (hL : listing cs = some L) (hmem : L.Placed)
    (hd : L.data.length ≤ codebufferSize) (hbind : BindOnce cs)
    (hbound : BranchesBound cs L) (hown : OwnLabels cs)
    (hargs : ∀ c ∈ cs, c.ArgsOk) (hreach : InReach cs L) :
    ∃ e code e', run cs = some e ∧ agAllocCode ps e = some (code, e')
      ∧ ∀ (other : Word → State → Option State) (base : Word),
          base &&& 3#32 = 0#32 → ∀ s t s',
          (∀ u ∈ t, InCode L code.image base u) →
          (Runs (A32.step other) id s t s'
            ↔ Runs ((program cs L).step other base) id s t s') := by
  obtain ⟨e, code, e', he, hcode, himage⟩ := run_image ps hL hmem hd
  refine ⟨e, code, e', he, hcode, ?_⟩
  intro other base hbase s t s' hin
  rw [himage] at hin
  have hstep : ∀ u ∈ t,
      A32.step other u = (program cs L).step other base u := fun u hu =>
    step_eq_program hL hmem hbind hbound hown hargs hreach hbase (hin u hu)
      other
  constructor
  · exact fun hr => hr.congr hstep
  · exact fun hr => hr.congr fun u hu => (hstep u hu).symm

/-- The generator's own test is assembled to what it says. -/
theorem assembled_runs_bl :
    ∃ L e code e', listing blCalls = some L ∧ run blCalls = some e
      ∧ agAllocCode .default e = some (code, e')
      ∧ ∀ (other : Word → State → Option State) (base : Word),
          base &&& 3#32 = 0#32 → ∀ s t s',
          (∀ u ∈ t, InCode L code.image base u) →
          (Runs (A32.step other) id s t s'
            ↔ Runs ((program blCalls L).step other base) id s t s') := by
  obtain ⟨L, hL, hsmall, hreach, hbound⟩ : ∃ L, listing blCalls = some L
      ∧ L.code.length + L.data.length ≤ 512
      ∧ (∀ i (hi : i < blCalls.length),
        ∀ L₀ ∈ listing (blCalls.take i), blCalls[i].Reaches L L₀)
      ∧ (L.pos 0).isSome ∧ (L.pos 1).isSome := by
    refine ⟨_, rfl, ?_, ?_, ?_⟩ <;> decide
  have hplaced : L.Placed := Listing.placed_of_fits (by
    simp only [instSize]
    omega)
  have hdata : L.data.length ≤ codebufferSize := by
    simp only [codebufferSize]
    omega
  refine ⟨L, ?_⟩
  obtain ⟨e, code, e', he, hcode, hruns⟩ :=
    assembled_runs .default hL hplaced hdata (bindOnce_of_index (by decide))
      (by
        intro cc l dst h
        simp only [blCalls, List.mem_cons, List.not_mem_nil, or_false,
          Call.branch.injEq, reduceCtorEq, false_or] at h
        obtain ⟨-, -, rfl⟩ | ⟨-, -, rfl⟩ := h
        · exact hbound.1
        · exact hbound.2)
      (by decide) (by decide) (inReach_of_index hreach)
  exact ⟨e, code, e', hL, he, hcode, hruns⟩

end UdeBench.Ag
