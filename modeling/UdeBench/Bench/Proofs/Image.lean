/-
The image of a generated function.

`gen` runs the emitter, so its listing can be written down: the two
loads as `Listing.movldr` writes them, the BNE, and every other
instruction a plain word (`genListing`). The image follows word by word:
29 words of setup, the callbacks' words in call order, the SUBS, the
BNE, the pop and the return, and then at most two literals.
-/
import UdeBench.Ag.Proofs.Literal
import UdeBench.Bench.Gen

namespace UdeBench.Bench

open A32 (Word)
open Ag

-- ============================================================== callbacks

/-- A callback that emits `k` straight-line instructions at every call:
the words it hands to `ag_emit4`, which may depend on all it is given. -/
structure StraightLine (k : Nat) where
  words : Emitter → Word → Word → List Word
  hlen : ∀ e dst src, (words e dst src).length = k

/-- The callback itself. -/
def StraightLine.run {k : Nat} (f : StraightLine k) : Callback :=
  fun e dst src => (f.words e dst src).foldlM agEmit4 e

/-- The words a list of calls emits, in call order. -/
def StraightLine.callWords {k : Nat} (f : StraightLine k) (e : Emitter) :
    List (Word × Word) → List Word
  | [] => []
  | (dst, src) :: args =>
      f.words e dst src
        ++ match f.run e dst src with
          | none => []
          | some e => f.callWords e args

/-- Each of them is one of a call. -/
theorem StraightLine.mem_callWords {k : Nat} {f : StraightLine k}
    {w : Word} :
    ∀ {args : List (Word × Word)} {e : Emitter}, w ∈ f.callWords e args →
      ∃ e' a, a ∈ args ∧ w ∈ f.words e' a.1 a.2 := by
  intro args
  induction args with
  | nil =>
      intro e hw
      cases hw
  | cons a args ih =>
      intro e hw
      rcases List.mem_append.mp hw with hw | hw
      · exact ⟨e, a, List.mem_cons_self, hw⟩
      · split at hw
        · cases hw
        · obtain ⟨e', b, hb, hmem⟩ := ih hw
          exact ⟨e', b, List.mem_cons_of_mem _ hb, hmem⟩

/-- The register arguments of the calls, in call order. -/
def callArgs (numInsn : Nat) : LtOp → List (Word × Word)
  | .latency => List.replicate numInsn (0, 0)
  | .throughput =>
      (List.replicate (numInsn / 8) [(0, 1), (0, 2), (0, 3), (0, 4),
        (0, 5), (0, 6), (0, 7), (0, 8)]).flatten
  | .throughputRename =>
      (List.replicate (numInsn / 8) [(0, 0), (1, 1), (2, 2), (3, 3),
        (4, 4), (5, 5), (6, 6), (7, 7)]).flatten

/-- Every mode calls back `num_insn` times. -/
theorem length_callArgs {numInsn : Nat} (h8 : 8 ∣ numInsn) (o : LtOp) :
    (callArgs numInsn o).length = numInsn := by
  have hdiv := Nat.div_mul_cancel h8
  cases o <;> simp [callArgs, hdiv]

/-- A loop whose turns each make the calls `args` makes them over and
over. -/
theorem foldlM_turns {α β : Type} {g : β → Option β}
    {call : β → α → Option β} {args : List α}
    (h : ∀ b, g b = args.foldlM call b) (n : Nat) (b : β) :
    (List.range n).foldlM (fun b _ => g b) b
      = (List.replicate n args).flatten.foldlM call b := by
  have hgo : ∀ (turns : List Nat) (b : β),
      turns.foldlM (fun b _ => g b) b
        = (List.replicate turns.length args).flatten.foldlM call b := by
    intro turns
    induction turns with
    | nil => intro b; rfl
    | cons turn turns ih =>
        intro b
        rw [List.length_cons, List.replicate_succ, List.flatten_cons,
          List.foldlM_append, List.foldlM_cons, h b]
        congr 1
        funext b
        exact ih b
  rw [hgo, List.length_range]

/-- The `switch` makes its calls in order. -/
theorem genBody_eq (e : Emitter) (f : Callback) (numInsn : Nat)
    (o : LtOp) :
    genBody e f numInsn o
      = (callArgs numInsn o).foldlM (fun e a => f e a.1 a.2) e := by
  cases o with
  | latency =>
      have hturn : ∀ e, f e 0 0 = [((0 : Word), (0 : Word))].foldlM
          (fun e a => f e a.1 a.2) e := by
        intro e
        simp
      simp only [genBody, callArgs]
      rw [foldlM_turns hturn, List.flatten_replicate_singleton]
  | throughput =>
      simp only [genBody, callArgs]
      refine foldlM_turns (fun e => ?_) (numInsn / 8) e
      simp
  | throughputRename =>
      simp only [genBody, callArgs]
      refine foldlM_turns (fun e => ?_) (numInsn / 8) e
      simp

-- ================================================================ listing

/-- Plain words at the end of a listing. -/
def plains (L : Listing) (ws : List Word) : Listing :=
  { L with code := L.code ++ ws.map .plain }

@[simp] theorem plains_nil (L : Listing) : plains L [] = L := by
  simp [plains]

theorem plains_cons (L : Listing) (w : Word) (ws : List Word) :
    plains L (w :: ws) = plains (L.emit (.plain w)) ws := by
  simp [plains, Listing.emit]

theorem plains_append (L : Listing) (ws ws' : List Word) :
    plains L (ws ++ ws') = plains (plains L ws) ws' := by
  simp [plains]

/-- Words handed to `ag_emit4` are plain words of the listing. -/
theorem sim_plains :
    ∀ (ws : List Word) {e : Emitter} {L : Listing}, Sim e L →
      ∃ e', ws.foldlM agEmit4 e = some e' ∧ Sim e' (plains L ws) := by
  intro ws
  induction ws with
  | nil =>
      intro e L h
      rw [plains_nil]
      exact ⟨e, rfl, h⟩
  | cons w ws ih =>
      intro e L h
      obtain ⟨e₁, he₁, h₁⟩ := h.emit_plain w
      obtain ⟨e₂, he₂, h₂⟩ := ih h₁
      refine ⟨e₂, ?_, ?_⟩
      · rw [List.foldlM_cons, he₁]
        exact he₂
      · rw [plains_cons]
        exact h₂

/-- The callbacks' words are plain words of the listing, `k` for each
call. -/
theorem sim_callWords {k : Nat} (f : StraightLine k) :
    ∀ (args : List (Word × Word)) {e : Emitter} {L : Listing}, Sim e L →
      (∃ e', args.foldlM (fun e a => f.run e a.1 a.2) e = some e'
        ∧ Sim e' (plains L (f.callWords e args)))
      ∧ (f.callWords e args).length = args.length * k := by
  intro args
  induction args with
  | nil =>
      intro e L h
      refine ⟨⟨e, rfl, ?_⟩, by simp [StraightLine.callWords]⟩
      rw [StraightLine.callWords, plains_nil]
      exact h
  | cons a args ih =>
      intro e L h
      obtain ⟨dst, src⟩ := a
      obtain ⟨e₁, he₁, h₁⟩ := sim_plains (f.words e dst src) h
      obtain ⟨⟨e₂, he₂, h₂⟩, hlen⟩ := ih h₁
      have hrun : f.run e dst src = some e₁ := he₁
      have hwords : f.callWords e ((dst, src) :: args)
          = f.words e dst src ++ f.callWords e₁ args := by
        simp only [StraightLine.callWords, hrun]
      refine ⟨⟨e₂, ?_, ?_⟩, ?_⟩
      · rw [List.foldlM_cons, hrun]
        exact he₂
      · rw [hwords, plains_append]
        exact h₂
      · rw [hwords, List.length_append, hlen, f.hlen, List.length_cons]
        ring

/-- The word that saves the registers. -/
def pushWord : Word := ldstmWord .condAl 1 0 0 1 0 agSp 0b111111110000

/-- The word that restores them. -/
def popWord : Word := ldstmWord .condAl 0 1 0 1 1 agSp 0b111111110000

/-- The word that clears the core register `i`. -/
def coreWord (i : Nat) : Word :=
  dataProcessImmWord .condAl .mov 0 (BitVec.ofNat 32 i) 0 0

/-- The word that copies r0 to the Q register `i`. -/
def neonWord (i : Nat) : Word :=
  vdupWord .condAl (0x0e800b10#32 ||| 0x00000000#32) 1
    (BitVec.ofNat 32 (i * 2)) 0

/-- The words that clear the core registers r0 to r9. -/
def movWords : List Word := (List.range 10).map coreWord

/-- The words that clear the NEON registers. -/
def vdupWords : List Word := (List.range 16).map neonWord

/-- The word that counts the loop down. -/
def subsWord : Word := dataProcessImmWord .condAl .sub 1 10 10 1

/-- The two loads, after the push. -/
def loadsListing (zeroMem numLoop : Word) : Listing :=
  ((Listing.empty.emit (.plain pushWord)).movldr .condAl 10
    numLoop).movldr .condAl zeromemPtrReg zeroMem

/-- The listing of a generated function with the given loop body. -/
def genListing (zeroMem numLoop : Word) (body : List Word) : Listing :=
  let L := plains (loadsListing zeroMem numLoop) (movWords ++ vdupWords)
  let L := plains (L.newLabel (.code 29)) (body ++ [subsWord])
  let L := L.emit (.jump .condNe 0 (loadsListing zeroMem numLoop).labels.length
    (some 29))
  plains L [popWord, bxWord .condAl agLr]

/-- The emitter at the loop head. -/
def loopEmitter (zeroMem numLoop : Word) : Option Emitter := do
  let e ← genInit agEmitterInit zeroMem numLoop
  let (e, _) ← agEmitNewLabel e
  some e

/-- The callback words of the loop body, in call order. -/
def loopWords {k : Nat} (f : StraightLine k) (zeroMem numLoop : Word)
    (numInsn : Nat) (o : LtOp) : List Word :=
  match loopEmitter zeroMem numLoop with
  | none => []
  | some e => f.callWords e (callArgs numInsn o)

/-- `ag_emit_movldr_imm` of zero is a MOV. -/
theorem movldrImm_zero (e : Emitter) (cc : AgCond) (rd : Word) :
    agEmitMovldrImm e cc rd 0
      = agEmit4 e (dataProcessImmWord cc .mov 0 rd 0 0) := by
  have hl : needsLiteral 0 = false := by decide
  have hs : (0#32).sle 0 = true := by decide
  simp only [agEmitMovldrImm, hl, Bool.false_eq_true, if_false, hs,
    if_true, agEmitMovImm]
  rw [dataProcessImm_fst, if_neg (by decide)]

/-- A literal at most goes with each load. -/
theorem movldr_lengths (L : Listing) (cc : AgCond) (rd imm : Word) :
    (L.movldr cc rd imm).code.length = L.code.length + 1
      ∧ (L.movldr cc rd imm).data.length ≤ L.data.length + 1 := by
  unfold Listing.movldr
  split
  · simp
  · split <;> simp [Listing.emit]

theorem loadsListing_lengths (zeroMem numLoop : Word) :
    (loadsListing zeroMem numLoop).code.length = 3
      ∧ (loadsListing zeroMem numLoop).data.length ≤ 2 := by
  obtain ⟨hc₁, hd₁⟩ := movldr_lengths
    (Listing.empty.emit (.plain pushWord)) .condAl 10 numLoop
  obtain ⟨hc₂, hd₂⟩ := movldr_lengths
    ((Listing.empty.emit (.plain pushWord)).movldr .condAl 10 numLoop)
    .condAl zeromemPtrReg zeroMem
  have h0 : (Listing.empty.emit (.plain pushWord)).code.length = 1 := rfl
  have h0' : (Listing.empty.emit (.plain pushWord)).data.length = 0 := rfl
  unfold loadsListing
  omega

/-- A call that succeeds is one step of a `do` block. -/
theorem bind_of_some {α β : Type} {x : Option α} {a : α}
    (h : x = some a) (f : α → Option β) : (x >>= f) = f a := by
  rw [h]
  rfl

/-- The setup emits its listing. -/
theorem sim_genInit (zeroMem numLoop : Word) :
    ∃ e, genInit agEmitterInit zeroMem numLoop = some e
      ∧ Sim e (plains (loadsListing zeroMem numLoop)
        (movWords ++ vdupWords)) := by
  obtain ⟨e₁, he₁, h₁⟩ := sim_init.emit_plain pushWord
  obtain ⟨-, hd₁⟩ := movldr_lengths
    (Listing.empty.emit (.plain pushWord)) .condAl 10 numLoop
  obtain ⟨e₂, he₂, h₂⟩ := (h₁.movldr .condAl 10 numLoop).1
    (Nat.le_trans hd₁ (by decide))
  obtain ⟨e₃, he₃, h₃⟩ := (h₂.movldr .condAl zeromemPtrReg zeroMem).1
    (Nat.le_trans (loadsListing_lengths zeroMem numLoop).2 (by decide))
  obtain ⟨e₄, he₄, h₄⟩ := sim_plains movWords h₃
  obtain ⟨e₅, he₅, h₅⟩ := sim_plains vdupWords h₄
  refine ⟨e₅, ?_, ?_⟩
  · have hpush : agEmitPush agEmitterInit .condAl 0b111111110000#32
        = some e₁ := he₁
    have hmovs : (List.range 10).foldlM (fun e i =>
        agEmitMovldrImm e .condAl (BitVec.ofNat 32 i) 0) e₃ = some e₄ := by
      rw [← he₄, movWords, List.foldlM_map]
      simp only [movldrImm_zero]
      rfl
    have hvdups : (List.range 16).foldlM (fun e i =>
        agEmitVdup32 e .condAl 1 (BitVec.ofNat 32 (i * 2)) 0) e₄
        = some e₅ := by
      rw [← he₅, vdupWords, List.foldlM_map]
      rfl
    unfold genInit
    rw [bind_of_some hpush, bind_of_some he₂, bind_of_some he₃,
      bind_of_some hmovs, hvdups]
  · rw [plains_append]
    exact h₅

/-- The loop head stands behind 29 words of setup. -/
theorem length_setup (zeroMem numLoop : Word) :
    (plains (loadsListing zeroMem numLoop)
      (movWords ++ vdupWords)).code.length = 29 := by
  have hloads := (loadsListing_lengths zeroMem numLoop).1
  simp [plains, hloads, movWords, vdupWords]

/-- At the loop head the emitter stands at the setup's listing with the
label bound. -/
theorem sim_loopEmitter (zeroMem numLoop : Word) :
    ∃ e₀ e₁, genInit agEmitterInit zeroMem numLoop = some e₀
      ∧ agEmitNewLabel e₀ = some (e₁, (loadsListing zeroMem
          numLoop).labels.length)
      ∧ Sim e₁ ((plains (loadsListing zeroMem numLoop)
          (movWords ++ vdupWords)).newLabel (.code 29)) := by
  obtain ⟨e₀, he₀, h₀⟩ := sim_genInit zeroMem numLoop
  have hcur : e₀.cur = BitVec.ofNat 32 29 := by
    rw [h₀.cur, length_setup]
  refine ⟨e₀, _, he₀, ?_, h₀.newLabel (.code 29)⟩
  rw [agEmitNewLabel_eq, h₀.labels_length, hcur]
  rfl

/-- The tail of `gen` behind the loop body. -/
theorem sim_genTail {e : Emitter} {L : Listing} (h : Sim e L)
    {dst n : Nat} (hdst : L.labels[dst]? = some (.code n)) :
    ∃ e', genTail e dst = some e'
      ∧ Sim e' (plains ((plains L [subsWord]).emit
          (.jump .condNe 0 dst (some n))) [popWord, bxWord .condAl agLr]) := by
  obtain ⟨e₁, he₁, h₁⟩ := h.emit_plain subsWord
  obtain ⟨e₂, he₂, h₂⟩ := (h₁.branch .condNe 0 hdst).1 h.data_le
  obtain ⟨e₃, he₃, h₃⟩ := h₂.emit_plain popWord
  obtain ⟨e₄, he₄, h₄⟩ := h₃.emit_plain (bxWord .condAl agLr)
  refine ⟨e₄, ?_, ?_⟩
  · have hsub : (agEmitSubImm e .condAl 1 10 10 1).map Prod.fst
        = some e₁ := by
      rw [← he₁, agEmitSubImm, dataProcessImm_fst, if_neg (by decide)]
      rfl
    obtain ⟨⟨e₁', ret⟩, hret, rfl⟩ := Option.map_eq_some_iff.mp hsub
    have hb : agEmitB e₁' .condNe dst = some e₂ := he₂
    have hpop : agEmitPop e₂ .condAl 0b111111110000#32 = some e₃ := he₃
    have hbx : agEmitBx e₃ .condAl agLr = some e₄ := he₄
    unfold genTail
    rw [bind_of_some hret]
    show (agEmitB e₁' .condNe dst >>= _) = _
    rw [bind_of_some hb, bind_of_some hpop, hbx]
  · rw [plains_cons, plains_cons, plains_nil, plains_cons, plains_nil]
    exact h₄

/-- `gen` emits its listing. -/
theorem sim_gen {k : Nat} (f : StraightLine k) (zeroMem numLoop : Word)
    (numInsn : Nat) (o : LtOp) :
    (∃ e, gen agEmitterInit f.run zeroMem numLoop numInsn o = some e
      ∧ Sim e (genListing zeroMem numLoop
        (loopWords f zeroMem numLoop numInsn o)))
    ∧ (loopWords f zeroMem numLoop numInsn o).length
      = (callArgs numInsn o).length * k := by
  obtain ⟨e₀, e₁, he₀, he₁, h₁⟩ := sim_loopEmitter zeroMem numLoop
  obtain ⟨⟨e₂, he₂, h₂⟩, hlen⟩ := sim_callWords f (callArgs numInsn o) h₁
  have hwords : loopWords f zeroMem numLoop numInsn o
      = f.callWords e₁ (callArgs numInsn o) := by
    simp only [loopWords, loopEmitter, he₀, he₁, Option.bind_eq_bind,
      Option.bind_some]
  rw [← hwords] at h₂ hlen
  have hdst : (plains ((plains (loadsListing zeroMem numLoop)
      (movWords ++ vdupWords)).newLabel (.code 29))
      (loopWords f zeroMem numLoop numInsn o)).labels[(loadsListing
        zeroMem numLoop).labels.length]? = some (.code 29) := by
    simp [plains, Listing.newLabel]
  obtain ⟨e₃, he₃, h₃⟩ := sim_genTail h₂ hdst
  refine ⟨⟨e₃, ?_, ?_⟩, hlen⟩
  · unfold gen
    rw [bind_of_some he₀, bind_of_some he₁]
    simp only [genBody_eq]
    rw [bind_of_some he₂, he₃]
  · rw [genListing, plains_append]
    exact h₃

-- ================================================================== image

/-- Plain words keep the items' labels in the table. -/
theorem labelsKnown_plains :
    ∀ (ws : List Word) {L : Listing}, L.LabelsKnown →
      (plains L ws).LabelsKnown := by
  intro ws
  induction ws with
  | nil =>
      intro L h
      rw [plains_nil]
      exact h
  | cons w ws ih =>
      intro L h
      rw [plains_cons]
      exact ih (h.step (.plain w))

/-- The items of a generated function refer to its own labels. -/
theorem labelsKnown_genListing (zeroMem numLoop : Word)
    (body : List Word) : (genListing zeroMem numLoop body).LabelsKnown := by
  have hmovldr : ∀ {L : Listing} (rd imm : Word), L.LabelsKnown →
      (L.movldr .condAl rd imm).LabelsKnown := fun rd imm h =>
    h.step (Listing.step_inv (c := .movldrImm .condAl rd imm) rfl)
  have hloads : (loadsListing zeroMem numLoop).LabelsKnown :=
    hmovldr _ _ (hmovldr _ _ (labelsKnown_empty.step (.plain pushWord)))
  have hhead := (labelsKnown_plains (movWords ++ vdupWords) hloads).step
    (.newLabel (.code 29) (.inr (.inl (by rw [length_setup]))))
  have hbody := labelsKnown_plains (body ++ [subsWord]) hhead
  refine labelsKnown_plains _ (hbody.step
    (.jump .condNe 0 _ (.code 29) ?_))
  simp [plains, Listing.newLabel]

/-- The plain words between the loads and the BNE. -/
def innerWords (body : List Word) : List Word :=
  movWords ++ vdupWords ++ (body ++ [subsWord])

/-- The code of a generated function, section by section. -/
theorem genListing_code (zeroMem numLoop : Word) (body : List Word) :
    (genListing zeroMem numLoop body).code
      = (loadsListing zeroMem numLoop).code
        ++ ((innerWords body).map .plain
          ++ (.jump .condNe 0 (loadsListing zeroMem numLoop).labels.length
              (some 29)
            :: [popWord, bxWord .condAl agLr].map .plain)) := by
  simp [genListing, plains, Listing.newLabel, Listing.emit, innerWords]

theorem genListing_data (zeroMem numLoop : Word) (body : List Word) :
    (genListing zeroMem numLoop body).data
      = (loadsListing zeroMem numLoop).data := rfl

/-- Its length: 29 words before the loop, 4 around its end. -/
theorem length_genListing (zeroMem numLoop : Word) (body : List Word) :
    (genListing zeroMem numLoop body).code.length = 33 + body.length := by
  have hloads := (loadsListing_lengths zeroMem numLoop).1
  rw [genListing_code]
  simp [innerWords, movWords, vdupWords, hloads]
  omega

/-- The BNE of a loop with `m` words in its body, as emitted at code
index 30 + m. -/
def bneWord (m : Nat) : Word :=
  branchWord .condNe 0 (BitVec.ofNat 32 29 - BitVec.ofNat 32 (30 + m) - 2#32)

/-- The word of a load at code index `i` for the literal with data index
`k`, in an image with `n` code words; or the MOV or MVN that does
without a literal. -/
structure MovldrWord (image : List Word) (n i k : Nat) (rd : BitVec 4)
    (imm w : Word) : Prop where
  literal : needsLiteral imm = true →
    image[n + k]? = some imm
      ∧ w = loadWord AgCond.condAl.code rd (offset13 (literalDistance n i k))
  byte : needsLiteral imm = false →
    (Call.movldrImm .condAl (rd.setWidth 32) imm).word = some w

/-- What `movldr` writes down in the middle of a listing. -/
theorem image_movldr {L L' : Listing} (rd : BitVec 4) {imm : Word}
    (hg : (L.movldr .condAl (rd.setWidth 32) imm).Grows L')
    (hlabels : (L.movldr .condAl (rd.setWidth 32) imm).labels
      <+: L'.labels) :
    ∃ w, L'.image[L.code.length]? = some w
      ∧ MovldrWord L'.image L'.code.length L.code.length L.data.length rd
          imm w := by
  cases hl : needsLiteral imm with
  | true =>
      have hmov : L.movldr .condAl (rd.setWidth 32) imm
          = { code := L.code
                ++ [.load .condAl (rd.setWidth 32) L.labels.length]
              data := L.data ++ [imm]
              labels := L.labels ++ [.data L.data.length] } := by
        unfold Listing.movldr
        rw [if_pos hl]
      rw [hmov] at hg hlabels
      obtain ⟨t, ht⟩ := hlabels
      have hb : L'.labels[L.labels.length]? = some (.data L.data.length) := by
        rw [← ht]
        simp
      have hitem : L'.code[L.code.length]?
          = some (.load .condAl (rd.setWidth 32) L.labels.length) :=
        hg.item (by simp)
      refine ⟨_, image_load hitem hb, ?_, ?_⟩
      · intro _
        exact ⟨Listing.image_literal (hg.literal (by simp)), rfl⟩
      · intro h
        rw [h] at hl
        cases hl
  | false =>
      obtain ⟨w, hw⟩ : ∃ w, (Call.movldrImm .condAl (rd.setWidth 32)
          imm).word = some w := by
        simp only [Call.word, hl, Bool.false_eq_true, if_false]
        split <;> exact ⟨_, rfl⟩
      have hitem := hg.item (Listing.step_word rfl hw)
      refine ⟨w, Listing.image_getElem? hitem, ?_, fun _ => hw⟩
      intro h
      rw [h] at hl
      cases hl

/-- The data index of the literal of `zero_mem`'s address. -/
def pointerLiteral (numLoop : Word) : Nat :=
  if needsLiteral numLoop then 1 else 0

/-- The image of a generated function, word by word. -/
structure GenImage (image : List Word) (zeroMem numLoop : Word)
    (body : List Word) : Prop where
  push : image[0]? = some pushWord
  counter : ∃ w, image[1]? = some w
    ∧ MovldrWord image (33 + body.length) 1 0 10 numLoop w
  pointer : ∃ w, image[2]? = some w
    ∧ MovldrWord image (33 + body.length) 2 (pointerLiteral numLoop) 11
        zeroMem w
  inner : ∀ i w, (innerWords body)[i]? = some w → image[3 + i]? = some w
  bne : image[30 + body.length]? = some (bneWord body.length)
  pop : image[31 + body.length]? = some popWord
  bx : image[32 + body.length]? = some (bxWord .condAl agLr)
  length_le : image.length ≤ 35 + body.length

theorem movldr_labels (L : Listing) (cc : AgCond) (rd imm : Word) :
    L.labels <+: (L.movldr cc rd imm).labels := by
  unfold Listing.movldr
  split
  · exact List.prefix_append _ _
  · split <;> exact List.prefix_rfl

/-- The counter's literal, if it has one, comes first. -/
theorem data_pointerLiteral (numLoop : Word) :
    ((Listing.empty.emit (.plain pushWord)).movldr .condAl 10
      numLoop).data.length = pointerLiteral numLoop := by
  unfold Listing.movldr pointerLiteral
  split
  · rfl
  · split <;> rfl

/-- The image of the listing. -/
theorem genImage (zeroMem numLoop : Word) (body : List Word) :
    GenImage (genListing zeroMem numLoop body).image zeroMem numLoop
      body := by
  have hlen := length_genListing zeroMem numLoop body
  have hloads := loadsListing_lengths zeroMem numLoop
  have hcode := genListing_code zeroMem numLoop body
  have hinner : (innerWords body).length = 27 + body.length := by
    simp [innerWords, movWords, vdupWords]
    omega
  have hpre : Listing.Grows (Listing.empty.emit (.plain pushWord))
      ((Listing.empty.emit (.plain pushWord)).movldr .condAl 10 numLoop) :=
    (Listing.step_inv (c := .movldrImm .condAl 10 numLoop) rfl).grows
  have hsecond : Listing.Grows
      ((Listing.empty.emit (.plain pushWord)).movldr .condAl 10 numLoop)
      (loadsListing zeroMem numLoop) :=
    (Listing.step_inv (c := .movldrImm .condAl zeromemPtrReg zeroMem)
      rfl).grows
  have hgrows : (loadsListing zeroMem numLoop).Grows
      (genListing zeroMem numLoop body) :=
    ⟨⟨_, hcode.symm⟩, List.prefix_rfl⟩
  have hlabels : (loadsListing zeroMem numLoop).labels
      <+: (genListing zeroMem numLoop body).labels := List.prefix_append _ _
  -- what follows the loads keeps its index
  have hrest : ∀ i it, ((innerWords body).map Item.plain
      ++ (.jump .condNe 0 (loadsListing zeroMem numLoop).labels.length
          (some 29)
        :: [popWord, bxWord .condAl agLr].map Item.plain))[i]? = some it →
      (genListing zeroMem numLoop body).image[3 + i]? = some (it.final
        (genListing zeroMem numLoop body).labels (33 + body.length)
        (3 + i)) := by
    intro i it hit
    rw [← hlen]
    apply Listing.image_getElem?
    rw [hcode, List.getElem?_append_right (by omega), hloads.1,
      Nat.add_sub_cancel_left]
    exact hit
  have htail : ∀ j, ((innerWords body).map Item.plain
      ++ (.jump .condNe 0 (loadsListing zeroMem numLoop).labels.length
          (some 29)
        :: [popWord, bxWord .condAl agLr].map Item.plain))[27
          + body.length + j]?
      = (.jump .condNe 0 (loadsListing zeroMem numLoop).labels.length
          (some 29)
        :: [popWord, bxWord .condAl agLr].map Item.plain)[j]? := by
    intro j
    rw [List.getElem?_append_right (by rw [List.length_map]; omega),
      List.length_map, hinner, Nat.add_sub_cancel_left]
  constructor
  · have h0 : (Listing.empty.emit (.plain pushWord)).code[0]?
        = some (.plain pushWord) := rfl
    exact Listing.image_getElem? (hgrows.item (hsecond.item (hpre.item h0)))
  · obtain ⟨w, hw, hmov⟩ := image_movldr 10
      (hsecond.trans hgrows) ((movldr_labels _ _ _ _).trans hlabels)
    rw [hlen] at hmov
    exact ⟨w, hw, hmov⟩
  · obtain ⟨w, hw, hmov⟩ := image_movldr
      (L := (Listing.empty.emit (.plain pushWord)).movldr .condAl 10 numLoop) 11
      hgrows hlabels
    have hlen₁ := (movldr_lengths
      (Listing.empty.emit (.plain pushWord)) .condAl 10 numLoop).1
    rw [hlen, hlen₁, data_pointerLiteral] at hmov
    rw [hlen₁] at hw
    exact ⟨w, hw, hmov⟩
  · intro i w hw
    have hit := hrest i (.plain w) ?_
    · exact hit
    · rw [List.getElem?_append_left, List.getElem?_map, hw]
      · rfl
      · rw [List.length_map]
        exact (List.getElem?_eq_some_iff.mp hw).1
  · have hit := hrest (27 + body.length + 0) _ (htail 0)
    rw [show 3 + (27 + body.length + 0) = 30 + body.length by omega] at hit
    exact hit
  · have hit := hrest (27 + body.length + 1) _ (htail 1)
    rw [show 3 + (27 + body.length + 1) = 31 + body.length by omega] at hit
    exact hit
  · have hit := hrest (27 + body.length + 2) _ (htail 2)
    rw [show 3 + (27 + body.length + 2) = 32 + body.length by omega] at hit
    exact hit
  · rw [Listing.length_image, hlen, genListing_data]
    omega

end UdeBench.Bench
