/-
The loop runs what `lt` divides by: the words between the loop head and
the SUBS are the callbacks', and a call executes each of them `num_loop`
times before it reaches the pop.

The addresses of a run are its trace, so executions are counted there:
none in the setup, one in each iteration (`count_callSites`).
-/
import UdeBench.Bench.Proofs.Loop

namespace UdeBench.Bench

open A32 (Word State off site At Loaded step)
open Ag
open Trace

-- ============================================================= the image

/-- The image of `lt`'s function. -/
theorem ltCode_image (ps : PageSize) {k : Nat} (f : StraightLine k)
    (zeroMem numLoop : Word) (numInsn : Nat) (o : LtOp)
    (hmem : (genListing zeroMem numLoop
      (loopWords f zeroMem numLoop numInsn o)).Placed) :
    ∃ code, ltCode ps f.run zeroMem numLoop numInsn o = some code
      ∧ code.image = (genListing zeroMem numLoop
          (loopWords f zeroMem numLoop numInsn o)).image := by
  obtain ⟨⟨e, he, hsim⟩, -⟩ := sim_gen f zeroMem numLoop numInsn o
  obtain ⟨code, e', hcode, himage, -⟩ := agAllocCode_eq ps hsim
    (labelsKnown_genListing _ _ _) hmem
  refine ⟨code, ?_, himage⟩
  unfold ltCode
  rw [bind_of_some he, bind_of_some hcode]

/-- Both literals are within 4095 bytes of their loads, in an image with
`n` code words. -/
structure LiteralsReach (numLoop : Word) (n : Nat) : Prop where
  counter : needsLiteral numLoop = true → literalDistance n 1 0 ≤ 4095
  pointer : literalDistance n 2 (pointerLiteral numLoop) ≤ 4095

/-- Literals in reach bound the code. -/
theorem LiteralsReach.le {numLoop : Word} {n : Nat}
    (h : LiteralsReach numLoop n) : n ≤ 1027 := by
  have hp := h.pointer
  unfold literalDistance at hp
  omega

/-- The load of the setup means what it says. -/
theorem MovldrWord.putsInRd {image : List Word} {n i k : Nat}
    {rd : BitVec 4} {imm w : Word} (h : MovldrWord image n i k rd imm w)
    (hi : i + 2 ≤ n) :
    PutsInRd image n i k AgCond.condAl.code rd imm w := by
  cases hl : needsLiteral imm with
  | true =>
      obtain ⟨hlit, rfl⟩ := h.literal hl
      refine putsInRd_load hl hlit ?_
      unfold literalDistance
      omega
  | false => exact putsInRd_byte hl (h.byte hl)

/-- The loop in the image: the counter loaded, the words of the callbacks,
`SUBS r10, r10, #1`, the BNE to the loop head, the pop, the return, and
at most two literals. -/
structure LoopLayout (image words : List Word) (numLoop : Word) :
    Prop where
  counter : ∃ w, image[1]? = some w
    ∧ PutsInRd image (33 + words.length) 1 0 AgCond.condAl.code 10 numLoop w
  body : ∀ j, j < words.length → image[29 + j]? = words[j]?
  subs : ∃ w, image[29 + words.length]? = some w
    ∧ A32.decodeDpImm w = some { cond := AgCond.condAl.code,
                                 op := A32.opSub, s := 1, rn := 10, rd := 10,
                                 imm12 := 1 }
  branch : ∃ w imm24, image[30 + words.length]? = some w
    ∧ A32.decodeBranch w = some { cond := AgCond.condNe.code, link := 0,
                                  imm24 := imm24 }
    ∧ ((30 + words.length : Nat) : Int) + 2 + imm24.toInt = 29
  pop : image[31 + words.length]? = some popWord
  bx : image[32 + words.length]? = some (bxWord .condAl agLr)
  length_le : image.length ≤ 35 + words.length

/-- A body the BNE reaches across is a loop. -/
theorem loopLayout {image : List Word} {zeroMem numLoop : Word}
    {words : List Word} (hg : GenImage image zeroMem numLoop words)
    (hm : words.length + 3 ≤ 2 ^ 23) : LoopLayout image words numLoop := by
  constructor
  · obtain ⟨w, hw, hmov⟩ := hg.counter
    exact ⟨w, hw, hmov.putsInRd (by omega)⟩
  · intro j hj
    have hinner : (innerWords words)[26 + j]? = some words[j] := by
      rw [inner_body, List.getElem?_append_left hj,
        List.getElem?_eq_getElem hj]
    have hw := hg.inner _ _ hinner
    rw [← Nat.add_assoc] at hw
    rw [hw, List.getElem?_eq_getElem hj]
  · refine ⟨subsWord, hg.subs, ?_⟩
    decide
  · refine ⟨_, bneOffset words.length, hg.bne, bne_decode _, ?_⟩
    rw [bneOffset_toInt hm]
    omega
  · exact hg.pop
  · exact hg.bx
  · exact hg.length_le

-- ============================================================ the counts

/-- Among consecutive words each address is met once. -/
theorem count_sites {base : Word} {lo n j : Nat} (hj : j < n)
    (hn : 4 * (lo + n) ≤ 2 ^ 32) :
    ((List.range n).map fun j => site base (lo + j)).count
      (site base (lo + j)) = 1 := by
  have hinj : ∀ a, a ∈ List.range n → ∀ b, b ∈ List.range n →
      site base (lo + a) = site base (lo + b) → a = b := by
    intro a ha b hb h
    rw [List.mem_range] at ha hb
    have hab := A32.site_inj (by omega) (by omega) h
    omega
  apply List.count_eq_one_of_mem
  · exact List.Nodup.map_on hinj List.nodup_range
  · exact List.mem_map.mpr ⟨j, List.mem_range.mpr hj, rfl⟩

/-- Outside them it is not met at all. -/
theorem not_mem_sites (base : Word) (lo n i : Nat)
    (hi : i < lo ∨ lo + n ≤ i) (hi' : 4 * i < 2 ^ 32)
    (hn : 4 * (lo + n) ≤ 2 ^ 32) :
    site base i ∉ (List.range n).map fun j => site base (lo + j) := by
  intro hmem
  obtain ⟨j, hj, heq⟩ := List.mem_map.mp hmem
  rw [List.mem_range] at hj
  have hij := A32.site_inj (by omega) hi' heq
  omega

/-- The addresses of a call up to the pop: the setup, and the loop as
often as the counter says. -/
def callSites (base : Word) (m n : Nat) : List Word :=
  (List.range 29).map (site base)
    ++ (List.replicate n (iterationSites base m)).flatten

/-- Every word of the body is passed once an iteration. -/
theorem count_callSites {base : Word} {m n j : Nat} (hj : j < m)
    (hm : 4 * (31 + m) ≤ 2 ^ 32) :
    (callSites base m n).count (site base (29 + j)) = n := by
  have hsetup : site base (29 + j) ∉ (List.range 29).map (site base) := by
    have hout := not_mem_sites base 0 29 (29 + j) (.inr (by omega))
      (by omega) (by omega)
    simpa using hout
  unfold callSites iterationSites
  rw [List.count_append, List.count_eq_zero_of_not_mem hsetup,
    List.count_flatten, List.map_replicate, List.sum_replicate,
    count_sites (by omega) (by omega), Nat.zero_add, Nat.nsmul_eq_mul,
    Nat.mul_one]

/-- All its words together. -/
theorem sum_count_callSites {base : Word} {m n : Nat}
    (hm : 4 * (31 + m) ≤ 2 ^ 32) :
    ((List.range m).map fun j =>
      (callSites base m n).count (site base (29 + j))).sum = n * m := by
  have hall : ((List.range m).map fun j =>
      (callSites base m n).count (site base (29 + j)))
      = List.replicate m n := by
    rw [List.eq_replicate_iff]
    refine ⟨by simp, fun c hc => ?_⟩
    obtain ⟨j, hj, rfl⟩ := List.mem_map.mp hc
    exact count_callSites (List.mem_range.mp hj) hm
  rw [hall, List.sum_replicate, Nat.nsmul_eq_mul, Nat.mul_comm]

/-- The words behind the loop are not passed before the pop is
reached. -/
theorem not_mem_callSites {base : Word} {m n i : Nat} (hi : 31 + m ≤ i)
    (hm : 4 * i < 2 ^ 32) : site base i ∉ callSites base m n := by
  intro hmem
  rcases List.mem_append.mp hmem with h | h
  · have hout := not_mem_sites base 0 29 i (.inr (by omega)) hm (by omega)
    exact hout (by simpa using h)
  · obtain ⟨l, hl, hmem⟩ := List.mem_flatten.mp h
    rw [List.eq_of_mem_replicate hl] at hmem
    exact not_mem_sites base 29 (m + 2) i (.inr (by omega)) hm (by omega)
      hmem

/-- A call executes each of the loop's `m` words `n` times: it reaches
the loop head with the counter at `n`, and from there the pop. -/
structure RunsLoop (other : Word → State → Option State) (image : List Word)
    (base : Word) (m n : Nat) (s₀ : State) : Prop where
  counter : ∃ t s, Runs (step other) State.pc s₀ t s ∧ At image base 29 s
    ∧ (s.r 10).toNat = n
  loop : ∃ t s, Runs (step other) State.pc s₀ t s
    ∧ At image base (31 + m) s
    ∧ site base (31 + m) ∉ t ∧ site base (32 + m) ∉ t
    ∧ (∀ j, j < m → t.count (site base (29 + j)) = n)
    ∧ ((List.range m).map fun j => t.count (site base (29 + j))).sum
        = n * m

/-- The loop of `gen` runs exactly what `lt` divides by. -/
theorem loop_count (ps : PageSize) {k : Nat} (f : StraightLine k)
    (zeroMem : ZeroMem) {numLoop : Word} (hloop : 1 ≤ numLoop.toInt)
    {numInsn : Nat} (h8 : 8 ∣ numInsn) (o : LtOp)
    (hreach : LiteralsReach numLoop (33 + numInsn * k)) :
    ∃ code words e₀ e₁ head,
      ltCode ps f.run zeroMem.addr numLoop numInsn o = some code
      ∧ genInit agEmitterInit zeroMem.addr numLoop = some e₀
      ∧ agEmitNewLabel e₀ = some (e₁, head)
      ∧ e₁.labels[head]? = some ⟨.emitted, 29⟩
      ∧ words = f.callWords e₁ (callArgs numInsn o)
      ∧ words.length = numInsn * k
      ∧ LoopLayout code.image words numLoop
      ∧ ∀ other base s₀, Entry code.image base s₀ →
          CallbackSteps other code.image base (numInsn * k) (fun _ => True)
            s₀ →
          RunsLoop other code.image base (numInsn * k) numLoop.toNat s₀ := by
  have hn := hreach.le
  obtain ⟨e₀, e₁, he₀, he₁, hsim⟩ := sim_loopEmitter zeroMem.addr numLoop
  have hwords : loopWords f zeroMem.addr numLoop numInsn o
      = f.callWords e₁ (callArgs numInsn o) := by
    unfold loopWords loopEmitter
    rw [bind_of_some he₀, bind_of_some he₁]
  have hlen := (sim_gen f zeroMem.addr numLoop numInsn o).2
  rw [hwords, length_callArgs h8] at hlen
  have hmem : (genListing zeroMem.addr numLoop
      (loopWords f zeroMem.addr numLoop numInsn o)).Placed := by
    apply Listing.placed_of_fits
    rw [length_genListing, genListing_data, hwords, hlen]
    have hdata := (loadsListing_lengths zeroMem.addr numLoop).2
    simp only [instSize]
    omega
  obtain ⟨code, hcode, himage⟩ :=
    ltCode_image ps f zeroMem.addr numLoop numInsn o hmem
  have hg := genImage zeroMem.addr numLoop (f.callWords e₁ (callArgs numInsn o))
  rw [hwords] at himage
  rw [← himage] at hg
  have hhead : e₁.labels[(loadsListing zeroMem.addr numLoop).labels.length]?
      = some ⟨.emitted, 29⟩ := by
    rw [hsim.labels_get]
    simp [Listing.newLabel, plains, Binding.label]
  refine ⟨code, _, e₀, e₁, _, hcode, he₀, he₁, hhead, rfl, hlen,
    loopLayout hg (by omega), ?_⟩
  intro other base s₀ hentry hcall
  rw [← hlen] at hcall hreach ⊢
  obtain ⟨s₁, hr₁, hhead₁⟩ := setup_runs other hg hentry
  have h10 := hhead₁.counter hreach.counter
  have hpos : 0 < numLoop.toNat := by
    have hint := BitVec.toInt_eq_toNat_cond numLoop
    omega
  obtain ⟨s₂, hr₂, hat₂, -⟩ := loop_runs other hg (by omega) hcall
    (fun _ _ _ h => h) hpos (Nat.le_of_lt numLoop.isLt) hhead₁.here
    (by rw [h10, BitVec.ofNat_toNat, BitVec.setWidth_eq]) ⟨_, hr₁⟩ trivial
  refine ⟨⟨_, s₁, hr₁, hhead₁.here, by rw [h10]⟩,
    ⟨callSites base _ numLoop.toNat, s₂, hr₁.append hr₂, hat₂, ?_, ?_, ?_,
      ?_⟩⟩
  · exact not_mem_callSites (Nat.le_refl _) (by omega)
  · exact not_mem_callSites (by omega) (by omega)
  · intro j hj
    exact count_callSites hj (by omega)
  · exact sum_count_callSites (by omega)

/-- `SUB dst, src, #1` as a callback. -/
def subCallback : StraightLine 1 where
  words _ dst src := [dataProcessImmWord .condAl .sub 0 dst src 1]
  hlen _ _ _ := rfl

/-- Called back for its latency, it emits one word over and over. -/
theorem subCallback_words {e : Emitter} {n : Nat} {w : Word}
    (hw : w ∈ subCallback.callWords e (callArgs n .latency)) :
    w = dataProcessImmWord .condAl .sub 0 0 0 1 := by
  obtain ⟨e', a, ha, hw⟩ := StraightLine.mem_callWords hw
  rw [List.eq_of_mem_replicate ha] at hw
  exact List.mem_singleton.mp hw

/-- That word is executed by the machine itself. -/
theorem subCallback_op :
    A32.decodeOp (dataProcessImmWord .condAl .sub 0 0 0 1)
      = some (0xe, .sub 0 0 1) := by
  decide

/-- A caller's state: the image at 0x10000, a stack below 0x8000, `x` in
the D registers. -/
def callerState (image : List Word) (x : BitVec 64) : State where
  r := fun r => if r = 13 then 0x8000 else 0
  pc := 0x10000
  n := false
  z := false
  c := false
  v := false
  d := fun _ => x
  mem := A32.memOf image 0x10000
  thumb := false

theorem savedAt_callerState (image : List Word) (x : BitVec 64) :
    savedAt (callerState image x) = 0x7fe0#32 := by
  simp [savedAt, callerState]

/-- It is one the function can be called in. -/
theorem entry_callerState {image : List Word} (x : BitVec 64)
    (hlen : image.length ≤ 2 ^ 14) :
    Entry image 0x10000 (callerState image x) := by
  refine ⟨⟨(A32.off_zero _).symm, rfl, ?_⟩, by decide, ?_, ?_⟩
  · exact A32.loaded_memOf _ (by omega)
  · rw [savedAt_callerState]
    decide
  · intro i hi j hj heq
    have hval := congrArg BitVec.toNat heq
    simp only [savedAt_callerState, off, BitVec.toNat_add,
      BitVec.toNat_ofNat] at hval
    have h1 : (0x10000 : Word).toNat = 65536 := rfl
    omega

/-- A function of eight subtractions run three times. -/
theorem loop_count_sub :
    ∃ code, ltCode .default subCallback.run 0x20000 3 8 .latency = some code
      ∧ RunsLoop (fun _ _ => none) code.image 0x10000 8 3
          (callerState code.image 0) := by
  obtain ⟨code, words, e₀, e₁, head, hcode, -, -, -, rfl, hlen, hlayout,
      hrun⟩ := @loop_count .default 1 subCallback
    ⟨0x20000, by decide, by decide⟩ 3 (by decide) 8 (by decide) .latency
    ⟨by decide, by decide⟩
  refine ⟨code, hcode, hrun _ _ _ (entry_callerState 0 ?_) ?_⟩
  · have hle := hlayout.length_le
    omega
  · intro s j _ hj hat _
    have hget := List.getElem?_eq_getElem (show j < (subCallback.callWords e₁
      (callArgs 8 .latency)).length by omega)
    have hw := hlayout.body j (by omega)
    rw [hget, subCallback_words (List.mem_of_getElem? hget)] at hw
    refine ⟨_, hat.step_op hw subCallback_op _, hat.advance rfl rfl rfl, ?_,
      trivial⟩
    rw [State.next_r, State.setReg_ne _ _ (by decide)]

end UdeBench.Bench
