/-
What `main` measures, row by row: every generated function runs to its
end, touches no memory but the stack and `zero_mem`, and executes what
`lt` divides by. One row does not.

That a row gets at memory with zeros only is checked on the words it can
emit, one for each pair of registers `gen` calls it back with (`stays`),
and all rows but one pass (`stays_straightRows`). The row that does not is
`add pc, pc, 0`: reading the pc is 8 bytes ahead, so each of its words
skips the next, and the loop executes every second one.
-/
import UdeBench.Bench.Proofs.Hops
import UdeBench.Bench.Rows

namespace UdeBench.Bench

open A32 (Word State Units off site At step timed)
open Ag
open Trace

-- ================================================================ the check

/-- The pairs of registers `gen` calls back with. -/
def operands : List (Word × Word) :=
  [(0, 0), (0, 1), (0, 2), (0, 3), (0, 4), (0, 5), (0, 6), (0, 7), (0, 8),
    (1, 1), (2, 2), (3, 3), (4, 4), (5, 5), (6, 6), (7, 7)]

theorem mem_operands {numInsn : Nat} {o : LtOp} {a : Word × Word}
    (h : a ∈ callArgs numInsn o) : a ∈ operands := by
  cases o with
  | latency =>
      rw [List.eq_of_mem_replicate h]
      decide
  | throughput =>
      obtain ⟨l, hl, ha⟩ := List.mem_flatten.mp h
      have hsub : [(0, 1), (0, 2), (0, 3), (0, 4), (0, 5), (0, 6), (0, 7),
          (0, 8)] ⊆ operands := by decide
      exact hsub (List.eq_of_mem_replicate hl ▸ ha)
  | throughputRename =>
      obtain ⟨l, hl, ha⟩ := List.mem_flatten.mp h
      have hsub : [(0, 0), (1, 1), (2, 2), (3, 3), (4, 4), (5, 5), (6, 6),
          (7, 7)] ⊆ operands := by decide
      exact hsub (List.eq_of_mem_replicate hl ▸ ha)

/-- r0 to r9, less a few. -/
def lowExcept (xs : List (BitVec 4)) (x : BitVec 4) : Bool :=
  low x && !xs.contains x

/-- What the rows leave nonzero: nothing, the status of a store, or
anything. -/
def scribbles : List (List (BitVec 4)) :=
  [[], [0], [1], [0, 1, 2, 3, 4, 5, 6, 7, 8, 9]]

/-- Every word of a row is quiet. -/
def Row.quiet (r : Row) (neon : Bool) (xs : List (BitVec 4)) : Bool :=
  operands.all fun a =>
    (r.words a.1 a.2).all (quietWord neon (lowExcept xs))

/-- A row that gets at memory with zeros only. -/
def Row.stays (r : Row) : Bool :=
  [true, false].any fun neon => scribbles.any (r.quiet neon)

theorem stays_straightRows : straightRows.all Row.stays = true := by
  decide +kernel

/-- A row is one or two instructions. -/
theorem rows_k : ∀ r ∈ rows, 1 ≤ r.k ∧ r.k ≤ 2 := by
  decide

/-- The values `num_insn` takes. -/
theorem sizes_eq : sizes = [16, 32, 64, 128, 256] := by
  simp [sizes, sizesFrom]

theorem sizes_spec : ∀ n ∈ sizes, 8 ∣ n ∧ n ≤ 256 := by
  rw [sizes_eq]
  decide

/-- What is measured of some rows. -/
theorem mem_measurementsOf {rs : List Row} {m : Measurement} :
    m ∈ measurementsOf rs ↔ m.row ∈ rs ∧ m.numInsn ∈ sizes
      ∧ (m.on, m.o) ∈ m.row.runner.calls := by
  unfold measurementsOf
  constructor
  · intro h
    obtain ⟨n, hn, h⟩ := List.mem_flatMap.mp h
    obtain ⟨r, hr, h⟩ := List.mem_flatMap.mp h
    obtain ⟨c, hc, rfl⟩ := List.mem_map.mp h
    exact ⟨hr, hn, hc⟩
  · rintro ⟨hr, hn, hc⟩
    refine List.mem_flatMap.mpr ⟨m.numInsn, hn, ?_⟩
    refine List.mem_flatMap.mpr ⟨m.row, hr, ?_⟩
    exact List.mem_map.mpr ⟨(m.on, m.o), hc, rfl⟩

-- ================================================================= the code

/-- The function `lt` makes of a measurement: its loop body holds words of
the row. -/
theorem measurement_code (ps : PageSize) (zeroMem : ZeroMem)
    {m : Measurement} (hrow : m.row ∈ rows) (hsize : m.numInsn ∈ sizes) :
    ∃ code body, ltCode ps m.row.emit zeroMem.addr mainNumLoop m.numInsn m.o
        = some code
      ∧ GenImage code.image zeroMem.addr mainNumLoop body
      ∧ body.length = m.numInsn * m.row.k
      ∧ (∀ w ∈ body, ∃ a ∈ operands, w ∈ m.row.words a.1 a.2)
      ∧ LiteralsReach mainNumLoop (33 + body.length) := by
  obtain ⟨h8, hle⟩ := sizes_spec _ hsize
  obtain ⟨-, hk⟩ := rows_k _ hrow
  have hemit : m.row.emit = m.row.code.run := by
    funext e dst src
    exact m.row.emits e dst src
  have hlen := (sim_gen m.row.code zeroMem.addr mainNumLoop m.numInsn m.o).2
  rw [length_callArgs h8] at hlen
  have hsmall : m.numInsn * m.row.k ≤ 512 := Nat.mul_le_mul hle hk
  have hmem : (genListing zeroMem.addr mainNumLoop
      (loopWords m.row.code zeroMem.addr mainNumLoop m.numInsn
        m.o)).Placed := by
    apply Listing.placed_of_fits
    rw [length_genListing, genListing_data, hlen]
    have hdata := (loadsListing_lengths zeroMem.addr mainNumLoop).2
    simp only [instSize]
    omega
  obtain ⟨code, hcode, himage⟩ :=
    ltCode_image ps m.row.code zeroMem.addr mainNumLoop m.numInsn m.o hmem
  have hg := genImage zeroMem.addr mainNumLoop
    (loopWords m.row.code zeroMem.addr mainNumLoop m.numInsn m.o)
  rw [← himage] at hg
  refine ⟨code, _, hemit ▸ hcode, hg, hlen, ?_, ?_⟩
  · intro w hw
    unfold loopWords at hw
    split at hw
    · cases hw
    · obtain ⟨e, a, ha, hw⟩ := StraightLine.mem_callWords hw
      exact ⟨a, mem_operands ha, hw⟩
  · have hlit : pointerLiteral mainNumLoop = 1 := by decide
    constructor
    · intro _
      unfold literalDistance
      omega
    · rw [hlit]
      unfold literalDistance
      omega

-- ======================================================== straight through

section
variable {image : List Word} {base : Word} {s₀ : State} {body : List Word}
variable {zeroMem : ZeroMem} {numLoop : Word} {Z : BitVec 4 → Bool}
variable {u : Units} {neon : Bool}

/-- The word with index `j` of the body. -/
theorem GenImage.word (hg : GenImage image zeroMem.addr numLoop body)
    {j : Nat} (hj : j < body.length) : image[29 + j]? = some body[j] := by
  have hinner : (innerWords body)[26 + j]? = some body[j] := by
    rw [inner_body, List.getElem?_append_left hj,
      List.getElem?_eq_getElem hj]
  have hw := hg.inner _ _ hinner
  rwa [← Nat.add_assoc] at hw

/-- A body of quiet words is executed word by word. -/
theorem quiet_body (hg : GenImage image zeroMem.addr numLoop body)
    (hu : Mapped zeroMem u) (halign : zeroMem.addr &&& 3#32 = 0#32)
    (hq : ∀ w ∈ body, quietWord neon Z w = true) :
    BodyRuns (timed u) image base body.length (List.range body.length)
      (Kept zeroMem (NeonZero u neon) Z s₀) := by
  intro s hat hk
  obtain ⟨s', hr, hat', h10, hk'⟩ := @Runs.straight _ _ (step (timed u)) State.pc
    (fun j t => At image base (29 + j) t ∧ t.r 10 = s.r 10
      ∧ Kept zeroMem (NeonZero u neon) Z s₀ t)
    (fun j => site base (29 + j)) body.length (fun j t h => h.1.pc)
    (fun j hj t ⟨hat, h10, hs, hstill⟩ => by
      have hmem := List.getElem_mem hj
      obtain ⟨t', hexec, hon⟩ :=
        quietWord_step hu hstill halign (hq _ hmem)
      refine ⟨t', (hat.step_eq (hg.word hj) _).trans hexec,
        hat.advance hon.pc hon.thumb hon.mem,
        (hon.high 10 (by decide)).trans h10, ⟨?_, ?_, ?_⟩, hon.still⟩
      · exact hon.mem.trans hs.mem
      · exact (hon.high 13 (by decide)).trans hs.sp
      · exact (hon.high 14 (by decide)).trans hs.lr)
    s ⟨hat, rfl, hk⟩
  exact ⟨s', hr, hat', h10, hk'⟩

-- ================================================== every second instruction

/-- The indices of every second word. -/
def evens (n : Nat) : List Nat := (List.range n).map (2 * ·)

/-- The word of the row. -/
def addPcWord : Word := dataProcessImmWord .condAl .add 0 agPc agPc 0

theorem addPcWord_timed : A32.decodeOp addPcWord = none
    ∧ A32.decodeTimed addPcWord = some (0xe, .addPc 0#32) := by
  decide

/-- It goes on with the word after the next. -/
theorem addPc_step {i : Nat} {s : State} (hat : At image base i s)
    (haligned : base &&& 3#32 = 0#32) (hw : image[i]? = some addPcWord) :
    step (timed u) s = some { s with pc := site base (i + 2) } := by
  obtain ⟨hop, htimed⟩ := addPcWord_timed
  have htarget : s.read A32.rPc + 0#32 = site base (i + 2) := by
    rw [State.read, if_pos rfl, hat.pc, BitVec.add_zero, site, A32.off_off,
      site, Nat.mul_add]
  have hal : site base (i + 2) &&& 3#32 = 0#32 := A32.aligned_off haligned _
  have hbit : (site base (i + 2)).getLsbD 0 = false := by
    have hmod := (A32.aligned_iff _).mp hal
    rw [Bool.eq_false_iff, ne_eq, Bits.getLsbD_eq_true_iff]
    omega
  rw [hat.step_eq hw, A32.exec, hop]
  show timed u addPcWord s = _
  rw [timed, htimed]
  show some (s.bxWritePc (s.read A32.rPc + 0#32)) = _
  rw [htarget, State.bxWritePc, hbit, A32.align_eq hal]
  have hthumb := hat.thumb
  cases s
  cases hthumb
  rfl

/-- A body of such words is executed at every second word. -/
theorem addPc_body (hg : GenImage image zeroMem.addr numLoop body)
    (haligned : base &&& 3#32 = 0#32) (heven : 2 ∣ body.length)
    (hall : ∀ w ∈ body, w = addPcWord) :
    BodyRuns (timed u) image base body.length (evens (body.length / 2))
      (Kept zeroMem True Z s₀) := by
  intro s hat hk
  obtain ⟨s', hr, hat', h10, hk'⟩ := @Runs.straight _ _ (step (timed u)) State.pc
    (fun i t => At image base (29 + 2 * i) t ∧ t.r 10 = s.r 10
      ∧ Kept zeroMem True Z s₀ t)
    (fun i => site base (29 + 2 * i)) (body.length / 2)
    (fun i t h => h.1.pc)
    (fun i hi t ⟨hat, h10, hs, hstill⟩ => by
      have hj : 2 * i < body.length := by omega
      have hw := hg.word hj
      rw [hall _ (List.getElem_mem hj)] at hw
      exact ⟨_, addPc_step hat haligned hw, ⟨rfl, hat.thumb, hat.loaded⟩,
        h10, ⟨hs.mem, hs.sp, hs.lr⟩, hstill.regs, hstill.pointer,
        hstill.neon, hstill.array⟩)
    s ⟨hat, rfl, hk⟩
  refine ⟨s', ?_, ?_, h10, hk'⟩
  · rw [evens, List.map_map]
    exact hr
  · rwa [Nat.mul_div_cancel' heven] at hat'

end

-- ============================================================== the results

/-- Where `zero_mem` is aligned to: 64 bytes, words included. -/
theorem aligned_of_64 {a : Word} (h : a &&& 63#32 = 0#32) :
    a &&& 3#32 = 0#32 := by
  have h3 : (3#32 : Word) = 63#32 &&& 3#32 := by decide
  rw [h3, ← BitVec.and_assoc, h, BitVec.zero_and]

/-- Every function of a row other than `add pc, pc, 0` runs to its end, in
any caller's state with `zero_mem` zero and whatever the units compute: no
access faults though only `zero_mem` need be mapped, each word of the loop
is executed `NUM_LOOP` times, the call returns with the caller's core
registers, and it has stored nothing but the registers it saved. -/
theorem straight_measured (ps : PageSize) (zeroMem : ZeroMem)
    (halign : zeroMem.addr &&& 63#32 = 0#32) :
    ∀ m ∈ measurementsOf straightRows,
      ∃ code, ltCode ps m.row.emit zeroMem.addr mainNumLoop m.numInsn m.o
          = some code
        ∧ ∀ u base s₀, Mapped zeroMem u → Entry code.image base s₀ →
            ZeroMemReady zeroMem s₀ →
            Measured (timed u) (KeepsZeros u) code.image base
              (m.numInsn * m.row.k) mainNumLoop.toNat
              (List.range (m.numInsn * m.row.k)) s₀ := by
  intro m hm
  obtain ⟨hrow, hsize, -⟩ := mem_measurementsOf.mp hm
  have hrows : m.row ∈ rows := by
    simp only [straightRows, rows, List.mem_append] at hrow ⊢
    tauto
  obtain ⟨code, body, hcode, hg, hlen, hwords, hreach⟩ :=
    measurement_code ps zeroMem hrows hsize
  refine ⟨code, hcode, ?_⟩
  intro u base s₀ hu he hz
  rw [← hlen]
  have hstays := List.all_eq_true.mp stays_straightRows _ hrow
  obtain ⟨neon, -, hstays⟩ := List.any_eq_true.mp hstays
  obtain ⟨xs, -, hq⟩ := List.any_eq_true.mp hstays
  have hquiet : ∀ w ∈ body, quietWord neon (lowExcept xs) w = true := by
    intro w hw
    obtain ⟨a, ha, hmem⟩ := hwords w hw
    exact List.all_eq_true.mp (List.all_eq_true.mp hq a ha) w hmem
  refine Measured.mono _ (call_measured (timed u) hg hreach (by decide) he hz
    ?_ ?_ (quiet_body hg hu (aligned_of_64 halign) hquiet)) .inr
  · intro x hx
    exact (Bool.and_eq_true_iff.mp hx).1
  · intro j hj
    exact List.mem_range.mp hj

/-- A unit for every job: everything it computes is zero, and nothing but
`subZeroMem` is mapped. -/
def zeroUnits : Units where
  result _ _ := 0
  flags _ _ := (false, true, false, false)
  vec _ _ _ _ := 0
  cvt _ _ := 0
  exclusive _ := true
  mapped a := decide (0x20000 ≤ a.toNat ∧ a.toNat < 0x20000 + zeroMemSize)

theorem mapped_zeroUnits : Mapped subZeroMem zeroUnits := by
  intro i hi
  have haddr : subZeroMem.addr.toNat = 0x20000 := rfl
  simp only [zeroUnits, decide_eq_true_eq, off, BitVec.toNat_add,
    BitVec.toNat_ofNat, haddr, zeroMemSize] at hi ⊢
  omega

/-- `callerState` is ready for a call: its memory is zero outside of the
image. -/
theorem ready_callerState {image : List Word} (x : BitVec 64)
    (hlen : image.length ≤ 2 ^ 14) :
    ZeroMemReady subZeroMem (callerState image x) := by
  have haddr : subZeroMem.addr.toNat = 0x20000 := rfl
  constructor
  · intro i hi
    have hbase : (0x10000 : Word).toNat = 65536 := rfl
    have hpast : image.length
        ≤ (off subZeroMem.addr i - (0x10000 : Word)).toNat / 4 := by
      simp only [off, BitVec.toNat_sub, BitVec.toNat_add, BitVec.toNat_ofNat,
        haddr, hbase, zeroMemSize] at hi ⊢
      omega
    show Bits.bits (image.getD _ 0) _ 8 = 0#8
    rw [List.getD_eq_getElem?_getD, List.getElem?_eq_none hpast,
      Option.getD_none]
    show Bits.bits (BitVec.ofNat 32 0) _ 8 = 0#8
    rw [Bits.bits_ofNat, Nat.zero_mod, Nat.zero_div]
  · intro i hi j hj heq
    exact (subZeroMem_apart x hlen).stack i hi j hj heq.symm

/-- A call of a row's function in `callerState`. -/
theorem measurement_entry {m : Measurement} (hrow : m.row ∈ rows)
    (hsize : m.numInsn ∈ sizes) {code : Code}
    (hcode : ltCode .default m.row.emit subZeroMem.addr mainNumLoop
      m.numInsn m.o = some code) :
    Entry code.image 0x10000 (callerState code.image 0)
      ∧ ZeroMemReady subZeroMem (callerState code.image 0) := by
  obtain ⟨code', body, hcode', hg, -, -, hreach⟩ :=
    measurement_code .default subZeroMem hrow hsize
  rw [hcode] at hcode'
  cases hcode'
  have hle := hreach.le
  have hlen := hg.length_le
  exact ⟨entry_callerState 0 (by omega), ready_callerState 0 (by omega)⟩

/-- The latency of a store and the load behind it, at 16 of each. -/
theorem straight_measured_strLdr : ∃ m code,
    m.row.name = "{str->ldr}->..." ∧ m ∈ measurements
      ∧ ltCode .default m.row.emit subZeroMem.addr mainNumLoop 16 .latency
        = some code
      ∧ Measured (timed zeroUnits) (KeepsZeros zeroUnits) code.image 0x10000
          32 131072 (List.range 32) (callerState code.image 0) := by
  obtain ⟨r, hr, hname, hcalls, hk⟩ : ∃ r ∈ straightRows,
      r.name = "{str->ldr}->..." ∧ ("latency", .latency) ∈ r.runner.calls
        ∧ r.k = 2 := by
    refine ⟨straightRows[18], List.getElem_mem _, ?_, ?_, ?_⟩ <;> decide
  have hsize : 16 ∈ sizes := by
    rw [sizes_eq]
    decide
  have hmem := (mem_measurementsOf
    (m := ⟨r, "latency", .latency, 16⟩)).mpr ⟨hr, hsize, hcalls⟩
  have hrows : r ∈ rows := by
    simp only [straightRows, rows, List.mem_append] at hr ⊢
    tauto
  obtain ⟨code, hcode, hrun⟩ :=
    straight_measured .default subZeroMem (by decide) _ hmem
  obtain ⟨he, hz⟩ := measurement_entry hrows hsize hcode
  have hmeasured := hrun zeroUnits _ _ mapped_zeroUnits he hz
  simp only [hk] at hmeasured
  exact ⟨⟨r, "latency", .latency, 16⟩, code, hname,
    mem_measurementsOf.mpr ⟨hrows, hsize, hcalls⟩, hcode, hmeasured⟩

/-- The function of `add pc, pc, 0` runs to its end as well, but executes
every second word of its loop only. -/
theorem addPc_measured (ps : PageSize) (zeroMem : ZeroMem) :
    ∀ m ∈ measurementsOf [addPcRow],
      ∃ code, ltCode ps m.row.emit zeroMem.addr mainNumLoop m.numInsn m.o
          = some code
        ∧ ∀ u base s₀, Entry code.image base s₀ → ZeroMemReady zeroMem s₀ →
            Measured (timed u) True code.image base m.numInsn
              mainNumLoop.toNat (evens (m.numInsn / 2)) s₀ := by
  intro m hm
  obtain ⟨hrow, hsize, -⟩ := mem_measurementsOf.mp hm
  have hrow' := List.mem_singleton.mp hrow
  have hrows : m.row ∈ rows := by
    rw [hrow']
    simp [rows]
  obtain ⟨code, body, hcode, hg, hlen, hwords, hreach⟩ :=
    measurement_code ps zeroMem hrows hsize
  have hk : m.row.k = 1 := by rw [hrow']; rfl
  rw [hk, Nat.mul_one] at hlen
  have heven : 2 ∣ body.length := by
    rw [hlen]
    exact Nat.dvd_trans (by decide) (sizes_spec _ hsize).1
  have hall : ∀ w ∈ body, w = addPcWord := by
    intro w hw
    obtain ⟨a, -, hmem⟩ := hwords w hw
    rw [hrow'] at hmem
    exact List.mem_singleton.mp hmem
  refine ⟨code, hcode, ?_⟩
  intro u base s₀ he hz
  rw [← hlen]
  refine call_measured (timed u) hg hreach (by decide) he hz
    (fun _ h => h) ?_ (addPc_body hg he.aligned heven hall)
  intro j hj
  obtain ⟨i, hi, rfl⟩ := List.mem_map.mp hj
  have hlt := List.mem_range.mp hi
  show 2 * i < body.length
  omega

/-- At 16 instructions: 8 of them are executed. -/
theorem addPc_measured_16 : ∃ code,
    ltCode .default addPcRow.emit subZeroMem.addr mainNumLoop 16 .latency
        = some code
      ∧ Measured (timed zeroUnits) True code.image 0x10000 16 131072
          [0, 2, 4, 6, 8, 10, 12, 14] (callerState code.image 0) := by
  have hsize : 16 ∈ sizes := by
    rw [sizes_eq]
    decide
  have hrow : addPcRow ∈ rows := by simp [rows]
  obtain ⟨code, hcode, hrun⟩ := addPc_measured .default subZeroMem
    ⟨addPcRow, "latency", .latency, 16⟩
    (mem_measurementsOf.mpr ⟨List.mem_singleton.mpr rfl, hsize, by decide⟩)
  obtain ⟨he, hz⟩ := measurement_entry
    (m := ⟨addPcRow, "latency", .latency, 16⟩) hrow hsize hcode
  exact ⟨code, hcode, hrun zeroUnits _ _ he hz⟩

end UdeBench.Bench
