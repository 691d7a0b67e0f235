/-
Branches reach their labels: in the image of every run that binds each
label at most once and every branched-to label at all, each branch holds
the distance to where its label was bound.

The two encoders agree because a label that stood in the code when the
branch was emitted still stands there at the end (`known_stays`, from
`BindOnce`), and because both reduce the same distance modulo 2^24
(`offset24`): patching a branch emitted with offset zero gives the
branch that would have been emitted with the distance known
(`patchBranch_branchWord`).
-/
import UdeBench.Ag.Proofs.Resolve

namespace UdeBench.Ag

open A32 (Word)

-- ======================================================== bound at most once

/-- A label that is in the table and not bound. -/
def Listing.Unbound (L : Listing) (id : Nat) : Prop :=
  ∃ u, L.labels[id]? = some (.unbound u)

instance (L : Listing) (id : Nat) : Decidable (L.Unbound id) :=
  match h : L.labels[id]? with
  | some (.unbound u) => .isTrue ⟨u, h⟩
  | some (.code _) => .isFalse fun ⟨_, hu⟩ => by
      rw [h] at hu
      cases hu
  | some (.data _) => .isFalse fun ⟨_, hu⟩ => by
      rw [h] at hu
      cases hu
  | none => .isFalse fun ⟨_, hu⟩ => by
      rw [h] at hu
      cases hu

/-- A call binds no label that is bound already. -/
def Call.BindsUnbound (L : Listing) : Call → Prop
  | .label id => L.Unbound id
  | .dataLabel id => L.Unbound id
  | _ => True

instance (L : Listing) : (c : Call) → Decidable (c.BindsUnbound L)
  | .label id => inferInstanceAs (Decidable (L.Unbound id))
  | .dataLabel id => inferInstanceAs (Decidable (L.Unbound id))
  | .insn _ | .dataProcessImm .. | .branch .. | .movldrImm ..
  | .allocLabel _ | .newLabel | .newDataLabel => .isTrue trivial

/-- Every label is bound at most once: whenever the run binds one, it is
not bound yet. -/
def BindOnce (cs : List Call) : Prop :=
  ∀ pre c post L, cs = pre ++ c :: post → listing pre = some L →
    c.BindsUnbound L

/-- It is enough to look at the calls by index. -/
theorem bindOnce_of_index {cs : List Call}
    (h : ∀ i (hi : i < cs.length),
      ∀ L ∈ listing (cs.take i), cs[i].BindsUnbound L) : BindOnce cs := by
  rintro pre c post L rfl hL
  have hi := h pre.length (by simp) L (by simpa using hL)
  simpa using hi

theorem BindOnce.init {cs ds : List Call} (h : BindOnce (cs ++ ds)) :
    BindOnce cs := by
  intro pre c post L hcs hL
  refine h pre c (post ++ ds) L ?_ hL
  rw [hcs, List.append_assoc, List.cons_append]

/-- Where a label stands, as a word position of the image. -/
def Listing.pos (L : Listing) (id : Nat) : Option Nat :=
  (L.labels[id]?).bind (Binding.pos L.code.length)

/-- Every branched-to label is bound in the end. -/
def BranchesBound (cs : List Call) (L : Listing) : Prop :=
  ∀ cc l dst, Call.branch cc l dst ∈ cs → (L.pos dst).isSome

/-- A label bound in the code stays where it is while no call binds it
again. -/
theorem Listing.step_code_stays {L L' : Listing} {c : Call}
    (h : L.step c = some L') (hc : c.BindsUnbound L) {id n : Nat}
    (hid : L.labels[id]? = some (.code n)) :
    L'.labels[id]? = some (.code n) := by
  have hlt : id < L.labels.length := (List.getElem?_eq_some_iff.mp hid).1
  -- a label other than the one bound is untouched
  have hset : ∀ (id' : Nat) (b : Binding),
      (∃ u, L.labels[id']? = some (.unbound u)) →
      (L.labels.set id' b)[id]? = some (.code n) := by
    rintro id' b ⟨u, hu⟩
    have hne : id' ≠ id := by
      rintro rfl
      rw [hid] at hu
      cases hu
    rw [List.getElem?_set_ne hne, hid]
  have happ : ∀ b : Binding, (L.labels ++ [b])[id]? = some (.code n) := by
    intro b
    rw [List.getElem?_append_left hlt, hid]
  cases c with
  | label id' =>
      simp only [step] at h
      split at h <;> cases h
      exact hset id' _ hc
  | dataLabel id' =>
      simp only [step] at h
      split at h <;> cases h
      exact hset id' _ hc
  | insn i => cases h; exact hid
  | dataProcessImm cc opc s rd rn imm =>
      simp only [step] at h
      split at h <;> cases h <;> exact hid
  | branch cc l dst =>
      simp only [step] at h
      split at h <;> cases h
      exact hid
  | movldrImm cc rd imm =>
      cases h
      unfold movldr
      split
      · exact happ _
      · split <;> exact hid
  | allocLabel uninit => cases h; exact happ _
  | newLabel => cases h; exact happ _
  | newDataLabel => cases h; exact happ _

/-- A jump whose target was known when it was emitted still has its
target there. -/
theorem known_stays {cs : List Call} :
    ∀ {L : Listing}, listing cs = some L → BindOnce cs →
      ∀ cc l dst n, Item.jump cc l dst (some n) ∈ L.code →
        L.labels[dst]? = some (.code n) := by
  induction cs using List.reverseRecOn with
  | nil =>
      intro L hL _ cc l dst n hit
      cases hL
      cases hit
  | append_singleton cs c ih =>
      intro L hL hbind cc l dst n hit
      rw [listing_snoc] at hL
      obtain ⟨L₀, hL₀, hstep⟩ := Option.bind_eq_some_iff.mp hL
      have hc : c.BindsUnbound L₀ := hbind cs c [] L₀ rfl hL₀
      -- an item already there keeps its target
      have hold : Item.jump cc l dst (some n) ∈ L₀.code →
          L.labels[dst]? = some (.code n) := fun h =>
        Listing.step_code_stays hstep hc
          (ih hL₀ hbind.init cc l dst n h)
      cases Listing.step_inv hstep with
      | same => exact hold hit
      | bind id b _ _ => exact hold hit
      | newLabel b _ => exact hold hit
      | plain w =>
          rcases List.mem_append.mp hit with h | h
          · exact hold h
          · cases List.mem_singleton.mp h
      | literal cc' rd imm _ =>
          rcases List.mem_append.mp hit with h | h
          · exact hold h
          · cases List.mem_singleton.mp h
      | jump cc' l' dst' b hb =>
          rcases List.mem_append.mp hit with h | h
          · exact hold h
          · -- the item just emitted read the table itself
            have heq := List.mem_singleton.mp h
            cases b with
            | code n' =>
                cases heq
                exact hb
            | unbound u => cases heq
            | data n' => cases heq

-- ============================================================ the distance

/-- Both encoders keep the low 24 bits of the distance, which 32-bit
wraparound leaves alone. -/
theorem offset24 (p i : Nat) :
    (BitVec.ofNat 32 p - BitVec.ofNat 32 i - 2#32) &&& 0x00ffffff#32
      = BitVec.ofInt 32 (((p : Int) - i - 2) % 2 ^ 24) := by
  apply BitVec.eq_of_toNat_eq
  have hmask : (0x00ffffff#32) = BitVec.ofNat 32 (2 ^ 24 - 1) := rfl
  rw [hmask, Bits.toNat_and_mask _ (by decide), BitVec.toNat_ofInt,
    BitVec.toNat_sub, BitVec.toNat_sub, BitVec.toNat_ofNat,
    BitVec.toNat_ofNat, BitVec.toNat_ofNat]
  omega

/-- A branch patched after the fact is the branch emitted with the
offset known. -/
theorem patchBranch_branchWord (cc : AgCond) (l d : Word) :
    patchBranch (branchWord cc l 0#32) d = branchWord cc l d := by
  have hmask : (0xff000000#32) = BitVec.allOnes 32 <<< 24 := by decide
  unfold patchBranch branchWord
  simp only [BitVec.zero_and, BitVec.or_zero, BitVec.and_or_distrib_right,
    hmask, Bits.shl_and_mask _ (show 24 ≤ 28 by decide),
    Bits.shl_and_mask _ (show 24 ≤ 25 by decide),
    Bits.shl_and_mask _ (Nat.le_refl 24)]

/-- The position of a binding is the offset it is resolved to. -/
theorem Binding.offset_of_pos {b : Binding} {size p : Nat}
    (h : b.pos size = some p) : b.offset size = BitVec.ofNat 32 p := by
  cases b with
  | unbound u => cases h
  | code n =>
      cases h
      rfl
  | data n =>
      cases h
      show BitVec.ofNat 32 n + BitVec.ofNat 32 size = _
      rw [← BitVec.ofNat_add, Nat.add_comm]

/-- The final word of a jump: the distance to its label, whether it was
encoded at once or patched. -/
theorem final_jump {L : Listing} {cc : AgCond} {l : Word} {dst i p : Nat}
    {known : Option Nat} (hp : L.pos dst = some p)
    (hknown : ∀ n, known = some n → L.labels[dst]? = some (.code n)) :
    (Item.jump cc l dst known).final L.labels L.code.length i
      = branchWord cc l
          (BitVec.ofNat 32 p - BitVec.ofNat 32 i - 2#32) := by
  obtain ⟨b, hb, hpos⟩ := Option.bind_eq_some_iff.mp hp
  cases known with
  | some n =>
      have hn := hknown n rfl
      rw [hb] at hn
      cases hn
      cases hpos
      rfl
  | none =>
      simp only [Item.final, hb, Item.emitted, patchBranch_branchWord]
      rw [Binding.delta, Binding.offset_of_pos hpos]

/-- The item a branch call writes down. -/
theorem Listing.step_branch {L L' : Listing} {cc : AgCond} {l : Word}
    {dst : Nat} (h : L.step (.branch cc l dst) = some L') :
    ∃ known, L'.code[L.code.length]? = some (.jump cc l dst known) := by
  simp only [step] at h
  split at h
  · cases h
  · next b hb =>
    cases h
    cases b with
    | unbound u => exact ⟨none, by simp [emit, Item.jumpTo]⟩
    | code n => exact ⟨some n, by simp [emit, Item.jumpTo]⟩
    | data n => exact ⟨none, by simp [emit, Item.jumpTo]⟩

-- ============================================================== the result

/-- Label resolution. In the image of a run with at most 512 literals,
labels bound at most once and branched-to labels bound, the word of
every branch holds the distance to its label, and every word that is
neither a branch nor a literal load is as emitted. -/
theorem label_resolution (ps : PageSize) {cs : List Call} {L : Listing}
    (hL : listing cs = some L) (hmem : L.Placed)
    (hd : L.data.length ≤ codebufferSize) (hbind : BindOnce cs)
    (hbound : BranchesBound cs L) :
    ∃ e code e', run cs = some e ∧ agAllocCode ps e = some (code, e')
      ∧ (∀ pre post (cc : AgCond) (l : Word) dst,
          cs = pre ++ .branch cc l dst :: post →
          ∃ L₀ p, listing pre = some L₀ ∧ L.pos dst = some p
            ∧ code.image[L₀.code.length]?
              = some ((cc.val <<< 28) ||| (0x5#32 <<< 25) ||| (l <<< 24)
                  ||| BitVec.ofInt 32
                    (((p : Int) - (L₀.code.length : Nat) - 2) % 2 ^ 24)))
      ∧ (∀ pre post c w, cs = pre ++ c :: post → c.word = some w →
          ∃ L₀, listing pre = some L₀
            ∧ code.image[L₀.code.length]? = some w) := by
  obtain ⟨e, code, e', he, hcode, himage⟩ := run_image ps hL hmem hd
  refine ⟨e, code, e', he, hcode, ?_, ?_⟩
  · intro pre post cc l dst hcs
    subst hcs
    obtain ⟨L₀, L₁, hL₀, hstep, hgrows⟩ := listing_split hL
    obtain ⟨known, hk⟩ := Listing.step_branch hstep
    have hitem := hgrows.item hk
    obtain ⟨p, hp⟩ := Option.isSome_iff_exists.mp
      (hbound cc l dst (by simp))
    refine ⟨L₀, p, hL₀, hp, ?_⟩
    have hstays : ∀ n, known = some n →
        L.labels[dst]? = some (.code n) := by
      rintro n rfl
      exact known_stays hL hbind cc l dst n (List.mem_of_getElem? hitem)
    rw [himage, Listing.image_getElem? hitem, final_jump hp hstays,
      branchWord, offset24]
  · intro pre post c w hcs hw
    subst hcs
    obtain ⟨L₀, L₁, hL₀, hstep, hgrows⟩ := listing_split hL
    have hitem := hgrows.item (Listing.step_word hstep hw)
    refine ⟨L₀, hL₀, ?_⟩
    rw [himage, Listing.image_getElem? hitem]
    rfl

/-- A backward and a forward BL around a literal load, as the
generator's own test emits them. -/
def blCalls : List Call :=
  [.newLabel, .allocLabel 7, .branch .condAl 1 0, .branch .condAl 1 1,
    .movldrImm .condAl 4 0xffff0fff#32, .label 1,
    .insn (.bx .condAl agLr)]

/-- Both BLs of the test reach their labels. -/
theorem label_resolution_bl :
    ∃ e code e', run blCalls = some e
      ∧ agAllocCode .default e = some (code, e')
      ∧ code.image[0]? = some 0xebfffffe#32
      ∧ code.image[1]? = some 0xeb000000#32
      ∧ code.image[3]? = some 0xe12fff1e#32 := by
  have hL : listing blCalls = some ⟨[.jump .condAl 1 0 (some 0),
      .jump .condAl 1 1 none, .load .condAl 4 2, .plain 0xe12fff1e#32],
      [0xffff0fff#32], [.code 0, .code 3, .data 0]⟩ := by decide
  obtain ⟨e, code, e', he, hcode, hbranch, hword⟩ :=
    label_resolution .default hL (Listing.placed_of_fits (by decide))
      (by decide) (bindOnce_of_index (by decide))
      (by
        intro cc l dst h
        simp only [blCalls, List.mem_cons, List.not_mem_nil, or_false,
          Call.branch.injEq, reduceCtorEq, false_or] at h
        obtain ⟨-, -, rfl⟩ | ⟨-, -, rfl⟩ := h <;> decide)
  refine ⟨e, code, e', he, hcode, ?_, ?_, ?_⟩
  · obtain ⟨L₀, p, hL₀, hp, h⟩ :=
      hbranch (blCalls.take 2) (blCalls.drop 3) .condAl 1 0 rfl
    cases hL₀
    cases hp
    exact h
  · obtain ⟨L₀, p, hL₀, hp, h⟩ :=
      hbranch (blCalls.take 3) (blCalls.drop 4) .condAl 1 1 rfl
    cases hL₀
    cases hp
    exact h
  · obtain ⟨L₀, hL₀, h⟩ :=
      hword (blCalls.take 6) [] (.insn (.bx .condAl agLr)) _ rfl rfl
    cases hL₀
    exact h

end UdeBench.Ag
