/-
Byte memory with 64-bit addresses, and loads and stores of 32 and 64
bits in little-endian order.

What a piece of code leaves alone is stated for ranges: `Agree s m m'`
says that the two memories have the same bytes in the range `s`. A store
agrees on every range apart from its own, agreement composes, and a load
from a range of agreement reads the same.
-/
import Mathlib.Tactic.Ring
import UdeBench.Lib.Spans

namespace UdeBench

/-- A 64-bit address. -/
abbrev Addr := BitVec 64

/-- The bytes of a memory. -/
structure ByteMem where
  byte : Nat → BitVec 8

namespace ByteMem

open Spans

-- ================================================================ bytes

/-- The number in the `k` bytes from `a` on, the first byte lowest. -/
def readNat (m : ByteMem) (a : Nat) : Nat → Nat
  | 0 => 0
  | k + 1 => readNat m a k + 256 ^ k * (m.byte (a + k)).toNat

/-- The `k` lowest bytes of a number, stored from `a` on. -/
def writeNat (m : ByteMem) (a k v : Nat) : ByteMem where
  byte x :=
    if a ≤ x ∧ x < a + k then BitVec.ofNat 8 (v / 256 ^ (x - a))
    else m.byte x

@[simp] theorem writeNat_byte (m : ByteMem) (a k v x : Nat) :
    (writeNat m a k v).byte x = if a ≤ x ∧ x < a + k then
      BitVec.ofNat 8 (v / 256 ^ (x - a)) else m.byte x := rfl

/-- What was stored is read back, as far as it was stored. Induction on
the bytes read. -/
theorem readNat_writeNat (m : ByteMem) (a k v : Nat) :
    ∀ j, j ≤ k → readNat (writeNat m a k v) a j = v % 256 ^ j := by
  intro j
  induction j with
  | zero =>
      intro _
      rw [Nat.pow_zero, Nat.mod_one]
      rfl
  | succ j ih =>
      intro hj
      have hbyte : ((writeNat m a k v).byte (a + j)).toNat
          = v / 256 ^ j % 256 := by
        rw [writeNat_byte, if_pos (by omega), Nat.add_sub_cancel_left]
        rfl
      rw [readNat, ih (by omega), hbyte, Nat.mod_pow_succ]

/-- A load of 64 bits. -/
def load64 (m : ByteMem) (a : Addr) : BitVec 64 :=
  BitVec.ofNat 64 (readNat m a.toNat 8)

/-- A load of 32 bits. -/
def load32 (m : ByteMem) (a : Addr) : BitVec 32 :=
  BitVec.ofNat 32 (readNat m a.toNat 4)

/-- A store of 64 bits. -/
def store64 (m : ByteMem) (a : Addr) (v : BitVec 64) : ByteMem :=
  writeNat m a.toNat 8 v.toNat

/-- A store of 32 bits. -/
def store32 (m : ByteMem) (a : Addr) (v : BitVec 32) : ByteMem :=
  writeNat m a.toNat 4 v.toNat

/-- One byte stored. -/
def store8 (m : ByteMem) (a : Addr) (v : BitVec 8) : ByteMem where
  byte x := if x = a.toNat then v else m.byte x

/-- A range filled with zeros. -/
def zeroFill (m : ByteMem) (s : Span) : ByteMem where
  byte x := if s.1 ≤ x ∧ x < s.1 + s.2 then 0#8 else m.byte x

/-- The range of a 64-bit access. -/
def span64 (a : Addr) : Span := (a.toNat, 8)

/-- The range of a 32-bit access. -/
def span32 (a : Addr) : Span := (a.toNat, 4)

@[simp] theorem load64_store64 (m : ByteMem) (a : Addr) (v : BitVec 64) :
    load64 (store64 m a v) a = v := by
  unfold load64 store64
  rw [readNat_writeNat m a.toNat 8 v.toNat 8 (Nat.le_refl _)]
  apply BitVec.eq_of_toNat_eq
  rw [BitVec.toNat_ofNat]
  have hlt := v.isLt
  omega

@[simp] theorem load32_store32 (m : ByteMem) (a : Addr) (v : BitVec 32) :
    load32 (store32 m a v) a = v := by
  unfold load32 store32
  rw [readNat_writeNat m a.toNat 4 v.toNat 4 (Nat.le_refl _)]
  apply BitVec.eq_of_toNat_eq
  rw [BitVec.toNat_ofNat]
  have hlt := v.isLt
  omega

-- ============================================================ agreement

/-- The same bytes in a range. -/
def Agree (s : Span) (m m' : ByteMem) : Prop :=
  ∀ x, s.1 ≤ x → x < s.1 + s.2 → m'.byte x = m.byte x

theorem Agree.refl (s : Span) (m : ByteMem) : Agree s m m := fun _ _ _ => rfl

theorem Agree.trans {s : Span} {m m' m'' : ByteMem} (h : Agree s m m')
    (h' : Agree s m' m'') : Agree s m m'' := fun x hlo hhi =>
  (h' x hlo hhi).trans (h x hlo hhi)

/-- Agreement on a range is agreement on what lies in it. -/
theorem Agree.mono {s t : Span} {m m' : ByteMem} (h : Agree s m m')
    (hlo : s.1 ≤ t.1) (hhi : t.1 + t.2 ≤ s.1 + s.2) : Agree t m m' :=
  fun x hx hx' => h x (Nat.le_trans hlo hx) (Nat.lt_of_lt_of_le hx' hhi)

theorem agree_writeNat {s : Span} {a k : Nat} (h : Apart s (a, k))
    (m : ByteMem) (v : Nat) : Agree s m (writeNat m a k v) := by
  intro x hlo hhi
  rw [writeNat_byte]
  apply if_neg
  unfold Apart at h
  simp only at h
  omega

/-- A store agrees on what lies apart. -/
theorem agree_store64 {s : Span} {a : Addr} (h : Apart s (span64 a))
    (m : ByteMem) (v : BitVec 64) : Agree s m (store64 m a v) :=
  agree_writeNat h m v.toNat

theorem agree_store32 {s : Span} {a : Addr} (h : Apart s (span32 a))
    (m : ByteMem) (v : BitVec 32) : Agree s m (store32 m a v) :=
  agree_writeNat h m v.toNat

theorem agree_store8 {s : Span} {a : Addr} (h : Apart s (a.toNat, 1))
    (m : ByteMem) (v : BitVec 8) : Agree s m (store8 m a v) := by
  intro x hlo hhi
  show (if x = a.toNat then v else m.byte x) = _
  apply if_neg
  unfold Apart at h
  simp only at h
  omega

theorem agree_zeroFill {s t : Span} (h : Apart s t) (m : ByteMem) :
    Agree s m (zeroFill m t) := by
  intro x hlo hhi
  show (if t.1 ≤ x ∧ x < t.1 + t.2 then 0#8 else m.byte x) = _
  apply if_neg
  unfold Apart at h
  omega

theorem readNat_agree {m m' : ByteMem} {a : Nat} :
    ∀ k, Agree (a, k) m m' → readNat m' a k = readNat m a k := by
  intro k
  induction k with
  | zero => intro _; rfl
  | succ k ih =>
      intro h
      have hrest : Agree (a, k) m m' :=
        h.mono (Nat.le_refl _) (by simp only; omega)
      rw [readNat, readNat, ih hrest,
        h (a + k) (Nat.le_add_right _ _) (by simp only; omega)]

/-- A load from where two memories agree. -/
theorem Agree.load64 {m m' : ByteMem} {a : Addr} (h : Agree (span64 a) m m') :
    m'.load64 a = m.load64 a := by
  unfold ByteMem.load64
  rw [readNat_agree 8 h]

theorem Agree.load32 {m m' : ByteMem} {a : Addr} (h : Agree (span32 a) m m') :
    m'.load32 a = m.load32 a := by
  unfold ByteMem.load32
  rw [readNat_agree 4 h]

-- =============================================================== changes

/-- A change within some ranges: what lies apart from all of them stays
as it is. -/
def Within (l : List Span) (m m' : ByteMem) : Prop :=
  ∀ s : Span, (∀ x ∈ l, Apart s x) → Agree s m m'

theorem Within.refl (l : List Span) (m : ByteMem) : Within l m m :=
  fun s _ => Agree.refl s m

theorem Within.trans {l : List Span} {m m' m'' : ByteMem}
    (h : Within l m m') (h' : Within l m' m'') : Within l m m'' :=
  fun s hs => (h s hs).trans (h' s hs)

/-- Ranges that cover others allow their changes. -/
theorem Within.mono {l l' : List Span} {m m' : ByteMem}
    (h : Within l m m')
    (hl : ∀ x ∈ l, ∃ y ∈ l', y.1 ≤ x.1 ∧ x.1 + x.2 ≤ y.1 + y.2) :
    Within l' m m' := by
  intro s hs
  refine h s fun x hx => ?_
  obtain ⟨y, hy, hlo, hhi⟩ := hl x hx
  have hsy := hs y hy
  unfold Apart at *
  omega

theorem within_store64 {l : List Span} {q : Span} (hq : q ∈ l) {a : Addr}
    (hlo : q.1 ≤ a.toNat) (hhi : a.toNat + 8 ≤ q.1 + q.2) (m : ByteMem)
    (v : BitVec 64) : Within l m (m.store64 a v) := by
  intro s hs
  apply agree_store64
  have hsq := hs q hq
  unfold Apart span64 at *
  simp only
  omega

theorem within_store32 {l : List Span} {q : Span} (hq : q ∈ l) {a : Addr}
    (hlo : q.1 ≤ a.toNat) (hhi : a.toNat + 4 ≤ q.1 + q.2) (m : ByteMem)
    (v : BitVec 32) : Within l m (m.store32 a v) := by
  intro s hs
  apply agree_store32
  have hsq := hs q hq
  unfold Apart span32 at *
  simp only
  omega

end ByteMem

end UdeBench
