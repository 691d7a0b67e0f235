/-
The string buffer holds what was appended to it.

# The invariant

`Has` says that a buffer starts with some bytes, and that there are
`buflen` of them; `Inv`, that those up to `cur` are the text. What lies
behind `cur`, the terminators and the texts that did not fit, is not
mentioned, so writing there keeps `Inv` (`storeAtCur_ok`).

# Formatting

A text fits when its NUL does, too: `len < rem` is `len + 1 <= rem`.
Otherwise `reserve` makes room for both, since there is less than that,
and the second call writes the text from the start (`vprintf_text_ok`).
-/
import UdeBench.Lib.Calls
import UdeBench.Lib.Ints
import UdeBench.Npr.Strbuf

namespace UdeBench.Npr.StringBuffer

open Objects (Ptr Cell Byte Answers Fault Obj)
open Ints

-- =============================================================== contents

/-- A buffer of `buflen` bytes, and what it starts with. A null pointer
is a buffer of none. -/
def Has (s : Sys) (cs : List Cell) : Prop :=
  match s.sb.buf with
  | none => s.sb.buflen = 0 ∧ cs = []
  | some p => ∃ o, s.mem.obj p = some o ∧ o.size = s.sb.buflen.toNat
      ∧ cs.length ≤ o.size ∧ o.get 0 cs.length = cs

/-- There is room for `n` more bytes, or what `reserve` then computes is
an `int`. -/
def Strbuf.Fits (sb : Strbuf) (n : Nat) : Prop :=
  sb.cur.toNat + n ≤ sb.buflen.toNat ∨ (sb.buflen.toNat + n) * 2 < 2 ^ 31

instance (sb : Strbuf) (n : Nat) : Decidable (sb.Fits n) :=
  inferInstanceAs (Decidable (_ ∨ _))

/-- A buffer that holds a text. -/
structure Inv (s : Sys) (text : List Byte) : Prop where
  buflen : s.sb.buflen.toNat < 2 ^ 31
  cur : s.sb.cur.toNat = text.length
  has : Has s (text.map some)

variable {answers : Answers} {s : Sys} {cs ds : List Cell}
  {text t : List Byte} {len : Word}

theorem Has.length_le (h : Has s cs) : cs.length ≤ s.sb.buflen.toNat := by
  unfold Has at h
  split at h
  · rw [h.2]
    exact Nat.zero_le _
  · obtain ⟨o, _, hsize, hle, _⟩ := h
    rwa [← hsize]

/-- The front of what it starts with. -/
theorem Has.front (h : Has s (cs ++ ds)) : Has s cs := by
  unfold Has at h ⊢
  split
  · rename_i hbuf
    rw [hbuf] at h
    exact ⟨h.1, (List.append_eq_nil_iff.mp h.2).1⟩
  · rename_i p hbuf
    rw [hbuf] at h
    obtain ⟨o, ho, hsize, hle, hget⟩ := h
    rw [List.length_append] at hle hget
    refine ⟨o, ho, hsize, by omega, ?_⟩
    rw [← Obj.take_get (Nat.le_add_right cs.length ds.length), hget,
      List.take_left]

/-- What it starts with is read. -/
theorem Has.read (h : Has s cs) :
    Objects.read s.mem s.sb.buf 0 cs.length = .ok cs := by
  unfold Has at h
  split at h
  · rename_i hbuf
    rw [h.2]
    rfl
  · rename_i p hbuf
    obtain ⟨o, ho, _, hle, hget⟩ := h
    rw [hbuf, Objects.read_ok ho (Int.le_refl 0) (by omega)]
    exact congrArg Except.ok hget

/-- Where the buffer is as it was, so is what it holds. -/
theorem Has.congr {s' : Sys} (h : Has s cs) (hsb : s'.sb = s.sb)
    (hobj : ∀ p, s.sb.buf = some p → s'.mem.obj p = s.mem.obj p) :
    Has s' cs := by
  unfold Has at h ⊢
  rw [hsb]
  split
  · rename_i hbuf
    rw [hbuf] at h
    exact h
  · rename_i p hbuf
    rw [hbuf] at h
    obtain ⟨o, ho, hrest⟩ := h
    exact ⟨o, (hobj p hbuf).trans ho, hrest⟩

theorem Inv.le (h : Inv s text) : text.length ≤ s.sb.buflen.toNat := by
  have hle := h.has.length_le
  rwa [List.length_map] at hle

/-- The `int`s of a buffer. -/
theorem Inv.cur_toInt (h : Inv s text) : s.sb.cur.toInt = text.length := by
  have hle := h.le
  have hlt := h.buflen
  rw [toInt_of_lt (by rw [h.cur]; omega), h.cur]

theorem Inv.rem (h : Inv s text) :
    (s.sb.buflen - s.sb.cur).toNat = s.sb.buflen.toNat - text.length := by
  rw [toNat_sub (by rw [h.cur]; exact h.le), h.cur]

-- ================================================================ appending

/-- Bytes stored at `cur`, where there is room: they follow the text. -/
theorem storeAtCur_ok (cs : List Cell) (h : Inv s text)
    (hroom : text.length + cs.length ≤ s.sb.buflen.toNat) :
    ∃ s', storeAtCur s cs = .ok s' ∧ s'.sb = s.sb
      ∧ Has s' (text.map some ++ cs) := by
  have hhas := h.has
  unfold storeAtCur
  rw [h.cur_toInt]
  unfold Has at hhas
  split at hhas
  · -- no buffer, and nothing to store
    rename_i hbuf
    obtain ⟨hzero, hnil⟩ := hhas
    rw [hzero] at hroom
    have hcs : cs = [] := List.eq_nil_of_length_eq_zero (by
      have h0 : (0 : Word).toNat = 0 := rfl
      omega)
    subst hcs
    refine ⟨s, rfl, rfl, ?_⟩
    rw [hnil]
    unfold Has
    rw [hbuf]
    exact ⟨hzero, rfl⟩
  · rename_i p hbuf
    obtain ⟨o, ho, hsize, hle, hget⟩ := hhas
    obtain ⟨m', hm', hobj, _⟩ := Objects.write_ok text.length
      cs ho (by omega) (by rw [hsize]; exact_mod_cast hroom)
    rw [hbuf, hm']
    refine ⟨_, rfl, rfl, ?_⟩
    unfold Has
    simp only [hbuf]
    rw [Int.toNat_natCast] at hobj
    refine ⟨_, hobj, hsize, ?_, ?_⟩
    · rw [List.length_append, List.length_map, Obj.put_size, hsize]
      exact hroom
    · rw [List.length_map] at hget
      rw [List.length_append, List.length_map, Obj.get_append, Nat.zero_add,
        Obj.get_put_self, Obj.get_put_apart (.inl (by omega)), hget]

/-- There is room for `len` more, and nothing else has changed. -/
theorem reserve_ok (h : Inv s text) (hfits : s.sb.Fits len.toNat) :
    Yields (Objects.OutOfMemory answers) (reserve answers s len) fun s' =>
      Inv s' text ∧ s'.sb.cur = s.sb.cur
        ∧ text.length + len.toNat ≤ s'.sb.buflen.toNat := by
  have hle := h.le
  have hlt := h.buflen
  unfold Strbuf.Fits at hfits
  rw [h.cur] at hfits
  have hlen : len.toNat < 2 ^ 31 := by omega
  have hd : ((s.sb.buflen - s.sb.cur).signExtend 64).toNat
      = s.sb.buflen.toNat - text.length := by
    rw [toNat_size (by rw [h.rem]; omega), h.rem]
  have hiff : (s.sb.buflen - s.sb.cur).signExtend 64 < len.signExtend 64
      ↔ s.sb.buflen.toNat < text.length + len.toNat := by
    rw [BitVec.lt_def, hd, toNat_size hlen]
    omega
  unfold reserve
  simp only
  by_cases hgrow : s.sb.buflen.toNat < text.length + len.toNat
  · rw [if_pos (hiff.mpr hgrow)]
    have hcap := hfits.resolve_left (by omega)
    have hsum : (s.sb.buflen + len).toNat = s.sb.buflen.toNat + len.toNat :=
      toNat_add (by omega)
    generalize halloc : (s.sb.buflen + len).signExtend 64 * 2 = alloc
    have hbytes : alloc.toNat = (s.sb.buflen.toNat + len.toNat) * 2 := by
      have h2 : (2 : Size).toNat = 2 := rfl
      rw [← halloc, BitVec.toNat_mul, toNat_size (by omega), hsum, h2]
      exact Nat.mod_eq_of_lt (by omega)
    have hnew : (alloc.setWidth 32).toNat
        = (s.sb.buflen.toNat + len.toNat) * 2 := by
      rw [BitVec.toNat_setWidth, hbytes]
      exact Nat.mod_eq_of_lt (by omega)
    have hmax : alloc.toNat ≤ Objects.ptrdiffMax := by
      unfold Objects.ptrdiffMax
      omega
    have hhas := h.has
    unfold Has at hhas
    split at hhas
    · rename_i hbuf
      obtain ⟨_, hnil⟩ := hhas
      rw [hbuf]
      refine (Objects.malloc_yields _ _ hmax).bind fun r hr => ?_
      refine ⟨⟨by simp only [hnew]; omega, h.cur, ?_⟩, rfl,
        by simp only [hnew]; omega⟩
      refine ⟨_, hr.1, ?_, ?_, ?_⟩
      · simp only [hnew]
        exact hbytes
      · rw [hnil]
        exact Nat.zero_le _
      · rw [hnil]
        rfl
    · rename_i p hbuf
      obtain ⟨o, ho, hsize, hfit, hget⟩ := hhas
      rw [hbuf]
      refine (Objects.realloc_yields hmax ho).bind fun r hr => ?_
      refine ⟨⟨by simp only [hnew]; omega, h.cur, ?_⟩, rfl,
        by simp only [hnew]; omega⟩
      refine ⟨_, hr.1, ?_, ?_, ?_⟩
      · simp only [hnew]
        exact hbytes
      · rw [Obj.resized_size, List.length_map]
        omega
      · rw [Obj.get_resized (by omega), hget]
  · rw [if_neg (mt hiff.mp hgrow)]
    exact ⟨h, rfl, by omega⟩

/-- `cur` moved behind the text that follows. -/
theorem Inv.advance (h : Inv s text) (hhas : Has s ((text ++ t).map some))
    (hlen : len.toNat = t.length) :
    Inv { s with sb := { s.sb with cur := s.sb.cur + len } } (text ++ t) := by
  have hle := hhas.length_le
  have hlt := h.buflen
  rw [List.length_map, List.length_append] at hle
  refine ⟨hlt, ?_, hhas⟩
  show (s.sb.cur + len).toNat = _
  rw [toNat_add (by rw [h.cur]; omega), h.cur, hlen, List.length_append]

/-- A text appended. -/
theorem append_ok (h : Inv s text) (hlen : len.toNat = t.length)
    (hfits : s.sb.Fits t.length) :
    Yields (Objects.OutOfMemory answers) (do
      let s ← reserve answers s len
      let s ← storeAtCur s (t.map some)
      .ok { s with sb := { s.sb with cur := s.sb.cur + len } }) fun s' =>
      Inv s' (text ++ t) := by
  rw [← hlen] at hfits
  refine (reserve_ok h hfits).bind fun s₁ hs₁ => ?_
  obtain ⟨h₁, hcur, hroom⟩ := hs₁
  obtain ⟨s₂, hs₂, hsb, hhas⟩ := storeAtCur_ok (t.map some) h₁
    (by rw [List.length_map, ← hlen]; exact hroom)
  simp only [hs₂, bind, Except.bind]
  rw [← List.map_append] at hhas
  have h₂ : Inv s₂ text := by
    refine ⟨by rw [hsb]; exact h₁.buflen, by rw [hsb]; exact h₁.cur, ?_⟩
    rw [List.map_append] at hhas
    exact hhas.front
  exact h₂.advance hhas hlen

-- ============================================================== formatting

/-- What `vsnprintf` writes stays within its size. -/
theorem Formatted.length_output (f : Formatted) (n : Size) :
    (f.output n).length ≤ n.toNat := by
  cases f with
  | text t =>
      unfold Formatted.output
      simp only
      split
      · exact Nat.zero_le _
      · rename_i hn
        have hpos : n.toNat ≠ 0 := fun hzero =>
          hn (BitVec.eq_of_toNat_eq hzero)
        rw [List.length_append, List.length_map, List.length_take,
          List.length_singleton]
        omega
  | failure ret junk =>
      unfold Formatted.output
      simp only [List.length_take]
      omega

/-- A text that fits is written with its NUL. -/
theorem Formatted.output_text {n : Size} (ht : t.length < n.toNat) :
    (Formatted.text t).output n = t.map some ++ [some 0] := by
  unfold Formatted.output
  have hn : n ≠ 0 := by
    rintro rfl
    exact absurd ht (Nat.not_lt_zero _)
  simp only
  rw [if_neg hn, List.take_of_length_le (by omega)]

/-- A call of `vsnprintf` with a size there is room for: the text stays,
and a text that fits follows it. -/
theorem vsnprintf_ok {n : Size} (f : Formatted) (h : Inv s text)
    (hn : text.length + n.toNat ≤ s.sb.buflen.toNat) :
    ∃ s', vsnprintf s n f = .ok (s', f.ret) ∧ s'.sb = s.sb ∧ Inv s' text
      ∧ ∀ t, f = .text t → t.length < n.toNat →
        Has s' ((text ++ t).map some) := by
  have hout := f.length_output n
  obtain ⟨s', hs', hsb, hhas⟩ := storeAtCur_ok (f.output n) h
    (by omega)
  unfold vsnprintf
  rw [hs']
  refine ⟨s', rfl, hsb, ⟨by rw [hsb]; exact h.buflen,
    by rw [hsb]; exact h.cur, hhas.front⟩, ?_⟩
  rintro t rfl ht
  rw [Formatted.output_text ht, ← List.append_assoc, ← List.map_append]
    at hhas
  exact hhas.front

/-- The number a text returns. -/
theorem Formatted.ret_text (ht : t.length < 2 ^ 32) :
    (Formatted.text t).ret.toNat = t.length := by
  show (BitVec.ofNat 32 t.length).toNat = _
  rw [BitVec.toNat_ofNat]
  exact Nat.mod_eq_of_lt ht

/-- The first call of `vsnprintf`: what it returns tells whether its text
and the NUL have found room. -/
theorem vprintf_first (f : Formatted) (h : Inv s text) :
    ∃ s', vsnprintf s ((s.sb.buflen - s.sb.cur).signExtend 64) f
        = .ok (s', f.ret)
      ∧ s'.sb = s.sb ∧ Inv s' text
      ∧ ∀ t, f = .text t → t.length < s.sb.buflen.toNat - text.length →
        Has s' ((text ++ t).map some) := by
  have hle := h.le
  have hlt := h.buflen
  have hsize : ((s.sb.buflen - s.sb.cur).signExtend 64).toNat
      = s.sb.buflen.toNat - text.length := by
    rw [toNat_size (by rw [h.rem]; omega), h.rem]
  obtain ⟨s', hs', hsb, hinv, hhas⟩ := vsnprintf_ok f h
    (n := (s.sb.buflen - s.sb.cur).signExtend 64) (by omega)
  rw [hsize] at hhas
  exact ⟨s', hs', hsb, hinv, hhas⟩

/-- The second call, with room for the text and its NUL. -/
theorem vprintf_second (f : Formatted) (h : Inv s text)
    (hfits : s.sb.Fits (len.toNat + 1)) :
    Yields (Objects.OutOfMemory answers) (do
      let s ← reserve answers s (len + 1)
      let (s, _) ← vsnprintf s ((len + 1).signExtend 64) f
      .ok { s with sb := { s.sb with cur := s.sb.cur + len } }) fun s' =>
      ∃ s₁, Inv s₁ text
        ∧ s' = { s₁ with sb := { s₁.sb with cur := s₁.sb.cur + len } }
        ∧ ∀ t, f = .text t → t.length = len.toNat →
          Has s₁ ((text ++ t).map some) := by
  have hlt := h.buflen
  have hlen : len.toNat + 1 < 2 ^ 31 := by
    unfold Strbuf.Fits at hfits
    omega
  have hone : (len + 1).toNat = len.toNat + 1 := by
    have h1 : (1 : Word).toNat = 1 := rfl
    rw [toNat_add] <;> rw [h1]
    omega
  rw [← hone] at hfits
  refine (reserve_ok h hfits).bind fun s₁ hs₁ => ?_
  obtain ⟨h₁, _, hroom⟩ := hs₁
  have hsize : ((len + 1).signExtend 64).toNat = len.toNat + 1 := by
    rw [toNat_size (by omega), hone]
  obtain ⟨s₂, hs₂, _, h₂, hhas⟩ := vsnprintf_ok f h₁
    (n := (len + 1).signExtend 64) (by omega)
  simp only [hs₂, bind, Except.bind]
  refine ⟨s₂, h₂, rfl, fun t ht hlen' => hhas t ht ?_⟩
  omega

/-- `npr_strbuf_vprintf` is its first call, and then either the move of
`cur` or the second call. -/
theorem vprintf_split (answers : Answers) (first second : Formatted)
    (h : Inv s text) :
    ∃ s₁, s₁.sb = s.sb ∧ Inv s₁ text
      ∧ (∀ t, first = .text t →
        t.length < s.sb.buflen.toNat - text.length →
        Has s₁ ((text ++ t).map some))
      ∧ strbufVprintf answers s first second
        = if first.ret.slt (s.sb.buflen - s.sb.cur) then
            .ok { s₁ with sb := { s₁.sb with cur := s₁.sb.cur + first.ret } }
          else (do
            let s ← reserve answers s₁ (first.ret + 1)
            let (s, _) ← vsnprintf s ((first.ret + 1).signExtend 64) second
            .ok { s with sb := { s.sb with cur := s.sb.cur + first.ret } }) := by
  obtain ⟨s₁, hs₁, hsb, h₁, hhas⟩ := vprintf_first first h
  refine ⟨s₁, hsb, h₁, hhas, ?_⟩
  unfold strbufVprintf
  simp only [hs₁, bind, Except.bind]

/-- A text's length against the room there is. -/
theorem slt_text (h : Inv s text) (ht : t.length < 2 ^ 31) :
    (BitVec.ofNat 32 t.length).slt (s.sb.buflen - s.sb.cur) = true
      ↔ t.length < s.sb.buflen.toNat - text.length := by
  have hlt := h.buflen
  have hret : (BitVec.ofNat 32 t.length).toNat = t.length :=
    Formatted.ret_text (by omega)
  rw [slt_iff (by rw [hret]; exact ht) (by rw [h.rem]; omega), hret, h.rem]

/-- A text that fits. -/
theorem vprintf_fits (answers : Answers) (second : Formatted) (h : Inv s text)
    (ht : t.length < 2 ^ 31)
    (hfit : t.length < s.sb.buflen.toNat - text.length) :
    ∃ s', strbufVprintf answers s (.text t) second = .ok s'
      ∧ Inv s' (text ++ t) := by
  obtain ⟨s₁, _, h₁, hhas, heq⟩ :=
    vprintf_split answers (.text t) second h
  have hslt : (Formatted.text t).ret.slt (s.sb.buflen - s.sb.cur) = true :=
    (slt_text h ht).mpr hfit
  rw [heq, if_pos hslt]
  exact ⟨_, rfl, h₁.advance (hhas t rfl hfit)
    (Formatted.ret_text (by omega))⟩

/-- A text that does not fit: what the second call leaves. -/
theorem vprintf_retry (answers : Answers) (second : Formatted) (h : Inv s text)
    (ht : t.length < 2 ^ 31)
    (hfit : ¬ t.length < s.sb.buflen.toNat - text.length)
    (hfits : s.sb.Fits (t.length + 1)) :
    Yields (Objects.OutOfMemory answers)
      (strbufVprintf answers s (.text t) second) fun s' =>
      ∃ s₁, Inv s₁ text
        ∧ s' = { s₁ with sb := { s₁.sb with
            cur := s₁.sb.cur + (Formatted.text t).ret } }
        ∧ (second = .text t → Has s₁ ((text ++ t).map some)) := by
  have hret := Formatted.ret_text (t := t) (by omega)
  obtain ⟨s₁, hsb, h₁, _, heq⟩ :=
    vprintf_split answers (.text t) second h
  have hslt : ¬ (Formatted.text t).ret.slt (s.sb.buflen - s.sb.cur) = true :=
    mt (slt_text h ht).mp hfit
  rw [heq, if_neg hslt]
  refine (vprintf_second second h₁ (by rw [hsb, hret]; exact hfits)).mono
    fun s' hs' => ?_
  obtain ⟨s₂, h₂, heq', hhas⟩ := hs'
  exact ⟨s₂, h₂, heq', fun hsecond => hhas t hsecond hret.symm⟩

/-- A failure of the first call moves `cur` by what it returned. -/
theorem vprintf_failure (answers : Answers) {ret : Word} (junk : List Cell)
    (second : Formatted) (h : Inv s text) (hret : 2 ^ 31 ≤ ret.toNat) :
    ∃ s₁, Inv s₁ text
      ∧ strbufVprintf answers s (.failure ret junk) second
        = .ok { s₁ with sb := { s₁.sb with cur := s₁.sb.cur + ret } } := by
  obtain ⟨s₁, _, h₁, _, heq⟩ :=
    vprintf_split answers (.failure ret junk) second h
  have hlt := h.buflen
  have hlt' := ret.isLt
  have hslt : (Formatted.failure ret junk).ret.slt
      (s.sb.buflen - s.sb.cur) = true := by
    rw [BitVec.slt_iff_toInt_lt]
    show ret.toInt < _
    rw [toInt_of_le hret, toInt_of_lt (by rw [h.rem]; omega)]
    omega
  refine ⟨s₁, h₁, ?_⟩
  rw [heq, if_pos hslt]
  rfl

-- =================================================================== strings

/-- A string in memory: a text with its NUL. -/
def IsString (m : Objects.Mem) (p : Ptr) (text : List Byte) : Prop :=
  Objects.read m (some p) 0 (text.length + 1)
    = .ok (text.map some ++ [some 0])

/-- `npr_strbuf_c_str` changes no text. -/
theorem cStr_ok (h : Inv s text) (hfits : s.sb.Fits 1) :
    Yields (Objects.OutOfMemory answers) (strbufCStr answers s) fun r =>
      Inv r.1 text ∧ ∃ p, r.2 = some p ∧ IsString r.1.mem p text := by
  have h1 : (1 : Word).toNat = 1 := rfl
  rw [← h1] at hfits
  refine (reserve_ok h hfits).bind fun s₁ hs₁ => ?_
  obtain ⟨h₁, _, hroom⟩ := hs₁
  obtain ⟨s₂, hs₂, hsb, hhas⟩ := storeAtCur_ok [some 0] h₁ hroom
  simp only [hs₂, bind, Except.bind]
  refine ⟨⟨by rw [hsb]; exact h₁.buflen, by rw [hsb]; exact h₁.cur,
    hhas.front⟩, ?_⟩
  have hread := hhas.read
  rw [List.length_append, List.length_map, List.length_singleton] at hread
  cases hbuf : s₂.sb.buf with
  | none =>
      unfold Has at hhas
      rw [hbuf] at hhas
      exact absurd hhas.2 (by simp)
  | some p =>
      rw [hbuf] at hread
      exact ⟨p, rfl, hread⟩

/-- `npr_strbuf_strdup` leaves the buffer alone. -/
theorem strdup_ok (h : Inv s text) :
    Yields (Objects.OutOfMemory answers) (strbufStrdup answers s) fun r =>
      Inv r.1 text ∧ ∃ p, r.2 = some p ∧ IsString r.1.mem p text := by
  have hle := h.le
  have hlt := h.buflen
  have hlen : (s.sb.cur.signExtend 64).toNat = text.length := by
    rw [toNat_size (by rw [h.cur]; omega), h.cur]
  have hone : (s.sb.cur.signExtend 64 + 1).toNat = text.length + 1 := by
    have h1 : (1 : Size).toNat = 1 := rfl
    rw [BitVec.toNat_add, hlen, h1]
    omega
  unfold strbufStrdup
  simp only [hlen, hone]
  refine (Objects.malloc_yields _ _ (by unfold Objects.ptrdiffMax; omega)).bind
    fun r hr => ?_
  obtain ⟨hnew, hptr, hrest⟩ := hr
  -- the buffer is an older object
  have hold : ∀ p, s.sb.buf = some p → p ≠ r.2
      ∧ Objects.Mem.obj r.1 p = s.mem.obj p := by
    intro p hbuf
    have hhas := h.has
    unfold Has at hhas
    rw [hbuf] at hhas
    obtain ⟨o, ho, _⟩ := hhas
    have hlt' := Objects.Mem.obj_lt ho
    rw [hptr]
    exact ⟨Nat.ne_of_lt hlt', hrest p hlt'⟩
  have hread : Objects.read r.1 s.sb.buf 0 text.length
      = .ok (text.map some) := by
    have hhas : Has ⟨r.1, s.sb⟩ (text.map some) :=
      h.has.congr rfl fun p hp => (hold p hp).2
    have hread := hhas.read
    rwa [List.length_map] at hread
  obtain ⟨m₁, hm₁, hobj₁, hother₁⟩ := Objects.write_ok 0
    (text.map some) hnew (Int.le_refl 0) (by
      rw [List.length_map]
      show (0 : Int) + text.length ≤ (text.length + 1 : Nat)
      omega)
  obtain ⟨m₂, hm₂, hobj₂, hother₂⟩ := Objects.write_ok text.length
    [some 0] hobj₁ (by omega) (by
      rw [Obj.put_size]
      show (text.length : Int) + 1 ≤ (text.length + 1 : Nat)
      omega)
  have hcopy : Objects.memcpy r.1 (some r.2) 0 s.sb.buf 0 text.length
      = .ok m₁ := by
    unfold Objects.memcpy
    rw [hread]
    exact hm₁
  simp only [hcopy, hm₂, bind, Except.bind]
  refine ⟨⟨hlt, h.cur, h.has.congr rfl fun p hp => ?_⟩, r.2, rfl, ?_⟩
  · obtain ⟨hne, hsame⟩ := hold p hp
    show Objects.Mem.obj m₂ p = _
    rw [hother₂ p hne, hother₁ p hne, hsame]
  · unfold IsString
    rw [Objects.read_ok hobj₂ (Int.le_refl 0) (by
      rw [Obj.put_size, Obj.put_size]
      show (0 : Int) + (text.length + 1 : Nat) ≤ (text.length + 1 : Nat)
      omega)]
    have hself := Obj.get_put_self (Obj.blank (text.length + 1)) 0
      (text.map some)
    rw [List.length_map] at hself
    rw [Int.toNat_natCast, Int.toNat_zero, Obj.get_append,
      Obj.get_put_apart (.inl (by omega)), hself, Nat.zero_add]
    exact congrArg (fun x => Except.ok (text.map some ++ x))
      (Obj.get_put_self _ _ _)

-- ================================================================ overflow

/-- The bytes `reserve` asks for, where it asks for more. -/
def Strbuf.request (sb : Strbuf) (len : Word) : Size :=
  (sb.buflen + len).signExtend 64 * 2

/-- What `reserve` leaves when it was answered. -/
theorem reserve_eq_ok {s' : Sys} (h : reserve answers s len = .ok s') :
    (s' = s ∧ ¬ (s.sb.buflen - s.sb.cur).signExtend 64 < len.signExtend 64)
      ∨ ∃ p o, s'.sb = ⟨(s.sb.request len).setWidth 32, s.sb.cur, some p⟩
        ∧ s'.mem.obj p = some o ∧ o.size = (s.sb.request len).toNat
        ∧ o.size ≤ Objects.ptrdiffMax := by
  unfold reserve at h
  simp only at h
  split at h
  · right
    obtain ⟨r, hr, hok⟩ := bind_eq_ok h
    cases hok
    obtain ⟨o, hobj, hsize, hmax⟩ := Objects.realloc_eq_ok hr
    exact ⟨r.2, o, rfl, hobj, hsize, by rw [hsize]; exact hmax⟩
  · cases h
    exact .inl ⟨rfl, ‹_›⟩

/-- A request that can be answered is the double of an `int`. -/
theorem request_toNat {sb : Strbuf}
    (h : (sb.request len).toNat ≤ Objects.ptrdiffMax) :
    (sb.buflen + len).toNat < 2 ^ 31
      ∧ (sb.request len).toNat = (sb.buflen + len).toNat * 2 := by
  have h2 : (2 : Size).toNat = 2 := rfl
  have hlt := (sb.buflen + len).isLt
  unfold Strbuf.request Objects.ptrdiffMax at *
  rw [BitVec.toNat_mul, h2] at h ⊢
  by_cases hsmall : (sb.buflen + len).toNat < 2 ^ 31
  · rw [toNat_size hsmall]
    exact ⟨hsmall, Nat.mod_eq_of_lt (by omega)⟩
  · rw [toNat_size_neg (by omega)] at h
    omega

/-- A capacity that is no `int` becomes a negative `buflen`. -/
theorem reserve_overflow {s' : Sys} (h : Inv s text)
    (hs : reserve answers s len = .ok s') (hlen : len.toNat ≤ 2 ^ 31)
    (hfits : ¬ s.sb.Fits len.toNat) : 2 ^ 31 ≤ s'.sb.buflen.toNat := by
  have hlt := h.buflen
  have hle := h.le
  unfold Strbuf.Fits at hfits
  rw [h.cur] at hfits
  rcases reserve_eq_ok hs with ⟨_, hno⟩ | ⟨p, o, hsb, _, hsize, hmax⟩
  · exfalso
    have hd : ((s.sb.buflen - s.sb.cur).signExtend 64).toNat
        = s.sb.buflen.toNat - text.length := by
      rw [toNat_size (by rw [h.rem]; omega), h.rem]
    rw [BitVec.lt_def, hd] at hno
    by_cases hsmall : len.toNat < 2 ^ 31
    · rw [toNat_size hsmall] at hno
      omega
    · rw [toNat_size_neg (by omega)] at hno
      omega
  · rw [hsize] at hmax
    obtain ⟨hint, hreq⟩ := request_toNat hmax
    have hsum := toNat_add (x := s.sb.buflen) (y := len) (by omega)
    rw [hsb]
    show 2 ^ 31 ≤ ((s.sb.request len).setWidth 32).toNat
    rw [BitVec.toNat_setWidth, hreq, hsum]
    omega

/-- Bytes that are stored then change nothing about that. -/
theorem store_overflow {s₁ s₂ : Sys} (h : Inv s text)
    (hreserve : reserve answers s len = .ok s₁)
    (hstore : storeAtCur s₁ cs = .ok s₂) (hlen : len.toNat ≤ 2 ^ 31)
    (hfits : ¬ s.sb.Fits len.toNat) : 2 ^ 31 ≤ s₂.sb.buflen.toNat := by
  obtain ⟨m', _, hok⟩ := bind_eq_ok hstore
  cases hok
  have hbig := reserve_overflow h hreserve hlen hfits
  exact hbig

/-- A text that does not fit, with a capacity that is no `int`. -/
theorem vprintf_overflow {s' : Sys} (second : Formatted) (h : Inv s text)
    (ht : t.length < 2 ^ 31) (hfits : ¬ s.sb.Fits (t.length + 1))
    (hs : strbufVprintf answers s (.text t) second = .ok s') :
    2 ^ 31 ≤ s'.sb.buflen.toNat := by
  have hret := Formatted.ret_text (t := t) (by omega)
  have hone : ((Formatted.text t).ret + 1).toNat = t.length + 1 := by
    have h1 : (1 : Word).toNat = 1 := rfl
    rw [toNat_add, hret, h1]
    rw [hret, h1]
    omega
  have hroom : ¬ t.length < s.sb.buflen.toNat - text.length := by
    intro hfit
    refine hfits (.inl ?_)
    rw [h.cur]
    omega
  obtain ⟨s₁, hsb, h₁, _, heq⟩ :=
    vprintf_split answers (.text t) second h
  have hslt : ¬ (Formatted.text t).ret.slt (s.sb.buflen - s.sb.cur) = true :=
    mt (slt_text h ht).mp hroom
  rw [heq, if_neg hslt] at hs
  obtain ⟨s₂, hreserve, hs⟩ := bind_eq_ok hs
  obtain ⟨⟨s₃, n⟩, hprint, hok⟩ := bind_eq_ok hs
  cases hok
  obtain ⟨s₄, hstore, hok⟩ := bind_eq_ok hprint
  cases hok
  have hbig := store_overflow h₁ hreserve hstore (by rw [hone]; omega)
    (by rw [hone, hsb]; exact hfits)
  exact hbig

/-- A string longer than an `int`: the bytes do not fit, or `buflen` is
negative. -/
theorem puts_overflow {s' : Sys} {str : List Byte} (h : Inv s text)
    (hs : strbufPuts answers s str = .ok s')
    (hlen : 2 ^ 31 ≤ strlen str) (hstr : strlen str < 2 ^ 63) :
    2 ^ 31 ≤ s'.sb.buflen.toNat := by
  have hlt := h.buflen
  have hword : (BitVec.ofNat 64 (strlen str)).toNat = strlen str := by
    rw [BitVec.toNat_ofNat]
    exact Nat.mod_eq_of_lt (by omega)
  have hbytes : ((str.take (strlen str)).map some).length = strlen str := by
    rw [List.length_map, List.length_take]
    exact Nat.min_eq_left (List.takeWhile_prefix _).length_le
  unfold strbufPuts at hs
  simp only [hword] at hs
  obtain ⟨s₁, hreserve, hs⟩ := bind_eq_ok hs
  obtain ⟨s₂, hstore, hok⟩ := bind_eq_ok hs
  cases hok
  obtain ⟨m', hwrite, hok⟩ := bind_eq_ok hstore
  cases hok
  show 2 ^ 31 ≤ s₁.sb.buflen.toNat
  have hne : (str.take (strlen str)).map some ≠ ([] : List Cell) := by
    intro hnil
    rw [hnil] at hbytes
    have hzero : ([] : List Cell).length = 0 := rfl
    omega
  obtain ⟨p, o, hbuf, hobj, hroom⟩ := Objects.write_eq_ok hwrite hne
  rw [hbytes] at hroom
  rcases reserve_eq_ok hreserve with ⟨rfl, _⟩ | ⟨q, o', hsb, hobj', hsize, hmax⟩
  · -- the buffer is shorter than the string
    have hhas := h.has
    unfold Has at hhas
    rw [hbuf] at hhas
    obtain ⟨o', ho', hsize, _⟩ := hhas
    rw [hobj] at ho'
    cases ho'
    rw [h.cur_toInt] at hroom
    omega
  · rw [hsb] at hbuf
    cases hbuf
    rw [hobj] at hobj'
    cases hobj'
    rw [hsize] at hmax
    obtain ⟨hint, hreq⟩ := request_toNat hmax
    have hcur : s₁.sb.cur.toInt = text.length := by
      rw [hsb]
      exact h.cur_toInt
    rw [hcur, hsize, hreq] at hroom
    rw [hsb]
    show 2 ^ 31 ≤ ((s.sb.request _).setWidth 32).toNat
    rw [BitVec.toNat_setWidth, hreq]
    omega

end UdeBench.Npr.StringBuffer
