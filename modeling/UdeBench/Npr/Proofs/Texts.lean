/-
Runs of the string buffer, without failures of `vsnprintf` and with
them.

# Without

Every call keeps `Inv`, so a run holds the texts appended, one behind
the other. A call for a string returns one on the way, and it is the text
so far (`strbuf_contents`).

# With

`npr_strbuf_vprintf` never looks at the sign of what `vsnprintf`
returns. Where the first call fails, `cur` goes back by it, and below
zero in an empty buffer; where the second one does, `cur` goes on over a
text that was not written. The one failure that does no harm is of a
second call for an empty text (`Survives`): then `cur` stays. A capacity
that is no `int` ends the buffer as surely: `buflen` is negative then
(`strbuf_survives_iff`).
-/
import UdeBench.Npr.Proofs.Strbuf

namespace UdeBench.Npr.StringBuffer

open Objects (Ptr Cell Byte Answers Fault Obj)
open Ints Calls

-- ============================================================== conditions

/-- What `vsnprintf` may come to: a text whose length is an `int`, or a
negative number. -/
def Formatted.Legal : Formatted → Prop
  | text t => t.length < 2 ^ 31
  | failure ret _ => 2 ^ 31 ≤ ret.toNat

instance : (f : Formatted) → Decidable f.Legal
  | .text _ => inferInstanceAs (Decidable (_ < _))
  | .failure _ _ => inferInstanceAs (Decidable (_ ≤ _))

/-- The same format and arguments give the same text. -/
def Formatted.Agrees : Formatted → Formatted → Prop
  | text t, text t' => t' = t
  | _, _ => True

instance : (f g : Formatted) → Decidable (f.Agrees g)
  | .text _, .text _ => inferInstanceAs (Decidable (_ = _))
  | .text _, .failure _ _ => inferInstanceAs (Decidable True)
  | .failure _ _, _ => inferInstanceAs (Decidable True)

/-- The bytes a call may ask `reserve` for. -/
def StrCall.need : StrCall → Nat
  | putc _ => 1
  | puts str => (str.takeWhile (· ≠ 0)).length
  | putsn _ len => len.toNat
  | printf (.text t) _ => t.length + 1
  | printf (.failure _ _) _ => 0
  | cStr => 1
  | strdup => 0

/-- What a call may be given: a string that is an object, a length within
its string, and formatting as C99 has it. -/
def StrCall.WellFormed : StrCall → Prop
  | puts str => strlen str < 2 ^ 63
  | putsn str len => len.toNat < 2 ^ 31 ∧ len.toNat ≤ str.length
  | printf first second =>
      first.Legal ∧ second.Legal ∧ first.Agrees second
  | _ => True

instance : (c : StrCall) → Decidable c.WellFormed
  | .putc _ => inferInstanceAs (Decidable True)
  | .puts _ => inferInstanceAs (Decidable (_ < _))
  | .putsn _ _ => inferInstanceAs (Decidable (_ ∧ _))
  | .printf _ _ => inferInstanceAs (Decidable (_ ∧ _ ∧ _))
  | .cStr => inferInstanceAs (Decidable True)
  | .strdup => inferInstanceAs (Decidable True)

/-- No capacity that is no `int`, either. -/
def StrCall.Valid (sb : Strbuf) (c : StrCall) : Prop :=
  sb.Fits c.need ∧ c.WellFormed

instance (sb : Strbuf) (c : StrCall) : Decidable (c.Valid sb) :=
  inferInstanceAs (Decidable (_ ∧ _))

/-- Formatting that does not fail, at either call. -/
def StrCall.Succeeds : StrCall → Prop
  | printf (.text _) (.text _) => True
  | printf _ _ => False
  | _ => True

instance : (c : StrCall) → Decidable c.Succeeds
  | .printf (.text _) (.text _) => inferInstanceAs (Decidable True)
  | .printf (.text _) (.failure _ _) => inferInstanceAs (Decidable False)
  | .printf (.failure _ _) _ => inferInstanceAs (Decidable False)
  | .putc _ => inferInstanceAs (Decidable True)
  | .puts _ => inferInstanceAs (Decidable True)
  | .putsn _ _ => inferInstanceAs (Decidable True)
  | .cStr => inferInstanceAs (Decidable True)
  | .strdup => inferInstanceAs (Decidable True)

/-- A text without a byte. -/
def StrCall.IsEmptyText : StrCall → Prop
  | printf (.text t) _ => t = []
  | _ => False

instance : (c : StrCall) → Decidable c.IsEmptyText
  | .printf (.text _) _ => inferInstanceAs (Decidable (_ = _))
  | .printf (.failure _ _) _ => inferInstanceAs (Decidable False)
  | .putc _ => inferInstanceAs (Decidable False)
  | .puts _ => inferInstanceAs (Decidable False)
  | .putsn _ _ => inferInstanceAs (Decidable False)
  | .cStr => inferInstanceAs (Decidable False)
  | .strdup => inferInstanceAs (Decidable False)

/-- A failure, if there is one, comes after the first call of `vsnprintf`
has returned zero. -/
def StrCall.Survives (sb : Strbuf) (c : StrCall) : Prop :=
  c.fails sb = true → c.IsEmptyText

instance (sb : Strbuf) (c : StrCall) : Decidable (c.Survives sb) :=
  inferInstanceAs (Decidable (_ → _))

theorem StrCall.Succeeds.survives {c : StrCall} (h : c.Succeeds)
    (sb : Strbuf) : c.Survives sb := by
  intro hfails
  cases c with
  | printf first second =>
      cases first with
      | failure ret junk => exact h.elim
      | text t =>
          cases second with
          | failure ret junk => exact h.elim
          | text t' => cases hfails
  | _ => cases hfails

theorem StrCall.Succeeds.not_fails {c : StrCall} (h : c.Succeeds)
    (sb : Strbuf) : c.fails sb = false := by
  cases c with
  | printf first second =>
      cases first with
      | failure ret junk => exact h.elim
      | text t =>
          cases second with
          | failure ret junk => exact h.elim
          | text t' => rfl
  | _ => rfl

/-- The second call is made when the text and its NUL do not fit. -/
theorem StrCall.fails_second {t : List Byte} {ret : Word}
    {junk : List Cell} (sb : Strbuf) :
    (printf (.text t) (.failure ret junk)).fails sb
      = !(BitVec.ofNat 32 t.length).slt (sb.buflen - sb.cur) := rfl

-- ================================================================ one call

/-- A buffer in order: `cur` within the buffer, and behind the text. -/
structure Sound (s : StrState) : Prop where
  nonneg : 0 ≤ s.sys.sb.cur.toInt
  le : s.sys.sb.cur.toInt ≤ s.sys.sb.buflen.toInt
  cur : s.sys.sb.cur.toInt = s.text.length
  size : ∀ p, s.sys.sb.buf = some p → ∃ o, s.sys.mem.obj p = some o
    ∧ (o.size : Int) = s.sys.sb.buflen.toInt
  text : Objects.read s.sys.mem s.sys.sb.buf 0 s.text.length
    = .ok (s.text.map some)

/-- A call for a string has returned one, made of the text there is. -/
def Returned (c : StrCall) (s : StrState) : Prop :=
  c.makesString → ∃ p, s.ret = some p ∧ IsString s.sys.mem p s.text

variable {answers : Answers} {s : StrState} {c : StrCall}

theorem Inv.sound (h : Inv s.sys s.text) : Sound s := by
  have hcur := h.cur_toInt
  have hle := h.le
  have hlen : s.sys.sb.buflen.toInt = s.sys.sb.buflen.toNat :=
    toInt_of_lt h.buflen
  refine ⟨by omega, by omega, hcur, fun p hp => ?_, ?_⟩
  · have hhas := h.has
    unfold Has at hhas
    rw [hp] at hhas
    obtain ⟨o, ho, hsize, _⟩ := hhas
    exact ⟨o, ho, by rw [hlen, hsize]⟩
  · have hread := h.has.read
    rwa [List.length_map] at hread

/-- What a call leaves: the buffer with the text there then is, and the
string if it is for one. -/
def Leaves (c : StrCall) (text : List Byte) (r : Sys × Option Ptr) : Prop :=
  Inv r.1 text
    ∧ (c.makesString → ∃ p, r.2 = some p ∧ IsString r.1.mem p text)

/-- A call that returns no string. -/
theorem leaves_append {text : List Byte} {x : Except Fault Sys}
    (hc : c.makesString = false)
    (h : Yields (Objects.OutOfMemory answers) x fun s' => Inv s' text) :
    Yields (Objects.OutOfMemory answers) (do
      let sys ← x
      .ok (sys, none)) (Leaves c text) :=
  h.bind fun _ hs => ⟨hs, fun hstring => by
    rw [hc] at hstring
    cases hstring⟩

/-- A call that returns a string, and appends nothing. -/
theorem leaves_string {text : List Byte}
    {x : Except Fault (Sys × Option Ptr)}
    (h : Yields (Objects.OutOfMemory answers) x fun r =>
      Inv r.1 text ∧ ∃ p, r.2 = some p ∧ IsString r.1.mem p text) :
    Yields (Objects.OutOfMemory answers) x (Leaves c (text ++ [])) := by
  rw [List.append_nil]
  exact h.mono fun _ hr => ⟨hr.1, fun _ => hr.2⟩

/-- `npr_strbuf_puts` appends what is in front of the NUL. -/
theorem puts_ok {sys : Sys} {text str : List Byte} (h : Inv sys text)
    (hfits : sys.sb.Fits (str.takeWhile (· ≠ 0)).length) :
    Yields (Objects.OutOfMemory answers) (strbufPuts answers sys str)
      fun s' => Inv s' (text ++ str.takeWhile (· ≠ 0)) := by
  have hlt : strlen str < 2 ^ 31 := by
    have hlt := h.buflen
    unfold Strbuf.Fits at hfits
    unfold strlen
    omega
  have hlen : (BitVec.ofNat 64 (strlen str)).toNat = strlen str := by
    rw [BitVec.toNat_ofNat]
    exact Nat.mod_eq_of_lt (by omega)
  have htake : str.take (strlen str) = str.takeWhile (· ≠ 0) :=
    (List.prefix_iff_eq_take.mp (List.takeWhile_prefix _)).symm
  unfold strbufPuts
  simp only [hlen, htake]
  refine append_ok h ?_ hfits
  rw [BitVec.toNat_setWidth, hlen]
  exact Nat.mod_eq_of_lt (by omega)

/-- `npr_strbuf_putsn` appends the bytes it is given. -/
theorem putsn_ok {sys : Sys} {text str : List Byte} {len : Word}
    (h : Inv sys text) (hfits : sys.sb.Fits len.toNat)
    (hlen : len.toNat < 2 ^ 31) (hle : len.toNat ≤ str.length) :
    Yields (Objects.OutOfMemory answers) (strbufPutsn answers sys str len)
      fun s' => Inv s' (text ++ str.take len.toNat) := by
  have htake : (str.take len.toNat).length = len.toNat := by
    rw [List.length_take]
    exact Nat.min_eq_left hle
  unfold strbufPutsn
  simp only [toNat_size hlen, if_neg (Nat.not_lt.mpr hle)]
  exact append_ok h htake.symm (by rw [htake]; exact hfits)

/-- A `printf` whose failure, if it meets one, does no harm. -/
theorem printf_ok {first second : Formatted} (h : Inv s.sys s.text)
    (hv : (StrCall.printf first second).Valid s.sys.sb)
    (hs : (StrCall.printf first second).Survives s.sys.sb) :
    Yields (Objects.OutOfMemory answers)
      (strbufVprintf answers s.sys first second) fun s' =>
      Inv s' (s.text ++ if (StrCall.printf first second).fails s.sys.sb
        then [] else (StrCall.printf first second).text) := by
  obtain ⟨hfits, hlegal, _, hagrees⟩ := hv
  cases first with
  | failure ret junk => exact (hs rfl).elim
  | text t =>
      by_cases hfit : t.length < s.sys.sb.buflen.toNat - s.text.length
      · -- it fits, whatever the second call would come to
        have hslt := (slt_text h hlegal).mpr hfit
        have hno :
            (StrCall.printf (.text t) second).fails s.sys.sb = false := by
          cases second with
          | text t' => rfl
          | failure ret junk =>
              rw [StrCall.fails_second, hslt]
              rfl
        obtain ⟨s', hs', hinv⟩ := vprintf_fits answers second h hlegal hfit
        rw [hs', hno]
        exact hinv
      · refine (vprintf_retry answers second h hlegal hfit hfits).mono
          fun s' hs' => ?_
        obtain ⟨s₁, h₁, rfl, hhas⟩ := hs'
        have hret := Formatted.ret_text (t := t) (by
          have hlegal : t.length < 2 ^ 31 := hlegal
          omega)
        cases second with
        | text t' =>
            have ht : t' = t := hagrees
            subst ht
            exact h₁.advance (hhas rfl) hret
        | failure ret junk =>
            have hfails : (StrCall.printf (.text t) (.failure ret junk)).fails
                s.sys.sb = true := by
              rw [StrCall.fails_second,
                Bool.eq_false_iff.mpr (mt (slt_text h hlegal).mp hfit)]
              rfl
            have ht : t = [] := hs hfails
            subst ht
            rw [hfails, if_pos rfl]
            refine h₁.advance ?_ hret
            rw [List.append_nil]
            exact h₁.has

/-- Every call keeps the buffer in order, unless a failure does harm. -/
theorem exec_ok (answers : Answers) (h : Inv s.sys s.text)
    (hv : c.Valid s.sys.sb) (hs : c.Survives s.sys.sb) :
    Yields (Objects.OutOfMemory answers) (c.exec answers s) fun s' =>
      Inv s'.sys s'.text ∧ Returned c s'
        ∧ s'.text = s.text ++ if c.fails s.sys.sb then [] else c.text := by
  have hcall : Yields (Objects.OutOfMemory answers) (c.call answers s.sys)
      (Leaves c (s.text ++ if c.fails s.sys.sb then [] else c.text)) := by
    obtain ⟨hfits, hrest⟩ := id hv
    cases c with
    | putc ch =>
        exact leaves_append rfl
          (append_ok (t := [ch.setWidth 8]) h rfl hfits)
    | puts str => exact leaves_append rfl (puts_ok h hfits)
    | putsn str len =>
        exact leaves_append rfl (putsn_ok h hfits hrest.1 hrest.2)
    | printf first second => exact leaves_append rfl (printf_ok h hv hs)
    | cStr => exact leaves_string (cStr_ok h hfits)
    | strdup => exact leaves_string (strdup_ok h)
  exact hcall.bind fun r hr => ⟨hr.1, hr.2, rfl⟩

/-- Room for no more bytes than there are. -/
theorem fits_zero {sys : Sys} {text : List Byte} (h : Inv sys text) :
    sys.sb.Fits 0 := by
  have hle := h.le
  rw [← h.cur] at hle
  exact .inl hle

/-- Where a capacity overflows, `buflen` is negative. -/
theorem call_overflow {r : Sys × Option Ptr} (h : Inv s.sys s.text)
    (hw : c.WellFormed) (hfits : ¬ s.sys.sb.Fits c.need)
    (hcall : c.call answers s.sys = .ok r) :
    2 ^ 31 ≤ r.1.sb.buflen.toNat := by
  cases c with
  | putc ch =>
      obtain ⟨s₂, hputc, hok⟩ := bind_eq_ok hcall
      cases hok
      obtain ⟨s₁, hreserve, hrest⟩ := bind_eq_ok hputc
      obtain ⟨s₃, hstore, hok⟩ := bind_eq_ok hrest
      cases hok
      have hbig := store_overflow h hreserve hstore (by decide) hfits
      exact hbig
  | puts str =>
      obtain ⟨s', hputs, hok⟩ := bind_eq_ok hcall
      cases hok
      by_cases hlen : 2 ^ 31 ≤ strlen str
      · exact puts_overflow h hputs hlen hw
      · have hword : ((BitVec.ofNat 64 (strlen str)).setWidth 32).toNat
            = strlen str := by
          rw [BitVec.toNat_setWidth, BitVec.toNat_ofNat,
            Nat.mod_eq_of_lt (by omega : strlen str < 2 ^ 64)]
          exact Nat.mod_eq_of_lt (by omega)
        obtain ⟨s₁, hreserve, hrest⟩ := bind_eq_ok hputs
        obtain ⟨s₂, hstore, hok⟩ := bind_eq_ok hrest
        cases hok
        have hbig := store_overflow h hreserve hstore
          (by rw [hword]; omega) (by rw [hword]; exact hfits)
        exact hbig
  | putsn str len =>
      obtain ⟨s', hputsn, hok⟩ := bind_eq_ok hcall
      cases hok
      obtain ⟨s₁, hreserve, hrest⟩ := bind_eq_ok hputsn
      split at hrest
      · cases hrest
      · obtain ⟨s₂, hstore, hok⟩ := bind_eq_ok hrest
        cases hok
        have hbig := store_overflow h hreserve hstore (Nat.le_of_lt hw.1)
          hfits
        exact hbig
  | printf first second =>
      cases first with
      | failure ret junk => exact absurd (fits_zero h) hfits
      | text t =>
          obtain ⟨s', hprintf, hok⟩ := bind_eq_ok hcall
          cases hok
          exact vprintf_overflow second h hw.1 hfits hprintf
  | cStr =>
      obtain ⟨s₁, hreserve, hrest⟩ := bind_eq_ok hcall
      obtain ⟨s₂, hstore, hok⟩ := bind_eq_ok hrest
      cases hok
      have hbig := store_overflow h hreserve hstore (by decide) hfits
      exact hbig
  | strdup => exact absurd (fits_zero h) hfits

/-- A capacity that overflows leaves no buffer in order. -/
theorem exec_overflow (h : Inv s.sys s.text) (hw : c.WellFormed)
    (hfits : ¬ s.sys.sb.Fits c.need) :
    ∀ s', c.exec answers s = .ok s' → ¬ Sound s' := by
  intro s' hexec hsound
  obtain ⟨r, hcall, hok⟩ := bind_eq_ok hexec
  cases hok
  have hbig := call_overflow h hw hfits hcall
  have hneg := toInt_of_le hbig
  have hlt := r.1.sb.buflen.isLt
  have hnonneg : 0 ≤ r.1.sb.cur.toInt := hsound.nonneg
  have hle : r.1.sb.cur.toInt ≤ r.1.sb.buflen.toInt := hsound.le
  omega

/-- In a buffer in order, `cur` has not moved if the text is the same. -/
theorem Sound.not_moved {sys : Sys} {text : List Byte} {x : Word}
    {s' : StrState} (hs : Sound s') (h : Inv sys text)
    (hcur : s'.sys.sb.cur = sys.sb.cur + x) (htext : s'.text = text) :
    x = 0 := by
  have hsame : s'.sys.sb.cur.toInt = sys.sb.cur.toInt := by
    rw [hs.cur, htext, h.cur_toInt]
  have heq := BitVec.eq_of_toInt_eq hsame
  rw [hcur] at heq
  simpa using heq

/-- A failure that does harm. -/
theorem exec_harm (h : Inv s.sys s.text) (hv : c.Valid s.sys.sb)
    (hs : ¬ c.Survives s.sys.sb) :
    ∀ s', c.exec answers s = .ok s' → ¬ Sound s' := by
  intro s' hexec hsound
  obtain ⟨hfails, hnot⟩ : c.fails s.sys.sb = true ∧ ¬ c.IsEmptyText := by
    by_contra hno
    exact hs fun hf => by_contra fun he => hno ⟨hf, he⟩
  unfold StrCall.exec at hexec
  rw [hfails, if_pos rfl, List.append_nil] at hexec
  obtain ⟨⟨sys, ret⟩, hcall, hok⟩ := bind_eq_ok hexec
  cases hok
  cases c with
  | printf first second =>
      obtain ⟨hfits, hlegal, _, _⟩ := hv
      obtain ⟨sys', hprintf, hok⟩ := bind_eq_ok hcall
      cases hok
      cases first with
      | failure ret junk =>
          obtain ⟨s₁, h₁, heq⟩ := vprintf_failure answers junk second h hlegal
          rw [heq] at hprintf
          cases hprintf
          have hzero := hsound.not_moved h₁ rfl rfl
          rw [hzero] at hlegal
          have hneg : 2 ^ 31 ≤ (0 : Word).toNat := hlegal
          exact absurd hneg (by decide)
      | text t =>
          have hfit : ¬ t.length < s.sys.sb.buflen.toNat - s.text.length := by
            intro hfit
            have hslt := (slt_text h hlegal).mpr hfit
            cases second with
            | text t' => cases hfails
            | failure ret junk =>
                rw [StrCall.fails_second, hslt] at hfails
                cases hfails
          have hretry := vprintf_retry answers second h hlegal
            hfit hfits
          obtain ⟨s₁, h₁, rfl, _⟩ := hretry.of_ok hprintf
          have hzero := hsound.not_moved h₁ rfl rfl
          have hlegal : t.length < 2 ^ 31 := hlegal
          have hret := Formatted.ret_text (t := t) (by omega)
          rw [hzero] at hret
          exact hnot (List.eq_nil_of_length_eq_zero hret.symm)
  | _ => cases hfails

-- ==================================================================== runs

/-- A buffer that has just been set up. -/
theorem inv_init : Inv strInit.sys strInit.text :=
  ⟨by decide, rfl, rfl, rfl⟩

/-- Without failures: in any run the buffer is in order after every call,
a call for a string returns one of the text so far, and the buffer holds
what was appended. -/
theorem strbuf_contents (answers : Answers) {cs : List StrCall}
    (hcs : Along (StrCall.exec answers)
      (fun s c => c.Valid s.sys.sb ∧ c.Succeeds) strInit cs) :
    Along (StrCall.exec answers) (fun s c => ∀ s',
        c.exec answers s = .ok s' → Sound s' ∧ Returned c s') strInit cs
      ∧ Yields (Objects.OutOfMemory answers) (strRun answers cs) fun s =>
        Sound s ∧ s.text = (cs.map StrCall.text).flatten := by
  have hrun : ∀ (cs : List StrCall) (s : StrState), Inv s.sys s.text →
      Along (StrCall.exec answers)
        (fun s c => c.Valid s.sys.sb ∧ c.Succeeds) s cs →
      Yields (Objects.OutOfMemory answers)
        (cs.foldlM (StrCall.exec answers) s) fun s' =>
        Sound s' ∧ s'.text = s.text ++ (cs.map StrCall.text).flatten := by
    intro cs
    induction cs with
    | nil => exact fun s hs _ => ⟨hs.sound, (List.append_nil _).symm⟩
    | cons c cs ih =>
        intro s hs h
        have hexec := exec_ok answers hs h.1.1
          (h.1.2.survives s.sys.sb)
        rw [h.1.2.not_fails] at hexec
        rw [List.foldlM_cons]
        cases hc : c.exec answers s with
        | error e => exact hexec.of_error hc
        | ok s₁ =>
            obtain ⟨hinv, -, htext⟩ := hexec.of_ok hc
            refine (ih s₁ hinv (h.rest hc)).mono fun s' hs' => ?_
            refine ⟨hs'.1, ?_⟩
            rw [hs'.2, htext, List.append_assoc]
            rfl
  refine ⟨?_, hrun cs strInit inv_init hcs⟩
  refine Along.holds (I := fun s => Inv s.sys s.text) ?_ cs inv_init hcs
  rintro s c hs ⟨hv, hsucceeds⟩
  have hexec := exec_ok answers hs hv (hsucceeds.survives s.sys.sb)
  refine ⟨fun s' hs' => ?_, fun s' hs' => (hexec.of_ok hs').1⟩
  obtain ⟨hinv, hret, -⟩ := hexec.of_ok hs'
  exact ⟨hinv.sound, hret⟩

/-- With failures: in a run that the allocator answers, the buffer is in
order after every call, and every call for a string returns it, exactly if
no capacity overflows and every failure of `vsnprintf` is one of a second
call for an empty text. -/
theorem strbuf_survives_iff (answers : Answers) {cs : List StrCall}
    (hcs : ∀ c ∈ cs, c.WellFormed)
    (hmem : strRun answers cs ≠ .error .outOfMemory) :
    Along (StrCall.exec answers) (fun s c => ∃ s',
        c.exec answers s = .ok s' ∧ Sound s' ∧ Returned c s') strInit cs
      ↔ Along (StrCall.exec answers)
        (fun s c => s.sys.sb.Fits c.need ∧ c.Survives s.sys.sb)
        strInit cs := by
  have hwell : Along (StrCall.exec answers) (fun _ c => c.WellFormed)
      strInit cs := along_of_forall hcs
  refine along_congr (I := fun s => Inv s.sys s.text) ?_ ?_ cs strInit
    inv_init (hwell.and cs (along_ne_error cs hmem))
  · rintro s c hs ⟨hw, hanswer⟩
    constructor
    · rintro ⟨s', hexec, hsound, -⟩
      have hfits : s.sys.sb.Fits c.need := by
        by_contra hfits
        exact exec_overflow hs hw hfits s' hexec hsound
      refine ⟨hfits, ?_⟩
      by_contra hharm
      exact exec_harm hs ⟨hfits, hw⟩ hharm s' hexec hsound
    · rintro ⟨hfits, hsurvives⟩
      have hexec := exec_ok answers hs ⟨hfits, hw⟩ hsurvives
      cases hc : c.exec answers s with
      | error e =>
          obtain ⟨rfl, _⟩ := hexec.of_error hc
          exact absurd hc hanswer
      | ok s' =>
          obtain ⟨hinv, hret, -⟩ := hexec.of_ok hc
          exact ⟨s', rfl, hinv.sound, hret⟩
  · rintro s c s' hs ⟨hw, _⟩ ⟨hfits, hsurvives⟩ hc
    exact ((exec_ok answers hs ⟨hfits, hw⟩ hsurvives).of_ok hc).1

-- ============================================================== small runs

/-- A run with both ways through `printf`: the first text is retried, the
second one fits, the third one leaves no room for its NUL. -/
theorem strbuf_contents_texts :
    Along (StrCall.exec fun _ _ => true) (fun s c => ∀ s',
        c.exec (fun _ _ => true) s = .ok s' → Sound s' ∧ Returned c s')
        strInit [.printf (.text [97, 98]) (.text [97, 98]),
          .printf (.text [99]) (.text [99]), .cStr,
          .printf (.text [100, 101, 102]) (.text [100, 101, 102]),
          .puts [103, 0, 104], .putsn [105, 0, 106] 2, .strdup, .putc 107]
      ∧ Yields (Objects.OutOfMemory fun _ _ => true)
        (strRun (fun _ _ => true)
          [.printf (.text [97, 98]) (.text [97, 98]),
          .printf (.text [99]) (.text [99]), .cStr,
          .printf (.text [100, 101, 102]) (.text [100, 101, 102]),
          .puts [103, 0, 104], .putsn [105, 0, 106] 2, .strdup, .putc 107])
        fun s => Sound s
          ∧ s.text = ([.printf (.text [97, 98]) (.text [97, 98]),
          .printf (.text [99]) (.text [99]), .cStr,
          .printf (.text [100, 101, 102]) (.text [100, 101, 102]),
          .puts [103, 0, 104], .putsn [105, 0, 106] 2, .strdup,
          .putc 107].map StrCall.text).flatten :=
  strbuf_contents (fun _ _ => true) (by decide)

/-- A run with a failure that does no harm: of the second call, for an
empty text. -/
theorem strbuf_survives_empty :
    Along (StrCall.exec fun _ _ => true) (fun s c => ∃ s',
        c.exec (fun _ _ => true) s = .ok s' ∧ Sound s' ∧ Returned c s')
        strInit
        [.printf (.text []) (.failure 0xffffffff []), .putc 97, .cStr] :=
  (strbuf_survives_iff (fun _ _ => true) (by decide) (by
    intro h
    cases h)).mpr (by decide)

/-- A failure of the first call, in an empty buffer: `cur` is -1. -/
theorem not_survives_failure :
    Along (StrCall.exec fun _ _ => true) (fun s c => c.Valid s.sys.sb)
        strInit [.printf (.failure 0xffffffff []) (.failure 0xffffffff [])]
      ∧ ¬ Along (StrCall.exec fun _ _ => true) (fun s c => ∃ s',
        c.exec (fun _ _ => true) s = .ok s' ∧ Sound s' ∧ Returned c s')
        strInit
        [.printf (.failure 0xffffffff []) (.failure 0xffffffff [])] := by
  refine ⟨by decide, ?_⟩
  rintro ⟨⟨s', hexec, hsound, -⟩, _⟩
  cases hexec
  exact absurd hsound.nonneg (by decide)

end UdeBench.Npr.StringBuffer
