/-
Doubly linked lists kept in the objects they link: the two pointers of
an object lie `off` bytes behind its address, `next` before `prev`. The
lists here have a first and a last object that never leave them.

# What is known of a list

`Linked off m l` says that `l`, ends included, is a list in the memory
`m`: the links lie apart, inside the address space, and each object and
its successor point to each other. It is a statement about the links
only. An operation keeps it (`remove_linked`, `pushBack_linked`,
`pushFront_linked`), and changes nothing apart from the links it names
(`remove_agree` and its like).
-/
import Mathlib.Data.List.Chain
import UdeBench.Lib.ByteMem

namespace UdeBench.DList

open Spans ByteMem

variable (off : Addr)

-- ================================================================ links

/-- `a->next`. -/
def next (m : ByteMem) (a : Addr) : Addr := m.load64 (a + off)

/-- `a->prev`. -/
def prev (m : ByteMem) (a : Addr) : Addr := m.load64 (a + off + 8)

/-- `a->next = v`. -/
def setNext (m : ByteMem) (a v : Addr) : ByteMem := m.store64 (a + off) v

/-- `a->prev = v`. -/
def setPrev (m : ByteMem) (a v : Addr) : ByteMem := m.store64 (a + off + 8) v

/-- The links of an object. -/
def span (a : Addr) : Span := (a.toNat + off.toNat, 16)

/-- The links end inside the address space. -/
def InSpace (a : Addr) : Prop := a.toNat + off.toNat + 16 < 2 ^ 64

variable {off} {m m' : ByteMem} {a b x : Addr}

theorem toNat_next (h : InSpace off a) :
    (a + off).toNat = a.toNat + off.toNat := by
  unfold InSpace at h
  rw [BitVec.toNat_add]
  exact Nat.mod_eq_of_lt (by omega)

theorem toNat_prev (h : InSpace off a) :
    (a + off + 8).toNat = a.toNat + off.toNat + 8 := by
  have hnext := toNat_next h
  unfold InSpace at h
  have h8 : (8 : Addr).toNat = 8 := rfl
  rw [BitVec.toNat_add, hnext, h8]
  exact Nat.mod_eq_of_lt (by omega)

/-- A store to a link agrees apart from the object's links. -/
theorem setNext_agree {s : Span} (ha : InSpace off a)
    (h : Apart s (span off a)) (v : Addr) :
    Agree s m (setNext off m a v) := by
  apply agree_store64
  unfold span64
  rw [toNat_next ha]
  unfold Apart span at *
  simp only at *
  omega

theorem setPrev_agree {s : Span} (ha : InSpace off a)
    (h : Apart s (span off a)) (v : Addr) :
    Agree s m (setPrev off m a v) := by
  apply agree_store64
  unfold span64
  rw [toNat_prev ha]
  unfold Apart span at *
  simp only at *
  omega

/-- Links that agree point alike. -/
theorem next_agree (ha : InSpace off a) (h : Agree (span off a) m m') :
    next off m' a = next off m a := by
  apply Agree.load64
  refine h.mono ?_ ?_
  · unfold span span64
    rw [toNat_next ha]
  · unfold span span64
    rw [toNat_next ha]
    simp only
    omega

theorem prev_agree (ha : InSpace off a) (h : Agree (span off a) m m') :
    prev off m' a = prev off m a := by
  apply Agree.load64
  refine h.mono ?_ ?_
  · unfold span span64
    rw [toNat_prev ha]
    simp only
    omega
  · unfold span span64
    rw [toNat_prev ha]
    exact Nat.le_refl _

@[simp] theorem next_setNext (m : ByteMem) (a v : Addr) :
    next off (setNext off m a v) a = v := load64_store64 _ _ _

@[simp] theorem prev_setPrev (m : ByteMem) (a v : Addr) :
    prev off (setPrev off m a v) a = v := load64_store64 _ _ _

/-- The two links of an object lie apart. -/
theorem next_setPrev (ha : InSpace off a) (v : Addr) :
    next off (setPrev off m a v) a = next off m a := by
  apply Agree.load64
  apply agree_store64
  left
  unfold span64
  rw [toNat_next ha, toNat_prev ha]

theorem prev_setNext (ha : InSpace off a) (v : Addr) :
    prev off (setNext off m a v) a = prev off m a := by
  apply Agree.load64
  apply agree_store64
  right
  unfold span64
  rw [toNat_next ha, toNat_prev ha]

-- ================================================================ lists

variable (off) in
/-- An object and its successor. -/
def Link (m : ByteMem) (a b : Addr) : Prop :=
  next off m a = b ∧ prev off m b = a

variable (off) in
/-- A list, ends included, in a memory. -/
structure Linked (m : ByteMem) (l : List Addr) : Prop where
  spread : l.Pairwise fun a b => Apart (span off a) (span off b)
  space : ∀ a ∈ l, InSpace off a
  links : l.IsChain (Link off m)

/-- A list survives where its links do. -/
theorem chain_congr {l : List Addr} (hl : l.IsChain (Link off m))
    (hnext : ∀ a ∈ l.dropLast, next off m' a = next off m a)
    (hprev : ∀ a ∈ l.tail, prev off m' a = prev off m a) :
    l.IsChain (Link off m') := by
  induction l with
  | nil => exact List.isChain_nil
  | cons a l ih =>
      cases l with
      | nil => exact List.isChain_singleton a
      | cons b l =>
          obtain ⟨⟨hab, hba⟩, hrest⟩ := List.isChain_cons_cons.mp hl
          refine List.isChain_cons_cons.mpr ⟨⟨?_, ?_⟩, ih hrest ?_ ?_⟩
          · rw [hnext a List.mem_cons_self, hab]
          · rw [hprev b List.mem_cons_self, hba]
          · intro c hc
            exact hnext c (List.mem_cons_of_mem _ hc)
          · intro c hc
            exact hprev c (List.mem_cons_of_mem _ hc)

theorem Linked.congr {l : List Addr} (hl : Linked off m l)
    (h : ∀ a ∈ l, Agree (span off a) m m') : Linked off m' l := by
  refine ⟨hl.spread, hl.space, chain_congr hl.links ?_ ?_⟩
  · intro a ha
    have hmem := List.mem_of_mem_dropLast ha
    exact next_agree (hl.space a hmem) (h a hmem)
  · intro a ha
    have hmem := List.mem_of_mem_tail ha
    exact prev_agree (hl.space a hmem) (h a hmem)

/-- The links of different objects of a list. -/
theorem Linked.apart {l₁ l₂ : List Addr} (hl : Linked off m (l₁ ++ a :: l₂))
    (hb : b ∈ l₁ ++ l₂) : Apart (span off a) (span off b) := by
  have hspread := List.pairwise_append.mp hl.spread
  rcases List.mem_append.mp hb with hb | hb
  · exact (hspread.2.2 b hb a List.mem_cons_self).symm
  · exact (List.pairwise_cons.mp hspread.2.1).1 b hb

/-- An object is not its own neighbour. -/
theorem not_apart_self (a : Addr) : ¬ Apart (span off a) (span off a) := by
  unfold Apart span
  simp only
  omega

/-- Two neighbours lie apart from each other and from the others. -/
theorem spread_pair {l₁ l₂ : List Addr}
    (h : (l₁ ++ a :: b :: l₂).Pairwise fun a b =>
      Apart (span off a) (span off b)) :
    Apart (span off a) (span off b) ∧ ∀ c ∈ l₁ ++ l₂,
      Apart (span off c) (span off a) ∧ Apart (span off c) (span off b) := by
  obtain ⟨_, hpair, hcross⟩ := List.pairwise_append.mp h
  obtain ⟨ha, hpair⟩ := List.pairwise_cons.mp hpair
  obtain ⟨hb, _⟩ := List.pairwise_cons.mp hpair
  refine ⟨ha b List.mem_cons_self, fun c hc => ?_⟩
  rcases List.mem_append.mp hc with hc | hc
  · exact ⟨hcross c hc a List.mem_cons_self, hcross c hc b
      (List.mem_cons_of_mem _ List.mem_cons_self)⟩
  · exact ⟨(ha c (List.mem_cons_of_mem _ hc)).symm, (hb c hc).symm⟩

theorem mem_pair {l₁ l₂ : List Addr} {c : Addr} (hc : c ∈ l₁ ++ l₂) :
    c ∈ l₁ ++ a :: b :: l₂ := by
  rcases List.mem_append.mp hc with hc | hc
  · exact List.mem_append_left _ hc
  · exact List.mem_append_right _ (List.mem_cons_of_mem _
      (List.mem_cons_of_mem _ hc))

/-- Both ends of a list survive where only the links between them
change. -/
theorem ends_congr {l₁ l₂ : List Addr} (hfront : (l₁ ++ [a]).IsChain (Link off m))
    (hback : (b :: l₂).IsChain (Link off m))
    (hspace : ∀ c ∈ l₁ ++ l₂, InSpace off c)
    (h : ∀ c ∈ l₁ ++ l₂, Agree (span off c) m m')
    (hprev : prev off m' a = prev off m a)
    (hnext : next off m' b = next off m b) :
    (l₁ ++ [a]).IsChain (Link off m') ∧ (b :: l₂).IsChain (Link off m') := by
  constructor
  · refine chain_congr hfront ?_ ?_
    · intro c hc
      rw [List.dropLast_concat] at hc
      have hmem : c ∈ l₁ ++ l₂ := List.mem_append_left _ hc
      exact next_agree (hspace c hmem) (h c hmem)
    · intro c hc
      rcases List.mem_append.mp (List.mem_of_mem_tail hc) with hc | hc
      · have hmem : c ∈ l₁ ++ l₂ := List.mem_append_left _ hc
        exact prev_agree (hspace c hmem) (h c hmem)
      · rw [List.mem_singleton.mp hc]
        exact hprev
  · refine chain_congr hback ?_ ?_
    · intro c hc
      rcases List.mem_cons.mp (List.mem_of_mem_dropLast hc) with rfl | hc
      · exact hnext
      · have hmem : c ∈ l₁ ++ l₂ := List.mem_append_right _ hc
        exact next_agree (hspace c hmem) (h c hmem)
    · intro c hc
      have hmem : c ∈ l₁ ++ l₂ := List.mem_append_right _ hc
      exact prev_agree (hspace c hmem) (h c hmem)

-- =============================================================== remove

variable (off) in
/-- An object taken out:
`a->prev->next = a->next; a->next->prev = a->prev`. -/
def remove (m : ByteMem) (a : Addr) : ByteMem :=
  let m := setNext off m (prev off m a) (next off m a)
  setPrev off m (next off m a) (prev off m a)

section
variable {l₁ l₂ : List Addr}

/-- The neighbours of an object. -/
theorem Linked.neighbours (hl : Linked off m (l₁ ++ a :: x :: b :: l₂)) :
    prev off m x = a ∧ next off m x = b := by
  have hlinks := (List.isChain_append_cons_cons.mp hl.links).2
  have hlinks' := List.isChain_cons_cons.mp hlinks.2
  exact ⟨hlinks.1.2, hlinks'.1.1⟩

/-- What the removal does. -/
theorem remove_eq (hl : Linked off m (l₁ ++ a :: x :: b :: l₂)) :
    remove off m x = setPrev off (setNext off m a b) b a := by
  obtain ⟨hprev, hnext⟩ := hl.neighbours
  have hx : InSpace off x := hl.space x (by simp)
  have ha : InSpace off a := hl.space a (by simp)
  have hagree : Agree (span off x) m (setNext off m a b) := by
    apply setNext_agree ha
    have hl' : Linked off m ((l₁ ++ [a]) ++ x :: b :: l₂) := by
      rw [List.append_assoc]
      exact hl
    exact hl'.apart (by simp)
  unfold remove
  rw [hprev, hnext]
  show setPrev off (setNext off m a b) (next off (setNext off m a b) x)
    (prev off (setNext off m a b) x) = _
  rw [next_agree hx hagree, prev_agree hx hagree, hprev, hnext]

/-- The removal changes links of the two neighbours only. -/
theorem remove_agree {s : Span}
    (hl : Linked off m (l₁ ++ a :: x :: b :: l₂))
    (ha : Apart s (span off a)) (hb : Apart s (span off b)) :
    Agree s m (remove off m x) := by
  rw [remove_eq hl]
  exact (setNext_agree (hl.space a (by simp)) ha b).trans
    (setPrev_agree (hl.space b (by simp)) hb a)

/-- The rest of the list is a list. -/
theorem remove_linked (hl : Linked off m (l₁ ++ a :: x :: b :: l₂)) :
    Linked off (remove off m x) (l₁ ++ a :: b :: l₂) := by
  have hsub : (l₁ ++ a :: b :: l₂).Sublist (l₁ ++ a :: x :: b :: l₂) :=
    (List.Sublist.refl l₁).append ((List.sublist_cons_self x _).cons_cons a)
  have hspread := hl.spread.sublist hsub
  have hspace : ∀ c ∈ l₁ ++ a :: b :: l₂, InSpace off c := fun c hc =>
    hl.space c (hsub.subset hc)
  refine ⟨hspread, hspace, ?_⟩
  obtain ⟨hfront, _, hback⟩ := List.isChain_append_cons_cons.mp hl.links
  obtain ⟨_, hback⟩ := List.isChain_cons_cons.mp hback
  have ha := hspace a (by simp)
  have hb := hspace b (by simp)
  obtain ⟨hab, houter⟩ := spread_pair hspread
  have hkeep : ∀ c ∈ l₁ ++ l₂, Agree (span off c) m
      (setPrev off (setNext off m a b) b a) := fun c hc =>
    (setNext_agree ha (houter c hc).1 b).trans
      (setPrev_agree hb (houter c hc).2 a)
  rw [remove_eq hl]
  obtain ⟨hfront', hback'⟩ := ends_congr hfront hback
    (fun c hc => hspace c (mem_pair hc)) hkeep
    (by rw [prev_agree ha (setPrev_agree hb hab a), prev_setNext ha])
    (by rw [next_setPrev hb, next_agree hb (setNext_agree ha hab.symm b)])
  refine List.isChain_append_cons_cons.mpr ⟨hfront', ⟨?_, ?_⟩, hback'⟩
  · rw [next_agree ha (setPrev_agree hb hab a), next_setNext]
  · exact prev_setPrev _ _ _

/-- The removal as its users see it. -/
theorem Linked.remove (hl : Linked off m (l₁ ++ x :: l₂)) (h₁ : l₁ ≠ [])
    (h₂ : l₂ ≠ []) :
    Linked off (remove off m x) (l₁ ++ l₂)
      ∧ ∀ s, (∀ c ∈ l₁ ++ l₂, Apart s (span off c)) →
        Agree s m (DList.remove off m x) := by
  obtain ⟨l₁, a, rfl⟩ := (l₁.eq_nil_or_concat').resolve_left h₁
  obtain ⟨b, l₂, rfl⟩ := List.exists_cons_of_ne_nil h₂
  rw [List.append_assoc] at hl ⊢
  refine ⟨remove_linked hl, fun s hs => ?_⟩
  exact remove_agree hl (hs a (by simp)) (hs b (by simp))

end

-- =============================================================== insert

variable (off) in
/-- An object put before the last one:
`tail->prev->next = a; a->prev = tail->prev; a->next = tail;
tail->prev = a`. -/
def pushBack (m : ByteMem) (tail a : Addr) : ByteMem :=
  let m := setNext off m (prev off m tail) a
  let m := setPrev off m a (prev off m tail)
  let m := setNext off m a tail
  setPrev off m tail a

variable (off) in
/-- An object put behind the first one:
`a->next = head->next; head->next->prev = a; a->prev = head;
head->next = a`. -/
def pushFront (m : ByteMem) (head a : Addr) : ByteMem :=
  let m := setNext off m a (next off m head)
  let m := setPrev off m (next off m head) a
  let m := setPrev off m a head
  setNext off m head a

section
variable {l₁ l₂ : List Addr}

/-- Two neighbours with an object between them. -/
theorem linked_insert (hl : Linked off m (l₁ ++ a :: b :: l₂))
    (hx : InSpace off x)
    (hapart : ∀ c ∈ l₁ ++ a :: b :: l₂, Apart (span off x) (span off c))
    (h : ∀ c ∈ l₁ ++ l₂, Agree (span off c) m m')
    (hprev : prev off m' a = prev off m a)
    (hnext : next off m' b = next off m b)
    (hax : Link off m' a x) (hxb : Link off m' x b) :
    Linked off m' (l₁ ++ a :: x :: b :: l₂) := by
  obtain ⟨hfront, _, hback⟩ := List.isChain_append_cons_cons.mp hl.links
  obtain ⟨hfront', hback'⟩ := ends_congr hfront hback
    (fun c hc => hl.space c (mem_pair hc)) h hprev hnext
  obtain ⟨hs₁, hs₂, hcross⟩ := List.pairwise_append.mp hl.spread
  obtain ⟨hafter, hs₂⟩ := List.pairwise_cons.mp hs₂
  refine ⟨?_, ?_, ?_⟩
  · refine List.pairwise_append.mpr ⟨hs₁, ?_, ?_⟩
    · refine List.pairwise_cons.mpr ⟨?_, List.pairwise_cons.mpr ⟨?_, hs₂⟩⟩
      · intro c hc
        rcases List.mem_cons.mp hc with rfl | hc
        · exact (hapart a (by simp)).symm
        · exact hafter c hc
      · intro c hc
        exact hapart c (List.mem_append_right _ (List.mem_cons_of_mem _ hc))
    · intro c hc d hd
      rcases List.mem_cons.mp hd with rfl | hd
      · exact hcross c hc d List.mem_cons_self
      · rcases List.mem_cons.mp hd with rfl | hd
        · exact (hapart c (List.mem_append_left _ hc)).symm
        · exact hcross c hc d (List.mem_cons_of_mem _ hd)
  · intro c hc
    rcases List.mem_append.mp hc with hc | hc
    · exact hl.space c (List.mem_append_left _ hc)
    · rcases List.mem_cons.mp hc with rfl | hc
      · exact hl.space c (by simp)
      · rcases List.mem_cons.mp hc with rfl | hc
        · exact hx
        · exact hl.space c (List.mem_append_right _
            (List.mem_cons_of_mem _ hc))
  · exact List.isChain_append_cons_cons.mpr ⟨hfront', hax,
      List.isChain_cons_cons.mpr ⟨hxb, hback'⟩⟩

/-- What an insertion at the back does. -/
theorem pushBack_eq (hl : Linked off m (l₁ ++ a :: b :: l₂)) :
    pushBack off m b x = setPrev off (setNext off (setPrev off
      (setNext off m a x) x a) x b) b x := by
  have hb : InSpace off b := hl.space b (by simp)
  have ha : InSpace off a := hl.space a (by simp)
  have hprev : prev off m b = a :=
    (List.isChain_append_cons_cons.mp hl.links).2.1.2
  have hab : Apart (span off a) (span off b) := (spread_pair hl.spread).1
  unfold pushBack
  rw [hprev]
  show setPrev off (setNext off (setPrev off (setNext off m a x) x
    (prev off (setNext off m a x) b)) x b) b x = _
  rw [prev_agree hb (setNext_agree ha hab.symm x), hprev]

/-- What an insertion at the front does. -/
theorem pushFront_eq (hl : Linked off m (l₁ ++ a :: b :: l₂))
    (hx : InSpace off x)
    (hxa : Apart (span off x) (span off a)) :
    pushFront off m a x = setNext off (setPrev off (setPrev off
      (setNext off m x b) b x) x a) a x := by
  have ha : InSpace off a := hl.space a (by simp)
  have hnext : next off m a = b :=
    (List.isChain_append_cons_cons.mp hl.links).2.1.1
  unfold pushFront
  rw [hnext]
  show setNext off (setPrev off (setPrev off (setNext off m x b)
    (next off (setNext off m x b) a) x) x a) a x = _
  rw [next_agree ha (setNext_agree hx hxa.symm b), hnext]

/-- An insertion changes links of the object and of its neighbours
only. -/
theorem pushBack_agree {s : Span} (hl : Linked off m (l₁ ++ a :: b :: l₂))
    (hx : InSpace off x) (hsa : Apart s (span off a))
    (hsb : Apart s (span off b)) (hsx : Apart s (span off x)) :
    Agree s m (pushBack off m b x) := by
  have hb : InSpace off b := hl.space b (by simp)
  have ha : InSpace off a := hl.space a (by simp)
  rw [pushBack_eq hl]
  exact (((setNext_agree ha hsa x).trans (setPrev_agree hx hsx a)).trans
    (setNext_agree hx hsx b)).trans (setPrev_agree hb hsb x)

theorem pushFront_agree {s : Span} (hl : Linked off m (l₁ ++ a :: b :: l₂))
    (hx : InSpace off x)
    (hxa : Apart (span off x) (span off a)) (hsa : Apart s (span off a))
    (hsb : Apart s (span off b)) (hsx : Apart s (span off x)) :
    Agree s m (pushFront off m a x) := by
  have hb : InSpace off b := hl.space b (by simp)
  have ha : InSpace off a := hl.space a (by simp)
  rw [pushFront_eq hl hx hxa]
  exact (((setNext_agree hx hsx b).trans (setPrev_agree hb hsb x)).trans
    (setPrev_agree hx hsx a)).trans (setNext_agree ha hsa x)

/-- The list with the object before its last one. -/
theorem pushBack_linked (hl : Linked off m (l₁ ++ a :: b :: l₂))
    (hx : InSpace off x)
    (hapart : ∀ c ∈ l₁ ++ a :: b :: l₂, Apart (span off x) (span off c)) :
    Linked off (pushBack off m b x) (l₁ ++ a :: x :: b :: l₂) := by
  have hb : InSpace off b := hl.space b (by simp)
  have ha : InSpace off a := hl.space a (by simp)
  have hxa := hapart a (by simp)
  have hxb := hapart b (by simp)
  obtain ⟨hab, houter⟩ := spread_pair hl.spread
  refine linked_insert hl hx hapart ?_ ?_ ?_ ⟨?_, ?_⟩ ⟨?_, ?_⟩
  · intro c hc
    exact pushBack_agree hl hx (houter c hc).1 (houter c hc).2
      (hapart c (mem_pair hc)).symm
  all_goals rw [pushBack_eq hl]
  · rw [prev_agree ha (setPrev_agree hb hab x),
      prev_agree ha (setNext_agree hx hxa.symm b),
      prev_agree ha (setPrev_agree hx hxa.symm a), prev_setNext ha]
  · rw [next_setPrev hb, next_agree hb (setNext_agree hx hxb.symm b),
      next_agree hb (setPrev_agree hx hxb.symm a),
      next_agree hb (setNext_agree ha hab.symm x)]
  · rw [next_agree ha (setPrev_agree hb hab x),
      next_agree ha (setNext_agree hx hxa.symm b),
      next_agree ha (setPrev_agree hx hxa.symm a), next_setNext]
  · rw [prev_agree hx (setPrev_agree hb hxb x), prev_setNext hx,
      prev_setPrev]
  · rw [next_agree hx (setPrev_agree hb hxb x), next_setNext]
  · exact prev_setPrev _ _ _

/-- The list with the object behind its first one. -/
theorem pushFront_linked (hl : Linked off m (l₁ ++ a :: b :: l₂))
    (hx : InSpace off x)
    (hapart : ∀ c ∈ l₁ ++ a :: b :: l₂, Apart (span off x) (span off c)) :
    Linked off (pushFront off m a x) (l₁ ++ a :: x :: b :: l₂) := by
  have hb : InSpace off b := hl.space b (by simp)
  have ha : InSpace off a := hl.space a (by simp)
  have hxa := hapart a (by simp)
  have hxb := hapart b (by simp)
  obtain ⟨hab, houter⟩ := spread_pair hl.spread
  refine linked_insert hl hx hapart ?_ ?_ ?_ ⟨?_, ?_⟩ ⟨?_, ?_⟩
  · intro c hc
    exact pushFront_agree hl hx hxa (houter c hc).1 (houter c hc).2
      (hapart c (mem_pair hc)).symm
  all_goals rw [pushFront_eq hl hx hxa]
  · rw [prev_setNext ha, prev_agree ha (setPrev_agree hx hxa.symm a),
      prev_agree ha (setPrev_agree hb hab x),
      prev_agree ha (setNext_agree hx hxa.symm b)]
  · rw [next_agree hb (setNext_agree ha hab.symm x),
      next_agree hb (setPrev_agree hx hxb.symm a), next_setPrev hb,
      next_agree hb (setNext_agree hx hxb.symm b)]
  · exact next_setNext _ _ _
  · rw [prev_agree hx (setNext_agree ha hxa x), prev_setPrev]
  · rw [next_agree hx (setNext_agree ha hxa x), next_setPrev hx,
      next_agree hx (setPrev_agree hb hxb x), next_setNext]
  · rw [prev_agree hb (setNext_agree ha hab.symm x),
      prev_agree hb (setPrev_agree hx hxb.symm a), prev_setPrev]

/-- The insertions as their users see them. -/
theorem Linked.pushBack (hl : Linked off m (l₁ ++ [b])) (h₁ : l₁ ≠ [])
    (hx : InSpace off x)
    (hapart : ∀ c ∈ l₁ ++ [b], Apart (span off x) (span off c)) :
    Linked off (pushBack off m b x) (l₁ ++ [x, b])
      ∧ ∀ s, (∀ c ∈ l₁ ++ [b], Apart s (span off c)) →
        Apart s (span off x) → Agree s m (DList.pushBack off m b x) := by
  obtain ⟨l₁, a, rfl⟩ := (l₁.eq_nil_or_concat').resolve_left h₁
  rw [List.append_assoc] at hl hapart ⊢
  refine ⟨pushBack_linked hl hx hapart, fun s hs hsx => ?_⟩
  exact pushBack_agree hl hx (hs a (by simp)) (hs b (by simp)) hsx

theorem Linked.pushFront (hl : Linked off m (a :: l₂)) (h₂ : l₂ ≠ [])
    (hx : InSpace off x)
    (hapart : ∀ c ∈ a :: l₂, Apart (span off x) (span off c)) :
    Linked off (pushFront off m a x) (a :: x :: l₂)
      ∧ ∀ s, (∀ c ∈ a :: l₂, Apart s (span off c)) →
        Apart s (span off x) → Agree s m (DList.pushFront off m a x) := by
  obtain ⟨b, l₂, rfl⟩ := List.exists_cons_of_ne_nil h₂
  have hl' : Linked off m ([] ++ a :: b :: l₂) := hl
  refine ⟨pushFront_linked hl' hx hapart, fun s hs hsx => ?_⟩
  exact pushFront_agree hl' hx (hapart a (by simp)) (hs a (by simp))
    (hs b (by simp)) hsx

end

-- ================================================================= walk

variable (off) in
/-- The objects from `a` on, up to the last one. -/
def walk (m : ByteMem) (tail : Addr) : Nat → Addr → List Addr
  | 0, _ => []
  | fuel + 1, a =>
      if a = tail then [] else a :: walk m tail fuel (next off m a)

/-- A walk finds the list. Induction on the list. -/
theorem Linked.walk_eq {t : Addr} :
    ∀ (l : List Addr) {fuel : Nat} {a : Addr},
      Linked off m (a :: (l ++ [t])) → l.length ≤ fuel →
      walk off m t fuel (next off m a) = l := by
  intro l
  induction l with
  | nil =>
      intro fuel a hl _
      have hnext : next off m a = t := (List.isChain_cons_cons.mp hl.links).1.1
      cases fuel with
      | zero => rfl
      | succ fuel =>
          rw [walk, if_pos hnext]
  | cons b l ih =>
      intro fuel a hl hfuel
      obtain ⟨hspread, hspace, hlinks⟩ := hl
      obtain ⟨⟨hnext, _⟩, hlinks⟩ := List.isChain_cons_cons.mp hlinks
      have hspread := (List.pairwise_cons.mp hspread).2
      have hne : b ≠ t := by
        rintro rfl
        exact not_apart_self b ((List.pairwise_cons.mp hspread).1 b (by simp))
      obtain ⟨fuel, rfl⟩ := Nat.exists_eq_succ_of_ne_zero
        (show fuel ≠ 0 by rw [List.length_cons] at hfuel; omega)
      rw [List.length_cons] at hfuel
      rw [hnext, walk, if_neg hne, ih ⟨hspread, fun c hc =>
        hspace c (List.mem_cons_of_mem _ hc), hlinks⟩ (by omega)]

end UdeBench.DList
