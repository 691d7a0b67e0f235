/-
The doubly linked list shows the elements that were pushed and not
removed, in order, although it shares their memory with the allocator.

# The invariant

`Inv` holds the two structures together: the list is linked through its
elements between its two ends, and the allocator is in order with these
elements among its live ones. The others are `extra`: an element is handed
out before it is linked, and unlinked before it is given back. So a push is
`take_yields` and `link_ok`, a removal `unlink_ok` and `giveBack_ok`. What
the list writes is its own (`own`), which the allocator's chains do not go
through (`ChunkAlloc.Inv.program`); what the allocator writes is not
(`Inv.kept`).
-/
import UdeBench.Npr.Dlist
import UdeBench.Npr.Proofs.Partition

namespace UdeBench.Npr.LinkedList

open Spans ByteMem Calls
open Blocks (Fault Sys Accessible)
open ChunkAlloc (Allocator elemSpan)

-- =================================================================== walks

variable {m m' : ByteMem} {place : Blocks.Placement}

/-- A walk comes by the elements in front of its end. Induction on
them. -/
theorem visits_ok {step : Addr → Addr} {stop : Addr} :
    ∀ {l : List Addr} {a : Addr} {fuel : Nat},
      (a :: (l ++ [stop])).IsChain (fun a b => step a = b) → stop ∉ l →
      l.length < fuel →
      visits m step stop fuel (step a) = .ok (l.map fun e => (e, val m e)) := by
  intro l
  induction l with
  | nil =>
      intro a fuel hchain _ hfuel
      obtain ⟨fuel, rfl⟩ := Nat.exists_eq_succ_of_ne_zero
        (Nat.ne_of_gt hfuel)
      rw [visits, if_pos (List.isChain_cons_cons.mp hchain).1]
      rfl
  | cons b l ih =>
      intro a fuel hchain hstop hfuel
      obtain ⟨fuel, rfl⟩ := Nat.exists_eq_succ_of_ne_zero
        (Nat.ne_of_gt (Nat.lt_of_le_of_lt (Nat.zero_le _) hfuel))
      obtain ⟨hb, hrest⟩ := List.isChain_cons_cons.mp hchain
      have hne : b ≠ stop := fun h => hstop (h ▸ List.mem_cons_self)
      have hwalk := ih hrest (fun h => hstop (List.mem_cons_of_mem _ h))
        (Nat.lt_of_succ_lt_succ hfuel)
      rw [hb, visits, if_neg hne, hwalk]
      rfl

-- ================================================================= places

/-- Where the list writes: its own ends and its elements. -/
def own (taken : Span) (elems : List Addr) : List Span :=
  taken :: elems.map (elemSpan sizeofElem)

/-- The elements between the two ends. -/
def nodes (l : Dlist) (elems : List Addr) : List Addr :=
  l.head :: (elems ++ [l.tail])

variable {l : Dlist} {elems : List Addr} {p e : Addr}

theorem toNat_tail (h : l.addr.toNat + sizeofDlist ≤ 2 ^ 64) :
    l.tail.toNat = l.addr.toNat + 24 := by
  have h24 : (24 : Addr).toNat = 24 := rfl
  unfold sizeofDlist at h
  unfold Dlist.tail
  rw [BitVec.toNat_add, h24]
  exact Nat.mod_eq_of_lt (by omega)

theorem mem_nodes :
    p ∈ nodes l elems ↔ p = l.head ∨ p ∈ elems ∨ p = l.tail := by
  unfold nodes
  simp

/-- The links of a node lie in what is the list's own. -/
theorem node_within (h : l.addr.toNat + sizeofDlist ≤ 2 ^ 64)
    (hp : p ∈ nodes l elems) :
    ∃ x ∈ own (l.addr.toNat, sizeofDlist) elems,
      x.1 ≤ p.toNat ∧ p.toNat + 16 ≤ x.1 + x.2 := by
  have htail := toNat_tail h
  rcases mem_nodes.mp hp with rfl | hp | rfl
  · refine ⟨_, List.mem_cons_self, Nat.le_refl _, ?_⟩
    show l.addr.toNat + 16 ≤ l.addr.toNat + 72
    omega
  · refine ⟨_, List.mem_cons_of_mem _ (List.mem_map_of_mem hp),
      Nat.le_refl _, ?_⟩
    show p.toNat + 16 ≤ p.toNat + 24
    omega
  · refine ⟨_, List.mem_cons_self, ?_, ?_⟩
    · show l.addr.toNat ≤ l.tail.toNat
      omega
    · show l.tail.toNat + 16 ≤ l.addr.toNat + 72
      omega

/-- What is apart from the list's own is apart from the links. -/
theorem apart_node (h : l.addr.toNat + sizeofDlist ≤ 2 ^ 64) {t : Span}
    (ht : ∀ x ∈ own (l.addr.toNat, sizeofDlist) elems, Apart t x)
    (hp : p ∈ nodes l elems) : Apart t (DList.span links p) := by
  obtain ⟨x, hx, hlo, hhi⟩ := node_within h hp
  have hapart := ht x hx
  show Apart t (p.toNat, 16)
  unfold Apart at *
  simp only
  omega

/-- Nodes survive where what is the list's own does. -/
theorem nodes_agree (h : l.addr.toNat + sizeofDlist ≤ 2 ^ 64)
    (hm : ∀ x ∈ own (l.addr.toNat, sizeofDlist) elems, Agree x m m') :
    ∀ p ∈ nodes l elems, Agree (DList.span links p) m m' := by
  intro p hp
  obtain ⟨x, hx, hlo, hhi⟩ := node_within h hp
  exact (hm x hx).mono hlo hhi

/-- The parts of an element lie in the address space. -/
theorem inSpace (h : e.toNat + 24 < 2 ^ 64) : DList.InSpace links e := by
  show e.toNat + 0 + 16 < 2 ^ 64
  omega

theorem span_val (h : e.toNat + 24 < 2 ^ 64) :
    span64 (e + 16) = (e.toNat + 16, 8) := by
  have h16 : (16 : Addr).toNat = 16 := rfl
  unfold span64
  rw [BitVec.toNat_add, h16, Nat.mod_eq_of_lt (by omega)]

/-- A value survives where its bytes do. -/
theorem val_agree (h : e.toNat + 24 < 2 ^ 64)
    (hm : Agree (e.toNat + 16, 8) m m') : val m' e = val m e := by
  rw [← span_val h] at hm
  exact hm.load64

-- ================================================================== stores

/-- The stores of `npr_dlist_push_back`, where the last element is `a`. -/
theorem linkBack_eq {a tail : Addr} (v : Addr)
    (hprev : DList.prev links m tail = a) (he : DList.InSpace links e)
    (htail : DList.InSpace links tail)
    (hapart : Apart (DList.span links e) (DList.span links tail)) :
    linkBack m tail e v = setVal (DList.setNext links (DList.setPrev links
      (DList.setPrev links (DList.setNext links m e tail) e a) tail e) a e)
      e v := by
  unfold linkBack
  simp only
  rw [DList.prev_agree htail (DList.setNext_agree he hapart.symm tail), hprev,
    DList.prev_agree he (DList.setPrev_agree htail hapart e),
    DList.prev_setPrev]

/-- The range of a value lies behind the links. -/
theorem setVal_agree {t : Span} (h : e.toNat + 24 < 2 ^ 64) (v : Addr)
    (ht : Apart t (e.toNat + 16, 8)) : Agree t m (setVal m e v) := by
  rw [← span_val h] at ht
  exact agree_store64 ht _ _

/-- An element is its links and its value. -/
theorem apart_elem {t : Span} (h : Apart t (elemSpan sizeofElem e)) :
    Apart t (DList.span links e) ∧ Apart t (e.toNat + 16, 8) := by
  have h24 : sizeofElem.toNat = 24 := rfl
  show Apart t (e.toNat, 16) ∧ _
  unfold Apart elemSpan at *
  simp only at *
  omega

section
variable {front : List Addr} {a tail : Addr}
  (hl : DList.Linked links m (front ++ [a, tail]))
  (he : e.toNat + 24 < 2 ^ 64)
  (hapart : ∀ c ∈ front ++ [a, tail],
    Apart (DList.span links c) (elemSpan sizeofElem e))
include hl he hapart

/-- What is apart from the new element and from its neighbours. -/
theorem linkBack_agree {t : Span} (v : Addr)
    (hte : Apart t (elemSpan sizeofElem e))
    (hta : Apart t (DList.span links a))
    (htt : Apart t (DList.span links tail)) :
    Agree t m (linkBack m tail e v) := by
  have hx : DList.InSpace links e := inSpace he
  have ha : DList.InSpace links a := hl.space a (by simp)
  have htail : DList.InSpace links tail := hl.space tail (by simp)
  have hprev : DList.prev links m tail = a :=
    (List.isChain_append_cons_cons.mp hl.links).2.1.2
  obtain ⟨hlinks, hval⟩ := apart_elem hte
  have het := (apart_elem (hapart tail (by simp))).1.symm
  rw [linkBack_eq v hprev hx htail het]
  exact ((((DList.setNext_agree hx hlinks tail).trans
    (DList.setPrev_agree hx hlinks a)).trans
    (DList.setPrev_agree htail htt e)).trans
    (DList.setNext_agree ha hta e)).trans (setVal_agree he v hval)

/-- The list with the new element in front of its tail. -/
theorem linkBack_linked (v : Addr) :
    DList.Linked links (linkBack m tail e v) (front ++ [a, e, tail])
      ∧ val (linkBack m tail e v) e = v := by
  have hx : DList.InSpace links e := inSpace he
  have ha : DList.InSpace links a := hl.space a (by simp)
  have htail : DList.InSpace links tail := hl.space tail (by simp)
  have hprev : DList.prev links m tail = a :=
    (List.isChain_append_cons_cons.mp hl.links).2.1.2
  have hapart' : ∀ c ∈ front ++ [a, tail],
      Apart (DList.span links e) (DList.span links c) := fun c hc =>
    (apart_elem (hapart c hc)).1.symm
  have hea := hapart' a (by simp)
  have het := hapart' tail (by simp)
  obtain ⟨hat, houter⟩ := DList.spread_pair hl.spread
  rw [linkBack_eq v hprev hx htail het]
  refine ⟨?_, load64_store64 _ _ _⟩
  have hlinked : DList.Linked links (DList.setNext links (DList.setPrev links
      (DList.setPrev links (DList.setNext links m e tail) e a) tail e) a e)
      (front ++ [a, e, tail]) := by
    refine DList.linked_insert hl hx hapart' (fun c hc => ?_) ?_ ?_ ⟨?_, ?_⟩
      ⟨?_, ?_⟩
    · have hce := (hapart' c (DList.mem_pair hc)).symm
      exact (((DList.setNext_agree hx hce tail).trans
        (DList.setPrev_agree hx hce a)).trans
        (DList.setPrev_agree htail (houter c hc).2 e)).trans
        (DList.setNext_agree ha (houter c hc).1 e)
    · rw [DList.prev_setNext ha,
        DList.prev_agree ha (DList.setPrev_agree htail hat e),
        DList.prev_agree ha (DList.setPrev_agree hx hea.symm a),
        DList.prev_agree ha (DList.setNext_agree hx hea.symm tail)]
    · rw [DList.next_agree htail (DList.setNext_agree ha hat.symm e),
        DList.next_setPrev htail,
        DList.next_agree htail (DList.setPrev_agree hx het.symm a),
        DList.next_agree htail (DList.setNext_agree hx het.symm tail)]
    · exact DList.next_setNext _ _ _
    · rw [DList.prev_agree hx (DList.setNext_agree ha hea e),
        DList.prev_agree hx (DList.setPrev_agree htail het e),
        DList.prev_setPrev]
    · rw [DList.next_agree hx (DList.setNext_agree ha hea e),
        DList.next_agree hx (DList.setPrev_agree htail het e),
        DList.next_setPrev hx, DList.next_setNext]
    · rw [DList.prev_agree htail (DList.setNext_agree ha hat.symm e),
        DList.prev_setPrev]
  refine hlinked.congr fun c hc => setVal_agree he v ?_
  by_cases hce : c = e
  · subst hce
    exact .inl (Nat.le_refl _)
  · refine (apart_elem (hapart c ?_)).2
    rcases List.mem_append.mp hc with hc | hc
    · exact List.mem_append_left _ hc
    · refine List.mem_append_right _ ?_
      simpa [hce] using hc

end

-- =============================================================== invariant

/-- A list and its allocator in order, with elements that the allocator
has handed out and that are not in the list. -/
structure Inv (s : DlistState) (extra free chunks : List Addr) : Prop where
  alloc : ChunkAlloc.Inv sizeofElem 8 s.sys s.list.a (extra ++ s.elems) free
    chunks
  taken : s.sys.taken = (s.list.addr.toNat, sizeofDlist)
  space : s.list.addr.toNat + sizeofDlist ≤ 2 ^ 64
  linked : DList.Linked links s.sys.mem (nodes s.list s.elems)
  vals : ∀ x ∈ s.live, val s.sys.mem x.1 = x.2

theorem sizes : ChunkAlloc.Sizes sizeofElem 8 :=
  ⟨by decide, by decide, by decide, by decide⟩

variable {s : DlistState} {extra free chunks : List Addr}

theorem Inv.elem_space (h : Inv s extra free chunks)
    (he : e ∈ extra ++ s.elems) : e.toNat + 24 < 2 ^ 64 := by
  have hspace := h.alloc.elem_space sizes (List.mem_append_left free he)
  have h24 : sizeofElem.toNat = 24 := rfl
  omega

theorem Inv.nodup (h : Inv s extra free chunks) : s.elems.Nodup :=
  (List.nodup_append.mp
    (List.nodup_append.mp (h.alloc.nodup sizes)).1).2.1

/-- An element lies apart from the list's ends and from every other
element. -/
theorem Inv.elem_own (h : Inv s extra free chunks)
    (he : e ∈ extra ++ s.elems) (elems : List Addr)
    (hsub : ∀ q ∈ elems, q ∈ s.elems) (hne : e ∉ elems) :
    ∀ x ∈ own (s.list.addr.toNat, sizeofDlist) elems,
      Apart (elemSpan sizeofElem e) x := by
  intro x hx
  rcases List.mem_cons.mp hx with rfl | hx
  · rw [← h.taken]
    exact h.alloc.elem_taken sizes (List.mem_append_left free he)
  · obtain ⟨q, hq, rfl⟩ := List.mem_map.mp hx
    exact h.alloc.apart_of_ne sizes (List.mem_append_left free he)
      (List.mem_append_left free (List.mem_append_right extra (hsub q hq)))
      fun heq => hne (heq ▸ hq)

/-- An element that is not in the list. -/
theorem Inv.extra_own (h : Inv s [e] free chunks) :
    ∀ x ∈ own (s.list.addr.toNat, sizeofDlist) s.elems,
      Apart (elemSpan sizeofElem e) x := by
  refine h.elem_own List.mem_cons_self s.elems (fun _ hq => hq) ?_
  exact (List.nodup_cons.mp (List.nodup_append.mp
    (h.alloc.nodup sizes)).1).1

/-- A value lies apart from every node's links. -/
theorem Inv.val_apart (h : Inv s extra free chunks) (he : e ∈ s.elems)
    (hp : p ∈ nodes s.list s.elems) :
    Apart (e.toNat + 16, 8) (DList.span links p) := by
  by_cases hpe : p = e
  · subst hpe
    exact .inr (Nat.le_refl _)
  · have hown := h.elem_own (List.mem_append_right extra he)
      (s.elems.erase e) (fun q hq => List.mem_of_mem_erase hq)
      (h.nodup.not_mem_erase)
    have hp' : p ∈ nodes s.list (s.elems.erase e) := by
      rcases mem_nodes.mp hp with hp | hp | hp
      · exact mem_nodes.mpr (.inl hp)
      · exact mem_nodes.mpr (.inr (.inl ((List.mem_erase_of_ne hpe).mpr hp)))
      · exact mem_nodes.mpr (.inr (.inr hp))
    exact (apart_elem (apart_node h.space hown hp').symm).2.symm

/-- A list survives where what is its own does. -/
theorem Inv.kept (h : Inv s extra free chunks)
    (hm : ∀ x ∈ own s.sys.taken s.elems, Agree x s.sys.mem m') :
    DList.Linked links m' (nodes s.list s.elems)
      ∧ ∀ x ∈ s.live, val m' x.1 = x.2 := by
  rw [h.taken] at hm
  refine ⟨h.linked.congr (nodes_agree h.space hm), fun x hx => ?_⟩
  have he : x.1 ∈ s.elems := List.mem_map_of_mem hx
  have h24 : sizeofElem.toNat = 24 := rfl
  rw [← h.vals x hx]
  refine val_agree (h.elem_space (List.mem_append_right extra he))
    ((hm (elemSpan sizeofElem x.1) (List.mem_cons_of_mem _
      (List.mem_map_of_mem he))).mono ?_ ?_)
  · show x.1.toNat ≤ x.1.toNat + 16
    omega
  · show x.1.toNat + 16 + 8 ≤ x.1.toNat + 24
    omega

-- =============================================================== push back

/-- The allocator hands out an element: the list is as it was. -/
theorem take_yields (place : Blocks.Placement) (h : Inv s [] free chunks) :
    Yields Blocks.OutOfMemory
      (ChunkAlloc.chunkAllocatorAlloc place s.sys s.list.a)
      fun r => r.2.2 ∉ s.elems
        ∧ (∀ x ∈ own s.sys.taken s.elems, Agree x s.sys.mem r.1.mem)
        ∧ ∃ free' chunks',
          Inv ⟨r.1, { s.list with a := r.2.1 }, s.live⟩ [r.2.2] free'
            chunks' := by
  refine (ChunkAlloc.alloc_yields place sizes h.alloc).mono fun r hr => ?_
  obtain ⟨free', chunks', hinv⟩ := hr.inv
  have hagree : ∀ x ∈ own s.sys.taken s.elems, Agree x s.sys.mem r.1.mem := by
    intro x hx
    rcases List.mem_cons.mp hx with rfl | hx
    · exact hr.other
    · obtain ⟨q, hq, rfl⟩ := List.mem_map.mp hx
      exact hr.kept q hq
  obtain ⟨hlinked, hvals⟩ := h.kept hagree
  exact ⟨hr.fresh, hagree, free', chunks', hinv, hr.taken.trans h.taken,
    h.space, hlinked, hvals⟩

/-- It is put in front of the tail. -/
theorem link_ok (h : Inv s [e] free chunks) (v : Addr) :
    Inv ⟨{ s.sys with mem := linkBack s.sys.mem s.list.tail e v }, s.list,
      s.live ++ [(e, v)]⟩ [] free chunks := by
  obtain ⟨front, a, hfront⟩ : ∃ front a, s.list.head :: s.elems
      = front ++ [a] :=
    (List.eq_nil_or_concat' _).resolve_left (List.cons_ne_nil _ _)
  have hnodes : nodes s.list s.elems = front ++ [a, s.list.tail] := by
    unfold nodes
    rw [← List.cons_append, hfront, List.append_assoc]
    rfl
  have hnodes' : nodes s.list (s.elems ++ [e])
      = front ++ [a, e, s.list.tail] := by
    unfold nodes
    rw [List.append_assoc, ← List.cons_append, hfront, List.append_assoc]
    rfl
  have ha : a ∈ nodes s.list s.elems := by
    rw [hnodes]
    simp
  have htail : s.list.tail ∈ nodes s.list s.elems :=
    mem_nodes.mpr (.inr (.inr rfl))
  have he : e.toNat + 24 < 2 ^ 64 := h.elem_space List.mem_cons_self
  have hlinked := h.linked
  have hapart : ∀ c ∈ nodes s.list s.elems,
      Apart (DList.span links c) (elemSpan sizeofElem e) := fun c hc =>
    (apart_node h.space h.extra_own hc).symm
  rw [hnodes] at hlinked hapart
  obtain ⟨hlinked', hval⟩ := linkBack_linked hlinked he hapart v
  have hwithin : Within (s.sys.taken :: ([e] ++ s.elems).map
      (elemSpan sizeofElem)) s.sys.mem
      (linkBack s.sys.mem s.list.tail e v) := by
    intro t ht
    have hold : ∀ x ∈ own (s.list.addr.toNat, sizeofDlist) s.elems,
        Apart t x := by
      intro x hx
      rcases List.mem_cons.mp hx with rfl | hx
      · rw [← h.taken]
        exact ht _ List.mem_cons_self
      · exact ht _ (List.mem_cons_of_mem _ (List.mem_cons_of_mem _ hx))
    exact linkBack_agree hlinked he hapart v
      (ht _ (List.mem_cons_of_mem _ List.mem_cons_self))
      (apart_node h.space hold ha) (apart_node h.space hold htail)
  have helems : DlistState.elems ⟨{ s.sys with
      mem := linkBack s.sys.mem s.list.tail e v }, s.list,
      s.live ++ [(e, v)]⟩ = s.elems ++ [e] := List.map_append
  refine ⟨?_, h.taken, h.space, ?_, fun x hx => ?_⟩
  · rw [helems]
    exact (h.alloc.program sizes hwithin).perm
      (List.perm_append_singleton e _)
  · rw [helems, hnodes']
    exact hlinked'
  · rcases List.mem_append.mp hx with hx | hx
    · have hq : x.1 ∈ s.elems := List.mem_map_of_mem hx
      have hown := h.extra_own (elemSpan sizeofElem x.1)
        (List.mem_cons_of_mem _ (List.mem_map_of_mem hq))
      rw [← h.vals x hx]
      exact val_agree (h.elem_space (List.mem_append_right [e] hq))
        (linkBack_agree hlinked he hapart v (apart_elem hown).2.symm
          (h.val_apart hq ha) (h.val_apart hq htail))
    · obtain rfl := List.mem_singleton.mp hx
      exact hval

-- ================================================================== remove

/-- An element taken out of the list, and not yet given back. -/
theorem unlink_ok (h : Inv s [] free chunks) (he : e ∈ s.elems) :
    Inv ⟨{ s.sys with mem := DList.remove links s.sys.mem e }, s.list,
      s.live.eraseP fun x => x.1 = e⟩ [e] free chunks := by
  obtain ⟨x, hx, rfl⟩ := List.mem_map.mp he
  obtain ⟨before, behind, hlive⟩ := List.append_of_mem hx
  have helems : s.elems
      = before.map Prod.fst ++ x.1 :: behind.map Prod.fst := by
    unfold DlistState.elems
    rw [hlive, List.map_append, List.map_cons]
  have hnot : ∀ y ∈ before, ¬ y.1 = x.1 := by
    have hnodup := h.nodup
    rw [helems] at hnodup
    intro y hy heq
    exact (List.nodup_append.mp hnodup).2.2 y.1 (List.mem_map_of_mem hy) x.1
      List.mem_cons_self heq
  have herase : (s.live.eraseP fun y => y.1 = x.1) = before ++ behind := by
    rw [hlive, List.eraseP_append_right _ (by simpa using hnot),
      List.eraseP_cons_of_pos (by simp)]
  have hnodes : nodes s.list s.elems
      = (s.list.head :: before.map Prod.fst)
        ++ x.1 :: (behind.map Prod.fst ++ [s.list.tail]) := by
    unfold nodes
    rw [helems]
    simp
  have hlinked := h.linked
  rw [hnodes] at hlinked
  obtain ⟨hlinked', hframe⟩ := hlinked.remove (List.cons_ne_nil _ _)
    (List.append_ne_nil_of_right_ne_nil _ (List.cons_ne_nil _ _))
  have hrest : ∀ c ∈ (s.list.head :: before.map Prod.fst)
      ++ (behind.map Prod.fst ++ [s.list.tail]),
      c ∈ nodes s.list s.elems := by
    intro c hc
    rw [hnodes]
    exact List.mem_append.mpr ((List.mem_append.mp hc).imp_right
      (List.mem_cons_of_mem _))
  have hwithin : Within (s.sys.taken :: ([] ++ s.elems).map
      (elemSpan sizeofElem)) s.sys.mem
      (DList.remove links s.sys.mem x.1) := by
    intro t ht
    rw [h.taken] at ht
    exact hframe t fun c hc => apart_node h.space ht (hrest c hc)
  have hmap : DlistState.elems ⟨{ s.sys with
      mem := DList.remove links s.sys.mem x.1 }, s.list, before ++ behind⟩
      = before.map Prod.fst ++ behind.map Prod.fst := List.map_append
  rw [herase]
  refine ⟨?_, h.taken, h.space, ?_, fun y hy => ?_⟩
  · rw [hmap]
    refine (h.alloc.program sizes hwithin).perm ?_
    rw [helems]
    show (x.1 :: (before.map Prod.fst ++ behind.map Prod.fst)).Perm
      (before.map Prod.fst ++ x.1 :: behind.map Prod.fst)
    exact List.perm_middle.symm
  · rw [hmap]
    have hnodes' : nodes s.list (before.map Prod.fst ++ behind.map Prod.fst)
        = (s.list.head :: before.map Prod.fst)
          ++ (behind.map Prod.fst ++ [s.list.tail]) := by
      unfold nodes
      simp
    rw [hnodes']
    exact hlinked'
  · have hy' : y ∈ s.live := by
      rw [hlive]
      exact List.mem_append.mpr ((List.mem_append.mp hy).imp_right
        (List.mem_cons_of_mem _))
    have hq : y.1 ∈ s.elems := List.mem_map_of_mem hy'
    rw [← h.vals y hy']
    exact val_agree (h.elem_space (List.mem_append_right [] hq))
      (hframe _ fun c hc => h.val_apart hq (hrest c hc))

/-- The allocator takes an element back: the list is as it was. -/
theorem giveBack_ok (h : Inv s [e] free chunks) :
    ∃ m' a', ChunkAlloc.chunkAllocatorFree s.sys s.list.a e
        = .ok ({ s.sys with mem := m' }, a')
      ∧ (∀ x ∈ own s.sys.taken s.elems, Agree x s.sys.mem m')
      ∧ Inv ⟨{ s.sys with mem := m' }, { s.list with a := a' }, s.live⟩ []
        (e :: free) chunks := by
  obtain ⟨m', a', hfree, hinv, hwithin⟩ :=
    ChunkAlloc.free_ok sizes h.alloc
  have hagree : ∀ x ∈ own s.sys.taken s.elems, Agree x s.sys.mem m' := by
    intro x hx
    refine hwithin x fun y hy => ?_
    obtain rfl := List.mem_singleton.mp hy
    rw [h.taken] at hx
    exact (h.extra_own x hx).symm
  obtain ⟨hlinked, hvals⟩ := h.kept hagree
  exact ⟨m', a', hfree, hagree, hinv, h.taken, h.space, hlinked, hvals⟩

-- ==================================================================== runs

/-- `npr_dlist_init`: a list of no elements. -/
theorem boot_yields (place : Blocks.Placement) (mem : ByteMem) {addr : Addr}
    (haddr : addr.toNat + sizeofDlist ≤ 2 ^ 64) :
    Yields Blocks.OutOfMemory (dlistBoot place mem addr) fun s =>
      ∃ free chunks, Inv s [] free chunks := by
  unfold dlistBoot dlistInit
  rw [bind_assoc]
  refine (ChunkAlloc.allocatorInit_yields place mem _ sizes).bind ?_
  rintro ⟨s₁, a⟩ ⟨⟨free, chunks, hinv⟩, htaken, _⟩
  have htoNat : (Dlist.tail ⟨addr, a⟩).toNat = addr.toNat + 24 :=
    toNat_tail haddr
  have hspace : sizeofDlist = 72 := rfl
  have hhead : DList.InSpace links addr := inSpace (by omega)
  have htail : DList.InSpace links (Dlist.tail ⟨addr, a⟩) :=
    inSpace (by omega)
  have hapart : Apart (DList.span links addr)
      (DList.span links (Dlist.tail ⟨addr, a⟩)) := by
    left
    show addr.toNat + 16 ≤ (Dlist.tail ⟨addr, a⟩).toNat
    omega
  have hwithin : Within (own (addr.toNat, sizeofDlist) []) s₁.mem
      (DList.setPrev links (DList.setNext links s₁.mem addr
        (Dlist.tail ⟨addr, a⟩)) (Dlist.tail ⟨addr, a⟩) addr) := by
    intro t ht
    have hnodes : ∀ p ∈ nodes ⟨addr, a⟩ [], Apart t (DList.span links p) :=
      fun p hp => apart_node haddr ht hp
    exact (DList.setNext_agree hhead (hnodes _ (mem_nodes.mpr (.inl rfl)))
      _).trans (DList.setPrev_agree htail
        (hnodes _ (mem_nodes.mpr (.inr (.inr rfl)))) _)
  have htaken : s₁.taken = (addr.toNat, sizeofDlist) := htaken
  refine ⟨free, chunks, hinv.program sizes (by rw [htaken]; exact hwithin),
    htaken, haddr, ?_, fun _ hx => (nomatch hx)⟩
  refine ⟨List.pairwise_pair.mpr hapart, fun c hc => ?_,
    List.isChain_pair.mpr ⟨?_, DList.prev_setPrev _ _ _⟩⟩
  · rcases mem_nodes.mp hc with rfl | hc | rfl
    · exact hhead
    · cases hc
    · exact htail
  · exact (DList.next_agree hhead (DList.setPrev_agree htail hapart addr)).trans
      (DList.next_setNext _ _ _)

/-- The walks of a list show its elements with their values: in the order
they were pushed, and in the opposite one. -/
def Listed (s : DlistState) : Prop :=
  s.elems.Nodup ∧ ∀ fuel, s.live.length < fuel →
    forEach fuel s.sys.mem s.list = .ok s.live
      ∧ forEachBack fuel s.sys.mem s.list = .ok s.live.reverse

/-- The allocator's writes, in the course of a call, change no element of
the list and neither of its ends: those of the allocation for an element
that is pushed, which was in no use, and those that free an element that
has been unlinked. -/
def Unharmed (place : Blocks.Placement) (s : DlistState) : DlistCall → Prop
  | .pushBack _ => ∀ r,
      ChunkAlloc.chunkAllocatorAlloc place s.sys s.list.a = .ok r →
      r.2.2 ∉ s.elems ∧ ∀ x ∈ own (s.list.addr.toNat, sizeofDlist) s.elems,
        Agree x s.sys.mem r.1.mem
  | .remove e => ∀ r,
      ChunkAlloc.chunkAllocatorFree
        { s.sys with mem := DList.remove links s.sys.mem e } s.list.a e
        = .ok r →
      ∀ x ∈ own (s.list.addr.toNat, sizeofDlist) (s.elems.filter (· ≠ e)),
        Agree x (DList.remove links s.sys.mem e) r.1.mem

/-- A walk that shows elements shows their values. -/
theorem map_val (h : Inv s extra free chunks) :
    s.elems.map (fun e => (e, val s.sys.mem e)) = s.live := by
  unfold DlistState.elems
  rw [List.map_map]
  refine (List.map_congr_left fun x hx => ?_).trans (List.map_id _)
  exact Prod.ext rfl (h.vals x hx)

theorem Inv.listed (h : Inv s [] free chunks) : Listed s := by
  refine ⟨h.nodup, fun fuel hfuel => ?_⟩
  have hlen : s.elems.length = s.live.length := List.length_map _
  have hends : s.list.tail ∉ s.elems ∧ s.list.head ∉ s.elems := by
    have htail := toNat_tail h.space
    have hapart := fun e (he : e ∈ s.elems) =>
      h.elem_own (List.mem_append_right [] he) []
        (fun _ hq => (nomatch hq)) (fun hq => (nomatch hq)) _
        List.mem_cons_self
    constructor
    · intro he
      have hno := hapart _ he
      unfold Apart elemSpan sizeofDlist at hno
      simp only at hno
      omega
    · intro he
      have hno := hapart _ he
      have hhead : s.list.head = s.list.addr := rfl
      have h24 : sizeofElem.toNat = 24 := rfl
      unfold Apart elemSpan sizeofDlist at hno
      simp only [hhead] at hno
      omega
  constructor
  · unfold forEach
    rw [visits_ok (l := s.elems) (h.linked.links.imp fun _ _ => And.left)
      hends.1 (by omega), map_val h]
  · have hchain : (s.list.tail :: (s.elems.reverse ++ [s.list.head])).IsChain
        fun a b => DList.prev links s.sys.mem a = b := by
      have hback := List.isChain_reverse.mpr
        (h.linked.links.imp (S := fun a b =>
          DList.prev links s.sys.mem b = a) fun _ _ => And.right)
      unfold nodes at hback
      simpa using hback
    unfold forEachBack
    rw [visits_ok hchain (by simpa using hends.2)
      (by rw [List.length_reverse]; omega), List.map_reverse, map_val h]

/-- Every call keeps the list in order. -/
theorem exec_yields (place : Blocks.Placement) {c : DlistCall}
    (h : ∃ free chunks, Inv s [] free chunks) (hv : c.Valid s) :
    Unharmed place s c ∧ Yields Blocks.OutOfMemory (c.exec place s) fun s' =>
      ∃ free chunks, Inv s' [] free chunks := by
  obtain ⟨free, chunks, h⟩ := h
  cases c with
  | pushBack v =>
      have htake := take_yields place h
      constructor
      · intro r hr
        obtain ⟨hfresh, hagree, _⟩ := htake.of_ok hr
        rw [h.taken] at hagree
        exact ⟨hfresh, hagree⟩
      · unfold DlistCall.exec dlistPushBack
        simp only [bind_assoc]
        refine htake.bind fun r hr => ?_
        obtain ⟨_, _, free', chunks', hinv⟩ := hr
        exact ⟨free', chunks', link_ok hinv v⟩
  | remove e =>
      have he : e ∈ s.elems := hv
      obtain ⟨m', a', hfree, hagree, hinv⟩ := giveBack_ok (unlink_ok h he)
      constructor
      · intro r hr x hx
        obtain rfl := Except.ok.inj (hfree.symm.trans hr)
        rw [← h.taken] at hx
        refine hagree x ?_
        rcases List.mem_cons.mp hx with rfl | hx
        · exact List.mem_cons_self
        · obtain ⟨q, hq, rfl⟩ := List.mem_map.mp hx
          obtain ⟨hq, hne⟩ := List.mem_filter.mp hq
          obtain ⟨y, hy, rfl⟩ := List.mem_map.mp hq
          refine List.mem_cons_of_mem _ (List.mem_map_of_mem
            (List.mem_map_of_mem ?_))
          exact (List.mem_eraseP_of_neg (by simpa using hne)).mpr hy
      · simp only [DlistCall.exec, dlistRemove, hfree, bind, Except.bind]
        exact ⟨_, _, hinv⟩

/-- In any run the walks show the elements in the order they were pushed,
and no write of the allocator reaches one of them. -/
theorem dlist_refines (place : Blocks.Placement) (mem : ByteMem) (addr : Addr)
    {cs : List DlistCall} (haddr : addr.toNat + sizeofDlist ≤ 2 ^ 64)
    (hcs : ∀ s, dlistBoot place mem addr = .ok s →
      Along (DlistCall.exec place) (fun s c => c.Valid s) s cs) :
    Yields Blocks.OutOfMemory (dlistBoot place mem addr) fun s =>
      Listed s ∧ Along (DlistCall.exec place) (fun s c =>
        Unharmed place s c ∧ Yields Blocks.OutOfMemory (c.exec place s) Listed)
        s cs := by
  have hboot := boot_yields place mem haddr
  cases hs : dlistBoot place mem addr with
  | error err => exact hboot.of_error hs
  | ok s =>
      obtain ⟨free, chunks, hinv⟩ := hboot.of_ok hs
      refine ⟨hinv.listed, Along.holds
        (I := fun s => ∃ free chunks, Inv s [] free chunks) ?_ cs
        ⟨free, chunks, hinv⟩ (hcs s hs)⟩
      intro s c h hv
      obtain ⟨hunharmed, hexec⟩ := exec_yields place h hv
      refine ⟨⟨hunharmed, hexec.mono fun s' hs' => ?_⟩, fun s' hc =>
        hexec.of_ok hc⟩
      obtain ⟨_, _, hinv⟩ := hs'
      exact hinv.listed

-- ============================================================== small runs

/-- A run of a list at address 256: the third element is the first one,
used again. -/
theorem dlist_refines_again :
    Yields Blocks.OutOfMemory (dlistBoot ChunkAlloc.pages ⟨fun _ => 0⟩ 256)
      fun s => Listed s ∧ Along (DlistCall.exec ChunkAlloc.pages) (fun s c =>
        Unharmed ChunkAlloc.pages s c
          ∧ Yields Blocks.OutOfMemory (c.exec ChunkAlloc.pages s) Listed) s
        [.pushBack 7, .pushBack 8, .remove 4096, .pushBack 9] := by
  have haddr : (256 : Addr).toNat + sizeofDlist ≤ 2 ^ 64 := by decide
  have hvalid : Yields (fun _ => True)
      (dlistBoot ChunkAlloc.pages ⟨fun _ => 0⟩ 256) fun s =>
      Along (DlistCall.exec ChunkAlloc.pages) (fun s c => c.Valid s) s
        [.pushBack 7, .pushBack 8, .remove 4096, .pushBack 9] := by
    decide +kernel
  exact dlist_refines ChunkAlloc.pages ⟨fun _ => 0⟩ 256 haddr fun s hs =>
    hvalid.of_ok hs

end UdeBench.Npr.LinkedList
