/-
Hash tables with chaining, as lists: an array of heads, and a link from
each object to the next of its chain.

`Chain next h l` says that the chain from `h` runs through `l`. `Buckets`
says that an array of heads has the chains given, that every object is in
the chain of its own index, and that no object is in two places. An object
comes in front of its chain (`Buckets.pushHead`) or behind its last
(`Buckets.pushTail`). Moving objects from one array to another is a
sequence of the former.
-/
import Mathlib.Data.List.Forall2
import Mathlib.Data.List.Perm.Basic

namespace UdeBench.Hashing

variable {α : Type} {next next' : α → Option α} {index index' : α → Nat}

-- =============================================================== chains

/-- The objects of a chain, from a head on. -/
def Chain (next : α → Option α) : Option α → List α → Prop
  | h, [] => h = none
  | h, a :: l => h = some a ∧ Chain next (next a) l

/-- A chain survives where its links do. -/
theorem Chain.congr : ∀ {l : List α} {h : Option α}, Chain next h l →
    (∀ a ∈ l, next' a = next a) → Chain next' h l := by
  intro l
  induction l with
  | nil => intro h hc _; exact hc
  | cons a l ih =>
      intro h hc hn
      refine ⟨hc.1, ?_⟩
      rw [hn a List.mem_cons_self]
      exact ih hc.2 fun b hb => hn b (List.mem_cons_of_mem _ hb)

/-- A chain with an object behind its last. -/
theorem Chain.append {z a : α} : ∀ {l : List α} {h : Option α},
    Chain next h (l ++ [z]) → (∀ b ∈ l, next' b = next b) →
    next' z = some a → next' a = none → Chain next' h (l ++ [z, a]) := by
  intro l
  induction l with
  | nil =>
      intro h hc _ hz ha
      exact ⟨hc.1, hz, ha⟩
  | cons b l ih =>
      intro h hc hn hz ha
      refine ⟨hc.1, ?_⟩
      rw [hn b List.mem_cons_self]
      exact ih hc.2 (fun b hb => hn b (List.mem_cons_of_mem _ hb)) hz ha

/-- A head has one chain. -/
theorem Chain.unique : ∀ {l l' : List α} {h : Option α}, Chain next h l →
    Chain next h l' → l = l' := by
  intro l
  induction l with
  | nil =>
      intro l' h hc hc'
      cases l' with
      | nil => rfl
      | cons b l' =>
          rw [hc'.1] at hc
          cases hc
  | cons a l ih =>
      intro l' h hc hc'
      cases l' with
      | nil =>
          rw [hc.1] at hc'
          cases hc'
      | cons b l' =>
          obtain rfl : a = b := Option.some.inj (hc.1.symm.trans hc'.1)
          rw [ih hc.2 hc'.2]

/-- What a chain is from an object of it on. -/
theorem Chain.drop {a : α} {r : List α} : ∀ {l : List α} {h : Option α},
    Chain next h (l ++ a :: r) → Chain next (next a) r := by
  intro l
  induction l with
  | nil => exact fun hc => hc.2
  | cons b l ih => exact fun hc => ih hc.2

/-- A chain that ends comes to no object twice. -/
theorem Chain.nodup : ∀ {l : List α} {h : Option α}, Chain next h l →
    l.Nodup := by
  intro l
  induction l with
  | nil => exact fun _ => List.nodup_nil
  | cons a l ih =>
      intro h hc
      refine List.nodup_cons.mpr ⟨fun ha => ?_, ih hc.2⟩
      obtain ⟨l₁, l₂, rfl⟩ := List.append_of_mem ha
      have hlen := congrArg List.length (hc.2.unique (Chain.drop hc.2))
      rw [List.length_append, List.length_cons] at hlen
      omega

-- ============================================================== buckets

/-- An array of heads with its chains. -/
structure Buckets (next : α → Option α) (index : α → Nat)
    (bins : List (Option α)) (chains : List (List α)) : Prop where
  chain : List.Forall₂ (Chain next) bins chains
  home : ∀ i l, chains[i]? = some l → ∀ a ∈ l, index a = i
  nodup : chains.flatten.Nodup

variable {bins : List (Option α)} {chains : List (List α)} {i : Nat}
  {h : Option α} {l : List α} {a : α}

/-- The chain of a head. -/
theorem Buckets.chain_at (hb : Buckets next index bins chains)
    (hi : bins[i]? = some h) : ∃ l, chains[i]? = some l ∧ Chain next h l := by
  have hlen := hb.chain.length_eq
  have hlt := (List.getElem?_eq_some_iff.mp hi).1
  have hlt' : i < chains.length := by omega
  refine ⟨chains[i], List.getElem?_eq_getElem hlt', ?_⟩
  have hget := hb.chain.get hlt hlt'
  have hh := (List.getElem?_eq_some_iff.mp hi).2
  simpa [hh] using hget

theorem mem_flatten_of_getElem? (hi : chains[i]? = some l) (ha : a ∈ l) :
    a ∈ chains.flatten :=
  List.mem_flatten.mpr ⟨l, List.mem_of_getElem? hi, ha⟩

/-- An object is in the chain of its index. -/
theorem Buckets.mem_chain (hb : Buckets next index bins chains)
    (ha : a ∈ chains.flatten) (hi : chains[index a]? = some l) : a ∈ l := by
  obtain ⟨l', hl', ha'⟩ := List.mem_flatten.mp ha
  obtain ⟨j, hj⟩ := List.mem_iff_getElem?.mp hl'
  have hindex := hb.home j l' hj a ha'
  rw [hindex, hj] at hi
  cases hi
  exact ha'

/-- An empty table. -/
theorem Buckets.empty (n : Nat) :
    Buckets next index (List.replicate n none) (List.replicate n []) := by
  refine ⟨?_, ?_, ?_⟩
  · induction n with
    | zero => exact .nil
    | succ n ih => exact .cons rfl ih
  · intro i l hl a ha
    rw [List.getElem?_replicate] at hl
    split at hl
    · cases hl
      cases ha
    · cases hl
  · rw [List.flatten_replicate_nil]
    exact List.nodup_nil

/-- A table survives where its links and indices do. -/
theorem Buckets.congr (hb : Buckets next index bins chains)
    (hnext : ∀ a ∈ chains.flatten, next' a = next a)
    (hsame : ∀ a ∈ chains.flatten, index' a = index a) :
    Buckets next' index' bins chains := by
  refine ⟨?_, ?_, hb.nodup⟩
  · have hall : ∀ c ∈ chains, ∀ a ∈ c, next' a = next a :=
      fun c hc a ha => hnext a (List.mem_flatten.mpr ⟨c, hc, ha⟩)
    refine List.forall₂_iff_get.mpr ⟨hb.chain.length_eq, ?_⟩
    intro j hj hj'
    exact (hb.chain.get hj hj').congr (hall _ (List.getElem_mem hj'))
  · intro j c hj a ha
    rw [hsame a (mem_flatten_of_getElem? hj ha)]
    exact hb.home j c hj a ha

/-- The chains with one of them longer by an object. -/
theorem flatten_set {l' : List α} :
    ∀ {chains : List (List α)} {i : Nat}, chains[i]? = some l →
      l'.Perm (a :: l) →
      (chains.set i l').flatten.Perm (a :: chains.flatten) := by
  intro chains
  induction chains with
  | nil => intro i hi; cases hi
  | cons c chains ih =>
      intro i hi hp
      cases i with
      | zero =>
          cases hi
          exact hp.append_right _
      | succ i =>
          have hrest := ih (i := i) hi hp
          exact (hrest.append_left c).trans List.perm_middle

/-- A relation at every place, with one place changed on both sides. -/
theorem forall₂_set {β γ : Type} {R S : β → γ → Prop} {x : β} {y : γ} :
    ∀ {bs : List β} {cs : List γ} {i : Nat}, List.Forall₂ R bs cs →
      (∀ j b c, cs[j]? = some c → j ≠ i → R b c → S b c) → S x y →
      List.Forall₂ S (bs.set i x) (cs.set i y) := by
  intro bs cs i h
  induction h generalizing i with
  | nil => intro _ _; exact .nil
  | @cons b c bs cs hbc hrest ih =>
      intro hkeep hxy
      cases i with
      | zero =>
          refine .cons hxy ?_
          have hall := ih (i := bs.length + cs.length)
            (fun j b c hj _ => hkeep (j + 1) b c hj (by omega)) hxy
          rw [List.set_eq_of_length_le (by omega),
            List.set_eq_of_length_le (by omega)] at hall
          exact hall
      | succ i =>
          exact .cons (hkeep 0 b c rfl (by omega) hbc)
            (ih (fun j b c hj hne => hkeep (j + 1) b c hj (by omega)) hxy)

/-- A chain replaced by one that is longer by an object of its index. -/
theorem Buckets.set_chain {h' : Option α} {l' : List α}
    (hb : Buckets next index bins chains) (hi : chains[i]? = some l)
    (hl' : Chain next' h' l') (hp : l'.Perm (a :: l))
    (ha : a ∉ chains.flatten) (hindex : index' a = i)
    (hnext : ∀ b ∈ chains.flatten, b ∉ l → next' b = next b)
    (hsame : ∀ b ∈ chains.flatten, index' b = index b) :
    Buckets next' index' (bins.set i h') (chains.set i l') := by
  have hflat := flatten_set hi hp
  refine ⟨forall₂_set hb.chain ?_ hl', ?_, ?_⟩
  · intro j g c hj hne hc
    refine hc.congr fun b hbc => hnext b (mem_flatten_of_getElem? hj hbc) ?_
    intro hbl
    exact hne ((hb.home j c hj b hbc).symm.trans (hb.home i l hi b hbl))
  · intro j c hj b hbc
    rw [List.getElem?_set] at hj
    by_cases hij : i = j
    · rw [if_pos hij] at hj
      split at hj
      · cases hj
        rcases List.mem_cons.mp (hp.mem_iff.mp hbc) with rfl | hbl
        · exact hindex.trans hij
        · rw [hsame b (mem_flatten_of_getElem? hi hbl), hb.home i l hi b hbl, hij]
      · cases hj
    · rw [if_neg hij] at hj
      rw [hsame b (mem_flatten_of_getElem? hj hbc), hb.home j c hj b hbc]
  · exact hflat.nodup_iff.mpr (List.nodup_cons.mpr ⟨ha, hb.nodup⟩)

variable (next' index') in
/-- An object in front of its chain. -/
theorem Buckets.pushHead (hb : Buckets next index bins chains)
    (hi : bins[i]? = some h) (ha : a ∉ chains.flatten)
    (hindex : index' a = i) (hlink : next' a = h)
    (hnext : ∀ b ∈ chains.flatten, next' b = next b)
    (hsame : ∀ b ∈ chains.flatten, index' b = index b) :
    ∃ chains', Buckets next' index' (bins.set i (some a)) chains'
      ∧ chains'.flatten.Perm (a :: chains.flatten) := by
  obtain ⟨l, hl, hc⟩ := hb.chain_at hi
  refine ⟨chains.set i (a :: l), ?_, flatten_set hl (List.Perm.refl _)⟩
  refine hb.set_chain hl ⟨rfl, ?_⟩ (List.Perm.refl _) ha hindex
    (fun b hbc _ => hnext b hbc) hsame
  rw [hlink]
  exact hc.congr fun b hbl => hnext b (mem_flatten_of_getElem? hl hbl)

variable (next' index') in
/-- An object behind the last of its chain. -/
theorem Buckets.pushTail {z : α} (hb : Buckets next index bins chains)
    (hi : bins[i]? = some h) (hl : chains[i]? = some (l ++ [z]))
    (ha : a ∉ chains.flatten) (hindex : index' a = i)
    (hz : next' z = some a) (hlink : next' a = none)
    (hnext : ∀ b ∈ chains.flatten, b ≠ z → next' b = next b)
    (hsame : ∀ b ∈ chains.flatten, index' b = index b) :
    ∃ chains', Buckets next' index' bins chains'
      ∧ chains'.flatten.Perm (a :: chains.flatten) := by
  obtain ⟨l', hl', hc⟩ := hb.chain_at hi
  have hsame' : l' = l ++ [z] := Option.some.inj (hl'.symm.trans hl)
  subst hsame'
  have hperm : (l ++ [z, a]).Perm (a :: (l ++ [z])) := by
    rw [show l ++ [z, a] = (l ++ [z]) ++ [a] by simp]
    exact List.perm_append_singleton a (l ++ [z])
  have hz' : z ∉ l := by
    have hnd : (l ++ [z]).Nodup :=
      hb.nodup.sublist (List.sublist_flatten_of_mem (List.mem_of_getElem? hl))
    rw [List.nodup_append] at hnd
    exact fun hzl => hnd.2.2 z hzl z (List.mem_singleton.mpr rfl) rfl
  have hchain : Chain next' h (l ++ [z, a]) := by
    refine hc.append (fun b hbl => ?_) hz hlink
    refine hnext b (mem_flatten_of_getElem? hl
      (List.mem_append_left _ hbl)) ?_
    rintro rfl
    exact hz' hbl
  refine ⟨chains.set i (l ++ [z, a]), ?_, flatten_set hl hperm⟩
  have hall := hb.set_chain hl hchain hperm ha hindex
    (fun b hbc hbl => hnext b hbc fun hbz =>
      hbl (hbz ▸ List.mem_append_right _ (List.mem_singleton.mpr rfl)))
    hsame
  have hbins : bins.set i h = bins := by
    obtain ⟨hlt, hget⟩ := List.getElem?_eq_some_iff.mp hi
    rw [← hget, List.set_getElem_self]
  rwa [hbins] at hall

end UdeBench.Hashing
