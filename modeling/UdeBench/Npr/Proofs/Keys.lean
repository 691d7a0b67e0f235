/-
What a program sees of several maps does not depend on which keys they
have, only on which are equal: with other keys put for them, apart where
they were apart, every call does the same (`exec_mapKeys`).
-/
import UdeBench.Npr.Proofs.Symtabs

namespace UdeBench.Npr.SymbolTable

variable {κ κ' : Type} {P : κ → Prop} {f g : κ → κ'} {a : Maps κ}

-- ============================================================= other keys

/-- A call with another key. -/
def TablesCall.map (f : κ → κ') : TablesCall κ → TablesCall κ'
  | init sizeHint => .init sizeHint
  | lookup t key com => .lookup t (f key) com
  | write k v => .write k v
  | read k => .read k
  | same j k => .same j k
  | fini t => .fini t

/-- What holds of the key of a call. -/
def TablesCall.Key (P : κ → Prop) : TablesCall κ → Prop
  | lookup _ key _ => P key
  | _ => True

/-- The contents of a map, with other keys. -/
def KeyData.mapKeys (f : κ → κ') (m : KeyData κ) : KeyData κ' :=
  m.map fun p => (f p.1, p.2)

/-- The maps with other keys. -/
def Maps.mapKeys (f : κ → κ') (a : Maps κ) : Maps κ' :=
  ⟨a.maps.map (Option.map (KeyData.mapKeys f)),
    a.handles.map (Option.map fun h => (h.1, f h.2))⟩

/-- What holds of all keys. -/
structure Maps.Keys (P : κ → Prop) (a : Maps κ) : Prop where
  maps : ∀ m, some m ∈ a.maps → ∀ p ∈ m, P p.1
  handles : ∀ h, some h ∈ a.handles → P h.2

theorem Maps.Keys.mono {Q : κ → Prop} (h : a.Keys P)
    (hPQ : ∀ x, P x → Q x) : a.Keys Q :=
  ⟨fun m hm p hp => hPQ _ (h.maps m hm p hp),
    fun hd hhd => hPQ _ (h.handles hd hhd)⟩

/-- Keys that are put the same way. -/
theorem Maps.mapKeys_congr (h : a.Keys P) (hfg : ∀ x, P x → f x = g x) :
    a.mapKeys f = a.mapKeys g := by
  unfold Maps.mapKeys
  congr 1
  · apply List.map_congr_left
    intro o ho
    cases o with
    | none => rfl
    | some m =>
        refine congrArg some (List.map_congr_left fun p hp => ?_)
        rw [hfg _ (h.maps m ho p hp)]
  · apply List.map_congr_left
    intro o ho
    cases o with
    | none => rfl
    | some hd =>
        show some (hd.1, f hd.2) = some (hd.1, g hd.2)
        rw [hfg _ (h.handles hd ho)]

theorem mapKeys_get (f : κ → κ') (a : Maps κ) (t : Nat) :
    (a.mapKeys f).get t = (a.get t).map (KeyData.mapKeys f) := by
  unfold Maps.get Maps.mapKeys
  rw [List.getElem?_map]
  cases a.maps[t]? with
  | none => rfl
  | some o => rfl

theorem mapKeys_deref (f : κ → κ') (a : Maps κ) (k : Nat) :
    (a.mapKeys f).deref k = (a.deref k).map fun d =>
      ((d.1.1, f d.1.2), KeyData.mapKeys f d.2) := by
  unfold Maps.deref
  have hhandle : (a.mapKeys f).handles[k]?.join
      = (a.handles[k]?.join).map fun h => (h.1, f h.2) := by
    unfold Maps.mapKeys
    rw [List.getElem?_map]
    cases a.handles[k]? with
    | none => rfl
    | some o => rfl
  rw [hhandle]
  cases a.handles[k]?.join with
  | none => rfl
  | some h =>
      show (a.mapKeys f).get h.1 >>= _ = _
      rw [mapKeys_get]
      show _ = Option.map _ (a.get h.1 >>= _)
      cases a.get h.1 with
      | none => rfl
      | some m => rfl

theorem mapKeys_concat (f : κ → κ') (m : KeyData κ) (x : κ) (d : Data) :
    KeyData.mapKeys f (m ++ [(x, d)]) = m.mapKeys f ++ [(f x, d)] :=
  List.map_append

theorem mapKeys_push (f : κ → κ') (a : Maps κ) (o : Option (Nat × κ)) :
    { a.mapKeys f with
      handles := (a.mapKeys f).handles
        ++ [o.map fun h => (h.1, f h.2)] }
      = ({ a with handles := a.handles ++ [o] } : Maps κ).mapKeys f := by
  unfold Maps.mapKeys
  rw [List.map_append]
  rfl

theorem mapKeys_set (f : κ → κ') (a : Maps κ) (t : Nat)
    (o : Option (KeyData κ)) :
    { a.mapKeys f with
      maps := (a.mapKeys f).maps.set t (o.map (KeyData.mapKeys f)) }
      = ({ a with maps := a.maps.set t o } : Maps κ).mapKeys f := by
  unfold Maps.mapKeys
  rw [List.map_set]

/-- The keys of a map and of a pointer. -/
theorem Maps.Keys.get (h : a.Keys P) {t : Nat} {m : KeyData κ}
    (hm : a.get t = some m) : ∀ p ∈ m, P p.1 :=
  h.maps m (List.mem_of_getElem? (Option.join_eq_some_iff.mp hm))

theorem Maps.Keys.deref (h : a.Keys P) {k : Nat} {hd : Nat × κ}
    {m : KeyData κ} (hm : a.deref k = some (hd, m)) :
    P hd.2 ∧ (∀ p ∈ m, P p.1) := by
  unfold Maps.deref at hm
  obtain ⟨hd', hhd, hm⟩ := Option.bind_eq_some_iff.mp hm
  obtain ⟨m', hget, hm⟩ := Option.bind_eq_some_iff.mp hm
  cases hm
  exact ⟨h.handles hd (List.mem_of_getElem?
    (Option.join_eq_some_iff.mp hhd)), h.get hget⟩

/-- One map changed. -/
theorem Maps.Keys.set (h : a.Keys P) (t : Nat) {o : Option (KeyData κ)}
    (ho : ∀ m, o = some m → ∀ p ∈ m, P p.1) :
    Maps.Keys P { a with maps := a.maps.set t o } := by
  refine ⟨fun m hm p hp => ?_, h.handles⟩
  obtain hm | hm := List.mem_or_eq_of_mem_set hm
  · exact h.maps m hm p hp
  · exact ho m hm.symm p hp

/-- A pointer more. -/
theorem Maps.Keys.push (h : a.Keys P) {o : Option (Nat × κ)}
    (ho : ∀ hd, o = some hd → P hd.2) :
    Maps.Keys P { a with handles := a.handles ++ [o] } := by
  refine ⟨h.maps, fun hd hhd => ?_⟩
  obtain hhd | hhd := List.mem_append.mp hhd
  · exact h.handles hd hhd
  · exact ho hd (List.mem_singleton.mp hhd).symm

section
variable (hinj : ∀ x y, P x → P y → f x = f y → x = y)
include hinj

/-- Putting keys apart for keys apart keeps tests for keys. -/
theorem key_iff {m : KeyData κ} (hm : ∀ p ∈ m, P p.1) {x : κ} (hx : P x)
    {p : κ × Data} (hp : p ∈ m) : f p.1 = f x ↔ p.1 = x :=
  ⟨hinj _ _ (hm p hp) hx, congrArg f⟩

theorem mem_mapKeys {m : KeyData κ} (hm : ∀ p ∈ m, P p.1) {x : κ}
    (hx : P x) : f x ∈ (m.mapKeys f).map Prod.fst ↔ x ∈ m.map Prod.fst := by
  unfold KeyData.mapKeys
  rw [List.map_map, List.mem_map, List.mem_map]
  constructor
  · intro h
    obtain ⟨p, hp, hpx⟩ := h
    exact ⟨p, hp, (key_iff hinj hm hx hp).mp hpx⟩
  · intro h
    obtain ⟨p, hp, hpx⟩ := h
    exact ⟨p, hp, congrArg f hpx⟩

variable [DecidableEq κ] [DecidableEq κ']

theorem find_mapKeys {m : KeyData κ} (hm : ∀ p ∈ m, P p.1) {x : κ}
    (hx : P x) : (m.mapKeys f).find? (fun p => p.1 = f x)
      = (m.find? fun p => p.1 = x).map fun p => (f p.1, p.2) := by
  unfold KeyData.mapKeys
  rw [List.find?_map]
  congr 1
  induction m with
  | nil => rfl
  | cons p m ih =>
      have hiff := key_iff hinj hm hx (List.mem_cons_self (a := p))
      have hrest := ih fun q hq => hm q (List.mem_cons_of_mem _ hq)
      by_cases hpx : p.1 = x
      · rw [List.find?_cons_of_pos (by simpa using hiff.mpr hpx),
          List.find?_cons_of_pos (by simpa using hpx)]
      · rw [List.find?_cons_of_neg (by simpa using mt hiff.mp hpx),
          List.find?_cons_of_neg (by simpa using hpx)]
        exact hrest

theorem storeData_mapKeys {m : KeyData κ} (hm : ∀ p ∈ m, P p.1) {x : κ}
    (hx : P x) (v : Data) :
    storeData (m.mapKeys f) (f x) v = (storeData m x v).mapKeys f := by
  unfold KeyData.mapKeys storeData
  rw [List.map_map, List.map_map]
  apply List.map_congr_left
  intro p hp
  have hiff := key_iff hinj hm hx hp
  simp only [Function.comp_apply]
  by_cases hpx : p.1 = x
  · rw [if_pos hpx, if_pos (hiff.mpr hpx)]
  · rw [if_neg hpx, if_neg (mt hiff.mp hpx)]

/-- A lookup does not see which keys there are. -/
theorem lookup_mapKeys (a : Maps κ) (t : Nat) {x : κ} (hx : P x)
    (com : LookupCommand) {m : KeyData κ} (hm : ∀ p ∈ m, P p.1) :
    (a.mapKeys f).lookup t (f x) com (m.mapKeys f)
      = (a.lookup t x com m).map fun r => (r.1.mapKeys f, r.2) := by
  have hmem := mem_mapKeys hinj hm hx
  unfold Maps.lookup
  by_cases hin : x ∈ m.map Prod.fst
  · rw [if_pos (hmem.mpr hin), if_pos hin]
    exact congrArg (fun b => some (b, Seen.found true))
      (mapKeys_push f a (some (t, x)))
  · rw [if_neg (mt hmem.mp hin), if_neg hin]
    cases com with
    | fail =>
        exact congrArg (fun b => some (b, Seen.found false))
          (mapKeys_push f a none)
    | append =>
        have hlen : (m.mapKeys f).length = m.length := List.length_map _
        simp only [hlen]
        by_cases hfew : m.length + 1 < 2 ^ 31
        · rw [if_pos hfew, if_pos hfew]
          refine congrArg (fun b => some (b, Seen.found true)) ?_
          show _ = Maps.mapKeys f ⟨_, _⟩
          unfold Maps.mapKeys
          rw [← mapKeys_concat, List.map_set, List.map_append]
          rfl
        · rw [if_neg hfew, if_neg hfew]
          rfl

/-- A call does not see which keys there are. -/
theorem exec_mapKeys (ha : a.Keys P) {c : TablesCall κ} (hc : c.Key P) :
    (a.mapKeys f).exec (c.map f)
      = (a.exec c).map fun r => (r.1.mapKeys f, r.2) := by
  cases c with
  | init sizeHint =>
      simp only [TablesCall.map, Maps.exec]
      by_cases hsize : sizeHint.toInt < 2 ^ 30
      · rw [if_pos hsize, if_pos hsize]
        have hmaps : (a.mapKeys f).maps ++ [some []]
            = (a.maps ++ [some []]).map (Option.map (KeyData.mapKeys f)) := by
          rw [List.map_append]
          rfl
        rw [hmaps]
        rfl
      · rw [if_neg hsize, if_neg hsize]
        rfl
  | lookup t x com =>
      show ((a.mapKeys f).get t >>= _) = Option.map _ (a.get t >>= _)
      rw [mapKeys_get]
      cases hm : a.get t with
      | none => rfl
      | some m => exact lookup_mapKeys hinj a t hc com (ha.get hm)
  | write k v =>
      show ((a.mapKeys f).deref k >>= _) = Option.map _ (a.deref k >>= _)
      rw [mapKeys_deref]
      cases hd : a.deref k with
      | none => rfl
      | some d =>
          obtain ⟨hx, hm⟩ := ha.deref hd
          have hset := mapKeys_set f a d.1.1 (some (storeData d.2 d.1.2 v))
          rw [Option.map_some, ← storeData_mapKeys hinj hm hx] at hset
          exact congrArg (fun b => some (b, Seen.nothing)) hset
  | read k =>
      show ((a.mapKeys f).deref k >>= _) = Option.map _ (a.deref k >>= _)
      rw [mapKeys_deref]
      cases hd : a.deref k with
      | none => rfl
      | some d =>
          obtain ⟨hx, hm⟩ := ha.deref hd
          show ((d.2.mapKeys f).find? _ >>= _)
            = Option.map _ (d.2.find? _ >>= _)
          rw [find_mapKeys hinj hm hx]
          cases d.2.find? fun p => p.1 = d.1.2 with
          | none => rfl
          | some p => rfl
  | same j k =>
      show ((a.mapKeys f).deref j >>= _) = Option.map _ (a.deref j >>= _)
      rw [mapKeys_deref]
      cases hd : a.deref j with
      | none => rfl
      | some d =>
          show ((a.mapKeys f).deref k >>= _) = Option.map _ (a.deref k >>= _)
          rw [mapKeys_deref]
          cases hd' : a.deref k with
          | none => rfl
          | some d' =>
              have hiff : ((d.1.1, f d.1.2) = (d'.1.1, f d'.1.2))
                  ↔ d.1 = d'.1 := by
                rw [Prod.mk.injEq, Prod.ext_iff]
                exact and_congr_right fun _ => ⟨hinj _ _ (ha.deref hd).1
                  (ha.deref hd').1, congrArg f⟩
              exact congrArg (fun b => some (a.mapKeys f, Seen.equal b))
                (decide_eq_decide.mpr hiff)
  | fini t =>
      show ((a.mapKeys f).get t >>= _) = Option.map _ (a.get t >>= _)
      rw [mapKeys_get]
      cases a.get t with
      | none => rfl
      | some m =>
          exact congrArg (fun b => some (b, Seen.nothing))
            (mapKeys_set f a t none)

end

/-- The keys after a call are those before and its own. -/
theorem Maps.Keys.exec [DecidableEq κ] (ha : a.Keys P) {c : TablesCall κ}
    (hc : c.Key P) {r : Maps κ × Seen} (hr : a.exec c = some r) :
    r.1.Keys P := by
  cases c with
  | init sizeHint =>
      simp only [Maps.exec] at hr
      by_cases hsize : sizeHint.toInt < 2 ^ 30
      · rw [if_pos hsize] at hr
        cases hr
        refine ⟨fun m hm p hp => ?_, ha.handles⟩
        obtain hm | hm := List.mem_append.mp hm
        · exact ha.maps m hm p hp
        · cases List.mem_singleton.mp hm
          cases hp
      · rw [if_neg hsize] at hr
        cases hr
  | lookup t x com =>
      obtain ⟨m, hm, hr⟩ := Option.bind_eq_some_iff.mp hr
      have hkey : ∀ hd : Nat × κ, some (t, x) = some hd → P hd.2 :=
        fun hd hhd => Option.some.inj hhd ▸ hc
      unfold Maps.lookup at hr
      by_cases hin : x ∈ m.map Prod.fst
      · rw [if_pos hin] at hr
        cases hr
        exact ha.push hkey
      · rw [if_neg hin] at hr
        cases com with
        | fail =>
            cases hr
            exact ha.push fun hd hhd => by cases hhd
        | append =>
            simp only at hr
            by_cases hfew : m.length + 1 < 2 ^ 31
            · rw [if_pos hfew] at hr
              cases hr
              refine Maps.Keys.push (a := { a with maps := _ })
                (ha.set t fun m' hm' p hp => ?_) hkey
              cases hm'
              obtain hp | hp := List.mem_append.mp hp
              · exact ha.get hm p hp
              · rw [List.mem_singleton.mp hp]
                exact hc
            · rw [if_neg hfew] at hr
              cases hr
  | write k v =>
      obtain ⟨d, hd, hr⟩ := Option.bind_eq_some_iff.mp hr
      cases hr
      refine ha.set d.1.1 fun m hm p hp => ?_
      cases hm
      obtain ⟨q, hq, rfl⟩ := List.mem_map.mp hp
      have hPq := (ha.deref hd).2 q hq
      by_cases hqx : q.1 = d.1.2
      · rw [if_pos hqx]
        exact hPq
      · rw [if_neg hqx]
        exact hPq
  | read k =>
      obtain ⟨d, _, hr⟩ := Option.bind_eq_some_iff.mp hr
      obtain ⟨p, _, hr⟩ := Option.bind_eq_some_iff.mp hr
      cases hr
      exact ha
  | same j k =>
      obtain ⟨d, _, hr⟩ := Option.bind_eq_some_iff.mp hr
      obtain ⟨d', _, hr⟩ := Option.bind_eq_some_iff.mp hr
      cases hr
      exact ha
  | fini t =>
      obtain ⟨m, _, hr⟩ := Option.bind_eq_some_iff.mp hr
      cases hr
      exact ha.set t fun m' hm' => by cases hm'

end UdeBench.Npr.SymbolTable
