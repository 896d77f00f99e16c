import Mathlib.Algebra.Order.Ring.Int
import Mathlib.Data.List.Sort

/-! Ordered maps and sets as their sorted lists: what one insertion or removal does to the list, a total
    over the values, and maps of sets that hold no empty set. Keys are any type with a lawful `compare`. -/

namespace Ordered
open Std (ExtTreeMap ExtTreeSet)

set_option linter.unusedSectionVars false

variable {K V W : Type} [Ord K] [Std.TransOrd K] [Std.LawfulEqOrd K]

theorem compare_eq_iff {a b : K} : compare a b = .eq ↔ a = b :=
  ⟨Std.LawfulEqCmp.eq_of_compare, fun h => h ▸ Std.ReflCmp.compare_self⟩

/-! ### Maps -/

theorem getElem?_insert_of_ne {m : ExtTreeMap K V} {k k' : K} (h : k' ≠ k) (v : V) :
    (m.insert k v)[k']? = m[k']? := by
  simp [ExtTreeMap.getElem?_insert, Ne.symm h]

theorem getElem?_erase_of_ne {m : ExtTreeMap K V} {k k' : K} (h : k' ≠ k) : (m.erase k)[k']? = m[k']? := by
  simp [ExtTreeMap.getElem?_erase, Ne.symm h]

theorem insert_erase_self {m : ExtTreeMap K V} {k : K} (v : V) : (m.erase k).insert k v = m.insert k v := by
  refine ExtTreeMap.ext_getElem? fun k' => ?_
  simp only [ExtTreeMap.getElem?_insert, ExtTreeMap.getElem?_erase]
  split <;> rfl

theorem erase_insert_self {m : ExtTreeMap K V} {k : K} (v : V) : (m.insert k v).erase k = m.erase k := by
  refine ExtTreeMap.ext_getElem? fun k' => ?_
  simp only [ExtTreeMap.getElem?_insert, ExtTreeMap.getElem?_erase]
  split <;> rfl

theorem erase_of_none {m : ExtTreeMap K V} {k : K} (h : m[k]? = none) : m.erase k = m := by
  refine ExtTreeMap.ext_getElem? fun k' => ?_
  rw [ExtTreeMap.getElem?_erase]
  split
  · rename_i he
    rw [← compare_eq_iff.mp he, h]
  · rfl

/-- The list of a map is the only sorted one with its bindings. -/
theorem toList_unique {m : ExtTreeMap K V} {l : List (K × V)} (sorted : l.Pairwise fun a b => compare a.1 b.1 = .lt)
    (h : ∀ (k : K) (v : V), (k, v) ∈ l ↔ m[k]? = some v) : m.toList = l := by
  have : Std.Irrefl fun a b : K × V => compare a.1 b.1 = .lt := ⟨fun a => by simp⟩
  have : Std.Antisymm fun a b : K × V => compare a.1 b.1 = .lt :=
    ⟨fun a b hab hba => absurd hba (by rw [Std.OrientedOrd.eq_swap, hab]; decide)⟩
  refine ExtTreeMap.ordered_keys_toList.eq_of_mem_iff sorted fun x => ?_
  obtain ⟨k, v⟩ := x
  rw [ExtTreeMap.mem_toList_iff_getElem?_eq_some, h]

/-- A bound key splits the list; erasing it and binding it again change the list there only. -/
theorem exists_split {m : ExtTreeMap K V} {k : K} {v : V} (h : m[k]? = some v) :
    ∃ l r, m.toList = l ++ (k, v) :: r ∧ (m.erase k).toList = l ++ r ∧
      ∀ w, (m.insert k w).toList = l ++ (k, w) :: r := by
  obtain ⟨l, r, hlr⟩ := List.append_of_mem (ExtTreeMap.mem_toList_iff_getElem?_eq_some.mpr h)
  have sorted := hlr ▸ (ExtTreeMap.ordered_keys_toList (t := m))
  have mem : ∀ k' v', (k', v') ∈ l ++ (k, v) :: r ↔ m[k']? = some v' := fun k' v' => by
    rw [← hlr, ExtTreeMap.mem_toList_iff_getElem?_eq_some]
  have ne : ∀ x ∈ l ++ r, x.1 ≠ k := by
    intro x hx hk
    rw [List.pairwise_append, List.pairwise_cons] at sorted
    obtain ⟨-, ⟨hr, -⟩, hl⟩ := sorted
    rcases List.mem_append.mp hx with hx | hx
    · simpa [hk] using hl x hx (k, v) List.mem_cons_self
    · simpa [hk] using hr x hx
  have sorted' : ∀ w, (l ++ (k, w) :: r).Pairwise fun a b => compare a.1 b.1 = .lt := by
    intro w
    simpa only [List.pairwise_append, List.pairwise_cons, List.forall_mem_cons] using sorted
  refine ⟨l, r, hlr, toList_unique ((sorted' v).sublist (by simp)) fun k' v' => ?_,
    fun w => toList_unique (sorted' w) fun k' v' => ?_⟩
  · rw [ExtTreeMap.getElem?_erase]
    split
    · rename_i hk
      have hk := Std.LawfulEqCmp.eq_of_compare hk
      simpa using fun hx => ne _ hx hk.symm
    · rename_i hk
      rw [← mem, List.mem_append, List.mem_append, List.mem_cons, Prod.mk.injEq]
      have : k' ≠ k := fun h => hk (h ▸ Std.ReflCmp.compare_self)
      simp [this]
  · rw [ExtTreeMap.getElem?_insert]
    split
    · rename_i hk
      have hk := Std.LawfulEqCmp.eq_of_compare hk
      subst hk
      have : (k, v') ∉ l ++ r := fun hx => ne _ hx rfl
      rw [List.mem_append, not_or] at this
      simp [this.1, this.2, eq_comm]
    · rename_i hk
      rw [← mem, List.mem_append, List.mem_append, List.mem_cons, List.mem_cons, Prod.mk.injEq, Prod.mk.injEq]
      have : k' ≠ k := fun h => hk (h ▸ Std.ReflCmp.compare_self)
      simp [this]

/-- A key above all others is bound at the end of the list. -/
theorem toList_insert_last {m : ExtTreeMap K V} {k : K} (h : ∀ j ∈ m, compare j k = .lt) (v : V) :
    (m.insert k v).toList = m.toList ++ [(k, v)] := by
  refine toList_unique ?_ fun k' v' => ?_
  · rw [List.pairwise_append]
    refine ⟨ExtTreeMap.ordered_keys_toList, List.pairwise_singleton _ _, ?_⟩
    intro a ha b hb
    rw [List.mem_singleton.mp hb]
    have := ExtTreeMap.mem_toList_iff_getElem?_eq_some.mp (show (a.1, a.2) ∈ m.toList from ha)
    exact h a.1 (ExtTreeMap.isSome_getElem?_iff_mem.mp (by simp [this]))
  · rw [ExtTreeMap.getElem?_insert, List.mem_append, List.mem_singleton, Prod.mk.injEq,
      ExtTreeMap.mem_toList_iff_getElem?_eq_some]
    split
    · rename_i hk
      have hk := Std.LawfulEqCmp.eq_of_compare hk
      subst hk
      have : m[k]? = none := by
        refine ExtTreeMap.getElem?_eq_none fun hm => ?_
        simpa using h k hm
      simp [this, eq_comm]
    · rename_i hk
      have : k' ≠ k := fun h => hk (h ▸ Std.ReflCmp.compare_self)
      simp [this]

/-- A map whose values change key by key has the list whose values change so. -/
theorem toList_map {m : ExtTreeMap K V} {m' : ExtTreeMap K W} {f : K → V → W} (h : ∀ k : K, m'[k]? = m[k]?.map (f k)) :
    m'.toList = m.toList.map fun x => (x.1, f x.1 x.2) := by
  refine toList_unique ?_ fun k w => ?_
  · rw [List.pairwise_map]
    exact ExtTreeMap.ordered_keys_toList
  · rw [h, List.mem_map]
    constructor
    · rintro ⟨⟨k', v⟩, hx, heq⟩
      simp only [Prod.mk.injEq] at heq
      obtain ⟨rfl, rfl⟩ := heq
      rw [ExtTreeMap.mem_toList_iff_getElem?_eq_some.mp hx, Option.map_some]
    · intro hk
      obtain ⟨v, hv, rfl⟩ := Option.map_eq_some_iff.mp hk
      exact ⟨(k, v), ExtTreeMap.mem_toList_iff_getElem?_eq_some.mpr hv, rfl⟩

/-- A map that keeps the bindings of a predicate has the list filtered by it. -/
theorem toList_filter {m m' : ExtTreeMap K V} {p : K → V → Bool} (h : ∀ k : K, m'[k]? = m[k]?.filter (p k)) :
    m'.toList = m.toList.filter fun x => p x.1 x.2 := by
  refine toList_unique (ExtTreeMap.ordered_keys_toList.filter _) fun k v => ?_
  rw [h, List.mem_filter, ExtTreeMap.mem_toList_iff_getElem?_eq_some, Option.filter_eq_some_iff]

/-- The keys whose bindings match `p`, in order. -/
theorem keys_unique {m : ExtTreeMap K V} {p : K × V → Bool} {l : List K}
    (sorted : l.Pairwise fun a b => compare a b = .lt) (h : ∀ k, k ∈ l ↔ ∃ v, m[k]? = some v ∧ p (k, v)) :
    l = (m.toList.filter p).map (·.1) := by
  have : Std.Irrefl fun a b : K => compare a b = .lt := ⟨fun a => by simp⟩
  have : Std.Antisymm fun a b : K => compare a b = .lt :=
    ⟨fun a b hab hba => absurd hba (by rw [Std.OrientedOrd.eq_swap, hab]; decide)⟩
  have sorted' : ((m.toList.filter p).map (·.1)).Pairwise fun a b => compare a b = .lt :=
    List.pairwise_map.mpr (ExtTreeMap.ordered_keys_toList.filter _)
  refine sorted.eq_of_mem_iff sorted' fun k => ?_
  simp [h, ExtTreeMap.mem_toList_iff_getElem?_eq_some]

theorem keys_nodup {m : ExtTreeMap K V} (p : K × V → Bool) : ((m.toList.filter p).map (·.1)).Nodup := by
  have sorted : ((m.toList.filter p).map (·.1)).Pairwise fun a b => compare a b = .lt :=
    List.pairwise_map.mpr (ExtTreeMap.ordered_keys_toList.filter _)
  refine sorted.imp fun h he => ?_
  simp [he] at h

/-- Looking the keys of some bindings up gives the bindings back. -/
theorem filterMap_keys {m : ExtTreeMap K V} {l : List (K × V)} (h : ∀ x ∈ l, m[x.1]? = some x.2) (f : K → V → W) :
    ((l.map (·.1)).filterMap fun k => m[k]?.map (f k)) = l.map fun x => f x.1 x.2 := by
  rw [List.filterMap_map, ← List.filterMap_eq_map]
  refine List.filterMap_congr fun x hx => ?_
  simp [h x hx]

/-! ### Totals -/

/-- The total of `f` over the values of a map. -/
def total (m : ExtTreeMap K V) (f : V → Nat) : Nat := (m.toList.map fun x => f x.2).sum

@[simp] theorem total_empty (f : V → Nat) : total (∅ : ExtTreeMap K V) f = 0 := by
  simp [total, ExtTreeMap.toList_eq_nil_iff.mpr]

theorem total_erase {m : ExtTreeMap K V} {k : K} {v : V} (h : m[k]? = some v) (f : V → Nat) :
    total (m.erase k) f + f v = total m f := by
  obtain ⟨l, r, hm, he, -⟩ := exists_split h
  simp only [total, hm, he, List.map_append, List.map_cons, List.sum_append, List.sum_cons]
  omega

theorem total_insert {m : ExtTreeMap K V} {k : K} {v : V} (h : m[k]? = some v) (w : V) (f : V → Nat) :
    total (m.insert k w) f + f v = total m f + f w := by
  obtain ⟨l, r, hm, -, hi⟩ := exists_split h
  simp only [total, hm, hi, List.map_append, List.map_cons, List.sum_append, List.sum_cons]
  omega

theorem total_eq_zero {m : ExtTreeMap K V} {f : V → Nat} : total m f = 0 ↔ ∀ (k : K) (v : V), m[k]? = some v → f v = 0 := by
  simp only [total, List.sum_eq_zero_iff_forall_eq_nat, List.mem_map, Prod.exists, forall_exists_index, and_imp,
    ExtTreeMap.mem_toList_iff_getElem?_eq_some]
  exact ⟨fun h k v hv => h _ k v hv rfl, fun h _ k v hv he => he ▸ h k v hv⟩

theorem total_congr {m : ExtTreeMap K V} {f g : V → Nat} (h : ∀ (k : K) (v : V), m[k]? = some v → f v = g v) :
    total m f = total m g := by
  unfold total
  rw [List.map_congr_left fun x hx => h x.1 x.2 (ExtTreeMap.mem_toList_iff_getElem?_eq_some.mp hx)]

theorem total_insert_new {m : ExtTreeMap K V} {k : K} (h : m[k]? = none) (v : V) (f : V → Nat) :
    total (m.insert k v) f = total m f + f v := by
  have hk : (m.insert k v)[k]? = some v := ExtTreeMap.getElem?_insert_self
  rw [← total_erase hk f, erase_insert_self, erase_of_none h]

/-! ### Sets -/

/-- The list of a set is the only sorted one with its members. -/
theorem set_toList_unique {s : ExtTreeSet K} {l : List K} (sorted : l.Pairwise fun a b => compare a b = .lt)
    (h : ∀ a, a ∈ l ↔ a ∈ s) : s.toList = l := by
  have : Std.Irrefl fun a b : K => compare a b = .lt := ⟨fun a => by simp⟩
  have : Std.Antisymm fun a b : K => compare a b = .lt :=
    ⟨fun a b hab hba => absurd hba (by rw [Std.OrientedOrd.eq_swap, hab]; decide)⟩
  refine ExtTreeSet.ordered_toList.eq_of_mem_iff sorted fun x => ?_
  rw [ExtTreeSet.mem_toList, h]

theorem set_toList_nodup {s : ExtTreeSet K} : s.toList.Nodup :=
  ExtTreeSet.ordered_toList.imp fun h he => by simp [he] at h

/-- The head of the list of a set is its least member. -/
theorem set_head?_eq_some {s : ExtTreeSet K} {a : K} :
    s.toList.head? = some a ↔ a ∈ s ∧ ∀ b ∈ s, b = a ∨ compare a b = .lt := by
  have sorted := ExtTreeSet.ordered_toList (t := s)
  have mem : ∀ b, b ∈ s.toList ↔ b ∈ s := fun b => ExtTreeSet.mem_toList
  simp only [← mem]
  generalize s.toList = l at sorted
  cases l with
  | nil => simp
  | cons b l =>
    rw [List.pairwise_cons] at sorted
    simp only [List.head?_cons, Option.some.injEq, List.mem_cons]
    constructor
    · rintro rfl
      exact ⟨.inl rfl, fun c hc => hc.imp_right (sorted.1 c)⟩
    · rintro ⟨ha | ha, h⟩
      · exact ha.symm
      · rcases h b (.inl rfl) with hb | hb
        · exact hb
        · have := sorted.1 a ha
          rw [Std.OrientedOrd.eq_swap, hb] at this
          cases this

/-! ### Maps of sets -/

section
variable {V : Type} [Ord V] [Std.TransOrd V] [Std.LawfulEqOrd V]

/-- The sets of the map are those of the relation, and no set is empty. -/
structure Represents (m : ExtTreeMap K (ExtTreeSet V)) (R : K → V → Prop) : Prop where
  mem : ∀ (k : K) (v : V), (∃ s, m[k]? = some s ∧ v ∈ s) ↔ R k v
  nonempty : ∀ (k : K) s, m[k]? = some s → ∃ v, v ∈ s

/-- Takes one pair out, and the set with it once it is empty. -/
def erasePair (m : ExtTreeMap K (ExtTreeSet V)) (k : K) (v : V) : ExtTreeMap K (ExtTreeSet V) :=
  match m[k]? with
  | none => m
  | some s => if (s.erase v).isEmpty then m.erase k else m.insert k (s.erase v)

/-- Puts one pair in. -/
def insertPair (m : ExtTreeMap K (ExtTreeSet V)) (k : K) (v : V) : ExtTreeMap K (ExtTreeSet V) :=
  m.insert k (m[k]?.getD ∅ |>.insert v)

namespace Represents
variable {m : ExtTreeMap K (ExtTreeSet V)} {R R' : K → V → Prop}

theorem congr (h : Represents m R) (hR : ∀ k v, R k v ↔ R' k v) : Represents m R' :=
  ⟨fun k v => (h.mem k v).trans (hR k v), h.nonempty⟩

theorem empty (h : ∀ k v, ¬ R k v) : Represents (∅ : ExtTreeMap K (ExtTreeSet V)) R :=
  ⟨fun k v => by simp [h k v], fun k s hs => by simp at hs⟩

theorem eq_none (h : Represents m R) {k : K} : m[k]? = none ↔ ∀ v, ¬ R k v := by
  constructor
  · intro hk v hR
    obtain ⟨s, hs, -⟩ := (h.mem k v).mpr hR
    simp [hs] at hk
  · intro hR
    cases hk : m[k]? with
    | none => rfl
    | some s =>
      obtain ⟨v, hv⟩ := h.nonempty k s hk
      exact absurd ((h.mem k v).mp ⟨s, hk, hv⟩) (hR v)

theorem mem_of_some (h : Represents m R) {k : K} {s : ExtTreeSet V} (hs : m[k]? = some s) (v : V) :
    v ∈ s ↔ R k v := by
  rw [← h.mem, hs]
  simp

/-- Two maps that represent one relation are the same. -/
theorem unique {m' : ExtTreeMap K (ExtTreeSet V)} (h : Represents m R) (h' : Represents m' R) : m = m' := by
  refine ExtTreeMap.ext_getElem? fun k => ?_
  cases hk : m[k]? with
  | none => exact (h'.eq_none.mpr (h.eq_none.mp hk)).symm
  | some s =>
    cases hk' : m'[k]? with
    | none =>
      rw [h.eq_none.mpr (h'.eq_none.mp hk')] at hk
      cases hk
    | some s' =>
      congr 1
      exact ExtTreeSet.ext_mem fun v => (h.mem_of_some hk v).trans (h'.mem_of_some hk' v).symm

theorem getElem?_erasePair {k : K} {v : V} (k' : K) :
    (Ordered.erasePair m k v)[k']? =
      if compare k k' = .eq then m[k]?.bind fun s => if (s.erase v).isEmpty then none else some (s.erase v)
      else m[k']? := by
  unfold Ordered.erasePair
  cases hk : m[k]? with
  | none =>
    dsimp only
    split
    · rename_i h
      rw [← compare_eq_iff.mp h, hk, Option.bind_none]
    · rfl
  | some s =>
    rw [Option.bind_some]
    dsimp only
    split
    · rw [ExtTreeMap.getElem?_erase]
    · rw [ExtTreeMap.getElem?_insert]

theorem erasePair (h : Represents m R) (k : K) (v : V) :
    Represents (Ordered.erasePair m k v) fun k' v' => R k' v' ∧ ¬ (k' = k ∧ v' = v) := by
  constructor
  · intro k' v'
    rw [getElem?_erasePair]
    split
    · rename_i hk
      obtain rfl := compare_eq_iff.mp hk
      rw [← h.mem]
      cases hk : m[k]? with
      | none => simp
      | some s =>
        by_cases he : (s.erase v).isEmpty
        · have : ∀ a, a ∉ s.erase v := fun a ha => by simp [ExtTreeSet.isEmpty_iff.mp he] at ha
          simp only [ExtTreeSet.mem_erase, not_and, ne_eq, compare_eq_iff] at this
          simp only [Option.bind_some, he, if_true, reduceCtorEq, false_and, exists_false, Option.some.injEq,
            exists_eq_left', true_and, false_iff, not_and, not_not]
          exact fun hs => Classical.not_not.mp fun hv => this v' (fun h => hv h.symm) hs
        · simp only [Option.bind_some, he, Bool.false_eq_true, if_false, Option.some.injEq, exists_eq_left',
            ExtTreeSet.mem_erase, ne_eq, compare_eq_iff, true_and]
          rw [and_comm, eq_comm]
    · rename_i hk
      rw [compare_eq_iff, eq_comm] at hk
      simp [h.mem, hk]
  · intro k' s hs
    rw [getElem?_erasePair] at hs
    split at hs
    · obtain ⟨s₀, -, hs⟩ := Option.bind_eq_some_iff.mp hs
      split at hs
      · cases hs
      · rename_i he
        cases hs
        cases hm : (s₀.erase v).toList with
        | nil =>
          rw [← ExtTreeSet.isEmpty_toList, hm] at he
          exact absurd rfl he
        | cons a l => exact ⟨a, ExtTreeSet.mem_toList.mp (hm ▸ List.mem_cons_self)⟩
    · exact h.nonempty k' s hs

theorem insertPair (h : Represents m R) (k : K) (v : V) :
    Represents (Ordered.insertPair m k v) fun k' v' => R k' v' ∨ (k' = k ∧ v' = v) := by
  constructor
  · intro k' v'
    rw [Ordered.insertPair, ExtTreeMap.getElem?_insert]
    split
    · rename_i hk
      obtain rfl := compare_eq_iff.mp hk
      rw [← h.mem]
      cases hk : m[k]? with
      | none => simp [@eq_comm _ v v']
      | some s => simp [@eq_comm _ v v', or_comm]
    · rename_i hk
      rw [compare_eq_iff, eq_comm] at hk
      simp [h.mem, hk]
  · intro k' s hs
    rw [Ordered.insertPair, ExtTreeMap.getElem?_insert] at hs
    split at hs
    · cases hs
      exact ⟨v, by simp⟩
    · exact h.nonempty k' s hs

theorem mem_foldl_insert {s : ExtTreeSet V} {vs : List V} {v : V} : v ∈ vs.foldl .insert s ↔ v ∈ s ∨ v ∈ vs := by
  induction vs generalizing s with
  | nil => simp
  | cons w vs ih =>
    rw [List.foldl_cons, ih, ExtTreeSet.mem_insert, compare_eq_iff, List.mem_cons, @eq_comm _ w]
    exact ⟨fun h => by rcases h with (h | h) | h <;> simp [h], fun h => by rcases h with h | h | h <;> simp [h]⟩

/-- Putting some values in the set of one key. -/
theorem insertAll (h : Represents m R) (k : K) (vs : List V) (hvs : vs ≠ []) :
    Represents (m.insert k (vs.foldl .insert (m[k]?.getD ∅))) fun k' v' => R k' v' ∨ (k' = k ∧ v' ∈ vs) := by
  constructor
  · intro k' v'
    rw [ExtTreeMap.getElem?_insert]
    split
    · rename_i hk
      obtain rfl := compare_eq_iff.mp hk
      rw [← h.mem]
      cases hk : m[k]? with
      | none => simp [mem_foldl_insert]
      | some s => simp [mem_foldl_insert]
    · rename_i hk
      rw [compare_eq_iff, eq_comm] at hk
      simp [h.mem, hk]
  · intro k' s hs
    rw [ExtTreeMap.getElem?_insert] at hs
    split at hs
    · cases hs
      obtain ⟨v, hv⟩ := List.exists_mem_of_ne_nil vs hvs
      exact ⟨v, mem_foldl_insert.mpr (.inr hv)⟩
    · exact h.nonempty k' s hs

end Represents

end

end Ordered
