import Tgin.Rules.Compile

/-! Walking the nodes of a placed target expression gives the consumers it denotes, each once, and advances the
    cursors of its own splits as the expression's tickets advance. -/

namespace Tgin.Rules
open TargetSpec

variable {m : Matchers}

namespace TargetSpec

mutual

/-- The cursors of the splits of an expression placed from `lo` on are where its tickets are. -/
def Agree (cursors : Cursors) : Nat → TargetSpec → Tickets → Prop
  | _, .consumer _, _ => True
  | lo, .all children, tickets => AgreeAll cursors lo 0 children tickets
  | lo, .split _ among _, tickets => cursors (lo + sizes among) = tickets [] ∧ AgreeAll cursors lo 0 among tickets

def AgreeAll (cursors : Cursors) : Nat → Nat → List TargetSpec → Tickets → Prop
  | _, _, [], _ => True
  | lo, i, spec :: specs, tickets =>
    Agree cursors lo spec (tickets.child i) ∧ AgreeAll cursors (lo + nested spec + 1) (i + 1) specs tickets

end

variable {cursors cursors' : Cursors}

theorem agreeAll_congr {specs : List TargetSpec}
    (ih : ∀ c ∈ specs, ∀ {lo : Nat} {tickets : Tickets}, (∀ n, lo ≤ n → n ≤ lo + nested c → cursors' n = cursors n) →
      Agree cursors lo c tickets → Agree cursors' lo c tickets)
    {lo i : Nat} {tickets tickets' : Tickets} (h : ∀ n, lo ≤ n → n < lo + sizes specs → cursors' n = cursors n)
    (ht : ∀ j, i ≤ j → tickets'.child j = tickets.child j) (ha : AgreeAll cursors lo i specs tickets) :
    AgreeAll cursors' lo i specs tickets' := by
  induction specs generalizing lo i with
  | nil => trivial
  | cons spec specs ih' =>
    rw [sizes] at h
    refine ⟨ht i le_rfl ▸ ih spec List.mem_cons_self (fun n h₁ h₂ => h n h₁ (by omega)) ha.1, ?_⟩
    exact ih' (fun c hc => ih c (List.mem_cons_of_mem _ hc)) (fun n h₁ h₂ => h n (by omega) (by omega))
      (fun j hj => ht j (by omega)) ha.2

/-- Only the cursors of an expression's own nodes matter to it. -/
theorem agree_congr (spec : TargetSpec) : ∀ {lo : Nat} {tickets : Tickets},
    (∀ n, lo ≤ n → n ≤ lo + nested spec → cursors' n = cursors n) → Agree cursors lo spec tickets →
      Agree cursors' lo spec tickets := by
  induction spec using TargetSpec.induction with
  | consumer id => exact fun _ _ => trivial
  | all specs ih =>
    intro lo tickets h ha
    exact agreeAll_congr ih (fun n h₁ h₂ => h n h₁ (Nat.le_of_lt h₂)) (fun _ _ => rfl) ha
  | split strategy among weights ih =>
    intro lo tickets h ha
    exact ⟨(h _ (Nat.le_add_right ..) le_rfl).trans ha.1,
      agreeAll_congr ih (fun n h₁ h₂ => h n h₁ (Nat.le_of_lt h₂)) (fun _ _ => rfl) ha.2⟩

theorem exists_agreeAll {cursors : Cursors} {specs : List TargetSpec}
    (ih : ∀ c ∈ specs, ∀ lo, ∃ tickets, Agree cursors lo c tickets) (lo i : Nat) :
    ∃ tickets, AgreeAll cursors lo i specs tickets := by
  induction specs generalizing lo i with
  | nil => exact ⟨fun _ => 0, trivial⟩
  | cons spec specs ih' =>
    obtain ⟨sub, agree⟩ := ih spec List.mem_cons_self lo
    obtain ⟨tickets, agrees⟩ := ih' (fun c hc => ih c (List.mem_cons_of_mem _ hc)) (lo + nested spec + 1) (i + 1)
    refine ⟨tickets.setChild i sub, ?_, ?_⟩
    · rwa [Tickets.child_setChild_same]
    · exact agreeAll_congr (fun c _ _ _ => agree_congr c) (fun _ _ _ => rfl)
        (fun j hj => Tickets.child_setChild_of_ne _ (by omega) _) agrees

/-- Whatever the cursors are, there are tickets where they are. -/
theorem exists_agree (cursors : Cursors) (spec : TargetSpec) : ∀ lo, ∃ tickets, Agree cursors lo spec tickets := by
  induction spec using TargetSpec.induction with
  | consumer id => exact fun _ => ⟨fun _ => 0, trivial⟩
  | all specs ih => exact fun lo => exists_agreeAll ih lo 0
  | split strategy among weights ih =>
    intro lo
    obtain ⟨tickets, agrees⟩ := exists_agreeAll ih lo 0
    refine ⟨tickets.setHead (cursors (lo + sizes among)), rfl, ?_⟩
    exact agreeAll_congr (fun c _ _ _ => agree_congr c) (fun _ _ _ => rfl) (fun j _ => Tickets.child_setHead ..) agrees

end TargetSpec

/-- Adds a consumer that is not there yet. -/
def pushNew (out : List ConsumerId) (id : ConsumerId) : List ConsumerId := if out.contains id then out else out ++ [id]

/-- What a walk from `cursors` over the nodes from `lo` to before `hi` leaves: `ids` are added, no other node's
    cursor has moved. -/
structure Walked (lo hi : Nat) (out : List ConsumerId) (cursors : Cursors) (ids : List ConsumerId)
    (result : List ConsumerId × Cursors) : Prop where
  out : result.1 = ids.foldl pushNew out
  frame : ∀ n, n < lo ∨ hi ≤ n → result.2 n = cursors n

/-- A walk over a placed expression follows what the expression denotes. -/
def Follows (table : RouteTable m) (spec : TargetSpec) : Prop :=
  ∀ (fuel : Nat) (key : Option Nat) (out : List ConsumerId) {lo : Nat} {cursors : Cursors} {tickets : Tickets},
    nested spec < fuel → Placed table.nodes table.children lo spec → Agree cursors lo spec tickets →
      let result := table.walk fuel (lo + nested spec) key (out, cursors)
      Walked lo (lo + nested spec + 1) out cursors (spec.denote key tickets).1 result ∧
        Agree result.2 lo spec (spec.denote key tickets).2

theorem denoteAll_child {i j : Nat} (h : j < i) (specs : List TargetSpec) (key : Option Nat) (tickets : Tickets) :
    (denoteAll i specs key tickets).2.child j = tickets.child j := by
  induction specs generalizing i tickets with
  | nil => rfl
  | cons spec specs ih =>
    rw [denoteAll]
    exact (ih (by omega) _).trans (Tickets.child_setChild_of_ne _ (by omega) _)

theorem walk_all {table : RouteTable m} {specs : List TargetSpec} (ih : ∀ c ∈ specs, Follows table c) {fuel : Nat}
    (key : Option Nat) (out : List ConsumerId) {lo i : Nat} {cursors : Cursors} {tickets : Tickets} (hf : sizes specs ≤ fuel)
    (hp : PlacedAll table.nodes table.children lo specs) (ha : AgreeAll cursors lo i specs tickets) :
    let result := (roots lo specs).foldl (fun state child => table.walk fuel child key state) (out, cursors)
    Walked lo (lo + sizes specs) out cursors (denoteAll i specs key tickets).1 result ∧
      AgreeAll result.2 lo i specs (denoteAll i specs key tickets).2 := by
  induction specs generalizing lo i out cursors tickets with
  | nil => exact ⟨⟨rfl, fun _ _ => rfl⟩, trivial⟩
  | cons spec specs ih' =>
    rw [sizes] at hf ⊢
    obtain ⟨w₁, a₁⟩ := ih spec List.mem_cons_self fuel key out (by omega) hp.1 ha.1
    rw [roots, List.foldl_cons, denoteAll]
    generalize table.walk fuel (lo + nested spec) key (out, cursors) = state at w₁ a₁ ⊢
    obtain ⟨out₁, cursors₁⟩ := state
    obtain ⟨hout, hframe⟩ := w₁
    dsimp only at hout hframe
    have ha₂ : AgreeAll cursors₁ (lo + nested spec + 1) (i + 1) specs
        (tickets.setChild i (spec.denote key (tickets.child i)).2) :=
      agreeAll_congr (fun c _ _ _ => agree_congr c) (fun n h _ => hframe n (Or.inr h))
        (fun j hj => Tickets.child_setChild_of_ne _ (by omega) _) ha.2
    obtain ⟨w₂, a₂⟩ := ih' (fun c hc => ih c (List.mem_cons_of_mem _ hc)) out₁ (by omega) hp.2 ha₂
    refine ⟨⟨?_, fun n hn => ?_⟩, ?_, a₂⟩
    · rw [w₂.out, hout, ← List.foldl_append]
    · rw [w₂.frame n (by omega), hframe n (by omega)]
    · rw [denoteAll_child (Nat.lt_succ_self i), Tickets.child_setChild_same]
      exact agree_congr spec (fun n _ hn => w₂.frame n (Or.inl (by omega))) a₁

/-- The child `i` of a placed group: where it is, and what its moving leaves for the group. -/
theorem placed_child {nodes : List Node} {children : List Nat} {specs : List TargetSpec} {i : Nat} {c : TargetSpec}
    (hc : specs[i]? = some c) {lo j : Nat} {cursors : Cursors} {tickets : Tickets} (hp : PlacedAll nodes children lo specs)
    (ha : AgreeAll cursors lo j specs tickets) :
    ∃ lo', lo ≤ lo' ∧ lo' + nested c < lo + sizes specs ∧ (roots lo specs)[i]? = some (lo' + nested c) ∧
      Placed nodes children lo' c ∧ Agree cursors lo' c (tickets.child (j + i)) ∧
      ∀ (cursors' : Cursors) (sub : Tickets), (∀ n, n < lo' ∨ lo' + nested c < n → cursors' n = cursors n) →
        Agree cursors' lo' c sub → AgreeAll cursors' lo j specs (tickets.setChild (j + i) sub) := by
  induction specs generalizing i lo j with
  | nil => cases hc
  | cons spec specs ih =>
    rw [sizes]
    cases i with
    | zero =>
      cases hc
      refine ⟨lo, le_rfl, by omega, rfl, hp.1, ha.1, fun cursors' sub hframe hsub => ⟨?_, ?_⟩⟩
      · rwa [Nat.add_zero, Tickets.child_setChild_same]
      · exact agreeAll_congr (fun c _ _ _ => agree_congr c) (fun n h _ => hframe n (Or.inr (by omega)))
          (fun k hk => Tickets.child_setChild_of_ne _ (by omega) _) ha.2
    | succ i =>
      obtain ⟨lo', hle, hlt, hroot, hplaced, hagree, hset⟩ := ih hc hp.2 ha.2
      rw [Nat.add_right_comm j 1 i] at hagree hset
      refine ⟨lo', by omega, by omega, hroot, hplaced, hagree, fun cursors' sub hframe hsub => ⟨?_, hset cursors' sub hframe hsub⟩⟩
      rw [Tickets.child_setChild_of_ne _ (by omega)]
      exact agree_congr spec (fun n _ hn => hframe n (Or.inl (by omega))) ha.1

theorem walk_follows (table : RouteTable m) (spec : TargetSpec) : Follows table spec := by
  induction spec using TargetSpec.induction with
  | consumer id =>
    intro fuel key out lo cursors tickets hf hp _
    obtain ⟨fuel, rfl⟩ := Nat.exists_eq_add_one_of_ne_zero (Nat.ne_zero_of_lt hf)
    simp only [RouteTable.walk, nested, Nat.add_zero, show table.nodes[lo]? = some (.consumer id) from hp]
    exact ⟨⟨rfl, fun _ _ => rfl⟩, trivial⟩
  | all specs ih =>
    intro fuel key out lo cursors tickets hf hp ha
    obtain ⟨fuel, rfl⟩ := Nat.exists_eq_add_one_of_ne_zero (Nat.ne_zero_of_lt hf)
    obtain ⟨range, hn, -, hs, hp⟩ := hp
    simp only [RouteTable.walk, nested, hn, RouteTable.childSlice, hs]
    obtain ⟨w, a⟩ := walk_all ih key out (Nat.le_of_lt_succ hf) hp ha
    exact ⟨⟨w.out, fun n hn => w.frame n (by omega)⟩, a⟩
  | split strategy among weights ih =>
    intro fuel key out lo cursors tickets hf hp ha
    obtain ⟨fuel, rfl⟩ := Nat.exists_eq_add_one_of_ne_zero (Nat.ne_zero_of_lt hf)
    obtain ⟨range, schedule, hn, hne, hs, hpick, hp⟩ := hp
    rw [nested] at hf
    obtain ⟨hcur, ha⟩ := ha
    have hlen := length_roots lo among
    have hsome : (roots lo among).isEmpty = false := by
      rw [List.isEmpty_eq_false_iff, ← List.length_pos_iff, hlen]
      exact List.length_pos_iff.mpr hne
    simp only [RouteTable.walk, nested, hn, RouteTable.childSlice, hs, hsome, hlen, hpick, hcur, denote,
      Bool.false_eq_true, if_false]
    generalize strategy.select weights among.length key (tickets []) = picked
    obtain ⟨i, childKey, ticket⟩ := picked
    -- The split's own cursor is none of its children's.
    have ha' : AgreeAll (Function.update cursors (lo + sizes among) ticket) lo 0 among (tickets.setHead ticket) :=
      agreeAll_congr (fun c _ _ _ => agree_congr c) (fun n _ h => Function.update_of_ne (Nat.ne_of_lt h) ..)
        (fun j _ => Tickets.child_setHead tickets ticket j) ha
    cases hc : among[i]? with
    | none =>
      have : (roots lo among)[i]? = none := by
        rw [List.getElem?_eq_none_iff, hlen]
        exact List.getElem?_eq_none_iff.mp hc
      simp only [this, denoteNth_none hc]
      refine ⟨⟨rfl, fun n hn => Function.update_of_ne (by omega) ..⟩, Function.update_self .., ?_⟩
      exact agreeAll_congr (fun c _ _ _ => agree_congr c) (fun _ _ _ => rfl)
        (fun j _ => Tickets.child_setChild_child (tickets.setHead ticket) i j) ha'
    | some c =>
      obtain ⟨lo', hle, hlt, hroot, hplaced, hagree, hset⟩ := placed_child hc hp ha'
      rw [Nat.zero_add] at hagree hset
      simp only [hroot, denoteNth_eq hc]
      obtain ⟨w, a⟩ := ih c (List.mem_of_getElem? hc) fuel childKey out (by omega) hplaced hagree
      refine ⟨⟨w.out, fun n hn => ?_⟩, ?_, hset _ _ (fun n hn => w.frame n (by omega)) a⟩
      · rw [w.frame n (by omega), Function.update_of_ne (by omega)]
      · rw [w.frame _ (by omega), Function.update_self]
        rfl

end Tgin.Rules
