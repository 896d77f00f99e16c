import Tgin.Rules.Route

/-! Nested hash splits read the key in mixed radix: each takes one digit and hands the quotient on, through `all`
    and the splits of other strategies. So a leaf receives the keys whose digits are those of its path. -/

namespace Tgin.Rules
open TargetSpec

variable {m : Matchers}

/-- The hash splits on the way to a leaf, outermost first: the child taken, of how many. -/
abbrev Digits := List (Nat × Nat)

def modulus : Digits → Nat
  | [] => 1
  | (_, base) :: digits => base * modulus digits

def value : Digits → Nat
  | [] => 0
  | (digit, base) :: digits => digit + base * value digits

theorem mod_modulus {digit base : Nat} (h : digit < base) (key : Nat) (digits : Digits) :
    key % modulus ((digit, base) :: digits) = value ((digit, base) :: digits) ↔
      key % base = digit ∧ key / base % modulus digits = value digits := by
  rw [modulus, value, Nat.mod_mul]
  constructor
  · intro eq
    have low := congrArg (· % base) eq
    simp only [Nat.add_mul_mod_self_left, Nat.mod_mod, Nat.mod_eq_of_lt h] at low
    rw [low] at eq
    exact ⟨low, Nat.eq_of_mul_eq_mul_left (Nat.zero_lt_of_lt h) (Nat.add_left_cancel eq)⟩
  · rintro ⟨rfl, high⟩
    rw [high]

namespace TargetSpec

/-! ### Leaves -/

/-- The leaf of an expression at a path, through the children that the splits of other strategies give to their next
    tickets, and the digits of the hash splits on the path. -/
inductive LeafAt : Tickets → TargetSpec → Digits → List Nat → ConsumerId → Prop
  | consumer {tickets : Tickets} {id : ConsumerId} : LeafAt tickets (.consumer id) [] [] id
  | all {tickets : Tickets} {children : List TargetSpec} {i : Nat} {c : TargetSpec} {digits : Digits} {path : List Nat}
      {id : ConsumerId} (child : children[i]? = some c) (leaf : LeafAt (tickets.child i) c digits path id) :
      LeafAt tickets (.all children) digits (i :: path) id
  | hashChat {tickets : Tickets} {among : List TargetSpec} {weights : List UInt32} {i : Nat} {c : TargetSpec} {digits : Digits}
      {path : List Nat} {id : ConsumerId} (child : among[i]? = some c) (leaf : LeafAt (tickets.child i) c digits path id) :
      LeafAt tickets (.split .hashChat among weights) ((i, among.length) :: digits) (i :: path) id
  | picked {tickets : Tickets} {strategy : SplitStrategy} {among : List TargetSpec} {weights : List UInt32} {i : Nat}
      {c : TargetSpec} {digits : Digits} {path : List Nat} {id : ConsumerId} (other : strategy ≠ .hashChat)
      (pick : (strategy.select weights among.length none (tickets [])).1 = i) (child : among[i]? = some c)
      (leaf : LeafAt (tickets.child i) c digits path id) : LeafAt tickets (.split strategy among weights) digits (i :: path) id

theorem LeafAt.value_lt {tickets : Tickets} {spec : TargetSpec} {digits : Digits} {path : List Nat} {id : ConsumerId}
    (h : LeafAt tickets spec digits path id) : value digits < modulus digits := by
  induction h with
  | consumer => exact Nat.zero_lt_one
  | all _ _ ih => exact ih
  | picked _ _ _ _ ih => exact ih
  | @hashChat _ among _ i _ digits _ _ child _ ih =>
    have digit : i < among.length := (List.getElem?_eq_some_iff.mp child).1
    rw [value, modulus]
    calc i + among.length * value digits < among.length + among.length * value digits := Nat.add_lt_add_right digit _
      _ = among.length * (value digits + 1) := by rw [Nat.mul_succ, Nat.add_comm]
      _ ≤ among.length * modulus digits := Nat.mul_le_mul_left _ ih

mutual

/-- The leaves an update with a key reaches, by path. -/
def reach : TargetSpec → Nat → Tickets → List (List Nat × ConsumerId)
  | .consumer id, _, _ => [([], id)]
  | .all children, key, tickets => reachAll 0 children key tickets
  | .split strategy among weights, key, tickets =>
    let (i, childKey, _) := strategy.select weights among.length (some key) (tickets [])
    (reachNth among i (childKey.getD key) (tickets.child i)).map (Prod.map (i :: ·) id)

def reachAll : Nat → List TargetSpec → Nat → Tickets → List (List Nat × ConsumerId)
  | _, [], _, _ => []
  | i, spec :: specs, key, tickets =>
    (reach spec key (tickets.child i)).map (Prod.map (i :: ·) id) ++ reachAll (i + 1) specs key tickets

def reachNth : List TargetSpec → Nat → Nat → Tickets → List (List Nat × ConsumerId)
  | [], _, _, _ => []
  | spec :: _, 0, key, tickets => reach spec key tickets
  | _ :: specs, i + 1, key, tickets => reachNth specs i key tickets

end

theorem reachNth_eq (specs : List TargetSpec) (i key : Nat) (tickets : Tickets) :
    reachNth specs i key tickets = specs[i]?.elim [] fun spec => reach spec key tickets := by
  induction specs generalizing i with
  | nil => rfl
  | cons s specs ih =>
    cases i with
    | zero => rfl
    | succ i => exact ih i

theorem select_key (strategy : SplitStrategy) (weights : List UInt32) (children key ticket : Nat) :
    ∃ childKey, (strategy.select weights children (some key) ticket).2.1 = some childKey := by
  cases strategy <;> exact ⟨_, rfl⟩

/-- A split of another strategy picks by its tickets and hands the key on. -/
theorem select_other {strategy : SplitStrategy} (other : strategy ≠ .hashChat) (weights : List UInt32) (children key ticket : Nat) :
    (strategy.select weights children (some key) ticket).1 = (strategy.select weights children none ticket).1 ∧
      (strategy.select weights children (some key) ticket).2.1 = some key := by
  cases strategy with
  | hashChat => exact absurd rfl other
  | roundRobin => exact ⟨rfl, rfl⟩
  | weighted => exact ⟨rfl, rfl⟩

theorem denoteAll_reach {specs : List TargetSpec}
    (ih : ∀ c ∈ specs, ∀ key tickets, (denote c (some key) tickets).1 = (reach c key tickets).map (·.2)) (i key : Nat)
    {tickets tickets' : Tickets} (same : ∀ j, i ≤ j → tickets'.child j = tickets.child j) :
    (denoteAll i specs (some key) tickets').1 = (reachAll i specs key tickets).map (·.2) := by
  induction specs generalizing i tickets' with
  | nil => rfl
  | cons spec specs ih' =>
    simp only [denoteAll, reachAll, List.map_append, List.map_map, same i le_rfl]
    congr 1
    · exact ih spec List.mem_cons_self key _
    · refine ih' (fun c hc => ih c (List.mem_cons_of_mem _ hc)) (i + 1) fun j hj => ?_
      rw [Tickets.child_setChild_of_ne _ (by omega), same j (by omega)]

/-- The consumers an expression denotes are those of the leaves reached. -/
theorem denote_reach (spec : TargetSpec) :
    ∀ key tickets, (denote spec (some key) tickets).1 = (reach spec key tickets).map (·.2) := by
  induction spec using TargetSpec.induction with
  | consumer id => exact fun _ _ => rfl
  | all specs ih => exact fun key tickets => denoteAll_reach ih 0 key fun _ _ => rfl
  | split strategy among weights ih =>
    intro key tickets
    rw [denote, reach]
    obtain ⟨childKey, hkey⟩ := select_key strategy weights among.length key (tickets [])
    generalize strategy.select weights among.length (some key) (tickets []) = picked at hkey ⊢
    obtain ⟨i, key', ticket⟩ := picked
    cases hkey
    simp only [reachNth_eq, List.map_map, Option.getD_some]
    cases hc : among[i]? with
    | none => simp only [denoteNth_none hc, Option.elim_none, List.map_nil]
    | some c =>
      simp only [denoteNth_eq hc, Option.elim_some]
      exact ih c (List.mem_of_getElem? hc) childKey _

theorem mem_reachAll {specs : List TargetSpec} {i key : Nat} {tickets : Tickets} {path : List Nat} {id : ConsumerId} :
    (path, id) ∈ reachAll i specs key tickets ↔
      ∃ j c rest, specs[j]? = some c ∧ path = (i + j) :: rest ∧ (rest, id) ∈ reach c key (tickets.child (i + j)) := by
  induction specs generalizing i with
  | nil => simp [reachAll]
  | cons spec specs ih =>
    rw [reachAll, List.mem_append, ih]
    constructor
    · rintro (h | ⟨j, c, rest, hc, rfl, h⟩)
      · obtain ⟨⟨rest, id'⟩, leaf, he⟩ := List.mem_map.mp h
        obtain ⟨rfl, rfl⟩ := Prod.mk.inj he
        exact ⟨0, spec, rest, rfl, rfl, leaf⟩
      · exact ⟨j + 1, c, rest, hc, by rw [Nat.add_right_comm, Nat.add_assoc], by rwa [Nat.add_right_comm, Nat.add_assoc] at h⟩
    · rintro ⟨j, c, rest, hc, rfl, h⟩
      cases j with
      | zero =>
        cases hc
        exact Or.inl (List.mem_map_of_mem (f := Prod.map (i :: ·) fun id => id) h)
      | succ j =>
        refine Or.inr ⟨j, c, rest, hc, by rw [Nat.add_right_comm, Nat.add_assoc], ?_⟩
        rwa [Nat.add_right_comm, Nat.add_assoc]

theorem mem_reachNth {specs : List TargetSpec} {i key : Nat} {tickets : Tickets} {path : List Nat} {id : ConsumerId} :
    (path, id) ∈ (reachNth specs i key (tickets.child i)).map (Prod.map (i :: ·) fun id => id) ↔
      ∃ c rest, specs[i]? = some c ∧ path = i :: rest ∧ (rest, id) ∈ reach c key (tickets.child i) := by
  rw [reachNth_eq]
  cases hc : specs[i]? with
  | none => simp
  | some c =>
    constructor
    · intro h
      obtain ⟨⟨rest, id'⟩, leaf, he⟩ := List.mem_map.mp h
      obtain ⟨rfl, rfl⟩ := Prod.mk.inj he
      exact ⟨c, rest, rfl, rfl, leaf⟩
    · rintro ⟨c', rest, hc', rfl, leaf⟩
      cases hc'
      exact List.mem_map_of_mem (f := Prod.map (i :: ·) fun id => id) leaf

/-- A leaf is reached by the keys that its path spells, digit by digit. -/
theorem mem_reach (spec : TargetSpec) :
    ∀ {key : Nat} {tickets : Tickets} {path : List Nat} {id : ConsumerId}, (path, id) ∈ reach spec key tickets ↔
      ∃ digits, LeafAt tickets spec digits path id ∧ key % modulus digits = value digits := by
  induction spec using TargetSpec.induction with
  | consumer id =>
    intro key tickets path id'
    constructor
    · intro h
      cases List.mem_singleton.mp h
      exact ⟨[], .consumer, Nat.mod_one key⟩
    · rintro ⟨_, ⟨⟩, -⟩
      exact List.mem_singleton.mpr rfl
  | all specs ih =>
    intro key tickets path id'
    rw [reach, mem_reachAll]
    constructor
    · rintro ⟨i, c, rest, hc, rfl, h⟩
      rw [Nat.zero_add] at h ⊢
      obtain ⟨digits, leaf, hkey⟩ := (ih c (List.mem_of_getElem? hc)).mp h
      exact ⟨digits, .all hc leaf, hkey⟩
    · rintro ⟨digits, leaf, hkey⟩
      cases leaf with
      | @all _ _ i c _ rest _ hc leaf =>
        refine ⟨i, c, rest, hc, by rw [Nat.zero_add], ?_⟩
        rw [Nat.zero_add]
        exact (ih c (List.mem_of_getElem? hc)).mpr ⟨digits, leaf, hkey⟩
  | split strategy among weights ih =>
    intro key tickets path id'
    by_cases hash : strategy = .hashChat
    · subst hash
      rw [reach]
      refine mem_reachNth.trans ⟨?_, ?_⟩
      · rintro ⟨c, rest, hc, rfl, h⟩
        obtain ⟨digits, leaf, hkey⟩ := (ih c (List.mem_of_getElem? hc)).mp h
        exact ⟨_, .hashChat hc leaf, (mod_modulus (List.getElem?_eq_some_iff.mp hc).1 key digits).mpr ⟨rfl, hkey⟩⟩
      · rintro ⟨_, leaf, hkey⟩
        cases leaf with
        | picked other => exact absurd rfl other
        | @hashChat _ _ _ i c digits rest _ hc leaf =>
          obtain ⟨rfl, high⟩ := (mod_modulus (List.getElem?_eq_some_iff.mp hc).1 key digits).mp hkey
          exact ⟨c, rest, hc, rfl, (ih c (List.mem_of_getElem? hc)).mpr ⟨digits, leaf, high⟩⟩
    · obtain ⟨hpick, hkey'⟩ := select_other hash weights among.length key (tickets [])
      rw [reach]
      generalize strategy.select weights among.length (some key) (tickets []) = picked at hpick hkey'
      obtain ⟨i, childKey, ticket⟩ := picked
      dsimp only at hpick hkey'
      subst hkey'
      refine mem_reachNth.trans ⟨?_, ?_⟩
      · rintro ⟨c, rest, hc, rfl, h⟩
        obtain ⟨digits, leaf, hkey⟩ := (ih c (List.mem_of_getElem? hc)).mp h
        exact ⟨digits, .picked hash hpick.symm hc leaf, hkey⟩
      · rintro ⟨digits, leaf, hkey⟩
        cases leaf with
        | hashChat => exact absurd rfl hash
        | @picked _ _ _ _ _ c _ rest _ _ pick hc leaf =>
          obtain rfl := hpick.trans pick
          exact ⟨c, rest, hc, rfl, (ih c (List.mem_of_getElem? hc)).mpr ⟨digits, leaf, hkey⟩⟩

/-- A path has one leaf. -/
theorem LeafAt.unique {tickets : Tickets} {spec : TargetSpec} {digits digits' : Digits} {path : List Nat} {id id' : ConsumerId}
    (h : LeafAt tickets spec digits path id) (h' : LeafAt tickets spec digits' path id') : digits = digits' ∧ id = id' := by
  induction h generalizing digits' with
  | consumer =>
    cases h'
    exact ⟨rfl, rfl⟩
  | all child _ ih =>
    cases h' with
    | all child' leaf' =>
      cases child.symm.trans child'
      exact ih leaf'
  | hashChat child _ ih =>
    cases h' with
    | picked other => exact absurd rfl other
    | hashChat child' leaf' =>
      cases child.symm.trans child'
      obtain ⟨rfl, rfl⟩ := ih leaf'
      exact ⟨rfl, rfl⟩
  | picked other _ child _ ih =>
    cases h' with
    | hashChat => exact absurd rfl other
    | picked _ _ child' leaf' =>
      cases child.symm.trans child'
      exact ih leaf'

section
variable {tickets : Tickets} {spec : TargetSpec} {digits : Digits} {path : List Nat} {id : ConsumerId}
  (leaf : LeafAt tickets spec digits path id)

include leaf

theorem LeafAt.mem_reach {key : Nat} : (path, id) ∈ reach spec key tickets ↔ key % modulus digits = value digits := by
  rw [TargetSpec.mem_reach]
  constructor
  · rintro ⟨digits', leaf', hkey⟩
    obtain ⟨rfl, -⟩ := leaf.unique leaf'
    exact hkey
  · exact fun hkey => ⟨digits, leaf, hkey⟩

/-- Of the keys below the modulus exactly one reaches a leaf. -/
theorem LeafAt.existsUnique_key : ∃! key, key < modulus digits ∧ (path, id) ∈ reach spec key tickets := by
  refine ⟨value digits, ⟨leaf.value_lt, leaf.mem_reach.mpr (Nat.mod_eq_of_lt leaf.value_lt)⟩, ?_⟩
  rintro key ⟨lt, h⟩
  have hkey := leaf.mem_reach.mp h
  rwa [Nat.mod_eq_of_lt lt] at hkey

/-- Some chat reaches a leaf unless the number of its path is beyond the hash keys. -/
theorem LeafAt.exists_chat : (∃ chat : Int64, (path, id) ∈ reach spec chat.toUInt64.toNat tickets) ↔ value digits < 2 ^ 64 := by
  constructor
  · rintro ⟨chat, h⟩
    rw [← leaf.mem_reach.mp h]
    exact Nat.lt_of_le_of_lt (Nat.mod_le ..) chat.toUInt64.toNat_lt
  · intro lt
    refine ⟨(UInt64.ofNat (value digits)).toInt64, leaf.mem_reach.mpr ?_⟩
    rw [UInt64.toUInt64_toInt64, UInt64.toNat_ofNat_of_lt' lt]
    exact Nat.mod_eq_of_lt leaf.value_lt

end

/-! ### Trees without other splits -/

mutual

/-- An expression whose splits are all hash splits. -/
def OnlyHash : TargetSpec → Prop
  | .consumer _ => True
  | .all children => OnlyHashAll children
  | .split strategy among _ => strategy = .hashChat ∧ OnlyHashAll among

def OnlyHashAll : List TargetSpec → Prop
  | [] => True
  | spec :: specs => OnlyHash spec ∧ OnlyHashAll specs

end

theorem onlyHashAll_iff {specs : List TargetSpec} : OnlyHashAll specs ↔ ∀ c ∈ specs, OnlyHash c := by
  induction specs with
  | nil => simp [OnlyHashAll]
  | cons spec specs ih => rw [OnlyHashAll, ih, List.forall_mem_cons]

theorem reachAll_sticky {specs : List TargetSpec} (ih : ∀ c ∈ specs, ∀ key tickets tickets', reach c key tickets = reach c key tickets')
    (i key : Nat) (tickets tickets' : Tickets) : reachAll i specs key tickets = reachAll i specs key tickets' := by
  induction specs generalizing i with
  | nil => rfl
  | cons spec specs ih' =>
    rw [reachAll, reachAll, ih spec List.mem_cons_self key (tickets.child i) (tickets'.child i),
      ih' (fun c hc => ih c (List.mem_cons_of_mem _ hc))]

/-- Without other splits the tickets do not matter: a key always reaches the same leaves. -/
theorem reach_sticky (spec : TargetSpec) :
    OnlyHash spec → ∀ key tickets tickets', reach spec key tickets = reach spec key tickets' := by
  induction spec using TargetSpec.induction with
  | consumer id => exact fun _ _ _ _ => rfl
  | all specs ih =>
    intro only key tickets tickets'
    exact reachAll_sticky (fun c hc => ih c hc (onlyHashAll_iff.mp only c hc)) 0 key tickets tickets'
  | split strategy among weights ih =>
    rintro ⟨rfl, only⟩ key tickets tickets'
    simp only [reach, reachNth_eq, SplitStrategy.select]
    cases hc : among[key % among.length]? with
    | none => rfl
    | some c =>
      have hmem := List.mem_of_getElem? hc
      rw [Option.elim_some, Option.elim_some, ih c hmem (onlyHashAll_iff.mp only c hmem) _ _ (tickets'.child _)]

end TargetSpec

/-! ### Routed updates -/

/-- How an update with a key goes to the leaves of an expression. -/
structure ByKey (spec : TargetSpec) (tickets : Tickets) (key : Nat) (ids : List ConsumerId) : Prop where
  ids : ids = ((spec.reach key tickets).map (·.2)).eraseDups
  leaves : ∀ path id, (path, id) ∈ spec.reach key tickets → ∃ digits, LeafAt tickets spec digits path id
  digits : ∀ digits path id, LeafAt tickets spec digits path id →
    ((path, id) ∈ spec.reach key tickets ↔ key % modulus digits = value digits)
  sticky : OnlyHash spec → ∀ tickets', spec.reach key tickets' = spec.reach key tickets
  /-- One key of each residue, whatever the digits of the outer splits are. -/
  apart : OnlyHash spec → ∀ digits path id, LeafAt tickets spec digits path id →
    ∃! key, key < modulus digits ∧ (path, id) ∈ spec.reach key tickets
  reachable : OnlyHash spec → ∀ digits path id, LeafAt tickets spec digits path id →
    ((∃ chat : Int64, (path, id) ∈ spec.reach chat.toUInt64.toNat tickets) ↔ value digits < 2 ^ 64)

/-- An update that a rule routes goes to the leaves of the rule's targets whose digits its key has. -/
theorem route_hashes {isMatch : Str → Str → Bool} {owns : m.Regex → m.Cache → Prop} (lawful : m.Lawful isMatch owns)
    {rules : List (SourceId × List RuleSpec)} {botUsernames : List (SourceId × Option Str)} {address : Nat} {table : RouteTable m}
    (compiled : RouteTable.compile address rules botUsernames = .ok table) (small : table.nodes.length < 2 ^ 32)
    {source : SourceId} {facts : Facts} {key : Nat} (keyed : facts.orderingKey = some key) {cursors : Cursors}
    {scratch : MatchScratch m} {i : Nat} {ids : List ConsumerId}
    (routed : (table.route source facts cursors scratch).1 = (some i, ids)) :
    ∃ entry spec lo tickets, rules.find? (·.1 = source) = some entry ∧ entry.2[i]? = some spec ∧
      Placed table.nodes table.children lo spec.target ∧ Agree cursors lo spec.target tickets ∧
      ByKey spec.target tickets key ids := by
  obtain ⟨b, compiled⟩ := compile_compiles compiled
  obtain ⟨entry, spec, lo, tickets, found, listed, placed, agree, hids⟩ := route_walks lawful compiled small routed
  refine ⟨entry, spec, lo, tickets, found, listed, placed, agree, ?_⟩
  refine ⟨?_, fun path id h => ?_, fun digits path id leaf => leaf.mem_reach, fun only tickets' => ?_,
    fun _ digits path id leaf => leaf.existsUnique_key, fun _ digits path id leaf => leaf.exists_chat⟩
  · rw [hids, keyed, denote_reach]
  · obtain ⟨digits, leaf, -⟩ := (mem_reach _).mp h
    exact ⟨digits, leaf⟩
  · exact reach_sticky _ only ..

/-- Two levels of hash splits over four consumers. -/
def nestedPairs : List (SourceId × List RuleSpec) :=
  [(0, [{ predicates := {}, targets := [.split .hashChat
    [.split .hashChat [.consumer 1, .consumer 2] [], .split .hashChat [.consumer 3, .consumer 4] []] []] }])]

def nestedTable : RouteTable literal where
  sources := [some {
    rules := [
      { updateTypes := [], chatIds := [], chatTypes := 0, userIds := [], commands := none, text := none,
        callbackData := none, root := 6 }],
    username := none }]
  nodes := [.consumer 1, .consumer 2, .split .hashChat { start := 0, stop := 2 } [], .consumer 3, .consumer 4,
    .split .hashChat { start := 2, stop := 4 } [], .split .hashChat { start := 4, stop := 6 } []]
  children := [0, 1, 3, 4, 2, 5]
  textRegex := none
  callbackRegex := none
  token := 0

theorem route_hashes_nestedPairs :
    ∃ entry spec lo tickets, nestedPairs.find? (·.1 = 0) = some entry ∧ entry.2[0]? = some spec ∧
      Placed nestedTable.nodes nestedTable.children lo spec.target ∧ Agree (fun _ => 0) lo spec.target tickets ∧
      ByKey spec.target tickets 6 [2] := by
  have compiled : RouteTable.compile (m := literal) 0 nestedPairs [] = .ok nestedTable := rfl
  have routed : (nestedTable.route 0 { (default : Facts) with chatId := some 6 } (fun _ => 0) .default).1 = (some 0, [2]) := rfl
  exact route_hashes literal_lawful compiled (by decide) rfl routed

/-- Hash splits nested `n` deep, the innermost giving its second child consumer 1. -/
def deep : Nat → TargetSpec
  | 0 => .consumer 1
  | n + 1 => .split .hashChat [.consumer 0, deep n] []

def deepPairs : List (SourceId × List RuleSpec) := [(0, [{ predicates := {}, targets := [deep 65] }])]

theorem deepPairs_compiles :
    ∃ table : RouteTable literal, RouteTable.compile 0 deepPairs [] = .ok table ∧ table.nodes.length < 2 ^ 32 := by
  have ok : (RouteTable.compile (m := literal) 0 deepPairs []).toOption.any (fun table => table.nodes.length < 2 ^ 32) = true := by
    decide +kernel
  obtain ⟨table, compiled, small⟩ := Option.any_eq_true .. |>.mp ok
  cases h : RouteTable.compile (m := literal) 0 deepPairs [] with
  | error e =>
    rw [h] at compiled
    cases compiled
  | ok _ =>
    rw [h] at compiled
    cases compiled
    exact ⟨table, rfl, of_decide_eq_true small⟩

theorem deep_value {n : Nat} {tickets : Tickets} {digits : Digits} {path : List Nat}
    (leaf : LeafAt tickets (deep n) digits path 1) : value digits + 1 = 2 ^ n := by
  induction n generalizing tickets digits path with
  | zero =>
    cases leaf
    rfl
  | succ n ih =>
    cases leaf with
    | picked other => exact absurd rfl other
    | @hashChat _ _ _ i c digits _ _ child leaf =>
      rcases i with _ | _ | i
      · cases child
        cases leaf
      · cases child
        rw [value, Nat.pow_succ, ← ih leaf, List.length_cons, List.length_singleton]
        omega
      · cases child

theorem deep_leaf (n : Nat) (tickets : Tickets) :
    LeafAt tickets (deep n) (List.replicate n (1, 2)) (List.replicate n 1) 1 := by
  induction n generalizing tickets with
  | zero => exact .consumer
  | succ n ih => exact .hashChat rfl (ih _)

theorem deep_onlyHash (n : Nat) : OnlyHash (deep n) := by
  induction n with
  | zero => trivial
  | succ n ih => exact ⟨rfl, trivial, ih, trivial⟩

/-- Keys have 64 bits, so no chat goes to the last leaf of a tree 65 levels deep. -/
theorem route_hashes_deep :
    ∃ table : RouteTable literal, RouteTable.compile 0 deepPairs [] = .ok table ∧ OnlyHash (deep 65) ∧
      (∀ tickets, LeafAt tickets (deep 65) (List.replicate 65 (1, 2)) (List.replicate 65 1) 1) ∧
      ∀ (chat : Int64) (facts : Facts) (cursors : Cursors) (scratch : MatchScratch literal), facts.chatId = some chat →
        1 ∉ (table.route 0 facts cursors scratch).1.2 := by
  obtain ⟨table, compiled, small⟩ := deepPairs_compiles
  refine ⟨table, compiled, deep_onlyHash 65, deep_leaf 65, fun chat facts cursors scratch hchat mem => ?_⟩
  obtain ⟨b, compiled⟩ := compile_compiles compiled
  have keyed : facts.orderingKey = some chat.toUInt64.toNat := by rw [Facts.orderingKey, hchat]; rfl
  cases routed : (table.route 0 facts cursors scratch).1 with
  | mk index ids =>
    rw [routed] at mem
    cases index with
    | none =>
      rw [route_none routed] at mem
      cases mem
    | some i =>
      obtain ⟨entry, spec, lo, tickets, found, listed, -, -, hids⟩ := route_walks literal_lawful compiled small routed
      cases found
      cases i with
      | succ i => cases listed
      | zero =>
        cases listed
        rw [keyed, denote_reach] at hids
        rw [hids, List.mem_eraseDups] at mem
        obtain ⟨⟨path, _⟩, reached, rfl⟩ := List.mem_map.mp mem
        obtain ⟨digits, leaf, hkey⟩ := (mem_reach _).mp reached
        have key := Nat.mod_le chat.toUInt64.toNat (modulus digits)
        have bits := chat.toUInt64.toNat_lt
        have last := deep_value leaf
        omega

end Tgin.Rules
