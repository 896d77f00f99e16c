import Tgin.Rules.Route

/-! What the splits pick as updates are routed: a split that goes by its counter picks the next child, whatever becomes
    of the update. -/

namespace Tgin.Rules
open TargetSpec

variable {m : Matchers}

/-- The child a split gives an update to, by its position. -/
structure Pick where
  node : Nat
  child : Nat
  deriving DecidableEq, Repr

namespace RouteTable
variable (table : RouteTable m)

/-- `walk`, with what the splits on the way pick. -/
def walkPicking : Nat → Nat → Option Nat → (List ConsumerId × Cursors) × List Pick → (List ConsumerId × Cursors) × List Pick
  | 0, _, _, state => state
  | fuel + 1, node, key, ((out, cursors), picks) =>
    match table.nodes[node]? with
    | none => ((out, cursors), picks)
    | some (.consumer id) => ((if out.contains id then out else out ++ [id], cursors), picks)
    | some (.all children) =>
      (table.childSlice children).foldl (fun state child => walkPicking fuel child key state) ((out, cursors), picks)
    | some (.split strategy children schedule) =>
      let children := table.childSlice children
      if children.isEmpty then ((out, cursors), picks)
      else
        let (pick, childKey, cursor) := pickChild strategy schedule children.length key (cursors node)
        let cursors := Function.update cursors node cursor
        let picks := picks ++ [{ node, child := pick }]
        match children[pick]? with
        | none => ((out, cursors), picks)
        | some child => walkPicking fuel child childKey ((out, cursors), picks)

/-- What the splits pick when an update is routed. -/
def picks (source : SourceId) (facts : Facts) (cursors : Cursors) (scratch : MatchScratch m) : List Pick :=
  match table.sources[source.toNat]?.getD none with
  | none => []
  | some rules =>
    match (table.position rules facts rules.rules (scratch.prepare table)).1 with
    | none => []
    | some index =>
      match rules.rules[index]? with
      | none => []
      | some rule => (table.walkPicking table.nodes.length rule.root facts.orderingKey (([], cursors), [])).2

variable {table}

theorem walkPicking_walk (fuel node : Nat) (key : Option Nat) (state : (List ConsumerId × Cursors) × List Pick) :
    (table.walkPicking fuel node key state).1 = table.walk fuel node key state.1 := by
  induction fuel generalizing node key state with
  | zero => rfl
  | succ fuel ih =>
    obtain ⟨⟨out, cursors⟩, picks⟩ := state
    have all (children : List Nat) (state : (List ConsumerId × Cursors) × List Pick) :
        (children.foldl (fun state child => table.walkPicking fuel child key state) state).1 =
          children.foldl (fun state child => table.walk fuel child key state) state.1 := by
      induction children generalizing state with
      | nil => rfl
      | cons child children ih' => rw [List.foldl_cons, List.foldl_cons, ih', ih]
    rw [walkPicking, walk]
    rcases table.nodes[node]? with _ | (id | children | ⟨strategy, children, schedule⟩) <;> dsimp only
    · exact all ..
    · split
      · rfl
      · cases (table.childSlice children)[(pickChild strategy schedule (table.childSlice children).length key (cursors node)).1]? with
        | none => rfl
        | some child => exact ih ..

end RouteTable

/-! ### Counters -/

/-- The children picked are those of consecutive tickets, the counter going from one to the other. -/
def Ticks (next : Nat → Nat) : Nat → List Nat → Nat → Prop
  | cursor, [], cursor' => cursor' = cursor
  | cursor, child :: children, cursor' => child = next cursor ∧ Ticks next (wrappingAdd cursor 1) children cursor'

namespace Ticks
variable {next : Nat → Nat} {cursor cursor' cursor'' : Nat} {children children' : List Nat}

theorem append (h : Ticks next cursor children cursor') (h' : Ticks next cursor' children' cursor'') :
    Ticks next cursor (children ++ children') cursor'' := by
  induction children generalizing cursor with
  | nil =>
    obtain rfl : cursor' = cursor := h
    exact h'
  | cons child children ih => exact ⟨h.1, ih h.2⟩

/-- A counter that does not wrap counts. -/
theorem eq_map (h : Ticks next cursor children cursor') (fits : cursor + children.length ≤ wordSize) :
    children = (List.range' cursor children.length).map next := by
  induction children generalizing cursor with
  | nil => rfl
  | cons child children ih =>
    obtain ⟨rfl, h⟩ := h
    rw [List.length_cons] at fits
    rw [List.length_cons, List.range'_succ, List.map_cons]
    rcases children with _ | ⟨child, children⟩
    · rfl
    · have more : wrappingAdd cursor 1 = cursor + 1 := Nat.mod_eq_of_lt (by rw [List.length_cons] at fits; omega)
      rw [more] at h
      rw [← ih h (by omega)]

end Ticks

/-- The children picked at a node. -/
def picksAt (node : Nat) (picks : List Pick) : List Nat := (picks.filter (·.node = node)).map (·.child)

theorem picksAt_append (node : Nat) (picks picks' : List Pick) :
    picksAt node (picks ++ picks') = picksAt node picks ++ picksAt node picks' := by
  simp only [picksAt, List.filter_append, List.map_append]

/-- Picks at different nodes: one of them at most is a node's. -/
theorem toList_find? {picks : List Pick} (nodup : (picks.map (·.node)).Nodup) (node : Nat) :
    ((picks.find? (·.node = node)).map (·.child)).toList = picksAt node picks := by
  induction picks with
  | nil => rfl
  | cons p picks ih =>
    rw [List.map_cons, List.nodup_cons] at nodup
    rw [List.find?_cons, picksAt, List.filter_cons]
    by_cases here : p.node = node
    · have rest : picks.filter (·.node = node) = [] := by
        refine List.filter_eq_nil_iff.mpr fun q hq same => nodup.1 ?_
        rw [here, ← of_decide_eq_true same]
        exact List.mem_map_of_mem hq
      simp only [here, decide_true, if_true, rest]
      rfl
    · simp only [here, decide_false, Bool.false_eq_true, if_false]
      exact ih nodup.2

/-- The child a split that goes by its counter picks for a ticket. -/
def nextChild (strategy : SplitStrategy) (schedule : List Nat) (len ticket : Nat) : Nat :=
  (pickChild strategy schedule len none ticket).1

theorem pickChild_turn {strategy : SplitStrategy} (turn : strategy ≠ .hashChat) (schedule : List Nat) (len : Nat)
    (key : Option Nat) (cursor : Nat) :
    pickChild strategy schedule len key cursor = (nextChild strategy schedule len cursor, key, wrappingAdd cursor 1) := by
  cases strategy with
  | hashChat => exact absurd rfl turn
  | roundRobin => cases key <;> rfl
  | weighted => cases key <;> rfl

/-- Between two states of a walk the counter of a node ticks for what is picked there. -/
def Moves (node : Nat) (next : Nat → Nat) (state state' : (List ConsumerId × Cursors) × List Pick) : Prop :=
  ∃ new, state'.2 = state.2 ++ new ∧ Ticks next (state.1.2 node) (picksAt node new) (state'.1.2 node)

namespace Moves
variable {node : Nat} {next : Nat → Nat} {state state' state'' : (List ConsumerId × Cursors) × List Pick}

theorem still (out out' : List ConsumerId) (cursors : Cursors) (picks : List Pick) :
    Moves node next ((out, cursors), picks) ((out', cursors), picks) := ⟨[], (List.append_nil _).symm, rfl⟩

theorem trans (h : Moves node next state state') (h' : Moves node next state' state'') : Moves node next state state'' := by
  obtain ⟨new, hn, ht⟩ := h
  obtain ⟨more, hm, ht'⟩ := h'
  refine ⟨new ++ more, by rw [hm, hn, List.append_assoc], ?_⟩
  rw [picksAt_append]
  exact ht.append ht'

/-- A split of a table's moves its own counter only. -/
theorem pick {table : RouteTable m} {strategy : SplitStrategy} {range : Range} {schedule : List Nat}
    (split : table.nodes[node]? = some (.split strategy range schedule)) (turn : strategy ≠ .hashChat) {n : Nat}
    {strategy' : SplitStrategy} {range' : Range} {schedule' : List Nat}
    (here : table.nodes[n]? = some (.split strategy' range' schedule')) (out : List ConsumerId) (cursors : Cursors)
    (picks : List Pick) (key : Option Nat) :
    let picked := pickChild strategy' schedule' (table.childSlice range').length key (cursors n)
    Moves node (nextChild strategy schedule (table.childSlice range).length) ((out, cursors), picks)
      ((out, Function.update cursors n picked.2.2), picks ++ [{ node := n, child := picked.1 }]) := by
  refine ⟨[_], rfl, ?_⟩
  by_cases hn : n = node
  · subst hn
    cases split.symm.trans here
    simp only [pickChild_turn turn, Function.update_self, picksAt, List.filter_cons, decide_true, if_true]
    exact ⟨rfl, rfl⟩
  · simp only [picksAt, List.filter_cons, hn, decide_false, Function.update_of_ne (Ne.symm hn)]
    exact rfl

end Moves

/-- What a walk picks at a node moves the node's counter. -/
theorem walkPicking_moves {table : RouteTable m} {node : Nat} {strategy : SplitStrategy} {range : Range} {schedule : List Nat}
    (split : table.nodes[node]? = some (.split strategy range schedule)) (turn : strategy ≠ .hashChat) (fuel n : Nat)
    (key : Option Nat) (state : (List ConsumerId × Cursors) × List Pick) :
    Moves node (nextChild strategy schedule (table.childSlice range).length) state (table.walkPicking fuel n key state) := by
  induction fuel generalizing n key state with
  | zero => exact .still ..
  | succ fuel ih =>
    have all (children : List Nat) (state : (List ConsumerId × Cursors) × List Pick) :
        Moves node (nextChild strategy schedule (table.childSlice range).length) state
          (children.foldl (fun state child => table.walkPicking fuel child key state) state) := by
      induction children generalizing state with
      | nil => exact .still ..
      | cons child children ih' => exact (ih child key state).trans (ih' _)
    obtain ⟨⟨out, cursors⟩, picks⟩ := state
    rw [RouteTable.walkPicking]
    rcases here : table.nodes[n]? with _ | (id | children | ⟨strategy', range', schedule'⟩) <;> dsimp only
    · exact .still ..
    · exact .still ..
    · exact all ..
    · split
      · exact .still ..
      · have picked := Moves.pick split turn here out cursors picks key
        split
        · exact picked
        · exact picked.trans (ih ..)

/-! ### Weighted splits -/

/-- What a weighted split among `len` children picks for so many updates, its counter starting at `cursor`. -/
def turns (schedule : List Nat) (len : Nat) (key : Option Nat) : Nat → Nat → List Nat
  | 0, _ => []
  | n + 1, cursor =>
    let (pick, _, cursor) := pickChild .weighted schedule len key cursor
    pick :: turns schedule len key n cursor

theorem length_turns (schedule : List Nat) (len : Nat) (key : Option Nat) (n cursor : Nat) :
    (turns schedule len key n cursor).length = n := by
  induction n generalizing cursor with
  | zero => rfl
  | succ n ih => rw [turns, List.length_cons, ih]

theorem turns_ticks (schedule : List Nat) (len : Nat) (key : Option Nat) (n cursor : Nat) :
    ∃ cursor', Ticks (nextChild .weighted schedule len) cursor (turns schedule len key n cursor) cursor' := by
  induction n generalizing cursor with
  | zero => exact ⟨cursor, rfl⟩
  | succ n ih =>
    rw [turns, pickChild_turn (fun h => by cases h)]
    obtain ⟨cursor', ticks⟩ := ih (wrappingAdd cursor 1)
    exact ⟨cursor', rfl, ticks⟩

/-- A schedule whose children of nonzero weight have indices picks by tickets as smooth weighted round robin does. -/
theorem nextChild_rounds {weights : List UInt32} (pos : 0 < period weights) (len : Nat) :
    nextChild .weighted (rounds weights) len = weightedChild weights := by
  funext ticket
  have lt : ticket % period weights < period weights := Nat.mod_lt _ pos
  have some : (rounds weights).isEmpty = false := by
    rw [List.isEmpty_eq_false_iff, ← List.length_pos_iff, length_rounds]
    exact pos
  simp only [nextChild, pickChild, some, Bool.false_eq_true, if_false]
  rw [length_rounds, List.getD_eq_getElem?_getD, getElem?_rounds lt, Option.getD_some, weightedChild_mod pos]

/-- Weights of which one is not zero, and whose sum over their gcd the schedule may have, give a schedule of that length with
    each child its weight over the gcd many times; and so often any window of as many tickets picks it. -/
theorem smoothWrrSchedule_counts (weights : List UInt32) (nonzero : ∃ w ∈ weights, w ≠ 0)
    (accepted : (weights.map (·.toNat)).sum / divisor weights ≤ MAX_WEIGHT_PERIOD)
    (fits : ∀ i, weights.getD i 0 ≠ 0 → i < 2 ^ 32) :
    ∃ schedule, smoothWrrSchedule (m := m) weights = .ok schedule ∧
      schedule.length = (weights.map (·.toNat)).sum / divisor weights ∧
      (∀ i, schedule.count i = (weights.getD i 0).toNat / divisor weights) ∧
      (∀ i ∈ schedule, weights.getD i 0 ≠ 0) ∧
      ∀ (len : Nat) (key : Option Nat) (cursor : Nat), cursor + schedule.length ≤ wordSize →
        ∀ i, (turns schedule len key schedule.length cursor).count i = (weights.getD i 0).toNat / divisor weights := by
  have ne := divisor_ne_zero nonzero
  have pos := period_pos ne
  have total : (weights.map (·.toNat)).sum / divisor weights = period weights := by
    rw [sum_eq, Nat.mul_div_cancel_left _ (Nat.pos_of_ne_zero ne)]
  rw [total] at accepted ⊢
  have weighs {i : Nat} (h : i ∈ rounds weights) : weights.getD i 0 ≠ 0 := by
    intro zero
    have count := count_rounds weights i
    rw [shareOf, zero, UInt32.toNat_zero, Nat.zero_div, List.count_eq_zero] at count
    exact count h
  have exact : (rounds weights).map index = rounds weights :=
    (List.map_congr_left fun i hi => index_eq (fits i (weighs hi))).trans (List.map_id _)
  refine ⟨rounds weights, ?_, length_rounds _, count_rounds weights, fun i => weighs, fun len key cursor below i => ?_⟩
  · rw [smoothWrrSchedule_rounds (Nat.lt_of_le_of_lt accepted (by decide)), if_neg ne, if_neg (Nat.not_lt.mpr accepted), exact]
  · rw [length_rounds] at below ⊢
    obtain ⟨cursor', ticks⟩ := turns_ticks (rounds weights) len key (period weights) cursor
    rw [ticks.eq_map (by rwa [length_turns]), length_turns, nextChild_rounds pos, SmoothWrr.count_period, count_weightedChild]
    · rfl
    · intro t
      rw [← weightedChild_mod pos, Nat.add_mod_right, weightedChild_mod pos]

theorem smoothWrrSchedule_counts_zeroWeight :
    ∃ schedule, smoothWrrSchedule (m := literal) [10, 0, 2] = .ok schedule ∧ schedule.length = 6 ∧
      schedule.count 0 = 5 ∧ schedule.count 1 = 0 ∧ (turns schedule 3 none 6 4).count 2 = 1 := by
  obtain ⟨schedule, ok, length, counts, -, windows⟩ := smoothWrrSchedule_counts (m := literal) [10, 0, 2]
    ⟨10, List.mem_cons_self, by decide⟩ (by decide) fun i weighs => by
      rcases Nat.lt_or_ge i 3 with lt | le
      · omega
      · exact absurd (by rw [List.getD_eq_getElem?_getD, List.getElem?_eq_none le]; rfl) weighs
  have six : schedule.length = 6 := length
  exact ⟨schedule, ok, six, counts 0, counts 1, six ▸ windows 3 none 4 (by rw [six]; decide) 2⟩

theorem rounds_last (n : Nat) : rounds (List.replicate n 0 ++ [1]) = [n] ∧ divisor (List.replicate n 0 ++ [1]) = 1 := by
  have gcd : divisor (List.replicate n 0 ++ [1]) = 1 := by
    have zeros : ∀ w ∈ List.replicate n (0 : UInt32), w.toNat = 0 := fun w hw => by
      rw [List.eq_of_mem_replicate hw]
      rfl
    rw [divisor, List.foldl_append, foldl_gcd_zero zeros]
    rfl
  have total := sum_eq (List.replicate n 0 ++ [1])
  rw [gcd, Nat.one_mul, List.map_append, List.sum_append, List.map_replicate, List.sum_replicate] at total
  have one : period (List.replicate n 0 ++ [1]) = 1 := by simpa using total.symm
  have last : (List.replicate n (0 : UInt32) ++ [1]).getD n 0 = 1 := by
    rw [List.getD_eq_getElem?_getD, List.getElem?_append_right (by rw [List.length_replicate]), List.length_replicate, Nat.sub_self]
    rfl
  have count := count_rounds (List.replicate n 0 ++ [1]) n
  rw [shareOf, last, gcd] at count
  obtain ⟨i, hi⟩ := List.length_eq_one_iff.mp ((length_rounds _).trans one)
  rw [hi] at count ⊢
  refine ⟨?_, gcd⟩
  by_cases same : i = n
  · rw [same]
  · simp [same] at count

/-- A child past the last index is not in the schedule: its index is that of another. -/
theorem smoothWrrSchedule_saturates : ¬ ∀ weights : List UInt32, (∃ w ∈ weights, w ≠ 0) →
    (weights.map (·.toNat)).sum / divisor weights ≤ MAX_WEIGHT_PERIOD →
      ∃ schedule, smoothWrrSchedule (m := literal) weights = .ok schedule ∧
        ∀ i, schedule.count i = (weights.getD i 0).toNat / divisor weights := by
  intro claim
  obtain ⟨rounds, gcd⟩ := rounds_last (2 ^ 32)
  have one : period (List.replicate (2 ^ 32) 0 ++ [1]) = 1 := by rw [← length_rounds, rounds]; rfl
  have total : ((List.replicate (2 ^ 32) (0 : UInt32) ++ [1]).map UInt32.toNat).sum = 1 := by rw [sum_eq, gcd, one]
  obtain ⟨schedule, ok, counts⟩ := claim (List.replicate (2 ^ 32) 0 ++ [1])
    ⟨1, List.mem_append_right _ (List.mem_singleton_self 1), by decide⟩ (by rw [total, gcd]; decide)
  rw [smoothWrrSchedule_rounds (by rw [one]; decide), rounds, gcd, one, if_neg Nat.one_ne_zero, if_neg (by decide)] at ok
  have last := counts (2 ^ 32)
  rw [← Except.ok.inj ok, gcd, List.getD_eq_getElem?_getD, List.getElem?_append_right (by rw [List.length_replicate]),
    List.length_replicate, Nat.sub_self] at last
  exact absurd last (by decide)

/-! ### The splits of the rules -/

/-- A split of a rule's targets, with its node. -/
structure Split where
  node : Nat
  strategy : SplitStrategy
  children : Nat
  weights : List UInt32

namespace Split

/-- After how many updates a split that goes by its counter begins again. -/
def period (split : Split) : Nat :=
  match split.strategy with
  | .weighted => Rules.period split.weights
  | .roundRobin | .hashChat => split.children

/-- How many updates of a period go to the child `i`: its weight over the gcd of the weights, or one. -/
def share (split : Split) (i : Nat) : Nat :=
  match split.strategy with
  | .weighted => shareOf split.weights i
  | .roundRobin | .hashChat => if i < split.children then 1 else 0

def next (split : Split) (ticket : Nat) : Nat := (split.strategy.select split.weights split.children none ticket).1

/-- Any period of tickets gives each child its share. -/
theorem count_next (split : Split) (cursor i : Nat) :
    ((List.range' cursor split.period).map split.next).count i = split.share i := by
  obtain ⟨node, strategy, children, weights⟩ := split
  have turns : ((List.range' cursor children).map (· % children)).count i = if i < children then 1 else 0 := by
    rw [SmoothWrr.count_period (fun t => Nat.add_mod_right t children)]
    have first : (List.range children).map (· % children) = List.range children := by
      conv_rhs => rw [← List.map_id (List.range children)]
      exact List.map_congr_left fun t ht => Nat.mod_eq_of_lt (List.mem_range.mp ht)
    rw [first, List.nodup_range.count]
    simp only [List.mem_range]
  cases strategy with
  | roundRobin => exact turns
  | hashChat => exact turns
  | weighted =>
    change ((List.range' cursor (Rules.period weights)).map (weightedChild weights)).count i = shareOf weights i
    rw [SmoothWrr.count_period, count_weightedChild]
    intro t
    rcases Nat.eq_zero_or_pos (Rules.period weights) with none | pos
    · rw [none, Nat.add_zero]
    · rw [← weightedChild_mod pos, Nat.add_mod_right, weightedChild_mod pos]

end Split

namespace TargetSpec

mutual

/-- The splits of an expression placed from `lo` on. -/
def splits : Nat → TargetSpec → List Split
  | _, .consumer _ => []
  | lo, .all children => splitsAll lo children
  | lo, .split strategy among weights =>
    { node := lo + sizes among, strategy, children := among.length, weights } :: splitsAll lo among

def splitsAll : Nat → List TargetSpec → List Split
  | _, [] => []
  | lo, spec :: specs => splits lo spec ++ splitsAll (lo + nested spec + 1) specs

end

end TargetSpec

/-- A split somewhere in the rules. -/
inductive SplitOf (rules : List (SourceId × List RuleSpec)) (split : Split) : Prop
  | intro {source : SourceId} {entry : SourceId × List RuleSpec} (found : rules.find? (·.1 = source) = some entry)
    {rule : Nat} {spec : RuleSpec} (listed : entry.2[rule]? = some spec)
    (mem : split ∈ splits (ruleBase (sourceBase 0 rules source) entry.2 rule) spec.target)

/-- A split's node in the table, which picks as the split says. -/
def Split.At (split : Split) (nodes : List Node) (children : List Nat) : Prop :=
  ∃ range schedule, nodes[split.node]? = some (.split split.strategy range schedule) ∧
    nextChild split.strategy schedule (range.slice children).length = split.next

/-- The splits of a placed expression are in the table. -/
theorem TargetSpec.Placed.split {nodes : List Node} {children : List Nat} (spec : TargetSpec) :
    ∀ {lo : Nat}, Placed nodes children lo spec → ∀ split ∈ splits lo spec, split.At nodes children := by
  have all {specs : List TargetSpec} (ih : ∀ c ∈ specs, ∀ {lo : Nat}, Placed nodes children lo c →
      ∀ split ∈ splits lo c, split.At nodes children) {lo : Nat} (h : PlacedAll nodes children lo specs) :
      ∀ split ∈ splitsAll lo specs, split.At nodes children := by
    induction specs generalizing lo with
    | nil => exact nofun
    | cons spec specs ih' =>
      intro split hs
      rcases List.mem_append.mp hs with hs | hs
      · exact ih spec List.mem_cons_self h.1 split hs
      · exact ih' (fun c hc => ih c (List.mem_cons_of_mem _ hc)) h.2 split hs
  induction spec using TargetSpec.induction with
  | consumer id => exact fun _ => nofun
  | all specs ih =>
    rintro lo ⟨range, -, -, -, hp⟩
    exact all ih hp
  | split strategy among weights ih =>
    rintro lo ⟨range, schedule, hn, -, hs, hpick, hp⟩ split mem
    rcases List.mem_cons.mp mem with rfl | mem
    · refine ⟨range, schedule, hn, funext fun ticket => ?_⟩
      rw [hs, length_roots, nextChild, hpick]
      rfl
    · exact all ih hp split mem

/-- A walk over a placed expression adds picks at nodes of its own, one at each of them at most. -/
def Once (lo hi : Nat) (picks picks' : List Pick) : Prop :=
  ∃ new, picks' = picks ++ new ∧ (new.map (·.node)).Nodup ∧ ∀ p ∈ new, lo ≤ p.node ∧ p.node < hi

theorem Once.refl (lo hi : Nat) (picks : List Pick) : Once lo hi picks picks :=
  ⟨[], (List.append_nil _).symm, List.nodup_nil, nofun⟩

theorem Once.mono {lo lo' hi hi' : Nat} {picks picks' : List Pick} (h : Once lo hi picks picks') (hlo : lo' ≤ lo) (hhi : hi ≤ hi') :
    Once lo' hi' picks picks' := by
  obtain ⟨new, hn, nodup, within⟩ := h
  exact ⟨new, hn, nodup, fun p hp => ⟨hlo.trans (within p hp).1, Nat.lt_of_lt_of_le (within p hp).2 hhi⟩⟩

theorem Once.trans {lo mid hi : Nat} {picks picks' picks'' : List Pick} (h : Once lo mid picks picks') (h' : Once mid hi picks' picks'')
    (hlo : lo ≤ mid) (hhi : mid ≤ hi) : Once lo hi picks picks'' := by
  obtain ⟨new, hn, nodup, within⟩ := h
  obtain ⟨more, hm, nodup', within'⟩ := h'
  refine ⟨new ++ more, by rw [hm, hn, List.append_assoc], ?_, fun p hp => ?_⟩
  · rw [List.map_append, List.nodup_append]
    refine ⟨nodup, nodup', fun a ha b hb => ?_⟩
    obtain ⟨p, hp, rfl⟩ := List.mem_map.mp ha
    obtain ⟨q, hq, rfl⟩ := List.mem_map.mp hb
    exact Nat.ne_of_lt (Nat.lt_of_lt_of_le (within p hp).2 (within' q hq).1)
  · rcases List.mem_append.mp hp with hp | hp
    · exact ⟨(within p hp).1, Nat.lt_of_lt_of_le (within p hp).2 hhi⟩
    · exact ⟨hlo.trans (within' p hp).1, (within' p hp).2⟩

theorem Once.pick {lo hi node : Nat} {picks picks' : List Pick} {child : Nat} (h : Once lo hi (picks ++ [⟨node, child⟩]) picks')
    (hlo : lo ≤ hi) (hnode : hi ≤ node) : Once lo (node + 1) picks picks' := by
  obtain ⟨new, hn, nodup, within⟩ := h
  refine ⟨{ node, child } :: new, by rw [hn, List.append_assoc, List.singleton_append], ?_, fun p hp => ?_⟩
  · rw [List.map_cons, List.nodup_cons]
    refine ⟨fun mem => ?_, nodup⟩
    obtain ⟨p, hp, same⟩ := List.mem_map.mp mem
    exact Nat.ne_of_lt (Nat.lt_of_lt_of_le (within p hp).2 hnode) same
  · rcases List.mem_cons.mp hp with rfl | hp
    · exact ⟨hlo.trans hnode, Nat.lt_succ_self _⟩
    · exact ⟨(within p hp).1, Nat.lt_succ_of_lt (Nat.lt_of_lt_of_le (within p hp).2 hnode)⟩

theorem placedAll_child {nodes : List Node} {children : List Nat} {specs : List TargetSpec} {i root : Nat} {lo : Nat}
    (hroot : (roots lo specs)[i]? = some root) (hp : PlacedAll nodes children lo specs) :
    ∃ c ∈ specs, ∃ lo', lo ≤ lo' ∧ lo' + nested c < lo + sizes specs ∧ root = lo' + nested c ∧
      Placed nodes children lo' c := by
  induction specs generalizing i lo with
  | nil => cases hroot
  | cons spec specs ih =>
    rw [sizes]
    cases i with
    | zero =>
      cases hroot
      exact ⟨spec, List.mem_cons_self, lo, le_rfl, by omega, rfl, hp.1⟩
    | succ i =>
      obtain ⟨c, hc, lo', hle, hlt, hroot, hplaced⟩ := ih hroot hp.2
      exact ⟨c, List.mem_cons_of_mem _ hc, lo', by omega, by omega, hroot, hplaced⟩

theorem walkPicking_once {table : RouteTable m} (spec : TargetSpec) : ∀ (fuel : Nat) (key : Option Nat) {lo : Nat}
    (state : (List ConsumerId × Cursors) × List Pick), nested spec < fuel → Placed table.nodes table.children lo spec →
      Once lo (lo + nested spec + 1) state.2 (table.walkPicking fuel (lo + nested spec) key state).2 := by
  have all {specs : List TargetSpec} (ih : ∀ c ∈ specs, ∀ (fuel : Nat) (key : Option Nat) {lo : Nat}
      (state : (List ConsumerId × Cursors) × List Pick), nested c < fuel → Placed table.nodes table.children lo c →
        Once lo (lo + nested c + 1) state.2 (table.walkPicking fuel (lo + nested c) key state).2)
      (fuel : Nat) (key : Option Nat) {lo : Nat} (state : (List ConsumerId × Cursors) × List Pick) (hf : sizes specs ≤ fuel)
      (hp : PlacedAll table.nodes table.children lo specs) :
      Once lo (lo + sizes specs) state.2
        ((roots lo specs).foldl (fun state child => table.walkPicking fuel child key state) state).2 := by
    induction specs generalizing lo state with
    | nil => exact .refl ..
    | cons spec specs ih' =>
      rw [sizes] at hf ⊢
      have first := ih spec List.mem_cons_self fuel key state (by omega) hp.1
      have rest := ih' (fun c hc => ih c (List.mem_cons_of_mem _ hc))
        (table.walkPicking fuel (lo + nested spec) key state) (by omega) hp.2
      exact (first.trans rest (by omega) (by omega)).mono le_rfl (by omega)
  induction spec using TargetSpec.induction with
  | consumer id =>
    intro fuel key lo state hf hp
    obtain ⟨fuel, rfl⟩ := Nat.exists_eq_add_one_of_ne_zero (Nat.ne_zero_of_lt hf)
    obtain ⟨⟨out, cursors⟩, picks⟩ := state
    simp only [RouteTable.walkPicking, nested, Nat.add_zero, show table.nodes[lo]? = some (.consumer id) from hp]
    exact .refl ..
  | all specs ih =>
    intro fuel key lo state hf hp
    obtain ⟨fuel, rfl⟩ := Nat.exists_eq_add_one_of_ne_zero (Nat.ne_zero_of_lt hf)
    obtain ⟨range, hn, -, hs, hp⟩ := hp
    obtain ⟨⟨out, cursors⟩, picks⟩ := state
    simp only [RouteTable.walkPicking, nested, hn, RouteTable.childSlice, hs]
    exact (all ih fuel key _ (Nat.le_of_lt_succ hf) hp).mono le_rfl (Nat.le_succ _)
  | split strategy among weights ih =>
    intro fuel key lo state hf hp
    obtain ⟨fuel, rfl⟩ := Nat.exists_eq_add_one_of_ne_zero (Nat.ne_zero_of_lt hf)
    obtain ⟨range, schedule, hn, -, hs, -, hp⟩ := hp
    obtain ⟨⟨out, cursors⟩, picks⟩ := state
    rw [nested] at hf
    simp only [RouteTable.walkPicking, nested, hn, RouteTable.childSlice, hs]
    split
    · exact .refl ..
    · generalize pickChild strategy schedule (roots lo among).length key (cursors (lo + sizes among)) = picked
      obtain ⟨i, childKey, cursor⟩ := picked
      refine @Once.pick lo (lo + sizes among) _ _ _ i ?_ (Nat.le_add_right ..) le_rfl
      dsimp only
      split
      · exact .refl ..
      · rename_i root hroot
        obtain ⟨c, hc, lo', hle, hlt, rfl, hplaced⟩ := placedAll_child hroot hp
        exact (ih c hc fuel childKey _ (by omega) hplaced).mono hle (by omega)

/-! ### Routing -/

section
variable {isMatch : Str → Str → Bool} {owns : m.Regex → m.Cache → Prop} (lawful : m.Lawful isMatch owns)
  {rules : List (SourceId × List RuleSpec)} {botUsernames : List (SourceId × Option Str)} {b : Builder}
  {table : RouteTable m} (compiled : TableCompiles rules botUsernames b table) (small : table.nodes.length < 2 ^ 32)

include lawful compiled small in
/-- Every split of the rules is in the table. -/
theorem SplitOf.at {split : Split} (h : SplitOf rules split) : split.At table.nodes table.children := by
  obtain ⟨found, listed, mem⟩ := h
  obtain ⟨sourceRules, -, hc⟩ := compiled.present (tableCompiles_small lawful compiled small) _ _ found
  obtain ⟨rule, -, hr⟩ := hc.rules.rule listed
  have placed := hr.placed
  rw [← compiled.nodes, ← compiled.children] at placed
  exact placed.split _ split mem

/-- What routing an update picks at a split moves its counter. -/
theorem route_ticks {split : Split} (placed : split.At table.nodes table.children) (turn : split.strategy ≠ .hashChat)
    (source : SourceId) (facts : Facts) (cursors : Cursors) (scratch : MatchScratch m) :
    Ticks split.next (cursors split.node) (picksAt split.node (table.picks source facts cursors scratch))
      ((table.route source facts cursors scratch).2.1 split.node) := by
  obtain ⟨range, schedule, node, next⟩ := placed
  unfold RouteTable.picks RouteTable.route
  cases table.sources[source.toNat]?.getD none with
  | none => exact rfl
  | some sourceRules =>
    dsimp only
    generalize table.position sourceRules facts sourceRules.rules (scratch.prepare table) = position
    obtain ⟨_ | i, scratch'⟩ := position
    · exact rfl
    · dsimp only
      cases sourceRules.rules[i]? with
      | none => exact rfl
      | some rule =>
        obtain ⟨new, hn, ht⟩ := walkPicking_moves node turn table.nodes.length rule.root facts.orderingKey (([], cursors), [])
        rw [List.nil_append] at hn
        rw [RouteTable.walkPicking_walk] at ht
        subst hn
        rw [← next]
        exact ht

include lawful compiled small in
/-- Routing an update comes to a split once at most. -/
theorem picks_nodup (source : SourceId) (facts : Facts) (cursors : Cursors) (scratch : MatchScratch m) :
    ((table.picks source facts cursors scratch).map (·.node)).Nodup := by
  have hsmall := tableCompiles_small lawful compiled small
  unfold RouteTable.picks
  split
  · exact List.nodup_nil
  · rename_i sourceRules hat
    cases hs : rules.find? (·.1 = source) with
    | none => cases hat.symm.trans (compiled.absent source hs)
    | some entry =>
      obtain ⟨_, hat', hc⟩ := compiled.present hsmall source entry hs
      cases hat.symm.trans hat'
      split
      · exact List.nodup_nil
      · split
        · exact List.nodup_nil
        · rename_i rule hrule
          obtain ⟨spec, -, hr⟩ := hc.rules.spec hrule
          have placed := hr.placed
          rw [← compiled.nodes, ← compiled.children] at placed
          have deep := Nat.lt_of_le_of_lt (Nat.le_add_left ..) (placed_root placed)
          rw [hr.root]
          obtain ⟨new, hn, nodup, -⟩ := walkPicking_once spec.target table.nodes.length facts.orderingKey (([], cursors), [])
            deep placed
          rw [hn, List.nil_append]
          exact nodup

end

end Tgin.Rules
