import Tgin.Lib.Run
import Tgin.Rules.Matching
import Tgin.Rules.Walk

/-! Routing through a compiled table is interpreting its specs, over every run of routed updates and with any
    scratch: the table's cursors are where the specs' tickets are. -/

namespace Tgin.Rules
open TargetSpec

variable {m : Matchers} {isMatch : Str → Str → Bool} {owns : m.Regex → m.Cache → Prop}

/-! ### Consumers, each once -/

theorem foldl_pushNew (ids : List ConsumerId) : ids.foldl pushNew [] = ids.eraseDups := by
  induction ids using List.reverseRecOn with
  | nil => rfl
  | append_singleton ids id ih =>
    rw [List.foldl_append, ih, List.foldl_cons, List.foldl_nil, List.eraseDups_append, pushNew]
    by_cases h : id ∈ ids
    · have hc : ids.eraseDups.contains id = true := by simpa [List.mem_eraseDups] using h
      rw [if_pos hc]
      simp [List.removeAll, h]
    · have hc : ids.eraseDups.contains id = false := by simpa [List.mem_eraseDups] using h
      rw [if_neg (by rw [hc]; exact Bool.false_ne_true)]
      simp [List.removeAll, h, List.eraseDups_cons]

/-! ### Where the rules are placed -/

/-- The node from which on the targets of rule `i` of a source are placed. -/
def ruleBase (lo : Nat) (specs : List RuleSpec) (i : Nat) : Nat := lo + nodeCount (specs.take i)

theorem RulesCompile.rule {b : Builder} {lo : Nat} {specs : List RuleSpec} {rules : List (CompiledRule m)}
    (h : RulesCompile b lo specs rules) {i : Nat} {spec : RuleSpec} (hi : specs[i]? = some spec) :
    ∃ rule, rules[i]? = some rule ∧ RuleCompiles b spec (ruleBase lo specs i) rule := by
  induction specs generalizing lo rules i with
  | nil => cases hi
  | cons s specs ih =>
    cases rules with
    | nil => exact h.elim
    | cons r rules =>
      cases i with
      | zero =>
        cases hi
        exact ⟨r, rfl, h.1⟩
      | succ i =>
        obtain ⟨rule, hr, hc⟩ := ih h.2 hi
        refine ⟨rule, hr, ?_⟩
        have : ruleBase lo (s :: specs) (i + 1) = ruleBase (lo + (nested s.target + 1)) specs i := by
          simp only [ruleBase, nodeCount, List.take_succ_cons, List.map_cons, List.sum_cons, Nat.add_assoc]
        rwa [this]

theorem RulesCompile.spec {b : Builder} {lo : Nat} {specs : List RuleSpec} {rules : List (CompiledRule m)}
    (h : RulesCompile b lo specs rules) {i : Nat} {rule : CompiledRule m} (hi : rules[i]? = some rule) :
    ∃ spec, specs[i]? = some spec ∧ RuleCompiles b spec (ruleBase lo specs i) rule := by
  have found : ∃ spec, specs[i]? = some spec := by
    induction specs generalizing lo rules i with
    | nil =>
      cases rules with
      | nil => cases hi
      | cons r rules => exact h.elim
    | cons s specs ih =>
      cases rules with
      | nil => cases hi
      | cons r rules =>
        cases i with
        | zero => exact ⟨s, rfl⟩
        | succ i => exact ih h.2 hi
  obtain ⟨spec, hspec⟩ := found
  obtain ⟨rule', hrule, compiled⟩ := h.rule hspec
  cases hi.symm.trans hrule
  exact ⟨spec, hspec, compiled⟩

/-- A rule's nodes end before those of the rules after it. -/
theorem ruleBase_lt {specs : List RuleSpec} {i j : Nat} {spec : RuleSpec} (hi : specs[i]? = some spec) (hij : i < j)
    (lo : Nat) : ruleBase lo specs i + nested spec.target < ruleBase lo specs j := by
  induction specs generalizing lo i j with
  | nil => cases hi
  | cons s specs ih =>
    obtain ⟨j, rfl⟩ := Nat.exists_eq_add_one_of_ne_zero (Nat.ne_zero_of_lt hij)
    cases i with
    | zero =>
      cases hi
      simp only [ruleBase, nodeCount, List.take_zero, List.map_nil, List.sum_nil, List.take_succ_cons, List.map_cons,
        List.sum_cons]
      omega
    | succ i =>
      have := ih hi (Nat.lt_of_succ_lt_succ hij) lo
      simp only [ruleBase, nodeCount, List.take_succ_cons, List.map_cons, List.sum_cons] at this ⊢
      omega

theorem ruleBase_le {specs : List RuleSpec} {i : Nat} {spec : RuleSpec} (hi : specs[i]? = some spec) (lo : Nat) :
    lo ≤ ruleBase lo specs i ∧ ruleBase lo specs i + nested spec.target < lo + nodeCount specs := by
  refine ⟨Nat.le_add_right .., ?_⟩
  have hlt := ruleBase_lt hi (List.getElem?_eq_some_iff.mp hi).1 lo
  rwa [ruleBase, ruleBase, List.take_length] at hlt

/-- The nodes of different sources lie apart. -/
theorem sourceBase_apart {rules : List (SourceId × List RuleSpec)} {source source' : SourceId}
    {entry entry' : SourceId × List RuleSpec} (h : rules.find? (·.1 = source) = some entry)
    (h' : rules.find? (·.1 = source') = some entry') (hne : source ≠ source') (lo : Nat) :
    lo ≤ sourceBase lo rules source ∧
      (sourceBase lo rules source + nodeCount entry.2 ≤ sourceBase lo rules source' ∨
        sourceBase lo rules source' + nodeCount entry'.2 ≤ sourceBase lo rules source) := by
  have le (rules : List (SourceId × List RuleSpec)) (lo : Nat) (source : SourceId) : lo ≤ sourceBase lo rules source := by
    induction rules generalizing lo with
    | nil => exact le_rfl
    | cons e rules ih =>
      rw [sourceBase]
      split
      · exact le_rfl
      · exact (Nat.le_add_right ..).trans (ih _)
  refine ⟨le rules lo source, ?_⟩
  induction rules generalizing lo with
  | nil => cases h
  | cons e rules ih =>
    obtain ⟨id, specs⟩ := e
    rw [List.find?_cons] at h h'
    rw [sourceBase, sourceBase]
    by_cases hs : id = source
    · subst hs
      simp only [decide_true] at h
      cases h
      rw [if_pos rfl, if_neg hne]
      exact Or.inl (le ..)
    · by_cases hs' : id = source'
      · subst hs'
        simp only [decide_true] at h'
        cases h'
        rw [if_neg hs, if_pos rfl]
        exact Or.inr (le ..)
      · simp only [hs, hs', decide_false] at h h'
        rw [if_neg hs, if_neg hs']
        exact ih h h' _

/-- The cursors of every rule's splits are where its tickets are. -/
def Agrees (rules : List (SourceId × List RuleSpec)) (cursors : Cursors) (tickets : AllTickets) : Prop :=
  ∀ source entry, rules.find? (·.1 = source) = some entry → ∀ i spec, entry.2[i]? = some spec →
    Agree cursors (ruleBase (sourceBase 0 rules source) entry.2 i) spec.target (tickets source i)

theorem agrees_zero (rules : List (SourceId × List RuleSpec)) : Agrees rules (fun _ => 0) AllTickets.zero := by
  intro source entry _ i spec _
  have h (spec : TargetSpec) : ∀ lo (tickets : Tickets), (∀ path, tickets path = 0) → Agree (fun _ => 0) lo spec tickets := by
    have list {specs : List TargetSpec} (ih : ∀ c ∈ specs, ∀ lo (tickets : Tickets), (∀ path, tickets path = 0) →
        Agree (fun _ => 0) lo c tickets) (lo i : Nat) (tickets : Tickets) (ht : ∀ path, tickets path = 0) :
        AgreeAll (fun _ => 0) lo i specs tickets := by
      induction specs generalizing lo i with
      | nil => trivial
      | cons c specs ih' =>
        exact ⟨ih c List.mem_cons_self lo _ fun path => ht _, ih' (fun c hc => ih c (List.mem_cons_of_mem _ hc)) _ _⟩
    induction spec using TargetSpec.induction with
    | consumer id => exact fun _ _ _ => trivial
    | all specs ih => exact fun lo tickets ht => list ih lo 0 tickets ht
    | split strategy among weights ih => exact fun lo tickets ht => ⟨(ht []).symm, list ih lo 0 tickets ht⟩
  exact h _ _ _ fun _ => rfl

/-! ### One update -/

theorem placed_root {nodes : List Node} {children : List Nat} {lo : Nat} {spec : TargetSpec}
    (h : Placed nodes children lo spec) : lo + nested spec < nodes.length := by
  cases spec with
  | consumer id => exact (List.getElem?_eq_some_iff.mp h).1
  | all specs =>
    obtain ⟨range, hn, -⟩ := h
    exact (List.getElem?_eq_some_iff.mp hn).1
  | split strategy among weights =>
    obtain ⟨range, schedule, hn, -⟩ := h
    exact (List.getElem?_eq_some_iff.mp hn).1

/-- The tickets of all rules once rule `i` of a source has moved its own. -/
theorem agrees_update {rules : List (SourceId × List RuleSpec)} {cursors cursors' : Cursors} {tickets : AllTickets}
    (h : Agrees rules cursors tickets) {source : SourceId} {entry : SourceId × List RuleSpec}
    (hs : rules.find? (·.1 = source) = some entry) {i : Nat} {spec : RuleSpec} (hi : entry.2[i]? = some spec) {sub : Tickets}
    (hsub : Agree cursors' (ruleBase (sourceBase 0 rules source) entry.2 i) spec.target sub)
    (frame : ∀ n, n < ruleBase (sourceBase 0 rules source) entry.2 i ∨
      ruleBase (sourceBase 0 rules source) entry.2 i + nested spec.target + 1 ≤ n → cursors' n = cursors n) :
    Agrees rules cursors' (Function.update tickets source (Function.update (tickets source) i sub)) := by
  intro source' entry' hs' i' spec' hi'
  have kept (apart : ruleBase (sourceBase 0 rules source') entry'.2 i' + nested spec'.target <
        ruleBase (sourceBase 0 rules source) entry.2 i ∨
      ruleBase (sourceBase 0 rules source) entry.2 i + nested spec.target <
        ruleBase (sourceBase 0 rules source') entry'.2 i') :
      Agree cursors' (ruleBase (sourceBase 0 rules source') entry'.2 i') spec'.target (tickets source' i') :=
    agree_congr spec'.target (fun n h₁ h₂ => frame n (by omega)) (h source' entry' hs' i' spec' hi')
  by_cases hsource : source' = source
  · subst hsource
    cases hs.symm.trans hs'
    rw [Function.update_self]
    rcases Nat.lt_trichotomy i' i with hlt | rfl | hlt
    · rw [Function.update_of_ne (Nat.ne_of_lt hlt)]
      exact kept (Or.inl (ruleBase_lt hi' hlt _))
    · cases hi.symm.trans hi'
      rwa [Function.update_self]
    · rw [Function.update_of_ne (Nat.ne_of_gt hlt)]
      exact kept (Or.inr (ruleBase_lt hi hlt _))
  · rw [Function.update_of_ne hsource]
    have := ruleBase_le hi (sourceBase 0 rules source)
    have := ruleBase_le hi' (sourceBase 0 rules source')
    have := (sourceBase_apart hs' hs hsource 0).2
    exact kept (by omega)

/-- An update that no rule routes goes nowhere. -/
theorem route_none {table : RouteTable m} {source : SourceId} {facts : Facts} {cursors : Cursors} {scratch : MatchScratch m}
    {ids : List ConsumerId} (h : (table.route source facts cursors scratch).1 = (none, ids)) : ids = [] := by
  unfold RouteTable.route at h
  split at h
  · exact (Prod.mk.inj h).2.symm
  · split at h
    · exact (Prod.mk.inj h).2.symm
    · split at h
      · exact (Prod.mk.inj h).2.symm
      · cases h

section
variable (lawful : m.Lawful isMatch owns) {rules : List (SourceId × List RuleSpec)}
  {botUsernames : List (SourceId × Option Str)} {b : Builder} {table : RouteTable m}
  (compiled : TableCompiles rules botUsernames b table) (small : table.nodes.length < 2 ^ 32)

include lawful compiled small in
theorem tableCompiles_small : Small b := by
  refine ⟨compiled.nodes ▸ small, fun field => ?_⟩
  have len {patterns : List Str} {re : Option m.Regex} (h : RegexOf patterns re) : patterns.length < 2 ^ 32 := by
    cases re with
    | none => simp [show patterns = [] from h]
    | some re => exact Nat.lt_of_le_of_lt (lawful.patternIds h) (by decide)
  cases field with
  | text => exact len compiled.textRegex
  | callback => exact len compiled.callbackRegex

include lawful compiled small in
/-- Routing an update answers as the specs say and moves the cursors as the tickets move. -/
theorem route_interpret {scratch : MatchScratch m} (fits : scratch.FitsOwner owns table) {cursors : Cursors}
    {tickets : AllTickets} (h : Agrees rules cursors tickets) (source : SourceId) (facts : Facts) :
    (table.route source facts cursors scratch).1 = (interpret isMatch rules botUsernames source facts tickets).1 ∧
      Agrees rules (table.route source facts cursors scratch).2.1
        (interpret isMatch rules botUsernames source facts tickets).2 := by
  have hsmall := tableCompiles_small lawful compiled small
  unfold RouteTable.route interpret
  cases hs : rules.find? (·.1 = source) with
  | none =>
    rw [show table.sources[source.toNat]?.getD none = none from compiled.absent source hs]
    exact ⟨rfl, h⟩
  | some entry =>
    obtain ⟨sourceRules, hat, hc⟩ := compiled.present hsmall source entry hs
    rw [show table.sources[source.toNat]?.getD none = some sourceRules from hat]
    obtain ⟨hpos, -⟩ := position_eq lawful compiled sourceRules hc.rules (prepare_warm lawful fits b facts)
    dsimp only
    rw [hc.username] at hpos
    generalize table.position sourceRules facts sourceRules.rules (scratch.prepare table) = position at hpos ⊢
    obtain ⟨position, scratch'⟩ := position
    dsimp only at hpos
    subst hpos
    cases hi : entry.2.findIdx? (fun spec => spec.predicates.hold isMatch (usernameOf botUsernames source) facts) with
    | none => exact ⟨rfl, h⟩
    | some i =>
      obtain ⟨hlt, hhold, hbefore⟩ := List.findIdx?_eq_some_iff_getElem.mp hi
      have hspec : entry.2[i]? = some entry.2[i] := List.getElem?_eq_getElem hlt
      have hfind : entry.2.find? (fun spec => spec.predicates.hold isMatch (usernameOf botUsernames source) facts) =
          some entry.2[i] := by
        rw [List.find?_eq_some_iff_getElem]
        exact ⟨hhold, i, hlt, rfl, by simpa using hbefore⟩
      obtain ⟨rule, hrule, hcomp⟩ := hc.rules.rule hspec
      have hplaced := hcomp.placed
      rw [← compiled.nodes, ← compiled.children] at hplaced
      have hroot := placed_root hplaced
      obtain ⟨walked, agree⟩ := walk_follows table entry.2[i].target table.nodes.length facts.orderingKey []
        (Nat.lt_of_le_of_lt (Nat.le_add_left ..) hroot) hplaced (h source entry hs i _ hspec)
      simp only [hrule, hfind, hcomp.root]
      refine ⟨?_, agrees_update h hs hspec agree walked.frame⟩
      rw [walked.out, foldl_pushNew]

include lawful compiled small in
/-- An update that a rule routes walks the rule's target expression, from where the cursors are. -/
theorem route_walks {source : SourceId} {facts : Facts} {cursors : Cursors} {scratch : MatchScratch m} {i : Nat}
    {ids : List ConsumerId} (routed : (table.route source facts cursors scratch).1 = (some i, ids)) :
    ∃ entry spec lo tickets, rules.find? (·.1 = source) = some entry ∧ entry.2[i]? = some spec ∧
      Placed table.nodes table.children lo spec.target ∧ Agree cursors lo spec.target tickets ∧
      ids = (spec.target.denote facts.orderingKey tickets).1.eraseDups := by
  unfold RouteTable.route at routed
  cases hs : rules.find? (·.1 = source) with
  | none =>
    rw [show table.sources[source.toNat]?.getD none = none from compiled.absent source hs] at routed
    cases routed
  | some entry =>
    obtain ⟨sourceRules, hat, hc⟩ := compiled.present (tableCompiles_small lawful compiled small) source entry hs
    rw [show table.sources[source.toNat]?.getD none = some sourceRules from hat] at routed
    dsimp only at routed
    generalize table.position sourceRules facts sourceRules.rules (scratch.prepare table) = position at routed
    obtain ⟨_ | index, scratch'⟩ := position
    · cases routed
    dsimp only at routed
    cases hrule : sourceRules.rules[index]? with
    | none =>
      rw [hrule] at routed
      cases routed
    | some rule =>
      rw [hrule] at routed
      obtain ⟨spec, hspec, hcomp⟩ := hc.rules.spec hrule
      have hplaced := hcomp.placed
      rw [← compiled.nodes, ← compiled.children] at hplaced
      obtain ⟨tickets, agree⟩ := exists_agree cursors spec.target (ruleBase (sourceBase 0 rules source) entry.2 index)
      obtain ⟨walked, -⟩ := walk_follows table spec.target table.nodes.length facts.orderingKey []
        (Nat.lt_of_le_of_lt (Nat.le_add_left ..) (placed_root hplaced)) hplaced agree
      obtain ⟨hi, rfl⟩ := Prod.mk.inj routed
      cases hi
      refine ⟨entry, spec, _, tickets, rfl, hspec, hplaced, agree, ?_⟩
      rw [hcomp.root, walked.out, foldl_pushNew]

end

/-! ### Reused scratch -/

/-- A scratch that nothing but routing through `tables` has used. -/
inductive Used (tables : RouteTable m → Prop) : MatchScratch m → Prop
  | default : Used tables MatchScratch.default
  | route {table : RouteTable m} {scratch : MatchScratch m} (mem : tables table) (used : Used tables scratch)
      (source : SourceId) (facts : Facts) (cursors : Cursors) : Used tables (table.route source facts cursors scratch).2.2

section
variable (lawful : m.Lawful isMatch owns)

include lawful in
theorem fits_optTextMatches {re : Option m.Regex} {s : Option (RegexScratch m)} (h : Fits owns re s)
    (tm : Option (TextMatcher m)) (text : Option Str) : Fits owns re (optTextMatches tm text re s).2 := by
  rcases tm with _ | (ac | ids | set)
  · exact h
  all_goals cases text <;> try exact h
  rename_i text
  cases re <;> cases s <;> try exact h
  rename_i re s
  simp only [optTextMatches, textMatches, RegexScratch.search]
  split
  · exact h
  · exact ⟨lawful.owns_search h.1 .., (lawful.capacity ..).trans (by rw [PatternSet.clear, List.length_map, h.2])⟩

/-- A scratch owned by the table, whose field scratches fit its regexes. -/
def OwnedBy (owns : m.Regex → m.Cache → Prop) (table : RouteTable m) (scratch : MatchScratch m) : Prop :=
  scratch.owner = some table.token ∧ Fits owns table.textRegex scratch.text ∧ Fits owns table.callbackRegex scratch.callback

include lawful in
theorem ownedBy_matchesRule {table : RouteTable m} {scratch : MatchScratch m} (h : OwnedBy owns table scratch)
    (source : SourceRules m) (rule : CompiledRule m) (facts : Facts) :
    OwnedBy owns table (table.matchesRule source rule facts scratch).2 := by
  obtain ⟨ho, ht, hc⟩ := h
  have ht' := fits_optTextMatches lawful ht rule.text facts.text
  have hc' := fits_optTextMatches lawful hc rule.callbackData facts.callbackData
  unfold RouteTable.matchesRule
  split
  · generalize optTextMatches rule.text facts.text table.textRegex scratch.text = text at ht' ⊢
    obtain ⟨text, scratchText⟩ := text
    cases text with
    | false => exact ⟨ho, ht', hc⟩
    | true => exact ⟨ho, ht', hc'⟩
  · exact ⟨ho, ht, hc⟩

include lawful in
theorem ownedBy_position {table : RouteTable m} (source : SourceRules m) (facts : Facts) (rules : List (CompiledRule m))
    {scratch : MatchScratch m} (h : OwnedBy owns table scratch) :
    OwnedBy owns table (table.position source facts rules scratch).2 := by
  induction rules generalizing scratch with
  | nil => exact h
  | cons rule rules ih =>
    have h' := ownedBy_matchesRule lawful h source rule facts
    rw [RouteTable.position]
    generalize table.matchesRule source rule facts scratch = result at h' ⊢
    obtain ⟨hit, scratch'⟩ := result
    cases hit with
    | true => exact h'
    | false => exact ih h'

theorem prepare_owner (scratch : MatchScratch m) (table : RouteTable m) :
    (scratch.prepare table).owner = some table.token := by
  unfold MatchScratch.prepare
  split
  · assumption
  · rfl

include lawful in
/-- A used scratch fits whichever table it is used with next, tables with one token being one table. -/
theorem used_fits {tables : RouteTable m → Prop} (token : ∀ t t', tables t → tables t' → t.token = t'.token → t = t')
    {scratch : MatchScratch m} (used : Used tables scratch) {table : RouteTable m} (mem : tables table) :
    scratch.FitsOwner owns table := by
  induction used generalizing table with
  | default =>
    intro ho
    cases ho
  | @route other scratch hother _ source facts cursors ih =>
    unfold RouteTable.route
    split
    · exact ih mem
    · rename_i sourceRules _
      have prepared : OwnedBy owns other (scratch.prepare other) := by
        have warm := prepare_warm lawful (ih hother) Builder.empty facts
        exact ⟨prepare_owner .., warm.text, warm.callback⟩
      have owned := ownedBy_position lawful sourceRules facts sourceRules.rules prepared
      generalize other.position sourceRules facts sourceRules.rules (scratch.prepare other) = position at owned ⊢
      obtain ⟨position, scratch'⟩ := position
      have fits : scratch'.FitsOwner owns table := by
        intro ho
        obtain ⟨ho', hf⟩ := owned
        cases token other table hother mem (Option.some.inj (ho'.symm.trans ho))
        exact hf
      rcases position with _ | i
      · exact fits
      · dsimp only
        split <;> exact fits

end

/-! ### Runs -/

/-- One update to route, with the scratch at hand. -/
structure Request (tables : RouteTable m → Prop) where
  source : SourceId
  facts : Facts
  scratch : MatchScratch m
  used : Used tables scratch

/-- Routes one update through the table, whose cursors are the state. -/
def routeStep {tables : RouteTable m → Prop} (table : RouteTable m) (request : Request tables) (cursors : Cursors) :
    (Option Nat × List ConsumerId) × Cursors :=
  let (answer, cursors, _) := table.route request.source request.facts cursors request.scratch
  (answer, cursors)

/-- Interprets one update by the specs, whose tickets are the state. -/
def interpretStep {tables : RouteTable m → Prop} (isMatch : Str → Str → Bool) (rules : List (SourceId × List RuleSpec))
    (botUsernames : List (SourceId × Option Str)) (request : Request tables) (tickets : AllTickets) :
    (Option Nat × List ConsumerId) × AllTickets :=
  interpret isMatch rules botUsernames request.source request.facts tickets

/-- Over any run of updates, the compiled table routes each as the specs say, whatever its scratch was used for
    before. -/
theorem run_interprets (lawful : m.Lawful isMatch owns) {tables : RouteTable m → Prop}
    (token : ∀ t t', tables t → tables t' → t.token = t'.token → t = t') {rules : List (SourceId × List RuleSpec)}
    {botUsernames : List (SourceId × Option Str)} {address : Nat} {table : RouteTable m}
    (compiled : RouteTable.compile address rules botUsernames = .ok table) (small : table.nodes.length < 2 ^ 32)
    (mem : tables table) (requests : List (Request tables)) :
    (Run.run (routeStep table) requests fun _ => 0).1 =
      (Run.run (interpretStep isMatch rules botUsernames) requests AllTickets.zero).1 := by
  obtain ⟨b, compiled⟩ := compile_compiles compiled
  refine (Run.run_simulates (R := Agrees rules) (fun request cursors tickets h => ?_) requests (agrees_zero rules)).1
  exact route_interpret lawful compiled small (used_fits lawful token request.used mem) h request.source request.facts

/-! ### Literal patterns -/

/-- Matchers whose regexes are literal texts. -/
def literal : Matchers where
  AhoCorasick := List Str × Bool
  AutomatonError := Empty
  Regex := List Str
  RegexError := Unit
  Cache := Unit
  anchoredAutomaton patterns ignoreCase := .ok (patterns, ignoreCase)
  find ac text := longestPrefix ac.1 ac.2 text
  newRegex pattern := .ok [pattern]
  buildMany patterns := if patterns.length ≤ PatternID.MAX + 1 then .ok patterns else .error ()
  patternLen := List.length
  createCache _ := ()
  whichOverlappingMatches re _ text set :=
    ((), { which := set.which.mapIdx fun id here => here || re[id]?.any fun p => decide (p <:+: text) })

theorem literal_lawful : literal.Lawful (fun p text => decide (p <:+: text)) fun _ _ => True where
  find h text := by
    cases h
    rfl
  owns_createCache _ := trivial
  owns_search _ _ _ := trivial
  capacity _ _ _ _ := List.length_mapIdx ..
  patternLen {patterns re} h := by
    simp only [literal] at h
    split at h <;> cases h
    rfl
  patternIds {patterns re} h := by
    simp only [literal] at h
    split at h <;> cases h
    assumption
  search {patterns re cache} h _ text set hset id := by
    simp only [literal] at h
    split at h <;> cases h
    simp only [literal, PatternSet.contains, List.getElem?_mapIdx]
    rcases Nat.lt_or_ge id set.which.length with hlt | hge
    · rw [List.getElem?_eq_getElem hlt]
      rfl
    · rw [List.getElem?_eq_none hge, List.getElem?_eq_none (le_of_eq_of_le hset.symm hge)]
      rfl

/-- Texts with `or` in them go to one of two consumers in turn, everything else to a third. -/
def orders : List (SourceId × List RuleSpec) :=
  [(0, [
    { predicates := { text := some (.regex [[111, 114]]) }, targets := [.split .roundRobin [.consumer 1, .consumer 2] []] },
    { predicates := {}, targets := [.consumer 3] }])]

def ordersTable : RouteTable literal where
  sources := [some {
    rules := [
      { updateTypes := [], chatIds := [], chatTypes := 0, userIds := [], commands := none,
        text := some (.regex { start := 0, stop := 1 }), callbackData := none, root := 2 },
      { updateTypes := [], chatIds := [], chatTypes := 0, userIds := [], commands := none, text := none,
        callbackData := none, root := 3 }],
    username := none }]
  nodes := [.consumer 1, .consumer 2, .split .roundRobin { start := 0, stop := 2 } [], .consumer 3]
  children := [0, 1]
  textRegex := some [[111, 114]]
  callbackRegex := none
  token := 0

def textRequest (text : Str) : Request (· = ordersTable) where
  source := 0
  facts := { (default : Facts) with text := some text }
  scratch := .default
  used := .default

theorem run_interprets_orders :
    (Run.run (routeStep ordersTable) ([[111, 114, 100], [104, 105], [102, 111, 114]].map textRequest) fun _ => 0).1 =
      [(some 0, [1]), (some 1, [3]), (some 0, [2])] := by
  have compiled : RouteTable.compile (m := literal) 0 orders [] = .ok ordersTable := rfl
  have token : ∀ t t' : RouteTable literal, t = ordersTable → t' = ordersTable → t.token = t'.token → t = t' :=
    fun _ _ h h' _ => h.trans h'.symm
  exact (run_interprets literal_lawful token compiled (by decide) rfl _).trans (by decide)

end Tgin.Rules
