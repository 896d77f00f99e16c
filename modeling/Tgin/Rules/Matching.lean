import Tgin.Rules.Compile

/-! A compiled rule matches where every condition of its spec holds, whatever the scratch was used for: what is
    assumed of the matching crates, what a scratch owes to its table, and the lazy search that all rules share. -/

namespace Tgin.Rules

variable {m : Matchers} {isMatch : Str → Str → Bool} {owns : m.Regex → m.Cache → Prop}

/-! ### What the crates report -/

/-- A text as an automaton compares it. -/
def folded (ignoreCase : Bool) (s : Str) : Str := if ignoreCase then s.toAsciiLowercase else s

/-- The length of the longest of `patterns` that the text starts with. -/
def longestPrefix (patterns : List Str) (ignoreCase : Bool) (text : Str) : Option Nat :=
  ((patterns.filter fun p => (folded ignoreCase p).isPrefixOf (folded ignoreCase text)).map List.length).max?

/-- The crates report exactly the patterns that match: an anchored automaton the longest pattern at the start of a
    text, an overlapping search every regex that matches somewhere (`isMatch pattern text`). A cache serves the
    regex that it was created for, which `owns` it. -/
structure Matchers.Lawful (m : Matchers) (isMatch : Str → Str → Bool) (owns : m.Regex → m.Cache → Prop) : Prop where
  find : ∀ {patterns ignoreCase ac}, m.anchoredAutomaton patterns ignoreCase = .ok ac →
    ∀ text, m.find ac text = longestPrefix patterns ignoreCase text
  owns_createCache : ∀ re, owns re (m.createCache re)
  owns_search : ∀ {re cache}, owns re cache → ∀ text set, owns re (m.whichOverlappingMatches re cache text set).1
  capacity : ∀ re cache text set, (m.whichOverlappingMatches re cache text set).2.which.length = set.which.length
  patternLen : ∀ {patterns re}, m.buildMany patterns = .ok re → m.patternLen re = patterns.length
  patternIds : ∀ {patterns re}, m.buildMany patterns = .ok re → patterns.length ≤ PatternID.MAX + 1
  search : ∀ {patterns re cache}, m.buildMany patterns = .ok re → owns re cache → ∀ text {set},
    set.which.length = m.patternLen re → ∀ id, (m.whichOverlappingMatches re cache text set).2.contains id =
      (set.contains id || (patterns[id]?.any (isMatch · text)))

theorem isSome_longestPrefix (patterns : List Str) (text : Str) :
    (longestPrefix patterns false text).isSome = patterns.any (·.isPrefixOf text) := by
  simp only [longestPrefix, folded, Bool.false_eq_true, if_false]
  rw [Bool.eq_iff_iff, Option.isSome_iff_ne_none, ne_eq, List.max?_eq_none_iff, List.map_eq_nil_iff, List.filter_eq_nil_iff,
    List.any_eq_true]
  simp

theorem length_toAsciiLowercase (s : Str) : s.toAsciiLowercase.length = s.length := List.length_map ..

theorem longestPrefix_eq_length (patterns : List Str) (name : Str) :
    (longestPrefix patterns true name).any (· = name.length) = patterns.any (·.eqIgnoreAsciiCase name) := by
  have fits : ∀ p : Str, p.toAsciiLowercase.isPrefixOf name.toAsciiLowercase = true → p.length ≤ name.length := fun p h => by
    simpa [length_toAsciiLowercase] using (List.isPrefixOf_iff_prefix.mp h).length_le
  rw [Bool.eq_iff_iff, Option.any_eq_true, List.any_eq_true]
  simp only [longestPrefix, folded, if_true, decide_eq_true_eq, Str.eqIgnoreAsciiCase]
  constructor
  · rintro ⟨_, hmax, rfl⟩
    obtain ⟨p, hp, hlen⟩ := List.mem_map.mp (List.max?_mem hmax)
    obtain ⟨hp, hpre⟩ := List.mem_filter.mp hp
    refine ⟨p, hp, ?_⟩
    exact (List.isPrefixOf_iff_prefix.mp hpre).eq_of_length (by simp [length_toAsciiLowercase, hlen])
  · rintro ⟨p, hp, heq⟩
    have hlen : p.length = name.length := by
      have := congrArg List.length heq
      simpa [length_toAsciiLowercase] using this
    refine ⟨name.length, List.max?_eq_some_iff.mpr ⟨?_, ?_⟩, rfl⟩
    · refine List.mem_map.mpr ⟨p, List.mem_filter.mpr ⟨hp, ?_⟩, hlen⟩
      rw [heq]
      exact List.isPrefixOf_iff_prefix.mpr (List.prefix_refl _)
    · intro n hn
      obtain ⟨q, hq, rfl⟩ := List.mem_map.mp hn
      exact fits q (List.mem_filter.mp hq).2

/-! ### Commands and chat types -/

theorem commandMatches_eq (lawful : m.Lawful isMatch owns) {cmds : List Str} {ac : m.AhoCorasick}
    (h : m.anchoredAutomaton (cmds.map (·.stripPrefix slash)) true = .ok ac) (username : Option Str)
    (command : Option (Str × Option Str)) :
    commandMatches ac username command = command.any (commandHolds cmds username) := by
  rcases command with _ | ⟨name, bot⟩
  · rfl
  · simp only [commandMatches, Option.any_some, commandHolds, lawful.find h, longestPrefix_eq_length, List.any_map]
    cases bot with
    | none => simp [Function.comp_def]
    | some bot => cases h : username.any (·.eqIgnoreAsciiCase bot) <;> simp [Function.comp_def, h]

theorem bit_and_bit (t t' : ChatType) : (t'.bit &&& t.bit = 0) ↔ t ≠ t' := by
  cases t <;> cases t' <;> decide

/-- A chat type is in the mask of a list when it is in the list. -/
theorem foldl_bit (types : List ChatType) (mask : UInt8) (t : ChatType) :
    (types.foldl (· ||| ·.bit) mask &&& t.bit = 0) ↔ (mask &&& t.bit = 0 ∧ t ∉ types) := by
  induction types generalizing mask with
  | nil => simp
  | cons t' types ih =>
    have distrib : (mask ||| t'.bit) &&& t.bit = (mask &&& t.bit) ||| (t'.bit &&& t.bit) := by
      simp [← UInt8.toBitVec_inj, BitVec.and_or_distrib_right]
    rw [List.foldl_cons, ih, distrib, UInt8.or_eq_zero_iff, bit_and_bit, List.mem_cons, not_or, and_assoc]

/-- Only the mask of no chat types is zero. -/
theorem foldl_bit_eq_zero (types : List ChatType) : types.foldl (· ||| ·.bit) (0 : UInt8) = 0 ↔ types = [] := by
  refine ⟨fun h => List.eq_nil_iff_forall_not_mem.mpr fun t => ?_, fun h => h ▸ rfl⟩
  have := (foldl_bit types 0 t).mp (by rw [h, UInt8.zero_and])
  exact this.2

theorem chatTypes_eq (types : List ChatType) (t : Option ChatType) :
    (types.foldl (· ||| ·.bit) (0 : UInt8) = 0 || t.any fun t => types.foldl (· ||| ·.bit) (0 : UInt8) &&& t.bit ≠ 0) =
      (types.isEmpty || t.any types.contains) := by
  rw [Bool.eq_iff_iff]
  cases t with
  | none => simp [foldl_bit_eq_zero]
  | some t => simp [foldl_bit_eq_zero, foldl_bit]

/-! ### Text conditions -/

/-- A field's scratch is the one its regex needs. -/
def Fits (owns : m.Regex → m.Cache → Prop) : Option m.Regex → Option (RegexScratch m) → Prop
  | none, none => True
  | some re, some s => owns re s.cache ∧ s.set.which.length = m.patternLen re
  | _, _ => False

/-- What a field's scratch holds, once done, is what matches in the text. -/
def Holding (isMatch : Str → Str → Bool) (patterns : List Str) (text : Option Str) (s : Option (RegexScratch m)) : Prop :=
  ∀ r, s = some r → r.done = true → ∀ t, text = some t → ∀ id, r.set.contains id = (patterns[id]?.any (isMatch · t))

theorem mem_slice {α : Type} {range : Range} {list : List α} (h : range.slice list ≠ []) {a : α} :
    a ∈ range.slice list ↔ ∃ i, range.start ≤ i ∧ i < range.stop ∧ list[i]? = some a := by
  unfold Range.slice at h ⊢
  split at h
  · rename_i hr
    rw [if_pos hr, List.mem_iff_getElem?]
    constructor
    · rintro ⟨i, hi⟩
      rw [List.getElem?_take, List.getElem?_drop] at hi
      split at hi
      · exact ⟨range.start + i, by omega, by omega, hi⟩
      · cases hi
    · rintro ⟨i, h₁, h₂, hi⟩
      refine ⟨i - range.start, ?_⟩
      rw [List.getElem?_take, List.getElem?_drop, if_pos (by omega), show range.start + (i - range.start) = i by omega, hi]
  · exact absurd rfl h

theorem slice_stop_le {α : Type} {range : Range} {list : List α} (h : range.slice list ≠ []) : range.stop ≤ list.length := by
  unfold Range.slice at h
  split at h
  · rename_i hr
    exact hr.2
  · exact absurd rfl h

theorem contains_clear (set : PatternSet) (id : Nat) : set.clear.contains id = false := by
  simp only [PatternSet.clear, PatternSet.contains, List.getElem?_map]
  cases set.which[id]? <;> rfl

/-- The search leaves what matches in the text, whether it ran before or not. -/
theorem search_holds (lawful : m.Lawful isMatch owns) {patterns : List Str} {re : m.Regex}
    (hre : m.buildMany patterns = .ok re) {s : RegexScratch m} (hf : Fits owns (some re) (some s)) {text : Str}
    (hh : Holding isMatch patterns (some text) (some s)) :
    Fits owns (some re) (some (s.search re text)) ∧
      ∀ id, (s.search re text).set.contains id = (patterns[id]?.any (isMatch · text)) := by
  unfold RegexScratch.search
  split
  · rename_i hd
    exact ⟨hf, hh s rfl hd text rfl⟩
  · have capacity : s.set.clear.which.length = m.patternLen re := by
      rw [PatternSet.clear, List.length_map, hf.2]
    refine ⟨⟨lawful.owns_search hf.1 .., (lawful.capacity ..).trans capacity⟩, fun id => ?_⟩
    have := lawful.search hre hf.1 text capacity id
    rwa [contains_clear, Bool.false_or] at this

/-- A compiled text condition holds where its spec's does. -/
theorem textMatches_eq (lawful : m.Lawful isMatch owns) {patterns : List Str} {re : Option m.Regex}
    (hre : RegexOf patterns re) {tm : TextMatch} {matcher : TextMatcher m} (hm : MatcherOf patterns tm matcher)
    {s : Option (RegexScratch m)} (hf : Fits owns re s) {text : Option Str} (hh : Holding isMatch patterns text s) :
    (textMatches matcher text re s).1 = text.any (tm.holds isMatch) ∧
      Fits owns re (textMatches matcher text re s).2 ∧ Holding isMatch patterns text (textMatches matcher text re s).2 := by
  cases text with
  | none => exact ⟨rfl, hf, hh⟩
  | some text =>
    cases tm <;> cases matcher
    case prefixes.prefixes list ac =>
      refine ⟨?_, hf, hh⟩
      simp only [textMatches, lawful.find hm, isSome_longestPrefix, Option.any_some, TextMatch.holds]
    case equals.equals list set =>
      cases hm
      exact ⟨rfl, hf, hh⟩
    case regex.regex list ids =>
      obtain ⟨hne, hs⟩ := hm
      have hne' : ids.slice patterns ≠ [] := hs.symm ▸ hne
      cases re with
      | none =>
        have hnil : patterns = [] := hre
        rw [hnil] at hne'
        simp [Range.slice] at hne'
      | some re =>
        cases s with
        | none => exact hf.elim
        | some s =>
          obtain ⟨hf', hset⟩ := search_holds lawful hre hf hh
          refine ⟨?_, hf', ?_⟩
          · have stop := slice_stop_le hne'
            have ids_le := lawful.patternIds hre
            simp only [textMatches, Option.any_some, TextMatch.holds]
            rw [Bool.eq_iff_iff, List.any_eq_true, List.any_eq_true]
            simp only [← hs, mem_slice hne', List.mem_range', hset, Bool.and_eq_true, decide_eq_true_eq, Option.any_eq_true]
            constructor
            · rintro ⟨id, ⟨i, hi, rfl⟩, -, p, hp, hmatch⟩
              exact ⟨p, ⟨_, by omega, by omega, hp⟩, hmatch⟩
            · rintro ⟨p, ⟨i, h₁, h₂, hp⟩, hmatch⟩
              exact ⟨i, ⟨i - ids.start, by omega, by omega⟩, by omega, p, hp, hmatch⟩
          · rintro r hr - t ht
            cases hr
            cases ht
            exact hset
    all_goals exact hm.elim

/-! ### Rules -/

/-- A scratch in the middle of one update's search: it fits the table, and what it holds is of this update. -/
structure Warm (owns : m.Regex → m.Cache → Prop) (isMatch : Str → Str → Bool) (b : Builder) (table : RouteTable m)
    (facts : Facts) (scratch : MatchScratch m) : Prop where
  text : Fits owns table.textRegex scratch.text
  callback : Fits owns table.callbackRegex scratch.callback
  holdsText : Holding isMatch b.textPatterns facts.text scratch.text
  holdsCallback : Holding isMatch b.callbackPatterns facts.callbackData scratch.callback

section
variable (lawful : m.Lawful isMatch owns) {rules : List (SourceId × List RuleSpec)}
  {botUsernames : List (SourceId × Option Str)} {b : Builder} {table : RouteTable m}
  (compiled : TableCompiles rules botUsernames b table)

include lawful in
theorem optTextMatches_eq {patterns : List Str} {re : Option m.Regex} (hre : RegexOf patterns re) {tm : Option TextMatch}
    {matcher : Option (TextMatcher m)} (hm : OptMatcherOf patterns tm matcher) {s : Option (RegexScratch m)}
    (hf : Fits owns re s) {text : Option Str} (hh : Holding isMatch patterns text s) :
    (optTextMatches matcher text re s).1 = tm.all (fun tm => text.any (tm.holds isMatch)) ∧
      Fits owns re (optTextMatches matcher text re s).2 ∧
      Holding isMatch patterns text (optTextMatches matcher text re s).2 := by
  cases tm <;> cases matcher
  · exact ⟨rfl, hf, hh⟩
  · exact hm.elim
  · exact hm.elim
  · exact textMatches_eq lawful hre hm hf hh

include lawful compiled in
theorem matchesRule_eq {spec : RuleSpec} {lo : Nat} {rule : CompiledRule m} (hr : RuleCompiles b spec lo rule)
    (source : SourceRules m) {facts : Facts} {scratch : MatchScratch m} (warm : Warm owns isMatch b table facts scratch) :
    (table.matchesRule source rule facts scratch).1 = spec.predicates.hold isMatch source.username facts ∧
      Warm owns isMatch b table facts (table.matchesRule source rule facts scratch).2 := by
  have hcommands : (rule.commands.all fun ac => commandMatches ac source.username facts.command) =
      (spec.predicates.commands.isEmpty || facts.command.any (commandHolds spec.predicates.commands source.username)) := by
    have hc := hr.commands
    cases h : rule.commands with
    | none =>
      rw [h] at hc
      simp [show spec.predicates.commands = [] from hc]
    | some ac =>
      rw [h] at hc
      have : spec.predicates.commands.isEmpty = false := by simpa using hc.1
      rw [Option.all_some, commandMatches_eq lawful hc.2, this, Bool.false_or]
  unfold RouteTable.matchesRule Predicates.hold
  rw [hr.updateTypes, hr.chatIds, hr.userIds, hr.chatTypes, chatTypes_eq, hcommands]
  cases hfirst : ((spec.predicates.updateTypes.isEmpty || spec.predicates.updateTypes.contains facts.updateType) &&
      (spec.predicates.chatIds.isEmpty || facts.chatId.any spec.predicates.chatIds.contains) &&
      (spec.predicates.chatTypes.isEmpty || facts.chatType.any spec.predicates.chatTypes.contains) &&
      (spec.predicates.userIds.isEmpty || facts.userId.any spec.predicates.userIds.contains) &&
      (spec.predicates.commands.isEmpty || facts.command.any (commandHolds spec.predicates.commands source.username))) with
  | false => simp [warm]
  | true =>
    simp only [if_true, Bool.true_and]
    obtain ⟨ht, hf, hh⟩ := optTextMatches_eq lawful compiled.textRegex hr.text warm.text warm.holdsText
    generalize optTextMatches rule.text facts.text table.textRegex scratch.text = text at ht hf hh ⊢
    obtain ⟨text, scratchText⟩ := text
    dsimp only at ht hf hh ⊢
    cases text with
    | false => exact ⟨by rw [← ht, Bool.false_and]; rfl, hf, warm.callback, hh, warm.holdsCallback⟩
    | true =>
      obtain ⟨hk, hf', hh'⟩ :=
        optTextMatches_eq lawful compiled.callbackRegex hr.callbackData warm.callback warm.holdsCallback
      exact ⟨by rw [← ht, Bool.true_and]; exact hk, hf, hf', hh, hh'⟩

include lawful compiled in
/-- The first compiled rule that matches is the first whose spec's conditions hold. -/
theorem position_eq (source : SourceRules m) {facts : Facts} {specs : List RuleSpec} {lo : Nat} {compiledRules : List (CompiledRule m)}
    (hr : RulesCompile b lo specs compiledRules) {scratch : MatchScratch m} (warm : Warm owns isMatch b table facts scratch) :
    (table.position source facts compiledRules scratch).1 =
        specs.findIdx? (fun spec => spec.predicates.hold isMatch source.username facts) ∧
      Warm owns isMatch b table facts (table.position source facts compiledRules scratch).2 := by
  induction specs generalizing lo compiledRules scratch with
  | nil =>
    cases compiledRules with
    | nil => exact ⟨rfl, warm⟩
    | cons rule compiledRules => exact hr.elim
  | cons spec specs ih =>
    cases compiledRules with
    | nil => exact hr.elim
    | cons rule compiledRules =>
      obtain ⟨hit, warm'⟩ := matchesRule_eq lawful compiled hr.1 source warm
      rw [RouteTable.position, List.findIdx?_cons, ← hit]
      generalize table.matchesRule source rule facts scratch = result at warm' ⊢
      obtain ⟨hit, scratch'⟩ := result
      obtain ⟨hrest, warm''⟩ := ih hr.2 warm'
      cases hit with
      | true => exact ⟨rfl, warm'⟩
      | false => exact ⟨congrArg (Option.map (· + 1)) hrest, warm''⟩

end

/-! ### Scratch -/

/-- The scratch fits the table that owns it. -/
def MatchScratch.FitsOwner (owns : m.Regex → m.Cache → Prop) (table : RouteTable m) (scratch : MatchScratch m) : Prop :=
  scratch.owner = some table.token → Fits owns table.textRegex scratch.text ∧ Fits owns table.callbackRegex scratch.callback

theorem fits_new (lawful : m.Lawful isMatch owns) (re : Option m.Regex) : Fits owns re (re.map RegexScratch.new) := by
  cases re with
  | none => trivial
  | some re => exact ⟨lawful.owns_createCache re, List.length_replicate ..⟩

theorem fits_undone {re : Option m.Regex} {s : Option (RegexScratch m)} (h : Fits owns re s) :
    Fits owns re (s.map ({ · with done := false })) := by
  cases re <;> cases s <;> exact h

theorem holding_undone {patterns : List Str} {text : Option Str} (s : Option (RegexScratch m)) :
    Holding isMatch patterns text (s.map ({ · with done := false })) := by
  intro r hr hd
  cases s with
  | none => cases hr
  | some s =>
    cases hr
    cases hd

/-- Preparing makes a scratch that fits the tables it is used with ready for an update. -/
theorem prepare_warm (lawful : m.Lawful isMatch owns) {table : RouteTable m} {scratch : MatchScratch m}
    (h : scratch.FitsOwner owns table) (b : Builder) (facts : Facts) : Warm owns isMatch b table facts (scratch.prepare table) := by
  unfold MatchScratch.prepare
  split
  · rename_i ho
    obtain ⟨ht, hc⟩ := h ho
    exact ⟨fits_undone ht, fits_undone hc, holding_undone _, holding_undone _⟩
  · exact ⟨fits_undone (fits_new lawful _), fits_undone (fits_new lawful _), holding_undone _, holding_undone _⟩

end Tgin.Rules
