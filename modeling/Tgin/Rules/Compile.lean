import Tgin.Rules.Reference

/-! What compiling leaves in the table: every rule's target expression in a run of nodes of its own, its
    regexes in a range of its field's patterns, its conditions as they were given. -/

namespace Tgin.Rules

variable {m : Matchers}

/-! ### Target expressions in the arena -/

namespace TargetSpec

mutual

/-- How many nodes an expression has below its root. -/
def nested : TargetSpec → Nat
  | .consumer _ => 0
  | .all children => sizes children
  | .split _ among _ => sizes among

def sizes : List TargetSpec → Nat
  | [] => 0
  | spec :: specs => nested spec + 1 + sizes specs

end

theorem length_le_sizes (specs : List TargetSpec) : specs.length ≤ sizes specs := by
  induction specs with
  | nil => exact Nat.zero_le _
  | cons spec specs ih =>
    rw [List.length_cons, sizes]
    omega

/-- The root nodes of expressions placed one after the other from `lo` on. -/
def roots : Nat → List TargetSpec → List Nat
  | _, [] => []
  | lo, spec :: specs => (lo + nested spec) :: roots (lo + nested spec + 1) specs

theorem length_roots (lo : Nat) (specs : List TargetSpec) : (roots lo specs).length = specs.length := by
  induction specs generalizing lo with
  | nil => rfl
  | cons spec specs ih => rw [roots, List.length_cons, List.length_cons, ih]

mutual

/-- An expression takes up the nodes from `lo` on, its root the last of them. -/
def Placed (nodes : List Node) (children : List Nat) : Nat → TargetSpec → Prop
  | lo, .consumer id => nodes[lo]? = some (.consumer id)
  | lo, .all specs => ∃ range, nodes[lo + sizes specs]? = some (.all range) ∧ specs ≠ [] ∧
      range.slice children = roots lo specs ∧ PlacedAll nodes children lo specs
  | lo, .split strategy among weights => ∃ range schedule,
      nodes[lo + sizes among]? = some (.split strategy range schedule) ∧ among ≠ [] ∧
      range.slice children = roots lo among ∧
      (∀ key ticket, pickChild strategy schedule among.length key ticket = strategy.select weights among.length key ticket) ∧
      PlacedAll nodes children lo among

def PlacedAll (nodes : List Node) (children : List Nat) : Nat → List TargetSpec → Prop
  | _, [] => True
  | lo, spec :: specs => Placed nodes children lo spec ∧ PlacedAll nodes children (lo + nested spec + 1) specs

end

end TargetSpec

open TargetSpec

theorem Range.slice_append {α : Type} {range : Range} {list : List α} (h : range.slice list ≠ []) (more : List α) :
    range.slice (list ++ more) = range.slice list := by
  unfold Range.slice at h ⊢
  split at h
  · rename_i hr
    have hl : range.start ≤ range.stop ∧ range.stop ≤ (list ++ more).length := by
      rw [List.length_append]
      omega
    rw [if_pos hr, if_pos hl, List.drop_append_of_le_length (by omega), List.take_append_of_le_length]
    rw [List.length_drop]
    omega
  · exact absurd rfl h

theorem getElem?_append_of_some {α : Type} {list : List α} {i : Nat} {a : α} (h : list[i]? = some a) (more : List α) :
    (list ++ more)[i]? = some a := by
  rw [List.getElem?_append_left (List.getElem?_eq_some_iff.mp h).1, h]

/-- What is placed stays so as the arenas grow. -/
theorem TargetSpec.Placed.append {nodes more : List Node} {children moreChildren : List Nat} (spec : TargetSpec) :
    ∀ {lo : Nat}, Placed nodes children lo spec → Placed (nodes ++ more) (children ++ moreChildren) lo spec := by
  have list {specs : List TargetSpec} (ih : ∀ c ∈ specs, ∀ {lo : Nat}, Placed nodes children lo c →
      Placed (nodes ++ more) (children ++ moreChildren) lo c) {lo : Nat} (h : PlacedAll nodes children lo specs) :
      PlacedAll (nodes ++ more) (children ++ moreChildren) lo specs := by
    induction specs generalizing lo with
    | nil => trivial
    | cons spec specs ih' =>
      exact ⟨ih spec List.mem_cons_self h.1, ih' (fun c hc => ih c (List.mem_cons_of_mem _ hc)) h.2⟩
  have slice {range : Range} {lo : Nat} {specs : List TargetSpec} (hne : specs ≠ []) (h : range.slice children = roots lo specs) :
      range.slice (children ++ moreChildren) = roots lo specs := by
    rw [Range.slice_append _ _, h]
    rw [h]
    intro hnil
    have := length_roots lo specs
    rw [hnil] at this
    exact hne (List.length_eq_zero_iff.mp this.symm)
  induction spec using TargetSpec.induction with
  | consumer id => exact fun h => getElem?_append_of_some h more
  | all specs ih =>
    rintro lo ⟨range, hn, hne, hs, hp⟩
    exact ⟨range, getElem?_append_of_some hn more, hne, slice hne hs, list ih hp⟩
  | split strategy among weights ih =>
    rintro lo ⟨range, schedule, hn, hne, hs, hpick, hp⟩
    exact ⟨range, schedule, getElem?_append_of_some hn more, hne, slice hne hs, hpick, list ih hp⟩

theorem TargetSpec.PlacedAll.append {nodes more : List Node} {children moreChildren : List Nat} {specs : List TargetSpec} {lo : Nat}
    (h : PlacedAll nodes children lo specs) : PlacedAll (nodes ++ more) (children ++ moreChildren) lo specs := by
  induction specs generalizing lo with
  | nil => trivial
  | cons spec specs ih => exact ⟨Placed.append spec h.1, ih h.2⟩

/-! ### Compiling target expressions -/

theorem bind_eq_ok {ε α β : Type} {x : Except ε α} {f : α → Except ε β} {b : β} :
    x >>= f = .ok b ↔ ∃ a, x = .ok a ∧ f a = .ok b := by
  cases x with
  | error e => simp [bind, Except.bind]
  | ok a => simp [bind, Except.bind]

theorem mapError_eq_ok {ε ε' α : Type} {x : Except ε α} {f : ε → ε'} {a : α} : x.mapError f = .ok a ↔ x = .ok a := by
  cases x <;> simp [Except.mapError]

/-- What compiling adds to the arenas: `n` nodes, of which `k` at least are no child yet. -/
structure Grown (b b' : Builder) (n k : Nat) : Prop where
  nodes : ∃ more, b'.nodes = b.nodes ++ more ∧ more.length = n
  children : ∃ more, b'.children = b.children ++ more ∧ more.length + k ≤ n
  text : b'.textPatterns = b.textPatterns
  callback : b'.callbackPatterns = b.callbackPatterns

namespace Grown
variable {b b' b'' : Builder} {n k n' k' : Nat}

theorem refl (b : Builder) : Grown b b 0 0 := ⟨⟨[], by simp⟩, ⟨[], by simp⟩, rfl, rfl⟩

theorem trans (h : Grown b b' n k) (h' : Grown b' b'' n' k') : Grown b b'' (n + n') (k + k') := by
  obtain ⟨⟨more, hm, hl⟩, ⟨kids, hk, hkl⟩, ht, hc⟩ := h
  obtain ⟨⟨more', hm', hl'⟩, ⟨kids', hk', hkl'⟩, ht', hc'⟩ := h'
  refine ⟨⟨more ++ more', by rw [hm', hm, List.append_assoc], by rw [List.length_append, hl, hl']⟩,
    ⟨kids ++ kids', by rw [hk', hk, List.append_assoc], ?_⟩, ht'.trans ht, hc'.trans hc⟩
  rw [List.length_append]
  omega

theorem length (h : Grown b b' n k) : b'.nodes.length = b.nodes.length + n := by
  obtain ⟨⟨more, hm, hl⟩, -⟩ := h
  rw [hm, List.length_append, hl]

theorem length_children (h : Grown b b' n k) (hb : b.children.length ≤ b.nodes.length) :
    b'.children.length + k ≤ b'.nodes.length := by
  obtain ⟨-, ⟨kids, hk, hkl⟩, -⟩ := id h
  rw [h.length, hk, List.length_append]
  omega

theorem placed (h : Grown b b' n k) {lo : Nat} {spec : TargetSpec} (hp : Placed b.nodes b.children lo spec) :
    Placed b'.nodes b'.children lo spec := by
  obtain ⟨⟨more, hm, -⟩, ⟨kids, hk, -⟩, -⟩ := h
  rw [hm, hk]
  exact Placed.append spec hp

theorem placedAll (h : Grown b b' n k) {lo : Nat} {specs : List TargetSpec}
    (hp : PlacedAll b.nodes b.children lo specs) : PlacedAll b'.nodes b'.children lo specs := by
  obtain ⟨⟨more, hm, -⟩, ⟨kids, hk, -⟩, -⟩ := h
  rw [hm, hk]
  exact hp.append

theorem push {node : Node} {id : Nat} (h : b.push node = (id, b')) : Grown b b' 1 1 := by
  cases h
  exact ⟨⟨[node], rfl, rfl⟩, ⟨[], by simp⟩, rfl, rfl⟩

theorem extendChildren {ids : List Nat} {range : Range} (h : Grown b b' n ids.length)
    (hx : b'.extendChildren ids = (range, b'')) : Grown b b'' n 0 := by
  cases hx
  obtain ⟨⟨more, hm, hl⟩, ⟨kids, hk, hkl⟩, ht, hc⟩ := h
  refine ⟨⟨more, hm, hl⟩, ⟨kids ++ ids, ?_, ?_⟩, ht, hc⟩
  · rw [hk, List.append_assoc]
  · rwa [List.length_append]

end Grown

theorem push_id {b b' : Builder} {node : Node} {id : Nat} (h : b.push node = (id, b')) (hlt : b'.nodes.length < 2 ^ 32) :
    id = b.nodes.length ∧ b'.nodes[b.nodes.length]? = some node := by
  cases h
  simp only [List.length_append, List.length_singleton] at hlt ⊢
  exact ⟨Nat.min_eq_left (by omega), by simp⟩

/-- The range of what is appended. -/
theorem slice_index {α : Type} {list more : List α} (h : (list ++ more).length < 2 ^ 32) :
    Range.slice { start := index list.length, stop := index (list ++ more).length } (list ++ more) = more := by
  rw [List.length_append] at h
  have start : index list.length = list.length := Nat.min_eq_left (by omega)
  have stop : index (list ++ more).length = (list ++ more).length :=
    Nat.min_eq_left (by rw [List.length_append]; omega)
  rw [start, stop, Range.slice, if_pos ⟨by rw [List.length_append]; exact Nat.le_add_right .., le_rfl⟩]
  simp

theorem slice_extendChildren {b b' : Builder} {ids : List Nat} {range : Range} (h : b.extendChildren ids = (range, b'))
    (hlt : b'.children.length < 2 ^ 32) : range.slice b'.children = ids := by
  cases h
  exact slice_index hlt

/-- An expression that compiles is placed where its nodes went, as long as a `u32` counts the nodes. -/
def Compiles (spec : TargetSpec) (b : Builder) (id : Nat) (b' : Builder) : Prop :=
  Grown b b' (nested spec + 1) 1 ∧
    (b'.nodes.length < 2 ^ 32 → id = b.nodes.length + nested spec ∧ Placed b'.nodes b'.children b.nodes.length spec)

def CompilesAll (specs : List TargetSpec) (b : Builder) (ids : List Nat) (b' : Builder) : Prop :=
  Grown b b' (sizes specs) specs.length ∧ ids.length = specs.length ∧
    (b'.nodes.length < 2 ^ 32 → ids = roots b.nodes.length specs ∧ PlacedAll b'.nodes b'.children b.nodes.length specs)

theorem targets_compiles {specs : List TargetSpec}
    (ih : ∀ c ∈ specs, ∀ {b : Builder} {id : Nat} {b' : Builder}, b.children.length ≤ b.nodes.length →
      Builder.target (m := m) c b = .ok (id, b') →
      Compiles c b id b')
    {b : Builder} {ids : List Nat} {b' : Builder} (hb : b.children.length ≤ b.nodes.length)
    (h : Builder.targets (m := m) specs b = .ok (ids, b')) : CompilesAll specs b ids b' := by
  induction specs generalizing b ids with
  | nil =>
    cases h
    exact ⟨Grown.refl _, rfl, fun _ => ⟨rfl, trivial⟩⟩
  | cons spec specs ih' =>
    rw [Builder.targets] at h
    obtain ⟨⟨id, b₁⟩, h₁, h⟩ := bind_eq_ok.mp h
    obtain ⟨⟨rest, b₂⟩, h₂, h⟩ := bind_eq_ok.mp h
    cases h
    obtain ⟨g₁, p₁⟩ := ih spec List.mem_cons_self hb h₁
    have hb₁ := g₁.length_children hb
    obtain ⟨g₂, hl, p₂⟩ := ih' (fun c hc => ih c (List.mem_cons_of_mem _ hc)) (by omega) h₂
    refine ⟨?_, by rw [List.length_cons, hl, List.length_cons], fun hlt => ?_⟩
    · rw [sizes, List.length_cons, Nat.add_comm specs.length 1]
      exact g₁.trans g₂
    · have hlen := g₂.length
      obtain ⟨rfl, hp₁⟩ := p₁ (by omega)
      obtain ⟨rfl, hp₂⟩ := p₂ hlt
      rw [g₁.length, ← Nat.add_assoc] at hp₂ ⊢
      exact ⟨rfl, g₂.placed hp₁, hp₂⟩

/-- A node over compiled children. -/
theorem group_compiles {specs : List TargetSpec} {b b₁ b₂ b' : Builder} {ids : List Nat} (h : CompilesAll specs b ids b₁)
    (hb : b.children.length ≤ b.nodes.length) {range : Range} (hx : b₁.extendChildren ids = (range, b₂)) {node : Node}
    {id : Nat} (hpush : b₂.push node = (id, b')) :
    Grown b b' (sizes specs + 1) 1 ∧ (b'.nodes.length < 2 ^ 32 →
      id = b.nodes.length + sizes specs ∧ b'.nodes[b.nodes.length + sizes specs]? = some node ∧
      range.slice b'.children = roots b.nodes.length specs ∧ PlacedAll b'.nodes b'.children b.nodes.length specs) := by
  obtain ⟨g, hl, hp⟩ := h
  rw [← hl] at g
  have g₂ := g.extendChildren hx
  have gp := Grown.push hpush
  have g' := g₂.trans gp
  rw [Nat.zero_add] at g'
  refine ⟨g', fun hlt => ?_⟩
  have len₁ := g.length
  have len₂ := g₂.length
  have len' := gp.length
  have kids := g₂.length_children hb
  obtain ⟨hid, hnode⟩ := push_id hpush hlt
  rw [len₂] at hid hnode
  obtain ⟨rfl, placed⟩ := hp (by omega)
  have hs := slice_extendChildren hx (by omega)
  have same : b'.children = b₂.children := by
    cases hpush
    rfl
  have placed₂ : PlacedAll b₂.nodes b₂.children b.nodes.length specs := by
    cases hx
    have : PlacedAll (b₁.nodes ++ []) (b₁.children ++ roots b.nodes.length specs) b.nodes.length specs := placed.append
    rwa [List.append_nil] at this
  exact ⟨hid, hnode, same ▸ hs, gp.placedAll placed₂⟩

/-- A split picks the child its strategy selects. -/
theorem pickChild_eq {strategy : SplitStrategy} {n : Nat} {weights : List UInt32} {schedule : List Nat}
    (h : Builder.splitSchedule (m := m) strategy n weights = .ok schedule) (hn : n < 2 ^ 32) (key : Option Nat)
    (ticket : Nat) : pickChild strategy schedule n key ticket = strategy.select weights n key ticket := by
  cases strategy with
  | roundRobin => cases key <;> rfl
  | hashChat => cases key <;> rfl
  | weighted =>
    simp only [Builder.splitSchedule] at h
    split at h
    · cases h
    · rename_i hlen
      obtain ⟨hne, hpick⟩ := schedule_getD (not_not.mp hlen ▸ hn) h ticket
      simp only [pickChild, SplitStrategy.select, hne, Bool.false_eq_true, if_false, hpick]

theorem of_throw_if {ε α β : Type} {c : Prop} [Decidable c] {e : ε} {f : β → Except ε α} {x : Except ε α} {a : α}
    (h : (if c then (throw e : Except ε β) >>= f else x) = .ok a) : ¬c ∧ x = .ok a := by
  split at h
  · cases h
  · exact ⟨‹_›, h⟩

theorem target_compiles (spec : TargetSpec) : ∀ {b : Builder} {id : Nat} {b' : Builder},
    b.children.length ≤ b.nodes.length → Builder.target (m := m) spec b = .ok (id, b') → Compiles spec b id b' := by
  induction spec using TargetSpec.induction with
  | consumer cid =>
    intro b id b' _ h
    have hpush := Except.ok.inj h
    exact ⟨Grown.push hpush, fun hlt => push_id hpush hlt⟩
  | all specs ih =>
    intro b id b' hb h
    rw [Builder.target] at h
    obtain ⟨hne, h⟩ := of_throw_if h
    obtain ⟨⟨ids, b₁⟩, h₁, h⟩ := bind_eq_ok.mp h
    obtain ⟨g, hp⟩ := group_compiles (targets_compiles ih hb h₁) hb rfl (Except.ok.inj h)
    refine ⟨g, fun hlt => ?_⟩
    obtain ⟨hid, hnode, hs, hp⟩ := hp hlt
    exact ⟨hid, _, hnode, by simpa using hne, hs, hp⟩
  | split strategy among weights ih =>
    intro b id b' hb h
    rw [Builder.target] at h
    obtain ⟨hne, h⟩ := of_throw_if h
    obtain ⟨schedule, hsched, h⟩ := bind_eq_ok.mp h
    obtain ⟨⟨ids, b₁⟩, h₁, h⟩ := bind_eq_ok.mp h
    obtain ⟨g, hp⟩ := group_compiles (targets_compiles ih hb h₁) hb rfl (Except.ok.inj h)
    refine ⟨g, fun hlt => ?_⟩
    have hlen := g.length
    have := length_le_sizes among
    obtain ⟨hid, hnode, hs, hp⟩ := hp hlt
    exact ⟨hid, _, schedule, hnode, by simpa using hne, hs, pickChild_eq hsched (by omega), hp⟩

/-- The root of a rule stands for all its targets. -/
theorem root_compiles {spec : RuleSpec} {b : Builder} {id : Nat} {b' : Builder} (hb : b.children.length ≤ b.nodes.length)
    (h : Builder.root (m := m) spec.targets b = .ok (id, b')) : Compiles spec.target b id b' := by
  obtain ⟨p, targets⟩ := spec
  match targets with
  | [] => cases h
  | [single] => exact target_compiles single hb h
  | first :: second :: rest =>
    obtain ⟨⟨ids, b₁⟩, h₁, h⟩ := bind_eq_ok.mp h
    have all := targets_compiles (fun c _ _ _ _ => target_compiles c) hb h₁
    obtain ⟨g, hp⟩ := group_compiles all hb rfl (Except.ok.inj h)
    refine ⟨g, fun hlt => ?_⟩
    obtain ⟨hid, hnode, hs, hp⟩ := hp hlt
    exact ⟨hid, _, hnode, List.cons_ne_nil _ _, hs, hp⟩

/-! ### Compiling rules -/

/-- Every arena of a builder begins with the other's. -/
structure Extends (b b' : Builder) : Prop where
  nodes : ∃ more, b'.nodes = b.nodes ++ more
  children : ∃ more, b'.children = b.children ++ more
  patterns : ∀ field, ∃ more, b'.patterns field = b.patterns field ++ more

theorem Extends.refl (b : Builder) : Extends b b := ⟨⟨[], by simp⟩, ⟨[], by simp⟩, fun _ => ⟨[], by simp⟩⟩

theorem Extends.trans {b b' b'' : Builder} (h : Extends b b') (h' : Extends b' b'') : Extends b b'' := by
  obtain ⟨⟨n, hn⟩, ⟨c, hc⟩, hp⟩ := h
  obtain ⟨⟨n', hn'⟩, ⟨c', hc'⟩, hp'⟩ := h'
  refine ⟨⟨n ++ n', by rw [hn', hn, List.append_assoc]⟩, ⟨c ++ c', by rw [hc', hc, List.append_assoc]⟩, fun field => ?_⟩
  obtain ⟨p, hp⟩ := hp field
  obtain ⟨p', hp'⟩ := hp' field
  exact ⟨p ++ p', by rw [hp', hp, List.append_assoc]⟩

theorem Grown.extends {b b' : Builder} {n k : Nat} (h : Grown b b' n k) : Extends b b' := by
  obtain ⟨⟨more, hm, -⟩, ⟨kids, hk, -⟩, ht, hc⟩ := h
  refine ⟨⟨more, hm⟩, ⟨kids, hk⟩, fun field => ⟨[], ?_⟩⟩
  cases field <;> simp [Builder.patterns, ht, hc]

/-- Index ranges into the arenas are exact: a `u32` counts their elements. -/
structure Small (b : Builder) : Prop where
  nodes : b.nodes.length < 2 ^ 32
  patterns : ∀ field, (b.patterns field).length < 2 ^ 32

theorem Extends.small {b b' : Builder} (h : Extends b b') (hs : Small b') : Small b := by
  refine ⟨?_, fun field => ?_⟩
  · obtain ⟨more, hm⟩ := h.nodes
    have := hs.nodes
    rw [hm, List.length_append] at this
    omega
  · obtain ⟨more, hm⟩ := h.patterns field
    have := hs.patterns field
    rw [hm, List.length_append] at this
    omega

/-- What a text condition compiles to, its regexes being a range of the field's patterns. -/
def MatcherOf (patterns : List Str) : TextMatch → TextMatcher m → Prop
  | .prefixes list, .prefixes ac => m.anchoredAutomaton list false = .ok ac
  | .regex list, .regex ids => list ≠ [] ∧ ids.slice patterns = list
  | .equals list, .equals set => set = list
  | _, _ => False

def OptMatcherOf (patterns : List Str) : Option TextMatch → Option (TextMatcher m) → Prop
  | none, none => True
  | some tm, some matcher => MatcherOf patterns tm matcher
  | _, _ => False

/-- What a rule's commands compile to. -/
def CommandsOf (cmds : List Str) : Option m.AhoCorasick → Prop
  | none => cmds = []
  | some ac => cmds ≠ [] ∧ m.anchoredAutomaton (cmds.map (·.stripPrefix slash)) true = .ok ac

/-- A compiled rule whose targets are placed from node `lo` on. -/
structure RuleCompiles (b : Builder) (spec : RuleSpec) (lo : Nat) (rule : CompiledRule m) : Prop where
  updateTypes : rule.updateTypes = spec.predicates.updateTypes
  chatIds : rule.chatIds = spec.predicates.chatIds
  chatTypes : rule.chatTypes = spec.predicates.chatTypes.foldl (· ||| ·.bit) 0
  userIds : rule.userIds = spec.predicates.userIds
  commands : CommandsOf spec.predicates.commands rule.commands
  text : OptMatcherOf b.textPatterns spec.predicates.text rule.text
  callbackData : OptMatcherOf b.callbackPatterns spec.predicates.callbackData rule.callbackData
  root : rule.root = lo + nested spec.target
  placed : Placed b.nodes b.children lo spec.target

theorem OptMatcherOf.append {patterns : List Str} {tm : Option TextMatch} {matcher : Option (TextMatcher m)}
    (h : OptMatcherOf patterns tm matcher) (more : List Str) : OptMatcherOf (patterns ++ more) tm matcher := by
  rcases tm with _ | tm <;> rcases matcher with _ | matcher
  · trivial
  · exact h
  · exact h
  · cases tm <;> cases matcher
    case some.some.regex.regex list ids =>
      obtain ⟨hne, hs⟩ := h
      exact ⟨hne, by rw [Range.slice_append (hs ▸ hne), hs]⟩
    all_goals exact h

theorem RuleCompiles.extends {b b' : Builder} (hb : Extends b b') {spec : RuleSpec} {lo : Nat} {rule : CompiledRule m}
    (h : RuleCompiles b spec lo rule) : RuleCompiles b' spec lo rule := by
  obtain ⟨n, hn⟩ := hb.nodes
  obtain ⟨c, hc⟩ := hb.children
  obtain ⟨t, ht⟩ := hb.patterns .text
  obtain ⟨k, hk⟩ := hb.patterns .callback
  change b'.textPatterns = b.textPatterns ++ t at ht
  change b'.callbackPatterns = b.callbackPatterns ++ k at hk
  exact {
    h with
    text := ht ▸ h.text.append t
    callbackData := hk ▸ h.callbackData.append k
    placed := by
      rw [hn, hc]
      exact Placed.append _ h.placed }

theorem automaton_eq_ok {patterns : List Str} {ci : Bool} {ac : m.AhoCorasick} :
    Builder.automaton patterns ci = .ok ac ↔ m.anchoredAutomaton patterns ci = .ok ac := mapError_eq_ok

theorem commandNames_eq {cmds names : List Str} (h : Builder.commandNames (m := m) cmds = .ok names) :
    names = cmds.map (·.stripPrefix slash) := by
  induction cmds generalizing names with
  | nil => exact (Except.ok.inj h).symm
  | cons cmd cmds ih =>
    rw [Builder.commandNames] at h
    obtain ⟨-, h⟩ := of_throw_if h
    obtain ⟨rest, hr, h⟩ := bind_eq_ok.mp h
    rw [← Except.ok.inj h, ih hr, List.map_cons]

theorem commands_compile {cmds : List Str} {commands : Option m.AhoCorasick} (h : Builder.commands cmds = .ok commands) :
    CommandsOf cmds commands := by
  unfold Builder.commands at h
  split at h
  · rename_i hc
    rw [← Except.ok.inj h]
    simpa [CommandsOf] using hc
  · rename_i hc
    obtain ⟨names, hn, h⟩ := bind_eq_ok.mp h
    obtain ⟨ac, ha, h⟩ := bind_eq_ok.mp h
    rw [← Except.ok.inj h]
    exact ⟨by simpa using hc, commandNames_eq hn ▸ automaton_eq_ok.mp ha⟩

theorem extendPatterns_extends (b : Builder) (field : Field) (list : List Str) :
    Extends b (b.extendPatterns field list) ∧ (b.extendPatterns field list).patterns field = b.patterns field ++ list ∧
      (b.extendPatterns field list).nodes = b.nodes ∧ (b.extendPatterns field list).children = b.children := by
  cases field
  all_goals
    refine ⟨⟨⟨[], by simp [Builder.extendPatterns]⟩, ⟨[], by simp [Builder.extendPatterns]⟩, fun f => ?_⟩, rfl, rfl, rfl⟩
    cases f
  · exact ⟨list, rfl⟩
  · exact ⟨[], (List.append_nil _).symm⟩
  · exact ⟨[], (List.append_nil _).symm⟩
  · exact ⟨list, rfl⟩

theorem optTextMatcher_compiles {b b' : Builder} {field : Field} {tm : Option TextMatch} {matcher : Option (TextMatcher m)}
    (h : b.optTextMatcher field tm = .ok (matcher, b')) :
    Extends b b' ∧ b'.nodes = b.nodes ∧ b'.children = b.children ∧
      (Small b' → OptMatcherOf (b'.patterns field) tm matcher) := by
  cases tm with
  | none =>
    cases h
    exact ⟨Extends.refl _, rfl, rfl, fun _ => trivial⟩
  | some tm =>
    rw [Builder.optTextMatcher] at h
    obtain ⟨⟨matcher, b₁⟩, h₁, h⟩ := bind_eq_ok.mp h
    cases h
    unfold Builder.textMatcher at h₁
    obtain ⟨hne, h₁⟩ := of_throw_if h₁
    cases tm with
    | prefixes list =>
      obtain ⟨ac, ha, h⟩ := bind_eq_ok.mp h₁
      cases h
      exact ⟨Extends.refl _, rfl, rfl, fun _ => automaton_eq_ok.mp ha⟩
    | equals list =>
      cases h₁
      exact ⟨Extends.refl _, rfl, rfl, fun _ => rfl⟩
    | regex list =>
      obtain ⟨-, -, h⟩ := bind_eq_ok.mp h₁
      cases h
      obtain ⟨hx, hp, hn, hc⟩ := extendPatterns_extends b field list
      refine ⟨hx, hn, hc, fun hs => ⟨by simpa [TextMatch.list] using hne, ?_⟩⟩
      have lt := hs.patterns field
      rw [hp] at lt ⊢
      exact slice_index lt

theorem rule_compiles {b b' : Builder} (hb : b.children.length ≤ b.nodes.length) {spec : RuleSpec} {rule : CompiledRule m}
    (h : b.rule spec = .ok (rule, b')) :
    Extends b b' ∧ b'.nodes.length = b.nodes.length + (nested spec.target + 1) ∧ b'.children.length ≤ b'.nodes.length ∧
      (Small b' → RuleCompiles b' spec b.nodes.length rule) := by
  rw [Builder.rule] at h
  obtain ⟨commands, hc, h⟩ := bind_eq_ok.mp h
  obtain ⟨⟨text, b₁⟩, ht, h⟩ := bind_eq_ok.mp h
  obtain ⟨⟨callback, b₂⟩, hk, h⟩ := bind_eq_ok.mp h
  obtain ⟨⟨root, b₃⟩, hr, h⟩ := bind_eq_ok.mp h
  cases h
  obtain ⟨x₁, n₁, c₁, p₁⟩ := optTextMatcher_compiles ht
  obtain ⟨x₂, n₂, c₂, p₂⟩ := optTextMatcher_compiles hk
  have nodes : b₂.nodes = b.nodes := n₂.trans n₁
  have hb₂ : b₂.children.length ≤ b₂.nodes.length := by rwa [nodes, c₂, c₁]
  obtain ⟨g, hp⟩ := root_compiles hb₂ hr
  have kids := g.length_children hb₂
  have x₃ := g.extends
  refine ⟨(x₁.trans x₂).trans x₃, nodes ▸ g.length, by omega, fun small => ?_⟩
  obtain ⟨hroot, hplaced⟩ := hp small.nodes
  obtain ⟨t₂, ht₂⟩ := x₂.patterns .text
  change b₂.textPatterns = b₁.textPatterns ++ t₂ at ht₂
  exact {
    updateTypes := rfl, chatIds := rfl, chatTypes := rfl, userIds := rfl
    commands := commands_compile hc
    text := g.text ▸ ht₂ ▸ (p₁ ((x₂.trans x₃).small small)).append t₂
    callbackData := g.callback ▸ p₂ (x₃.small small)
    root := nodes ▸ hroot
    placed := nodes ▸ hplaced }

/-- Compiled rules whose targets are placed one after the other from node `lo` on. -/
def RulesCompile (b : Builder) : Nat → List RuleSpec → List (CompiledRule m) → Prop
  | _, [], [] => True
  | lo, spec :: specs, rule :: rules => RuleCompiles b spec lo rule ∧ RulesCompile b (lo + (nested spec.target + 1)) specs rules
  | _, _, _ => False

theorem RulesCompile.extends {b b' : Builder} (hb : Extends b b') {lo : Nat} {specs : List RuleSpec}
    {rules : List (CompiledRule m)} (h : RulesCompile b lo specs rules) : RulesCompile b' lo specs rules := by
  induction specs generalizing lo rules with
  | nil => cases rules <;> exact h
  | cons spec specs ih =>
    cases rules with
    | nil => exact h
    | cons rule rules => exact ⟨h.1.extends hb, ih h.2⟩

/-- How many nodes the targets of a list of rules take up. -/
def nodeCount (specs : List RuleSpec) : Nat := (specs.map fun spec => nested spec.target + 1).sum

theorem rules_compile {id : SourceId} {i : Nat} {specs : List RuleSpec} {b b' : Builder} {rules : List (CompiledRule m)}
    (hb : b.children.length ≤ b.nodes.length) (h : Builder.rules id i specs b = .ok (rules, b')) :
    Extends b b' ∧ b'.nodes.length = b.nodes.length + nodeCount specs ∧ b'.children.length ≤ b'.nodes.length ∧
      (Small b' → RulesCompile b' b.nodes.length specs rules) := by
  induction specs generalizing i b rules with
  | nil =>
    cases h
    exact ⟨Extends.refl _, rfl, hb, fun _ => trivial⟩
  | cons spec specs ih =>
    rw [Builder.rules] at h
    obtain ⟨⟨rule, b₁⟩, h₁, h⟩ := bind_eq_ok.mp h
    obtain ⟨⟨rest, b₂⟩, h₂, h⟩ := bind_eq_ok.mp h
    cases h
    obtain ⟨x₁, n₁, c₁, p₁⟩ := rule_compiles hb (mapError_eq_ok.mp h₁)
    obtain ⟨x₂, n₂, c₂, p₂⟩ := ih c₁ h₂
    refine ⟨x₁.trans x₂, ?_, c₂, fun small => ⟨(p₁ (x₂.small small)).extends x₂, n₁ ▸ p₂ small⟩⟩
    rw [n₂, n₁, nodeCount, nodeCount, List.map_cons, List.sum_cons, Nat.add_assoc]

/-! ### Compiling sources -/

/-- The node from which on the rules of a source are placed. -/
def sourceBase : Nat → List (SourceId × List RuleSpec) → SourceId → Nat
  | lo, [], _ => lo
  | lo, (id, specs) :: rest, source => if id = source then lo else sourceBase (lo + nodeCount specs) rest source

/-- The compiled rules of a source. -/
def sourceAt (sources : List (Option (SourceRules m))) (source : SourceId) : Option (SourceRules m) :=
  sources[source.toNat]?.getD none

theorem sourceAt_grow (sources : List (Option (SourceRules m))) (n : Nat) (source : SourceId) :
    sourceAt (sources ++ List.replicate n none) source = sourceAt sources source := by
  unfold sourceAt
  rcases Nat.lt_or_ge source.toNat sources.length with h | h
  · rw [List.getElem?_append_left h]
  · rw [List.getElem?_append_right h, List.getElem?_eq_none h, List.getElem?_replicate]
    split <;> rfl

theorem sourceAt_set {sources : List (Option (SourceRules m))} {id : SourceId} (h : id.toNat < sources.length)
    (value : Option (SourceRules m)) (source : SourceId) :
    sourceAt (sources.set id.toNat value) source = if id = source then value else sourceAt sources source := by
  unfold sourceAt
  by_cases hs : id = source
  · subst hs
    simp [h]
  · have : id.toNat ≠ source.toNat := fun he => hs (UInt16.toNat_inj.mp he)
    simp [hs, List.getElem?_set_ne this]

/-- The rules of a source that compiled: under its name, in the order of the specs. -/
structure SourceCompiles (b : Builder) (botUsernames : List (SourceId × Option Str)) (source : SourceId)
    (specs : List RuleSpec) (lo : Nat) (rules : SourceRules m) : Prop where
  username : rules.username = usernameOf botUsernames source
  rules : RulesCompile b lo specs rules.rules

theorem sources_compile {botUsernames : List (SourceId × Option Str)} {rest : List (SourceId × List RuleSpec)}
    {compiled compiled' : List (Option (SourceRules m))} {b b' : Builder} (hb : b.children.length ≤ b.nodes.length)
    (h : Builder.sources botUsernames rest compiled b = .ok (compiled', b')) :
    Extends b b' ∧
      (∀ source, rest.find? (·.1 = source) = none → sourceAt compiled' source = sourceAt compiled source) ∧
      (∀ source entry, rest.find? (·.1 = source) = some entry → sourceAt compiled source = none ∧
        (Small b' → ∃ rules, sourceAt compiled' source = some rules ∧
          SourceCompiles b' botUsernames source entry.2 (sourceBase b.nodes.length rest source) rules)) := by
  induction rest generalizing compiled b with
  | nil =>
    cases h
    exact ⟨Extends.refl _, fun _ _ => rfl, fun _ _ h => by cases h⟩
  | cons entry rest ih =>
    obtain ⟨id, specs⟩ := entry
    rw [Builder.sources] at h
    obtain ⟨hdup, h⟩ := of_throw_if h
    obtain ⟨⟨rules, b₁⟩, h₁, h⟩ := bind_eq_ok.mp h
    obtain ⟨x₁, n₁, c₁, p₁⟩ := rules_compile hb h₁
    obtain ⟨x₂, keep, put⟩ := ih c₁ h
    have unset : sourceAt compiled id = none := by
      rw [← sourceAt_grow compiled (id.toNat + 1 - compiled.length), sourceAt]
      simpa using hdup
    have lt : id.toNat < (compiled ++ List.replicate (id.toNat + 1 - compiled.length) none).length := by
      rw [List.length_append, List.length_replicate]
      omega
    simp only [sourceAt_set lt, sourceAt_grow] at keep put
    have find (source : SourceId) : ((id, specs) :: rest).find? (·.1 = source) =
        if id = source then some (id, specs) else rest.find? (·.1 = source) := by
      by_cases hs : id = source <;> simp [hs]
    refine ⟨x₁.trans x₂, fun source hn => ?_, fun source entry hf => ?_⟩
    · rw [find] at hn
      split at hn
      · cases hn
      · rename_i hs
        rw [keep source hn, if_neg hs]
    · rw [find] at hf
      rw [sourceBase]
      by_cases hs : id = source
      · subst hs
        rw [if_pos rfl] at hf ⊢
        cases hf
        have fresh : rest.find? (·.1 = id) = none := by
          cases hr : rest.find? (·.1 = id) with
          | none => rfl
          | some entry => simpa using (put id entry hr).1
        refine ⟨unset, fun small => ⟨_, (keep id fresh).trans (if_pos rfl), rfl, ?_⟩⟩
        exact (p₁ (x₂.small small)).extends x₂
      · rw [if_neg hs] at hf ⊢
        obtain ⟨hnone, hput⟩ := put source entry hf
        rw [if_neg hs] at hnone
        exact ⟨hnone, n₁ ▸ hput⟩

/-- One pattern id for each pattern of a field's regex. -/
def RegexOf (patterns : List Str) : Option m.Regex → Prop
  | none => patterns = []
  | some re => m.buildMany patterns = .ok re

theorem combined_eq {patterns : List Str} {re : Option m.Regex} (h : combined patterns = .ok re) : RegexOf patterns re := by
  unfold combined at h
  split at h
  · rename_i hp
    rw [← Except.ok.inj h]
    simpa [RegexOf] using hp
  · cases hb : m.buildMany patterns with
    | error e => simp [hb, Except.mapError, Except.map] at h
    | ok re' =>
      simp only [hb, Except.map, Except.mapError, Except.ok.injEq] at h
      rw [← h]
      exact hb

/-- A compiled table: the builder's arenas hold the rules of every source. -/
structure TableCompiles (rules : List (SourceId × List RuleSpec)) (botUsernames : List (SourceId × Option Str)) (b : Builder)
    (table : RouteTable m) : Prop where
  nodes : table.nodes = b.nodes
  children : table.children = b.children
  textRegex : RegexOf b.textPatterns table.textRegex
  callbackRegex : RegexOf b.callbackPatterns table.callbackRegex
  absent : ∀ source, rules.find? (·.1 = source) = none → sourceAt table.sources source = none
  present : Small b → ∀ source entry, rules.find? (·.1 = source) = some entry →
    ∃ compiled, sourceAt table.sources source = some compiled ∧
      SourceCompiles b botUsernames source entry.2 (sourceBase 0 rules source) compiled

theorem compile_compiles {token : Nat} {rules : List (SourceId × List RuleSpec)}
    {botUsernames : List (SourceId × Option Str)} {table : RouteTable m}
    (h : RouteTable.compile token rules botUsernames = .ok table) : ∃ b, TableCompiles rules botUsernames b table := by
  rw [RouteTable.compile] at h
  obtain ⟨⟨sources, b⟩, hs, h⟩ := bind_eq_ok.mp h
  obtain ⟨textRegex, ht, h⟩ := bind_eq_ok.mp h
  obtain ⟨callbackRegex, hc, h⟩ := bind_eq_ok.mp h
  cases h
  obtain ⟨-, keep, put⟩ := sources_compile (le_refl 0) hs
  exact ⟨b, rfl, rfl, combined_eq ht, combined_eq hc, keep, fun small source entry hf => (put source entry hf).2 small⟩

/-! ### Other ids -/

/-- The number and the id of a source are in the errors only. -/
theorem rules_ids {id : SourceId} {i : Nat} {specs : List RuleSpec} {b : Builder} {out : List (CompiledRule m) × Builder}
    (h : Builder.rules id i specs b = .ok out) (id' : SourceId) (i' : Nat) : Builder.rules id' i' specs b = .ok out := by
  induction specs generalizing i i' b out with
  | nil => exact h
  | cons spec specs ih =>
    rw [Builder.rules] at h ⊢
    obtain ⟨⟨rule, b₁⟩, h₁, h⟩ := bind_eq_ok.mp h
    obtain ⟨⟨rest, b₂⟩, h₂, h⟩ := bind_eq_ok.mp h
    refine bind_eq_ok.mpr ⟨_, mapError_eq_ok.mpr (mapError_eq_ok.mp h₁), ?_⟩
    exact bind_eq_ok.mpr ⟨_, ih h₂ (i' + 1), h⟩

theorem sources_ids {botUsernames botUsernames' : List (SourceId × Option Str)} {rest rest' : List (SourceId × List RuleSpec)}
    {compiled compiled' out : List (Option (SourceRules m))} {b b' : Builder}
    (h : Builder.sources botUsernames rest compiled b = .ok (out, b')) (same : rest'.map (·.2) = rest.map (·.2))
    (nodup : (rest'.map (·.1)).Nodup) (unset : ∀ entry ∈ rest', sourceAt compiled' entry.1 = none) :
    ∃ out', Builder.sources botUsernames' rest' compiled' b = .ok (out', b') := by
  induction rest generalizing rest' compiled compiled' b with
  | nil =>
    obtain rfl := List.map_eq_nil_iff.mp same
    cases h
    exact ⟨_, rfl⟩
  | cons entry rest ih =>
    obtain ⟨id, specs⟩ := entry
    obtain ⟨⟨id', specs'⟩, rest', rfl, rfl, rests⟩ := List.map_eq_cons_iff.mp same
    rw [List.map_cons, List.nodup_cons] at nodup
    rw [Builder.sources] at h ⊢
    obtain ⟨-, h⟩ := of_throw_if h
    obtain ⟨⟨rules, b₁⟩, h₁, h⟩ := bind_eq_ok.mp h
    have free := unset _ List.mem_cons_self
    have lt : id'.toNat < (compiled' ++ List.replicate (id'.toNat + 1 - compiled'.length) none).length := by
      rw [List.length_append, List.length_replicate]
      omega
    have notSet : ¬((compiled' ++ List.replicate (id'.toNat + 1 - compiled'.length) none)[id'.toNat]?.getD none).isSome := by
      change ¬(sourceAt _ id').isSome
      rw [sourceAt_grow, free]
      exact Bool.false_ne_true
    rw [if_neg notSet]
    set grown := compiled' ++ List.replicate (id'.toNat + 1 - compiled'.length) none
    have unset' (rules : Option (SourceRules m)) : ∀ entry ∈ rest', sourceAt (grown.set id'.toNat rules) entry.1 = none := by
      intro entry he
      have ne : id' ≠ entry.1 := by
        rintro rfl
        exact nodup.1 (List.mem_map.mpr ⟨entry, he, rfl⟩)
      rw [sourceAt_set lt, if_neg ne, sourceAt_grow]
      exact unset entry (List.mem_cons_of_mem _ he)
    obtain ⟨out', h'⟩ := ih h rests nodup.2 (unset' _)
    exact ⟨out', bind_eq_ok.mpr ⟨_, rules_ids h₁ id' 0, h'⟩⟩

/-- Rules that compile do so for any ids, if these differ, and for any usernames. -/
theorem compile_ids {token : Nat} {rules rules' : List (SourceId × List RuleSpec)}
    {botUsernames : List (SourceId × Option Str)} {table : RouteTable m}
    (h : RouteTable.compile token rules botUsernames = .ok table) (same : rules'.map (·.2) = rules.map (·.2))
    (nodup : (rules'.map (·.1)).Nodup) (token' : Nat) (botUsernames' : List (SourceId × Option Str)) :
    ∃ table' : RouteTable m, RouteTable.compile token' rules' botUsernames' = .ok table' := by
  rw [RouteTable.compile] at h
  obtain ⟨⟨sources, b⟩, hs, h⟩ := bind_eq_ok.mp h
  obtain ⟨textRegex, ht, h⟩ := bind_eq_ok.mp h
  obtain ⟨callbackRegex, hc, -⟩ := bind_eq_ok.mp h
  have unset : ∀ entry ∈ rules', sourceAt ([] : List (Option (SourceRules m))) entry.1 = none := fun _ _ => rfl
  obtain ⟨sources', hs'⟩ := sources_ids hs same nodup unset
  exact ⟨_, bind_eq_ok.mpr ⟨_, hs', bind_eq_ok.mpr ⟨_, ht, bind_eq_ok.mpr ⟨_, hc, rfl⟩⟩⟩⟩

end Tgin.Rules
