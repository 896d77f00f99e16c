import Mathlib.Data.List.Nodup
import Tgin.Gateway.Bots

/-! What the gateway's entries carry through reloads: while a bot stays listed its gate, with the token its identity and with the
    rate limits too its limiter. The rest of an entry is as if built afresh, unless the server's directory was only
    written differently (`run_entries`). -/

namespace Tgin.Gateway
open Rules

variable {u : Urls}

theorem countP_set_add {α : Type} (p : α → Bool) {l : List α} {i : Nat} {a : α} (h : l[i]? = some a) (b : α) :
    (l.set i b).countP p + (if p a then 1 else 0) = l.countP p + if p b then 1 else 0 := by
  obtain ⟨lt, rfl⟩ := List.getElem?_eq_some_iff.mp h
  have pos := List.boole_getElem_le_countP (p := p) lt
  rw [List.countP_set lt]
  omega

theorem countP_and_add {α : Type} (p q : α → Bool) (l : List α) :
    l.countP p = l.countP (fun a => p a && q a) + l.countP fun a => p a && !q a := by
  induction l with
  | nil => rfl
  | cons a l ih =>
    rw [List.countP_cons, List.countP_cons, List.countP_cons, ih]
    cases p a
    · rfl
    · cases q a
      · simp only [Bool.true_and, Bool.not_false, if_true, Bool.false_eq_true, if_false]
        omega
      · simp only [Bool.true_and, Bool.not_true, if_true, Bool.false_eq_true, if_false]
        omega

/-! ### A bot's entry -/

/-- A bot with valid rates, and with URLs that can be bases. -/
structure GatewayBot.Valid (bot : GatewayBot u) : Prop where
  base : (base bot.upstream.url [botSegment bot.token]).isSome
  files : (FileTarget.new bot.upstream bot.token).isSome
  rates : ∀ seeds, ∃ limiter, Limiter.new bot.gateway.rateLimit seeds = .ok limiter

/-- The entry is one built for `bot`, with the cells that it has. -/
def Bot.Of (via : Str) (bot : GatewayBot u) (entry : Bot u) : Prop :=
  Bot.new bot via bot.name (bot.name, bot.upstream.name) entry.identity entry.limiter entry.gate = some entry

theorem Bot.new_eq_some {bot : GatewayBot u} {via metrics : Str} {upstreamMetrics : Str × Str} {identity limiter gate : Nat}
    {entry : Bot u} (h : Bot.new bot via metrics upstreamMetrics identity limiter gate = some entry) :
    ∃ methodBase files, base bot.upstream.url [botSegment bot.token] = some methodBase ∧
      FileTarget.new bot.upstream bot.token = some files ∧ entry = {
        name := bot.name, source := bot.source, token := bot.token, upstream := bot.upstream, gateway := bot.gateway
        methodBase, files, rewrite := .new bot.upstream
        refusesLocalFiles := bot.upstream.refusesLocalFiles bot.allowLocalFiles
        responseTimeout :=
          if bot.upstream.name = Upstream.SHORTHAND then bot.gateway.upstreamIdleTimeout else bot.upstream.responseTimeout
        via, metrics, upstreamMetrics, limiter, identity, gate } := by
  obtain ⟨methodBase, hbase, h⟩ := Option.bind_eq_some_iff.mp h
  obtain ⟨files, hfiles, h⟩ := Option.bind_eq_some_iff.mp h
  exact ⟨methodBase, files, hbase, hfiles, (Option.some.inj h).symm⟩

theorem Bot.exists_new {bot : GatewayBot u} (valid : bot.Valid) (via metrics : Str) (upstreamMetrics : Str × Str)
    (identity limiter gate : Nat) : ∃ entry, Bot.new bot via metrics upstreamMetrics identity limiter gate = some entry := by
  obtain ⟨methodBase, hbase⟩ := Option.isSome_iff_exists.mp valid.base
  obtain ⟨files, hfiles⟩ := Option.isSome_iff_exists.mp valid.files
  unfold Bot.new
  rw [hbase, hfiles]
  exact ⟨_, rfl⟩

theorem Bot.of_new {bot : GatewayBot u} {via metrics : Str} {upstreamMetrics : Str × Str} {identity limiter gate : Nat}
    {entry : Bot u} (h : Bot.new bot via metrics upstreamMetrics identity limiter gate = some entry) (hm : metrics = bot.name)
    (hu : upstreamMetrics = (bot.name, bot.upstream.name)) : Bot.Of via bot entry := by
  obtain ⟨methodBase, files, -, -, he⟩ := Bot.new_eq_some h
  unfold Bot.Of
  subst hm hu
  rw [← h, he]

theorem Bot.same_iff {entry : Bot u} {bot : GatewayBot u} : entry.same bot ↔
    entry.token = bot.token ∧ entry.upstream.beq bot.upstream ∧
      entry.refusesLocalFiles = bot.upstream.refusesLocalFiles bot.allowLocalFiles ∧ entry.gateway = bot.gateway ∧
      entry.source = bot.source := by
  unfold Bot.same
  simp only [Bool.and_eq_true, decide_eq_true_eq, and_assoc]

/-- The cells an entry holds are in use. -/
structure Bot.Below (entry : Bot u) (n : Nat) : Prop where
  gate : entry.gate < n
  limiter : entry.limiter < n
  identity : entry.identity < n

theorem Bot.Below.mono {entry : Bot u} {n n' : Nat} (h : entry.Below n) (le : n ≤ n') : entry.Below n' :=
  ⟨h.gate.trans_le le, h.limiter.trans_le le, h.identity.trans_le le⟩

/-! ### Looking entries up -/

namespace System
variable {s : System u}

theorem of_named {name : Str} {entry : Bot u} (h : s.named name = some entry) : entry ∈ s.table ∧ entry.name = name := by
  unfold named at h
  exact ⟨List.mem_of_find?_eq_some h, by simpa using List.find?_some h⟩

theorem named_of_mem (names : (s.table.map (·.name)).Nodup) {entry : Bot u} (h : entry ∈ s.table) :
    s.named entry.name = some entry := by
  cases found : s.named entry.name with
  | none => exact absurd rfl (of_decide_eq_false (Bool.eq_false_iff.mpr (List.find?_eq_none.mp found entry h)))
  | some other =>
    obtain ⟨mem, name⟩ := of_named found
    rw [List.inj_on_of_nodup_map names mem h name]

/-- The cells that were in use are as they were, and the others' gates at most opened. -/
structure Grown (cells cells' : Cells) : Prop where
  allocated : cells.allocated ≤ cells'.allocated
  opened : ∀ i, cells'.gates i = cells.gates i ∨ cells.allocated ≤ i ∧ cells'.gates i = .new
  limiters : ∀ i < cells.allocated, cells'.limiters i = cells.limiters i
  identities : ∀ i < cells.allocated, cells'.identities i = cells.identities i

theorem Grown.refl (cells : Cells) : Grown cells cells := ⟨le_rfl, fun _ => .inl rfl, fun _ _ => rfl, fun _ _ => rfl⟩

theorem Grown.gates {cells cells' : Cells} (h : Grown cells cells') (i : Nat) (lt : i < cells.allocated) :
    cells'.gates i = cells.gates i := by
  rcases h.opened i with same | ⟨le, -⟩
  · exact same
  · exact absurd lt le.not_gt

theorem Grown.trans {cells cells' cells'' : Cells} (h : Grown cells cells') (h' : Grown cells' cells'') : Grown cells cells'' where
  allocated := h.allocated.trans h'.allocated
  opened i := by
    rcases h'.opened i with same | ⟨le, new⟩
    · rw [same]
      exact h.opened i
    · exact .inr ⟨h.allocated.trans le, new⟩
  limiters i lt := (h'.limiters i (lt.trans_le h.allocated)).trans (h.limiters i lt)
  identities i lt := (h'.identities i (lt.trans_le h.allocated)).trans (h.identities i lt)

/-- What a reload makes of a bot: its entry, once the cells are those. -/
structure Built (s : System u) (cells : Cells) (bot : GatewayBot u) (entry : Bot u) : Prop where
  name : entry.name = bot.name
  token : entry.token = bot.token
  gateway : entry.gateway = bot.gateway
  kept : ∀ previous, s.named bot.name = some previous → previous.same bot → entry = previous
  rebuilt : (∀ previous, s.named bot.name = some previous → ¬previous.same bot) → entry.Of s.via bot
  below : entry.Below cells.allocated
  limiting : (cells.limiters entry.limiter).isSome
  gate : ∀ previous, s.named bot.name = some previous → entry.gate = previous.gate
  opened : s.named bot.name = none → s.cells.allocated ≤ entry.gate ∧ cells.gates entry.gate = .new
  limiter : ∀ previous, s.named bot.name = some previous → previous.token = bot.token →
    previous.gateway.rateLimit = bot.gateway.rateLimit → entry.limiter = previous.limiter
  identity : ∀ previous, s.named bot.name = some previous → previous.token = bot.token → entry.identity = previous.identity

theorem Built.mono {cells cells' : Cells} {bot : GatewayBot u} {entry : Bot u} (h : Built s cells bot entry)
    (grown : Grown cells cells') : Built s cells' bot entry where
  name := h.name
  token := h.token
  gateway := h.gateway
  kept := h.kept
  rebuilt := h.rebuilt
  below := h.below.mono grown.allocated
  limiting := by
    rw [grown.limiters _ h.below.limiter]
    exact h.limiting
  gate := h.gate
  opened absent := ⟨(h.opened absent).1, (grown.gates _ h.below.gate).trans (h.opened absent).2⟩
  limiter := h.limiter
  identity := h.identity

/-- What the table is between two reloads. -/
structure Table (s : System u) : Prop where
  names : (s.table.map (·.name)).Nodup
  apart : ∀ entry ∈ s.table, ∀ other ∈ s.table, entry.gate = other.gate → entry.name = other.name
  below : ∀ entry ∈ s.table, entry.Below s.cells.allocated
  limiting : ∀ entry ∈ s.table, (s.cells.limiters entry.limiter).isSome
  made : ∀ entry ∈ s.table, ∃ bot, entry.Of s.via bot

theorem metrics_of {via : Str} {bot : GatewayBot u} {entry : Bot u} (h : entry.Of via bot) :
    entry.metrics = entry.name ∧ entry.upstreamMetrics = (entry.name, entry.upstream.name) := by
  obtain ⟨methodBase, files, -, -, he⟩ := Bot.new_eq_some h
  exact ⟨(congrArg Bot.metrics he).trans (congrArg Bot.name he).symm,
    (congrArg Bot.upstreamMetrics he).trans (by rw [congrArg Bot.name he, congrArg Bot.upstream he])⟩

/-! ### Replacing the table -/

/-- The entries of the bots `done`, with the cells they left. -/
structure Draft (s : System u) (done : List (GatewayBot u)) (draft : List (Bot u) × Cells) : Prop where
  grown : Grown s.cells draft.2
  names : draft.1.map (·.name) = done.map (·.name)
  built : ∀ entry ∈ draft.1, ∃ bot ∈ done, Built s draft.2 bot entry
  covers : ∀ bot ∈ done, ∃ entry ∈ draft.1, Built s draft.2 bot entry
  apart : draft.1.Pairwise (·.gate ≠ ·.gate)

theorem keptIdentity_some {previous : Bot u} {bot : GatewayBot u} (token : previous.token = bot.token) :
    keptIdentity (some previous) bot = some previous.identity := by
  unfold keptIdentity
  rw [Option.filter_some, if_pos (decide_eq_true token)]
  rfl

theorem keptLimiter_some {previous : Bot u} {bot : GatewayBot u} (token : previous.token = bot.token)
    (rates : previous.gateway.rateLimit = bot.gateway.rateLimit) : keptLimiter (some previous) bot = some previous.limiter := by
  unfold keptLimiter
  rw [Option.filter_some, if_pos (decide_eq_true token), Option.filter_some, if_pos (decide_eq_true rates)]
  rfl

theorem of_keptIdentity {previous : Option (Bot u)} {bot : GatewayBot u} {identity : Nat}
    (h : keptIdentity previous bot = some identity) : ∃ p, previous = some p ∧ p.identity = identity := by
  obtain ⟨p, hp, rfl⟩ := Option.map_eq_some_iff.mp h
  exact ⟨p, (Option.filter_eq_some_iff.mp hp).1, rfl⟩

theorem of_keptLimiter {previous : Option (Bot u)} {bot : GatewayBot u} {limiter : Nat}
    (h : keptLimiter previous bot = some limiter) : ∃ p, previous = some p ∧ p.limiter = limiter := by
  obtain ⟨p, hp, rfl⟩ := Option.map_eq_some_iff.mp h
  exact ⟨p, (Option.filter_eq_some_iff.mp (Option.filter_eq_some_iff.mp hp).1).1, rfl⟩

/-- The limiter of a bot with valid rates: the one kept, or a new one. -/
theorem limiterOf_spec (table : s.Table) {cells : Cells} (grown : Grown s.cells cells) {bot : GatewayBot u} (valid : bot.Valid) :
    ∃ limiter limiters, limiterOf cells (s.named bot.name) bot = some (limiter, limiters) ∧ limiter < cells.allocated + 1 ∧
      (limiters limiter).isSome ∧ (∀ i < cells.allocated, limiters i = cells.limiters i) ∧
      ∀ kept, keptLimiter (s.named bot.name) bot = some kept → limiter = kept := by
  unfold limiterOf
  cases hk : keptLimiter (s.named bot.name) bot with
  | some limiter =>
    obtain ⟨p, hp, rfl⟩ := of_keptLimiter hk
    obtain ⟨mem, -⟩ := of_named hp
    have below := (table.below p mem).limiter
    refine ⟨p.limiter, cells.limiters, rfl, (below.trans_le grown.allocated).trans (Nat.lt_succ_self _), ?_, fun _ _ => rfl,
      fun kept h => Option.some.inj h⟩
    rw [grown.limiters _ below]
    exact table.limiting p mem
  | none =>
    obtain ⟨limiter, hl⟩ := valid.rates (cells.seeds cells.allocated)
    rw [hl]
    refine ⟨cells.allocated, _, rfl, Nat.lt_succ_self _, ?_, fun i lt => Function.update_of_ne lt.ne .., nofun⟩
    rw [Function.update_self]
    rfl

/-- The metrics of a bot, kept or new. -/
theorem metrics_spec (table : s.Table) (bot : GatewayBot u) : ((s.named bot.name).map (·.metrics)).getD bot.name = bot.name := by
  cases hp : s.named bot.name with
  | none => rfl
  | some p =>
    obtain ⟨mem, name⟩ := of_named hp
    obtain ⟨bot', made⟩ := table.made p mem
    exact (metrics_of made).1.trans name

theorem upstreamMetrics_spec (table : s.Table) (bot : GatewayBot u) :
    (((s.named bot.name).filter (·.upstream.sameServer bot.upstream)).map (·.upstreamMetrics)).getD (bot.name, bot.upstream.name) =
      (bot.name, bot.upstream.name) := by
  cases h : (s.named bot.name).filter (·.upstream.sameServer bot.upstream) with
  | none => rfl
  | some p =>
    obtain ⟨hp, server⟩ := Option.filter_eq_some_iff.mp h
    obtain ⟨mem, name⟩ := of_named hp
    obtain ⟨bot', made⟩ := table.made p mem
    unfold Upstream.sameServer at server
    rw [Bool.and_eq_true, decide_eq_true_eq, decide_eq_true_eq] at server
    refine (metrics_of made).2.trans ?_
    rw [name, server.1]

theorem rebuild_spec (table : s.Table) {cells : Cells} (grown : Grown s.cells cells) {bot : GatewayBot u} (valid : bot.Valid)
    (changed : ∀ previous, s.named bot.name = some previous → ¬previous.same bot) :
    ∃ entry cells', rebuild s.via cells (s.named bot.name) bot = (some entry, cells') ∧ Grown cells cells' ∧
      Built s cells' bot entry ∧ (s.named bot.name = none → entry.gate = cells.allocated) := by
  obtain ⟨limiter, limiters, hl, below, limiting, same, kept⟩ := limiterOf_spec table grown valid
  obtain ⟨entry, he⟩ := Bot.exists_new valid s.via bot.name (bot.name, bot.upstream.name)
    ((keptIdentity (s.named bot.name) bot).getD cells.allocated) limiter (((s.named bot.name).map (·.gate)).getD cells.allocated)
  obtain ⟨methodBase, files, -, -, fields⟩ := Bot.new_eq_some he
  have identity : entry.identity = (keptIdentity (s.named bot.name) bot).getD cells.allocated := congrArg Bot.identity fields
  have gate : entry.gate = ((s.named bot.name).map (·.gate)).getD cells.allocated := congrArg Bot.gate fields
  have hlimiter : entry.limiter = limiter := congrArg Bot.limiter fields
  have identityBelow : entry.identity < cells.allocated + 1 := by
    rw [identity]
    cases hk : keptIdentity (s.named bot.name) bot with
    | none => exact Nat.lt_succ_self _
    | some cell =>
      obtain ⟨p, hp, rfl⟩ := of_keptIdentity hk
      exact ((table.below p (of_named hp).1).identity.trans_le grown.allocated).trans (Nat.lt_succ_self _)
  have gateBelow : entry.gate < cells.allocated + 1 := by
    rw [gate]
    cases hp : s.named bot.name with
    | none => exact Nat.lt_succ_self _
    | some p => exact ((table.below p (of_named hp).1).gate.trans_le grown.allocated).trans (Nat.lt_succ_self _)
  refine ⟨entry, { cells with
    gates := Function.update cells.gates cells.allocated .new
    limiters
    identities := Function.update cells.identities cells.allocated none
    allocated := cells.allocated + 1 }, ?_, ?_, ?_, fun absent => ?_⟩
  · unfold rebuild
    dsimp only
    rw [hl]
    dsimp only
    rw [metrics_spec table bot, upstreamMetrics_spec table bot, he]
  · refine ⟨Nat.le_succ _, fun i => ?_, same, fun i lt => Function.update_of_ne lt.ne ..⟩
    rcases eq_or_ne i cells.allocated with rfl | ne
    · exact .inr ⟨le_rfl, Function.update_self ..⟩
    · exact .inl (Function.update_of_ne ne ..)
  · refine ⟨congrArg Bot.name fields, congrArg Bot.token fields, congrArg Bot.gateway fields,
      fun p hp hs => absurd hs (changed p hp), fun _ => Bot.of_new he rfl rfl, ⟨gateBelow, hlimiter ▸ below, identityBelow⟩,
      hlimiter ▸ limiting, fun p hp => ?_, fun absent => ?_, fun p hp token rates => ?_, fun p hp token => ?_⟩
    · rw [gate, hp]
      rfl
    · rw [gate, absent]
      exact ⟨grown.allocated, Function.update_self ..⟩
    · rw [hlimiter]
      exact kept _ (by rw [hp, keptLimiter_some token rates])
    · rw [identity, hp, keptIdentity_some token]
      rfl
  · rw [gate, absent]
    rfl

/-- An entry left alone is what the reload makes of its bot. -/
theorem built_same (table : s.Table) {cells : Cells} (grown : Grown s.cells cells) {bot : GatewayBot u} {previous : Bot u}
    (hp : s.named bot.name = some previous) (same : previous.same bot) : Built s cells bot previous := by
  obtain ⟨mem, name⟩ := of_named hp
  obtain ⟨token, -, -, gateway, -⟩ := Bot.same_iff.mp same
  have only : ∀ other, s.named bot.name = some other → previous = other := fun other h => Option.some.inj (hp.symm.trans h)
  refine ⟨name, token, gateway, fun other h _ => only other h, fun changed => absurd same (changed previous hp),
    (table.below previous mem).mono grown.allocated, ?_, fun other h => by rw [only other h], fun absent => ?_,
    fun other h _ _ => by rw [only other h], fun other h _ => by rw [only other h]⟩
  · rw [grown.limiters _ (table.below previous mem).limiter]
    exact table.limiting previous mem
  · rw [absent] at hp
    cases hp

/-- One bot's entry has no other's gate. -/
theorem gate_ne (table : s.Table) {cells : Cells} {bot bot' : GatewayBot u} {entry entry' : Bot u} (ne : bot.name ≠ bot'.name)
    (built : Built s cells bot entry) {cells' : Cells} (built' : Built s cells' bot' entry')
    (fresh : s.named bot'.name = none → entry.gate < entry'.gate) : entry.gate ≠ entry'.gate := by
  cases hp' : s.named bot'.name with
  | none => exact (fresh hp').ne
  | some p' =>
    obtain ⟨mem', name'⟩ := of_named hp'
    rw [built'.gate p' hp']
    cases hp : s.named bot.name with
    | none => exact ((table.below p' mem').gate.trans_le (built.opened hp).1).ne'
    | some p =>
      obtain ⟨mem, name⟩ := of_named hp
      rw [built.gate p hp]
      exact fun h => ne (name.symm.trans ((table.apart p mem p' mem' h).trans name'))

theorem draft_addBot (table : s.Table) {done : List (GatewayBot u)} {draft : List (Bot u) × Cells} (h : Draft s done draft)
    {bot : GatewayBot u} (valid : bot.Valid) (new : bot.name ∉ done.map (·.name)) :
    Draft s (done ++ [bot]) (s.addBot draft bot) := by
  have push {entry : Bot u} {cells : Cells} (grown : Grown draft.2 cells) (built : Built s cells bot entry)
      (fresh : s.named bot.name = none → draft.2.allocated ≤ entry.gate) :
      Draft s (done ++ [bot]) (draft.1 ++ [entry], cells) := by
    refine ⟨h.grown.trans grown, ?_, fun entry' he => ?_, fun bot' hb => ?_,
      List.pairwise_append.mpr ⟨h.apart, List.pairwise_singleton .., fun other ho entry' he => ?_⟩⟩
    · rw [List.map_append, List.map_append, h.names, List.map_singleton, List.map_singleton, built.name]
    · rcases List.mem_append.mp he with he | he
      · obtain ⟨bot', hb, built'⟩ := h.built entry' he
        exact ⟨bot', List.mem_append_left _ hb, built'.mono grown⟩
      · rw [List.mem_singleton.mp he]
        exact ⟨bot, List.mem_append_right _ (List.mem_singleton_self _), built⟩
    · rcases List.mem_append.mp hb with hb | hb
      · obtain ⟨entry', he, built'⟩ := h.covers bot' hb
        exact ⟨entry', List.mem_append_left _ he, built'.mono grown⟩
      · rw [List.mem_singleton.mp hb]
        exact ⟨entry, List.mem_append_right _ (List.mem_singleton_self _), built⟩
    rw [List.mem_singleton.mp he]
    obtain ⟨bot', hb, built'⟩ := h.built other ho
    refine gate_ne table (fun same => new (same ▸ List.mem_map_of_mem hb)) built' built fun absent => ?_
    exact built'.below.gate.trans_le (fresh absent)
  unfold addBot
  split
  · rename_i p hp
    obtain ⟨hp, same⟩ := Option.filter_eq_some_iff.mp hp
    refine push (.refl _) (built_same table h.grown hp same) fun absent => ?_
    rw [absent] at hp
    cases hp
  · rename_i hp
    have changed : ∀ p, s.named bot.name = some p → ¬p.same bot := fun p hs => by
      have := Option.filter_eq_none_iff.mp hp p hs
      exact this
    obtain ⟨entry, cells, hr, grown, built, fresh⟩ := rebuild_spec table h.grown valid changed
    rw [hr]
    exact push grown built fun absent => (fresh absent).ge

theorem draft_foldl (table : s.Table) {done : List (GatewayBot u)} (bots : List (GatewayBot u)) {draft : List (Bot u) × Cells}
    (h : Draft s done draft) (valid : ∀ bot ∈ bots, bot.Valid) (names : ((done ++ bots).map (·.name)).Nodup) :
    Draft s (done ++ bots) (bots.foldl s.addBot draft) := by
  induction bots generalizing done draft with
  | nil =>
    rw [List.append_nil]
    exact h
  | cons bot bots ih =>
    rw [List.append_cons] at names ⊢
    refine ih (draft_addBot table h (valid bot List.mem_cons_self) fun mem => ?_)
      (fun bot' hb => valid bot' (List.mem_cons_of_mem _ hb)) names
    rw [List.map_append, List.map_append] at names
    exact (List.nodup_append.mp (List.nodup_append.mp names).1).2.2 _ mem _ (List.mem_singleton_self _) rfl

theorem setBots_spec (table : s.Table) {bots : List (GatewayBot u)} (valid : ∀ bot ∈ bots, bot.Valid)
    (names : (bots.map (·.name)).Nodup) :
    Draft s bots ((s.setBots bots).table, (s.setBots bots).cells) := by
  have start : Draft s [] ([], s.cells) :=
    ⟨.refl _, rfl, fun _ h => absurd h List.not_mem_nil, fun _ h => absurd h List.not_mem_nil, .nil⟩
  exact draft_foldl table bots start valid names

theorem table_setBots (table : s.Table) {bots : List (GatewayBot u)} (valid : ∀ bot ∈ bots, bot.Valid)
    (names : (bots.map (·.name)).Nodup) : (s.setBots bots).Table := by
  have draft := setBots_spec table valid names
  refine ⟨draft.names.symm ▸ names, fun entry he other ho same => ?_, fun entry he => ?_, fun entry he => ?_, fun entry he => ?_⟩
  · rw [List.inj_on_of_nodup_map (List.pairwise_map.mpr draft.apart) he ho same]
  · obtain ⟨bot, -, built⟩ := draft.built entry he
    exact built.below
  · obtain ⟨bot, -, built⟩ := draft.built entry he
    exact built.limiting
  · obtain ⟨bot, -, built⟩ := draft.built entry he
    by_cases kept : ∃ previous, s.named bot.name = some previous ∧ previous.same bot
    · obtain ⟨previous, hp, same⟩ := kept
      rw [built.kept previous hp same]
      exact table.made previous (of_named hp).1
    · exact ⟨bot, built.rebuilt fun previous hp same => kept ⟨previous, hp, same⟩⟩

/-- Each listed bot has the entry made for it. -/
theorem named_setBots (table : s.Table) {bots : List (GatewayBot u)} (valid : ∀ bot ∈ bots, bot.Valid)
    (names : (bots.map (·.name)).Nodup) {bot : GatewayBot u} (hb : bot ∈ bots) :
    ∃ entry, (s.setBots bots).named bot.name = some entry ∧ Built s (s.setBots bots).cells bot entry := by
  obtain ⟨entry, he, built⟩ := (setBots_spec table valid names).covers bot hb
  exact ⟨entry, built.name ▸ named_of_mem (table_setBots table valid names).names he, built⟩

/-! ### What is known of the listed bots -/

/-- Whether a listed bot was last parked, and how many calls had come when its name was listed. -/
structure Listing where
  parked : Bool
  since : Nat
  deriving DecidableEq, Repr

/-- What the events alone tell: how many calls have come, and which bots are listed. -/
structure Known where
  arrived : Nat
  listings : Str → Option Listing

namespace Known

def new : Known := { arrived := 0, listings := fun _ => none }

local instance lawfulBEqStr : LawfulBEq Str := inferInstance

def step (k : Known) : Event u → Known
  | .setBots bots =>
    let listing name := if name ∈ bots.map (·.name) then some ((k.listings name).getD { parked := false, since := k.arrived }) else none
    { k with listings := listing }
  | .setParked name parked =>
    { k with listings := Function.update k.listings name ((k.listings name).map fun listing => { listing with parked }) }
  | .arrive name => if (k.listings name).isSome then { k with arrived := k.arrived + 1 } else k
  | _ => k

def run (events : List (Event u)) : Known := events.foldl step new

end Known

/-- Calls counted on a gate. -/
def counted (s : System u) (gate : Nat) : Nat := s.calls.countP fun call => call.bot.gate = gate && call.phase ≠ .outside

/-- What an entry's gate has to do with what is known of its bot. -/
structure Tells (s : System u) (entry : Bot u) (listing : Listing) : Prop where
  parked : (s.cells.gates entry.gate).parked = listing.parked
  begun : listing.since ≤ s.calls.length
  /-- The calls with the gate are those of the bot since it was listed. -/
  since : ∀ i call, s.calls[i]? = some call → (call.bot.gate = entry.gate ↔ call.bot.name = entry.name ∧ listing.since ≤ i)

structure Invariant (s : System u) (k : Known) : Prop extends s.Table where
  arrived : k.arrived = s.calls.length
  unlisted : ∀ name, s.named name = none → k.listings name = none
  tells : ∀ name entry, s.named name = some entry → ∃ listing, k.listings name = some listing ∧ Tells s entry listing
  count : ∀ gate, (s.cells.gates gate).sending = s.counted gate
  calls : ∀ call ∈ s.calls, call.bot.gate < s.cells.allocated

theorem named_new (via : Str) (seeds : Nat → (ChatKey → Nat) × (ChatKey → Nat)) (name : Str) :
    (new u via seeds).named name = none := rfl

theorem invariant_new (u : Urls) (via : Str) (seeds : Nat → (ChatKey → Nat) × (ChatKey → Nat)) :
    Invariant (new u via seeds) .new where
  names := .nil
  apart _ h := absurd h List.not_mem_nil
  below _ h := absurd h List.not_mem_nil
  limiting _ h := absurd h List.not_mem_nil
  made _ h := absurd h List.not_mem_nil
  arrived := rfl
  unlisted _ _ := rfl
  tells name entry h := absurd (h.symm.trans (named_new via seeds name)) (Option.some_ne_none entry)
  count _ := rfl
  calls _ h := absurd h List.not_mem_nil

variable {k : Known}

theorem invariant_setBots (h : s.Invariant k) {bots : List (GatewayBot u)} (valid : ∀ bot ∈ bots, bot.Valid)
    (names : (bots.map (·.name)).Nodup) : (s.setBots bots).Invariant (k.step (.setBots bots)) := by
  have draft := setBots_spec h.toTable valid names
  refine ⟨table_setBots h.toTable valid names, h.arrived, fun name absent => ?_, fun name entry hn => ?_, fun gate => ?_,
    fun call hc => ?_⟩
  · refine if_neg fun mem => ?_
    obtain ⟨bot, hb, rfl⟩ := List.mem_map.mp mem
    obtain ⟨entry, he, -⟩ := named_setBots h.toTable valid names hb
    rw [absent] at he
    cases he
  · obtain ⟨he, rfl⟩ := of_named hn
    obtain ⟨bot, hb, built⟩ := draft.built entry he
    have mem : entry.name ∈ bots.map (·.name) := built.name ▸ List.mem_map_of_mem hb
    refine ⟨_, if_pos mem, ?_⟩
    rw [built.name]
    cases hp : s.named bot.name with
    | none =>
      obtain ⟨fresh, opened⟩ := built.opened hp
      rw [h.unlisted _ hp]
      refine ⟨by rw [opened]; rfl, h.arrived.le, fun i call hc => ⟨fun same => ?_, fun ⟨_, since⟩ => ?_⟩⟩
      · exact absurd (h.calls call (List.mem_of_getElem? hc)) (same ▸ fresh.not_gt)
      · have lt : i < s.calls.length := (List.getElem?_eq_some_iff.mp hc).1
        exact absurd since (h.arrived ▸ lt.not_ge)
    | some previous =>
      obtain ⟨listing, hl, tells⟩ := h.tells _ previous hp
      obtain ⟨mem, name⟩ := of_named hp
      rw [hl]
      refine ⟨?_, tells.begun, fun i call hc => ?_⟩
      · rw [built.gate previous hp, draft.grown.gates _ (h.below previous mem).gate]
        exact tells.parked
      · rw [built.gate previous hp, built.name, ← name]
        exact tells.since i call hc
  · rcases draft.grown.opened gate with same | ⟨fresh, new⟩
    · exact (congrArg Gate.sending same).trans (h.count gate)
    · rw [new]
      refine (List.countP_eq_zero.mpr fun call hc => ?_).symm
      rw [decide_eq_false ((h.calls call hc).trans_le fresh).ne]
      exact Bool.false_ne_true
  · exact (h.calls call hc).trans_le draft.grown.allocated

theorem Table.of_eq (h : s.Table) {s' : System u} (table : s'.table = s.table) (via : s'.via = s.via)
    (allocated : s'.cells.allocated = s.cells.allocated)
    (limiters : ∀ i, (s.cells.limiters i).isSome → (s'.cells.limiters i).isSome) : s'.Table where
  names := table ▸ h.names
  apart := table ▸ h.apart
  below entry he := allocated ▸ h.below entry (table ▸ he)
  limiting entry he := limiters _ (h.limiting entry (table ▸ he))
  made entry he := via ▸ h.made entry (table ▸ he)

theorem named_of_eq {s' : System u} (table : s'.table = s.table) (name : Str) : s'.named name = s.named name := by
  unfold named
  rw [table]

/-- A step that neither replaces the table nor parks a bot, and brings no call. -/
theorem Invariant.of_eq (h : s.Invariant k) {s' : System u} (table : s'.Table) (same : s'.table = s.table)
    (allocated : s'.cells.allocated = s.cells.allocated) (bots : s'.calls.map (·.bot) = s.calls.map (·.bot))
    (parked : ∀ gate, (s'.cells.gates gate).parked = (s.cells.gates gate).parked)
    (count : ∀ gate, (s'.cells.gates gate).sending = s'.counted gate) : s'.Invariant k := by
  have held {i : Nat} {call : Call u} (hc : s'.calls[i]? = some call) : ∃ call', s.calls[i]? = some call' ∧ call'.bot = call.bot := by
    have at_i : (s.calls.map (·.bot))[i]? = some call.bot := by
      rw [← bots, List.getElem?_map, hc]
      rfl
    rw [List.getElem?_map] at at_i
    exact Option.map_eq_some_iff.mp at_i
  refine ⟨table, ?_, fun name absent => h.unlisted name (named_of_eq same name ▸ absent), fun name entry hn => ?_, count,
    fun call hc => ?_⟩
  · rw [h.arrived, ← List.length_map, ← bots, List.length_map]
  · obtain ⟨listing, hl, tells⟩ := h.tells name entry (named_of_eq same name ▸ hn)
    refine ⟨listing, hl, (parked _).trans tells.parked, ?_, fun i call hc => ?_⟩
    · rw [← List.length_map, bots, List.length_map]
      exact tells.begun
    obtain ⟨call', hc', bot⟩ := held hc
    rw [← bot]
    exact tells.since i call' hc'
  · obtain ⟨i, hi⟩ := List.mem_iff_getElem?.mp hc
    obtain ⟨call', hc', bot⟩ := held hi
    rw [allocated, ← bot]
    exact h.calls call' (List.mem_of_getElem? hc')

/-- A call steps, with its gate. -/
theorem Invariant.of_call (h : s.Invariant k) {i : Nat} {bot : Bot u} {phase : Phase} (hi : s.calls[i]? = some ⟨bot, phase⟩)
    (phase' : Phase) (gate : Gate) (parked : gate.parked = (s.cells.gates bot.gate).parked)
    (sending : gate.sending + (if phase ≠ .outside then 1 else 0) =
      (s.cells.gates bot.gate).sending + if phase' ≠ .outside then 1 else 0) :
    Invariant { s.modifyGate bot.gate (fun _ => gate) with calls := s.calls.set i ⟨bot, phase'⟩ } k := by
  refine h.of_eq (h.toTable.of_eq rfl rfl rfl fun _ some => some) rfl rfl ?_ (fun g => ?_) fun g => ?_
  · obtain ⟨lt, at_i⟩ := List.getElem?_eq_some_iff.mp hi
    have self := @List.set_getElem_self _ (s.calls.map (·.bot)) i (by rwa [List.length_map])
    rw [List.getElem_map, at_i] at self
    exact List.map_set.trans self
  · rcases eq_or_ne g bot.gate with rfl | ne
    · exact (congrArg Gate.parked (Function.update_self ..)).trans parked
    · exact congrArg Gate.parked (Function.update_of_ne ne ..)
  · have counts := countP_set_add (fun call => call.bot.gate = g && call.phase ≠ .outside) hi ⟨bot, phase'⟩
    change (Function.update s.cells.gates bot.gate gate g).sending = (s.calls.set i ⟨bot, phase'⟩).countP _
    have before := h.count g
    unfold counted at before
    rcases eq_or_ne g bot.gate with rfl | ne
    · rw [Function.update_self]
      simp only [decide_true, Bool.true_and, decide_eq_true_eq] at counts
      omega
    · rw [Function.update_of_ne ne]
      simp only [decide_eq_false ne.symm, Bool.false_and, Bool.false_eq_true, if_false, Nat.add_zero] at counts
      omega

theorem invariant_setParked (h : s.Invariant k) (name : Str) (parked : Bool) :
    (s.setParked name parked).Invariant (k.step (.setParked name parked : Event u)) := by
  unfold setParked
  cases hn : s.named name with
  | none =>
    have unknown := h.unlisted name hn
    have same : k.step (.setParked name parked : Event u) = k := by
      unfold Known.step
      dsimp only
      rw [unknown, Option.map_none, ← unknown, Function.update_eq_self]
    rw [same]
    exact h
  | some entry =>
    obtain ⟨mem, rfl⟩ := of_named hn
    have table : (s.modifyGate entry.gate (·.setParked parked)).Table := h.toTable.of_eq rfl rfl rfl fun _ some => some
    refine ⟨table, h.arrived, fun other absent => ?_, fun other entry' hn' => ?_, fun gate => ?_, h.calls⟩
    · have ne : other ≠ entry.name := by
        rintro rfl
        exact absurd (absent.symm.trans hn) nofun
      exact (Function.update_of_ne ne ..).trans (h.unlisted other absent)
    · obtain ⟨listing, hl, tells⟩ := h.tells other entry' hn'
      obtain ⟨mem', rfl⟩ := of_named hn'
      rcases eq_or_ne entry'.name entry.name with same | ne
      · obtain rfl : entry' = entry := List.inj_on_of_nodup_map h.names mem' mem same
        refine ⟨{ listing with parked }, ?_, ?_, tells.begun, tells.since⟩
        · refine (Function.update_self ..).trans ?_
          rw [hl]
          rfl
        · change (Function.update s.cells.gates entry'.gate _ entry'.gate).parked = parked
          rw [Function.update_self]
          rfl
      · refine ⟨listing, (Function.update_of_ne ne ..).trans hl, ?_, tells.begun, tells.since⟩
        refine (congrArg Gate.parked (Function.update_of_ne ?_ ..)).trans tells.parked
        exact fun same => ne (h.apart entry' mem' entry mem same)
    · refine Eq.trans ?_ (h.count gate)
      change (Function.update s.cells.gates entry.gate _ gate).sending = (s.cells.gates gate).sending
      rcases eq_or_ne gate entry.gate with rfl | ne
      · rw [Function.update_self]
        rfl
      · rw [Function.update_of_ne ne]

theorem invariant_arrive (h : s.Invariant k) (name : Str) : (s.step (.arrive name)).Invariant (k.step (.arrive name : Event u)) := by
  unfold step Known.step
  dsimp only
  cases hn : s.named name with
  | none =>
    rw [h.unlisted name hn]
    exact h
  | some bot =>
    obtain ⟨listing, hl, -⟩ := h.tells name bot hn
    obtain ⟨mem, -⟩ := of_named hn
    rw [hl, Option.isSome_some, if_pos rfl]
    refine ⟨h.toTable.of_eq rfl rfl rfl fun _ some => some, ?_, h.unlisted, fun other entry hn' => ?_, fun gate => ?_,
      fun call hc => ?_⟩
    · rw [h.arrived, List.length_append, List.length_singleton]
    · obtain ⟨listing', hl', tells⟩ := h.tells other entry hn'
      obtain ⟨mem', rfl⟩ := of_named hn'
      refine ⟨listing', hl', tells.parked, tells.begun.trans (List.length_append ▸ Nat.le_add_right ..), fun i call hc => ?_⟩
      rcases lt_or_ge i s.calls.length with lt | le
      · rw [List.getElem?_append_left lt] at hc
        exact tells.since i call hc
      · rw [List.getElem?_append_right le] at hc
        rw [List.mem_singleton.mp (List.mem_of_getElem? hc)]
        refine ⟨fun same => ⟨h.apart bot mem entry mem' same, tells.begun.trans le⟩, fun ⟨same, _⟩ => ?_⟩
        rw [List.inj_on_of_nodup_map h.names mem mem' same]
    · refine (h.count gate).trans ?_
      unfold counted
      rw [List.countP_append, List.countP_singleton, decide_eq_false (not_not.mpr rfl), Bool.and_false]
      rfl
    · rcases List.mem_append.mp hc with hc | hc
      · exact h.calls call hc
      · rw [List.mem_singleton.mp hc]
        exact (h.below bot mem).gate

theorem invariant_identify (h : s.Invariant k) (cell : Nat) (identity : Identity) : (s.identify cell identity).Invariant k :=
  h.of_eq (h.toTable.of_eq rfl rfl rfl fun _ some => some) rfl rfl rfl (fun _ => rfl) h.count

end System

/-- The bots of a reload have valid rates and URLs, and names of their own. -/
def Event.Valid : Event u → Prop
  | .setBots bots => (∀ bot ∈ bots, bot.Valid) ∧ (bots.map (·.name)).Nodup
  | _ => True

namespace System
variable {s : System u} {k : Known}

theorem invariant_step (h : s.Invariant k) {event : Event u} (valid : event.Valid) : (s.step event).Invariant (k.step event) := by
  cases event with
  | setBots bots => exact invariant_setBots h valid.1 valid.2
  | setParked name parked => exact invariant_setParked h name parked
  | setIdentity name identity =>
    change (s.setIdentity name identity).Invariant k
    unfold setIdentity
    split
    · exact h
    · exact invariant_identify h ..
  | arrive name => exact invariant_arrive h name
  | announce i =>
    change (s.step (.announce i)).Invariant k
    unfold step
    dsimp only
    split
    · rename_i bot hi
      exact h.of_call hi .announced _ rfl rfl
    · exact h
  | readParked i =>
    change (s.step (.readParked i)).Invariant k
    unfold step
    dsimp only
    split
    · rename_i bot hi
      have same : s.modifyGate bot.gate (fun _ => s.cells.gates bot.gate) = s := by
        unfold modifyGate
        rw [Function.update_eq_self]
      have counted : (if (s.cells.gates bot.gate).isParked then Phase.refused else .sending) ≠ .outside := by
        split
        · exact nofun
        · exact nofun
      have stepped := h.of_call hi _ (s.cells.gates bot.gate) rfl (by rw [if_pos counted]; rfl)
      rwa [same] at stepped
    · exact h
  | leave i =>
    change (s.step (.leave i)).Invariant k
    have gone {bot : Bot u} {phase : Phase} (hi : s.calls[i]? = some ⟨bot, phase⟩) (inside : phase ≠ .outside) :
        Invariant { s.modifyGate bot.gate (·.leave) with calls := s.calls.set i ⟨bot, .outside⟩ } k := by
      refine h.of_call hi .outside _ rfl ?_
      have counts : (s.cells.gates bot.gate).sending = s.counted bot.gate := h.count _
      have pos : 0 < s.counted bot.gate := by
        refine List.countP_pos_iff.mpr ⟨_, List.mem_of_getElem? hi, ?_⟩
        rw [decide_eq_true rfl, Bool.true_and, decide_eq_true inside]
      rw [if_pos inside, if_neg (not_not.mpr rfl)]
      change (s.cells.gates bot.gate).sending - 1 + 1 = _
      omega
    unfold step
    dsimp only
    split
    · rename_i bot hi
      exact gone hi nofun
    · rename_i bot hi
      exact gone hi nofun
    · exact h
  | limit limiter change' =>
    refine h.of_eq (h.toTable.of_eq rfl rfl rfl fun i some => ?_) rfl rfl rfl (fun _ => rfl) h.count
    change (Function.update s.cells.limiters limiter _ i).isSome
    rcases eq_or_ne i limiter with rfl | ne
    · rw [Function.update_self, Option.isSome_map]
      exact some
    · rwa [Function.update_of_ne ne]
  | identify cell identity => exact invariant_identify h cell identity

theorem invariant_run (h : s.Invariant k) {events : List (Event u)} (valid : ∀ event ∈ events, event.Valid) :
    (s.run events).Invariant (events.foldl Known.step k) := by
  induction events generalizing s k with
  | nil => exact h
  | cons event events ih =>
    exact ih (invariant_step h (valid event List.mem_cons_self)) fun e he => valid e (List.mem_cons_of_mem _ he)

/-! ### The rest of an entry -/

end System

/-- The directory that a local server sees, as text. -/
def Upstream.serverDir (upstream : Upstream u) : Option Str :=
  match upstream.files with
  | some (.dir _ serverDir) => serverDir.toStr
  | _ => none

/-- No reload. -/
def Event.Calm : Event u → Prop
  | .setBots _ => False
  | _ => True

/-- The entry is as a fresh one, but for the cells it shares. Paths are compared as the standard library does. -/
structure Bot.Agrees (entry fresh : Bot u) : Prop where
  name : entry.name = fresh.name
  source : entry.source = fresh.source
  token : entry.token = fresh.token
  upstream : entry.upstream.beq fresh.upstream
  gateway : entry.gateway = fresh.gateway
  methodBase : entry.methodBase = fresh.methodBase
  files : entry.files.beq fresh.files
  rewrite : entry.rewrite = fresh.rewrite
  refusesLocalFiles : entry.refusesLocalFiles = fresh.refusesLocalFiles
  responseTimeout : entry.responseTimeout = fresh.responseTimeout
  via : entry.via = fresh.via
  metrics : entry.metrics = fresh.metrics
  upstreamMetrics : entry.upstreamMetrics = fresh.upstreamMetrics

theorem Path.beq_refl (path : Path) : path.beq path := decide_eq_true rfl

theorem Files.beq_refl (files : Files u) : files.beq files := by
  cases files with
  | dir root serverDir => exact Bool.and_eq_true_iff.mpr ⟨root.beq_refl, serverDir.beq_refl⟩
  | url base => exact decide_eq_true rfl

theorem FileTarget.beq_refl (files : FileTarget u) : files.beq files := by
  cases files with
  | proxy url => exact decide_eq_true rfl
  | origin url => exact decide_eq_true rfl
  | disk root => exact root.beq_refl
  | notServed => rfl

/-- Equal upstreams, part by part. -/
structure Upstream.Equal (upstream other : Upstream u) : Prop where
  name : upstream.name = other.name
  kind : upstream.kind = other.kind
  url : upstream.url = other.url
  localMode : upstream.localMode = other.localMode
  files : upstream.files = none ∧ other.files = none ∨
    ∃ files files', upstream.files = some files ∧ other.files = some files' ∧ files.beq files'
  responseTimeout : upstream.responseTimeout = other.responseTimeout

theorem Upstream.beq_iff {upstream other : Upstream u} : upstream.beq other ↔ upstream.Equal other := by
  unfold beq
  simp only [Bool.and_eq_true, decide_eq_true_eq]
  constructor
  · rintro ⟨⟨⟨⟨⟨name, kind⟩, url⟩, localMode⟩, files⟩, responseTimeout⟩
    refine ⟨name, kind, url, localMode, ?_, responseTimeout⟩
    split at files
    · rename_i h h'
      exact .inl ⟨h, h'⟩
    · rename_i h h'
      exact .inr ⟨_, _, h, h', files⟩
    · cases files
  · rintro ⟨name, kind, url, localMode, files, responseTimeout⟩
    refine ⟨⟨⟨⟨⟨name, kind⟩, url⟩, localMode⟩, ?_⟩, responseTimeout⟩
    rcases files with ⟨h, h'⟩ | ⟨files, files', h, h', same⟩
    · rw [h, h']
    · rw [h, h']
      exact same

theorem Upstream.beq_refl (upstream : Upstream u) : upstream.beq upstream := by
  refine beq_iff.mpr ⟨rfl, rfl, rfl, rfl, ?_, rfl⟩
  cases h : upstream.files with
  | none => exact .inl ⟨rfl, rfl⟩
  | some files => exact .inr ⟨files, files, rfl, rfl, files.beq_refl⟩

/-- Equal upstreams serve a bot's files alike. -/
theorem FileTarget.new_beq {upstream other : Upstream u} (same : upstream.Equal other) {token : Str} {files files' : FileTarget u}
    (h : FileTarget.new upstream token = some files) (h' : FileTarget.new other token = some files') : files.beq files' := by
  unfold FileTarget.new at h h'
  rcases same.files with ⟨hf, hf'⟩ | ⟨f, f', hf, hf', beq⟩
  · rw [hf] at h
    rw [hf', ← same.kind, ← same.url] at h'
    rw [Option.some.inj (h.symm.trans h')]
    exact files'.beq_refl
  · rw [hf] at h
    rw [hf'] at h'
    cases f with
    | dir root serverDir =>
      cases f' with
      | dir root' serverDir' =>
        cases h
        cases h'
        exact (Bool.and_eq_true_iff.mp beq).1
      | url base => cases beq
    | url base =>
      cases f' with
      | dir root' serverDir' => cases beq
      | url base' =>
        obtain rfl : base = base' := of_decide_eq_true beq
        rw [Option.some.inj (h.symm.trans h')]
        exact files'.beq_refl

/-- Equal upstreams rewrite alike just where the server's directory is written alike. -/
theorem Rewrite.new_eq_iff {upstream other : Upstream u} (same : upstream.Equal other) :
    Rewrite.new upstream = Rewrite.new other ↔ (other.localMode → upstream.serverDir = other.serverDir) := by
  unfold Rewrite.new Upstream.serverDir
  rw [same.localMode]
  cases other.localMode with
  | false => exact ⟨fun _ h => absurd h Bool.false_ne_true, fun _ => rfl⟩
  | true =>
    simp only [Bool.not_true, Bool.false_eq_true, if_false, forall_const]
    rcases same.files with ⟨hf, hf'⟩ | ⟨f, f', hf, hf', beq⟩
    · rw [hf, hf']
      exact ⟨fun _ => rfl, fun _ => rfl⟩
    · rw [hf, hf']
      cases f with
      | dir root serverDir =>
        cases f' with
        | dir root' serverDir' =>
          dsimp only
          cases serverDir.toStr with
          | none =>
            cases serverDir'.toStr with
            | none => exact ⟨fun _ => rfl, fun _ => rfl⟩
            | some text' => exact ⟨nofun, nofun⟩
          | some text =>
            cases serverDir'.toStr with
            | none => exact ⟨nofun, nofun⟩
            | some text' => rw [Rewrite.under.injEq, Option.some.injEq]
        | url base => cases beq
      | url base =>
        cases f' with
        | dir root' serverDir' => cases beq
        | url base' => exact ⟨fun _ => rfl, fun _ => rfl⟩

/-- Two entries for one bot. -/
theorem Bot.Of.agrees {via : Str} {bot : GatewayBot u} {entry fresh : Bot u} (h : entry.Of via bot) (h' : fresh.Of via bot) :
    entry.Agrees fresh := by
  obtain ⟨methodBase, files, hbase, hfiles, he⟩ := Bot.new_eq_some h
  obtain ⟨methodBase', files', hbase', hfiles', hf⟩ := Bot.new_eq_some h'
  obtain rfl := Option.some.inj (hbase.symm.trans hbase')
  obtain rfl := Option.some.inj (hfiles.symm.trans hfiles')
  rw [he, hf]
  exact ⟨rfl, rfl, rfl, bot.upstream.beq_refl, rfl, rfl, files.beq_refl, rfl, rfl, rfl, rfl, rfl, rfl⟩

/-- An entry that `bot` describes unchanged is as a fresh one just where it rewrites alike. -/
theorem Bot.Of.agrees_iff {via : Str} {bot bot' : GatewayBot u} {entry fresh : Bot u} (h : entry.Of via bot')
    (h' : fresh.Of via bot) (name : entry.name = bot.name) (same : entry.same bot) :
    entry.Agrees fresh ↔ (bot.upstream.localMode → entry.upstream.serverDir = bot.upstream.serverDir) := by
  obtain ⟨methodBase, files, hbase, hfiles, he⟩ := Bot.new_eq_some h
  obtain ⟨methodBase', files', hbase', hfiles', hf⟩ := Bot.new_eq_some h'
  obtain ⟨token, beq, refuses, gateway, source⟩ := Bot.same_iff.mp same
  have equal := Upstream.beq_iff.mp beq
  rw [← Rewrite.new_eq_iff equal]
  generalize entry.limiter = limiter, entry.identity = identity, entry.gate = gate at he
  generalize fresh.limiter = limiter', fresh.identity = identity', fresh.gate = gate' at hf
  subst he hf
  constructor
  · intro agrees
    exact agrees.rewrite
  · intro rewrite
    have url : bot'.upstream.url = bot.upstream.url := equal.url
    have token : bot'.token = bot.token := token
    rw [url, token, hbase'] at hbase
    rw [token] at hfiles
    refine ⟨name, source, token, beq, gateway, (Option.some.inj hbase).symm, FileTarget.new_beq equal hfiles hfiles', rewrite, refuses,
      ?_, rfl, name, Prod.ext name equal.name⟩
    have upstreamName : bot'.upstream.name = bot.upstream.name := equal.name
    have gateway : bot'.gateway = bot.gateway := gateway
    have timeout : bot'.upstream.responseTimeout = bot.upstream.responseTimeout := equal.responseTimeout
    dsimp only
    rw [upstreamName, gateway, timeout]

namespace System
variable {s : System u} {k : Known}

/-- The entry of a bot is left alone though the directory that its local server sees is written differently. -/
def Respelled (s : System u) (bot : GatewayBot u) : Prop :=
  ∃ previous, s.named bot.name = some previous ∧ previous.same bot ∧ bot.upstream.localMode ∧
    previous.upstream.serverDir ≠ bot.upstream.serverDir

/-- The entry of a gateway built afresh for a bot. -/
theorem fresh_spec {bot : GatewayBot u} (valid : bot.Valid) (via : Str) (seeds : Nat → (ChatKey → Nat) × (ChatKey → Nat)) :
    ∃ fresh, ((new u via seeds).setBots [bot]).named bot.name = some fresh ∧ fresh.Of via bot := by
  have table := (invariant_new u via seeds).toTable
  obtain ⟨fresh, hn, built⟩ := named_setBots table (List.forall_mem_singleton.mpr valid) (List.nodup_singleton _)
    (List.mem_singleton_self bot)
  exact ⟨fresh, hn, built.rebuilt fun previous hp => absurd (hp.symm.trans (named_new via seeds _)) (Option.some_ne_none previous)⟩

theorem agrees_iff (table : s.Table) {cells : Cells} {bot : GatewayBot u} {entry fresh : Bot u} (built : Built s cells bot entry)
    (h : fresh.Of s.via bot) : entry.Agrees fresh ↔ ¬s.Respelled bot := by
  by_cases kept : ∃ previous, s.named bot.name = some previous ∧ previous.same bot
  · obtain ⟨previous, hp, same⟩ := kept
    obtain ⟨mem, name⟩ := of_named hp
    obtain ⟨bot', made⟩ := table.made previous mem
    rw [built.kept previous hp same, made.agrees_iff h name same]
    constructor
    · rintro alike ⟨other, ho, -, localMode, ne⟩
      rw [Option.some.inj (hp.symm.trans ho)] at alike
      exact ne (alike localMode)
    · intro not localMode
      by_contra ne
      exact not ⟨previous, hp, same, localMode, ne⟩
  · have changed : ∀ previous, s.named bot.name = some previous → ¬previous.same bot := fun previous hp same =>
      kept ⟨previous, hp, same⟩
    exact ⟨fun _ ⟨previous, hp, same, _⟩ => changed previous hp same, fun _ => (built.rebuilt changed).agrees h⟩

/-! ### Runs -/

theorem table_calm {event : Event u} (calm : event.Calm) : (s.step event).table = s.table ∧ (s.step event).via = s.via := by
  cases event with
  | setBots bots => exact calm.elim
  | setParked name parked => unfold step; dsimp only; unfold setParked; split <;> exact ⟨rfl, rfl⟩
  | setIdentity name identity => unfold step; dsimp only; unfold setIdentity; split <;> exact ⟨rfl, rfl⟩
  | arrive name => unfold step; dsimp only; split <;> exact ⟨rfl, rfl⟩
  | announce i => unfold step; dsimp only; split <;> exact ⟨rfl, rfl⟩
  | readParked i => unfold step; dsimp only; split <;> exact ⟨rfl, rfl⟩
  | leave i => unfold step; dsimp only; split <;> exact ⟨rfl, rfl⟩
  | limit limiter change => exact ⟨rfl, rfl⟩
  | identify cell identity => exact ⟨rfl, rfl⟩

theorem run_calm {events : List (Event u)} (calm : ∀ event ∈ events, event.Calm) (s : System u) :
    (s.run events).table = s.table := by
  induction events generalizing s with
  | nil => rfl
  | cons event events ih =>
    exact (ih (fun e he => calm e (List.mem_cons_of_mem _ he)) (s.step event)).trans (table_calm (calm event List.mem_cons_self)).1

theorem run_via (events : List (Event u)) (s : System u) : (s.run events).via = s.via := by
  induction events generalizing s with
  | nil => rfl
  | cons event events ih =>
    refine (ih (s.step event)).trans ?_
    by_cases calm : event.Calm
    · exact (table_calm calm).2
    · cases event with
      | setBots bots => rfl
      | _ => exact absurd trivial calm

theorem run_append (s : System u) (events events' : List (Event u)) : s.run (events ++ events') = (s.run events).run events' :=
  List.foldl_append

/-- Live `Sending`s of a bot, of calls that came since the first `since`. -/
def guards (s : System u) (name : Str) (since : Nat) : Nat :=
  (s.calls.drop since).countP fun call => call.bot.name = name && call.phase = .sending

/-- Those of its calls that are inside `Gate::enter`. -/
def entering (s : System u) (name : Str) (since : Nat) : Nat :=
  (s.calls.drop since).countP fun call => call.bot.name = name && (call.phase = .announced || call.phase = .refused)

theorem Tells.sending {entry : Bot u} {listing : Listing} (h : s.Invariant k) (tells : Tells s entry listing) :
    (s.cells.gates entry.gate).sending = s.guards entry.name listing.since + s.entering entry.name listing.since := by
  rw [h.count]
  unfold counted
  have before : (s.calls.take listing.since).countP (fun call => call.bot.gate = entry.gate && call.phase ≠ .outside) = 0 := by
    refine List.countP_eq_zero.mpr fun call hc inside => ?_
    obtain ⟨i, hi⟩ := List.mem_iff_getElem?.mp hc
    rw [List.getElem?_take] at hi
    split at hi
    · rename_i lt
      have gate := of_decide_eq_true (Bool.and_eq_true_iff.mp inside).1
      exact lt.not_ge ((tells.since i call hi).mp gate).2
    · cases hi
  rw [← List.take_append_drop listing.since s.calls, List.countP_append, before, Nat.zero_add]
  rw [countP_and_add _ fun call => call.phase = .sending]
  unfold guards entering
  have gates : ∀ call ∈ s.calls.drop listing.since, decide (call.bot.gate = entry.gate) = decide (call.bot.name = entry.name) := by
    intro call hc
    rw [decide_eq_decide]
    obtain ⟨i, hi⟩ := List.mem_iff_getElem?.mp hc
    rw [List.getElem?_drop] at hi
    rw [tells.since _ call hi]
    exact ⟨fun h => h.1, fun h => ⟨h, Nat.le_add_right ..⟩⟩
  refine congrArg₂ (· + ·) (List.countP_congr fun call hc => ?_) (List.countP_congr fun call hc => ?_)
  · rw [gates call hc]
    cases call.phase <;> simp
  · rw [gates call hc]
    cases call.phase <;> simp

/-- In every run of reloads, parkings and calls: a listed bot's gate is as it was last parked since the bot was listed, and counts
    the bot's calls since then that hold a `Sending` or are inside `enter`. From one reload to the next a bot that keeps
    its token keeps its identity, and its limiter if the rate limits stay. After a reload the entries are otherwise those of a
    gateway built afresh, unless one is left alone though its server's directory is written differently. -/
theorem run_entries (via : Str) (seeds : Nat → (ChatKey → Nat) × (ChatKey → Nat)) (events : List (Event u))
    (valid : ∀ event ∈ events, event.Valid) :
    let s := (new u via seeds).run events
    (∀ name, match (Known.run events).listings name with
      | none => s.named name = none
      | some listing => ∃ entry, s.named name = some entry ∧ (s.cells.gates entry.gate).parked = listing.parked ∧
          s.sending name = s.guards name listing.since + s.entering name listing.since) ∧
    (∀ (before : List (Event u)) (old : List (GatewayBot u)) (middle : List (Event u)) (next : List (GatewayBot u)),
      events = before ++ .setBots old :: middle ++ [.setBots next] → (∀ event ∈ middle, event.Calm) →
      let s₀ := (new u via seeds).run (before ++ .setBots old :: middle)
      ∀ bot₀ ∈ old, ∀ bot ∈ next, bot₀.name = bot.name → bot₀.token = bot.token →
        ∃ entry₀ entry, s₀.named bot.name = some entry₀ ∧ s.named bot.name = some entry ∧
          entry.identity = entry₀.identity ∧ s.cells.identities entry.identity = s₀.cells.identities entry₀.identity ∧
          (bot₀.gateway.rateLimit = bot.gateway.rateLimit →
            entry.limiter = entry₀.limiter ∧ s.cells.limiters entry.limiter = s₀.cells.limiters entry₀.limiter)) ∧
    ∀ (before : List (Event u)) (bots : List (GatewayBot u)) (after : List (Event u)),
      events = before ++ .setBots bots :: after → (∀ event ∈ after, event.Calm) →
      ((∀ bot ∈ bots, ∃ entry fresh, s.named bot.name = some entry ∧
        ((new u via seeds).setBots [bot]).named bot.name = some fresh ∧ entry.Agrees fresh) ↔
          ∀ bot ∈ bots, ¬((new u via seeds).run before).Respelled bot) := by
  intro s
  have reached (events' : List (Event u)) (part : ∀ event ∈ events', event ∈ events) :
      ((new u via seeds).run events').Invariant (Known.run events') :=
    invariant_run (invariant_new u via seeds) fun event he => valid event (part event he)
  refine ⟨fun name => ?_, ?_, ?_⟩
  · have h := reached events fun _ he => he
    split
    · rename_i unlisted
      cases hn : s.named name with
      | none => rfl
      | some entry =>
        obtain ⟨listing, hl, -⟩ := h.tells name entry hn
        exact absurd (hl.symm.trans unlisted) nofun
    · rename_i listing hl
      cases hn : s.named name with
      | none => exact absurd (hl.symm.trans (h.unlisted name hn)) nofun
      | some entry =>
        obtain ⟨listing', hl', tells⟩ := h.tells name entry hn
        obtain rfl : listing' = listing := Option.some.inj (hl'.symm.trans hl)
        refine ⟨entry, rfl, tells.parked, ?_⟩
        rw [sending, hn]
        exact (of_named hn).2 ▸ tells.sending h
  · intro before old middle next split calm s₀ bot₀ hb₀ bot hb name token
    have h := reached before fun event he => split ▸ List.mem_append_left _ (List.mem_append_left _ he)
    have h₀ : s₀.Invariant _ := reached (before ++ .setBots old :: middle) fun event he => split ▸ List.mem_append_left _ he
    have oldValid : (Event.setBots old).Valid :=
      valid _ (split ▸ List.mem_append_left _ (List.mem_append_right _ List.mem_cons_self))
    have nextValid : (Event.setBots next).Valid := valid _ (split ▸ List.mem_append_right _ (List.mem_singleton_self _))
    have here₀ : s₀ = (((new u via seeds).run before).setBots old).run middle := run_append ..
    have here : s = s₀.setBots next := by
      unfold s
      rw [split]
      exact run_append _ _ [.setBots next]
    obtain ⟨entry₀, hn, built₀⟩ := named_setBots h.toTable oldValid.1 oldValid.2 hb₀
    have hn₀ : s₀.named bot.name = some entry₀ := by
      rw [here₀, named_of_eq (run_calm calm _), ← name]
      exact hn
    have below := h₀.below entry₀ (of_named hn₀).1
    have grown := (setBots_spec h₀.toTable nextValid.1 nextValid.2).grown
    obtain ⟨entry, hn', built⟩ := named_setBots h₀.toTable nextValid.1 nextValid.2 hb
    have identity := built.identity entry₀ hn₀ (built₀.token.trans token)
    refine ⟨entry₀, entry, hn₀, here ▸ hn', identity, ?_, fun rates => ?_⟩
    · rw [here, identity]
      exact grown.identities _ below.identity
    · have limiter := built.limiter entry₀ hn₀ (built₀.token.trans token)
        ((congrArg Settings.rateLimit built₀.gateway).trans rates)
      refine ⟨limiter, ?_⟩
      rw [here, limiter]
      exact grown.limiters _ below.limiter
  · intro before bots after split calm
    have h := reached before fun event he => split ▸ List.mem_append_left _ he
    have botsValid : (Event.setBots bots).Valid := valid _ (split ▸ List.mem_append_right _ List.mem_cons_self)
    have here : s = (((new u via seeds).run before).setBots bots).run after := by
      unfold s
      rw [split]
      exact run_append ..
    refine forall₂_congr fun bot hb => ?_
    obtain ⟨entry, hn, built⟩ := named_setBots h.toTable botsValid.1 botsValid.2 hb
    obtain ⟨fresh, hf, made⟩ := fresh_spec (botsValid.1 bot hb) via seeds
    have hn' : s.named bot.name = some entry := by
      rw [here, named_of_eq (run_calm calm _)]
      exact hn
    rw [← agrees_iff h.toTable built (by rw [run_via]; exact made)]
    constructor
    · rintro ⟨entry', fresh', he, hf', agrees⟩
      obtain rfl := Option.some.inj (hn'.symm.trans he)
      obtain rfl := Option.some.inj (hf.symm.trans hf')
      exact agrees
    · exact fun agrees => ⟨entry, fresh, hn', hf, agrees⟩

/-! ### A local server whose directory is written with a separator too many -/

/-- `http` URLs without query and fragment: their host, and the segments of their path. -/
def segmented : Urls where
  Url := Str × List Str
  decEq := inferInstance
  scheme _ := [104, 116, 116, 112]
  hostStr url := some url.1
  cannotBeABase _ := false
  setQuery url _ := url
  setFragment url _ := url
  path url := url.2.flatMap (slash :: ·)
  setPath url path := (url.1, (path.splitOn slash).tail)
  popIfEmpty url := (url.1, if url.2.getLast? = some [] then url.2.dropLast else url.2)
  push url segment := (url.1, url.2 ++ [segment])

/-- A bot on a server in local mode, its files in `/d`; the server sees them in `serverDir`. -/
def served (serverDir : Str) : GatewayBot segmented where
  name := [97]
  source := 0
  token := [49, 58, 97]
  upstream := {
    name := [117]
    kind := .local
    url := ([104], [[]])
    localMode := true
    files := some (.dir ⟨[slash, 100]⟩ ⟨serverDir⟩)
    responseTimeout := 10 ^ 9 }
  allowLocalFiles := false
  gateway := {
    upstreamIdleTimeout := 10 ^ 9
    rateLimit := {
      methods := []
      rates := {
        mode := .off
        maxDelay := 0
        global := { count := ⟨1, Limit.one_nonZeroU32⟩, per := 10 ^ 9, burst := ⟨1, Limit.one_nonZeroU32⟩ }
        perChat := { count := ⟨1, Limit.one_nonZeroU32⟩, per := 10 ^ 9, burst := ⟨1, Limit.one_nonZeroU32⟩ }
        perGroup := { count := ⟨1, Limit.one_nonZeroU32⟩, per := 10 ^ 9, burst := ⟨1, Limit.one_nonZeroU32⟩ } } }
    retry429MaxWait := 0 }

theorem valid_served (serverDir : Str) : (served serverDir).Valid := ⟨rfl, rfl, fun _ => ⟨_, rfl⟩⟩

/-- `/s//f`. -/
def doubled : Str := [slash, 115, slash, slash, 102]

/-- `/s/f`. -/
def plain : Str := [slash, 115, slash, 102]

/-- A reload that only rids the server's directory of a separator leaves the entry as it was. -/
theorem run_entries_doubled :
    let events : List (Event segmented) := [.setBots [served doubled], .setBots [served plain]]
    let s := (new segmented [] fun _ => (fun _ => 0, fun _ => 0)).run events
    let fresh := (new segmented [] fun _ => (fun _ => 0, fun _ => 0)).setBots [served plain]
    (∀ event ∈ events, event.Valid) ∧ (s.named [97]).map (·.rewrite) = some (.under doubled) ∧
      (fresh.named [97]).map (·.rewrite) = some (.under plain) ∧
      ∃ entry expected, s.named [97] = some entry ∧ fresh.named [97] = some expected ∧ ¬entry.Agrees expected := by
  intro events s fresh
  have single (serverDir : Str) : (Event.setBots [served serverDir]).Valid :=
    ⟨List.forall_mem_singleton.mpr (valid_served serverDir), List.nodup_singleton _⟩
  have kept : (s.named [97]).map (·.rewrite) = some (.under doubled) := by rfl
  have rebuilt : (fresh.named [97]).map (·.rewrite) = some (.under plain) := by rfl
  obtain ⟨entry, hn, he⟩ := Option.map_eq_some_iff.mp kept
  obtain ⟨expected, hf, hx⟩ := Option.map_eq_some_iff.mp rebuilt
  refine ⟨List.forall_mem_cons.mpr ⟨single doubled, List.forall_mem_singleton.mpr (single plain)⟩, kept, rebuilt, entry, expected,
    hn, hf, fun agrees => ?_⟩
  have same := agrees.rewrite
  rw [he, hx] at same
  exact absurd same (by decide)

/-- The bot is parked and its entry replaced while a call holds the old one. -/
theorem run_entries_parked :
    let bot := served plain
    let events : List (Event segmented) := [.setBots [bot], .arrive [97], .announce 0, .readParked 0, .setParked [97] true,
      .setBots [{ bot with allowLocalFiles := true }]]
    let s := (new segmented [] fun _ => (fun _ => 0, fun _ => 0)).run events
    ∃ entry, s.named [97] = some entry ∧ entry.refusesLocalFiles = false ∧ (s.cells.gates entry.gate).parked = true ∧
      s.sending [97] = s.guards [97] 0 + s.entering [97] 0 := by
  intro bot events s
  have single (bot : GatewayBot segmented) (valid : bot.Valid) : (Event.setBots [bot]).Valid :=
    ⟨List.forall_mem_singleton.mpr valid, List.nodup_singleton _⟩
  have valid : ∀ event ∈ events, event.Valid := by
    refine List.forall_mem_cons.mpr ⟨single bot (valid_served plain), ?_⟩
    refine List.forall_mem_cons.mpr ⟨trivial, List.forall_mem_cons.mpr ⟨trivial, List.forall_mem_cons.mpr ⟨trivial, ?_⟩⟩⟩
    exact List.forall_mem_cons.mpr ⟨trivial, List.forall_mem_singleton.mpr (single _ ⟨rfl, rfl, fun _ => ⟨_, rfl⟩⟩)⟩
  obtain ⟨gates, -, -⟩ := run_entries [] (fun _ => (fun _ => 0, fun _ => 0)) events valid
  have listed : (Known.run events).listings [97] = some { parked := true, since := 0 } := by rfl
  have gate := gates [97]
  rw [listed] at gate
  obtain ⟨entry, hn, parked, sent⟩ := gate
  have allowed : (s.named [97]).map (·.refusesLocalFiles) = some false := by rfl
  rw [hn] at allowed
  exact ⟨entry, hn, Option.some.inj allowed, parked, sent⟩

end System

end Tgin.Gateway
