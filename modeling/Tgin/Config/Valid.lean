import Tgin.Config.Validate

/-! What a configuration must be for `validate` to find no error in it, section by section and then as a whole. -/

namespace Tgin.Config.Raw
open Checked Rules
open Parking (UpstreamKind)
open Gateway.GatewayPath (validName)

variable {IpNet : Type}

/-! ### Consumers and upstreams -/

def Push.durations (push : Push) : List HumanDuration :=
  push.endpoints.value.map (·.timeout.value) ++
    [push.retry.initial.value, push.retry.max.value, push.retry.maxAge.value, push.breaker.openFor.value]

structure Push.Valid (push : Push) : Prop where
  endpoint : push.endpoints.value = [] → push.acceptSetWebhook = true
  durations : ∀ d ∈ push.durations, d.Plain ∧ 0 < d.value
  counts : push.maxInFlight.value ≠ 0 ∧ push.capacity.value ≠ 0 ∧ push.retry.maxAttempts.value ≠ 0 ∧ push.breaker.failureThreshold.value ≠ 0
  room : 2 ^ 20 ≤ push.capacityBytes.value

structure Pull.Valid (pull : Pull) : Prop where
  capacity : pull.capacity.value ≠ 0
  room : 2 ^ 20 ≤ pull.capacityBytes.value
  lease : pull.leaseTimeout.value.Plain ∧ secs 1 ≤ pull.leaseTimeout.value.value

/-- A consumer, where the data plane is served or not. -/
def Consumer.Valid (hasServer : Bool) : Consumer → Prop
  | .pull p => hasServer = true ∧ p.Valid
  | .push p => p.Valid

/-- A directory, with the server's own path of it or without, or an origin. -/
def Files.Valid (files : Files) : Prop :=
  files.dir.isSome ∧ files.url = none ∨ files.dir = none ∧ files.url.isSome ∧ files.serverDir = none

structure Upstream.Valid (upstream : Upstream) : Prop where
  cloud : upstream.kind.value = .cloud → upstream.localMode.value = false ∧ upstream.files = none
  files : ∀ files ∈ upstream.files, files.value.Valid
  timeout : ∀ timeout ∈ upstream.responseTimeout, timeout.value.Plain ∧ 0 < timeout.value.value ∧ timeout.value.value ≤ secs 3600

section
variable {path : Str} {location : Location}

theorem forall_durations {push : Push} {P : HumanDuration → Prop} : (∀ d ∈ push.durations, P d) ↔
    (∀ endpoint ∈ push.endpoints.value, P endpoint.timeout.value) ∧ P push.retry.initial.value ∧ P push.retry.max.value ∧
      P push.retry.maxAge.value ∧ P push.breaker.openFor.value := by
  simp [Push.durations, or_imp, forall_and]

theorem clean_push {p : Push} : (push path location p).Clean ↔ p.Valid := by
  have endpoints (base : Str) (hint : String) : (Reports.each (fun k (endpoint : Endpoint) =>
      duration (field (entry base k) "timeout") endpoint.timeout ++
      positive (field (entry base k) "timeout") endpoint.timeout hint) 0 p.endpoints.value).Clean ↔
      ∀ endpoint ∈ p.endpoints.value, endpoint.timeout.value.Plain ∧ 0 < endpoint.timeout.value.value :=
    Reports.clean_each_mem fun k endpoint => by simp only [Reports.clean_append, clean_duration, clean_positive]
  simp only [push, Reports.clean_append, Reports.clean_when, Diagnostics.not_clean_error, endpoints, clean_atLeastOne, clean_capacityBytes,
    clean_duration, clean_positive, List.isEmpty_iff]
  constructor
  · intro h
    obtain ⟨⟨⟨⟨⟨⟨⟨⟨⟨⟨⟨⟨⟨⟨none, timeouts⟩, inFlight⟩, capacity⟩, room⟩, i⟩, i'⟩, m⟩, m'⟩, attempts⟩, a⟩, a'⟩, threshold⟩, o⟩, o'⟩ := h
    exact {
      endpoint := fun empty => by
        by_contra refuses
        exact none ⟨empty, refuses⟩
      durations := forall_durations.mpr ⟨timeouts, ⟨i, i'⟩, ⟨m, m'⟩, ⟨a, a'⟩, o, o'⟩
      counts := ⟨inFlight, capacity, attempts, threshold⟩
      room }
  · intro h
    obtain ⟨timeouts, ⟨i, i'⟩, ⟨m, m'⟩, ⟨a, a'⟩, o, o'⟩ := forall_durations.mp h.durations
    obtain ⟨inFlight, capacity, attempts, threshold⟩ := h.counts
    exact ⟨⟨⟨⟨⟨⟨⟨⟨⟨⟨⟨⟨⟨⟨fun none => none.2 (h.endpoint none.1), timeouts⟩, inFlight⟩, capacity⟩, h.room⟩, i⟩, i'⟩, m⟩, m'⟩, attempts⟩, a⟩, a'⟩,
      threshold⟩, o⟩, o'⟩

theorem clean_pull {hasServer : Bool} {p : Pull} : (pull hasServer path location p).Clean ↔ hasServer = true ∧ p.Valid := by
  simp only [pull, Reports.clean_append, Reports.clean_when, Diagnostics.not_clean_error, clean_atLeastOne, clean_capacityBytes,
    clean_duration, clean_atLeast, imp_false, not_not]
  constructor
  · rintro ⟨⟨⟨⟨server, capacity⟩, room⟩, plain⟩, long⟩
    exact ⟨server, capacity, room, plain, long⟩
  · rintro ⟨server, capacity, room, plain, long⟩
    exact ⟨⟨⟨⟨server, capacity⟩, room⟩, plain⟩, long⟩

theorem clean_consumer {hasServer : Bool} {c : Consumer} : (consumer hasServer path location c).Clean ↔ c.Valid hasServer := by
  cases c with
  | pull p => exact clean_pull
  | push p => exact clean_push

theorem clean_consumers {raw : RawConfig IpNet} : (consumers raw).Clean ↔
    ∀ entry ∈ raw.consumers.entries, validName entry.1 = true ∧ entry.2.value.Valid raw.server.isSome :=
  Reports.clean_each_mem fun _ entry => by rw [Reports.clean_append, clean_checkName, clean_consumer]

theorem clean_files {f : At Files} : (files path f).Clean ↔ f.value.Valid := by
  obtain ⟨⟨dir, serverDir, url⟩, location⟩ := f
  cases dir <;> cases url <;> cases serverDir <;> simp [files, Files.Valid]

theorem clean_upstream {up : Upstream} : (upstream path location up).Clean ↔ up.Valid := by
  simp only [upstream, Reports.clean_append, Reports.clean_when, Reports.clean_given, Diagnostics.not_clean_error, clean_files,
    clean_duration, clean_positive, clean_atMost, imp_false, Bool.not_eq_true]
  constructor
  · rintro ⟨⟨cloud, files⟩, timeout⟩
    refine ⟨fun kind => ⟨(cloud kind).1, Option.eq_none_iff_forall_not_mem.mpr (cloud kind).2⟩, files, fun t given => ?_⟩
    obtain ⟨⟨plain, pos⟩, most⟩ := timeout t given
    exact ⟨plain, pos, most plain⟩
  · rintro ⟨cloud, files, timeout⟩
    refine ⟨⟨fun kind => ⟨(cloud kind).1, Option.eq_none_iff_forall_not_mem.mp (cloud kind).2⟩, files⟩, fun t given => ?_⟩
    obtain ⟨plain, pos, most⟩ := timeout t given
    exact ⟨⟨plain, pos⟩, fun _ => most⟩

theorem clean_upstreams {raw : RawConfig IpNet} : (upstreams raw).Clean ↔
    ∀ entry ∈ raw.upstreams.entries, (entry.1 ≠ Gateway.Upstream.SHORTHAND ∧ validName entry.1 = true) ∧ entry.2.value.Valid := by
  refine Reports.clean_each_mem fun _ entry => ?_
  rw [Reports.clean_append, clean_upstream]
  refine and_congr_left fun _ => ?_
  split
  · rename_i reserved
    exact iff_of_false Diagnostics.not_clean_error fun h => h.1 reserved
  · rename_i free
    rw [clean_checkName, and_iff_right free]

end

/-! ### Bots but for their routes -/

structure LongPoll.Valid (poll : LongPoll) : Prop where
  timeout : poll.timeout.value.Plain ∧ secs 1 ≤ poll.timeout.value.value
  limit : 1 ≤ poll.limit.value.toNat ∧ poll.limit.value.toNat ≤ 100

structure Webhook.Valid (raw : RawConfig IpNet) (bot : Bot IpNet) (hook : Webhook IpNet) : Prop where
  server : raw.server.isSome
  register : hook.register.value = true → hook.publicUrl.isSome
  certificate : hook.certificateFile.isSome → hook.register.value = true
  connections : ∀ max ∈ hook.maxConnections, (1 ≤ max.value.toNat ∧ max.value.toNat ≤ (webhookRules raw bot).maxConnections) ∧
    ∀ server ∈ raw.server, TELEGRAM_MAX_CONNECTIONS < max.value.toNat → max.value.toNat ≤ server.maxConnections.value
  allowlist : hook.ipAllowlist.value.isTelegram = true → ∀ upstream ∈ upstreamOf raw bot, upstream.kind.value = .cloud

/-- How updates arrive. -/
def Ingress.Valid (raw : RawConfig IpNet) (bot : Bot IpNet) : Ingress IpNet → Prop
  | .longPoll poll => poll.Valid
  | .webhook hook => hook.Valid raw bot

structure Rate.Valid (rate : Rate) : Prop where
  count : rate.count.value ≠ 0
  per : rate.per.value.Plain ∧ 0 < rate.per.value.value
  burst : rate.burst.value ≠ 0

structure Gateway.Valid (gateway : Gateway) : Prop where
  idle : gateway.upstreamIdleTimeout.value.Plain ∧ secs 1 ≤ gateway.upstreamIdleTimeout.value.value
  maxDelay : gateway.rateLimit.maxDelay.value.Plain ∧ gateway.rateLimit.maxDelay.value.value ≤ secs 60
  patterns : ∀ method ∈ gateway.rateLimit.methods.value, validMethodPattern method.value = true
  methods : gateway.rateLimit.methods.value = [] → gateway.rateLimit.mode = .off
  rates : gateway.rateLimit.global.Valid ∧ gateway.rateLimit.perChat.Valid ∧ gateway.rateLimit.perGroup.Valid
  maxWait : gateway.retry429.maxWait.value.Plain ∧ gateway.retry429.maxWait.value.value ≤ secs 60

section
variable {path : Str} {location : Location} {raw : RawConfig IpNet} {bot : Bot IpNet}

theorem clean_botUpstream {name : At Str} : (botUpstream raw path bot name).Clean ↔
    bot.apiUrl = none ∧ (raw.upstreams.get name.value).isSome := by
  simp [botUpstream, Option.isSome_iff_ne_none]

theorem clean_longPoll {poll : LongPoll} : (longPoll path location poll).Clean ↔ poll.Valid := by
  simp only [longPoll, Reports.clean_append, clean_duration, clean_atLeast, clean_inRange]
  constructor
  · rintro ⟨⟨plain, long⟩, limit⟩
    exact ⟨⟨plain, long⟩, limit⟩
  · rintro ⟨timeout, limit⟩
    exact ⟨timeout, limit⟩

theorem clean_webhookConnections {rules : WebhookRules} {max : At UInt32} : (webhookConnections raw rules path location max).Clean ↔
    (1 ≤ max.value.toNat ∧ max.value.toNat ≤ rules.maxConnections) ∧
      ∀ server ∈ raw.server, TELEGRAM_MAX_CONNECTIONS < max.value.toNat → max.value.toNat ≤ server.maxConnections.value := by
  simp only [webhookConnections, Reports.clean_append, clean_inRange, Reports.clean_given, Reports.clean_when, Diagnostics.not_clean_error,
    imp_false, not_and, not_lt]
  refine and_congr_right fun inside => forall₂_congr fun server _ => ?_
  exact ⟨fun h above => h above inside.2, fun h above _ => h above⟩

theorem clean_webhook {hook : Webhook IpNet} : (webhook raw bot path location hook).Clean ↔ hook.Valid raw bot := by
  simp only [webhook, Reports.clean_append, Reports.clean_when, Reports.clean_given, Diagnostics.not_clean_error, imp_false,
    clean_webhookConnections, not_not, not_and, Option.isNone_iff_eq_none, ← ne_eq, ← Option.isSome_iff_ne_none, Option.any_eq_true]
  constructor
  · rintro ⟨⟨⟨⟨server, register⟩, certificate⟩, connections⟩, allowlist⟩
    refine ⟨server, register, fun given => ?_, connections, fun telegram upstream mem => ?_⟩
    · obtain ⟨file, given⟩ := Option.isSome_iff_exists.mp given
      exact certificate file given
    · by_contra kind
      refine allowlist telegram ⟨upstream, mem, decide_eq_true ?_⟩
      cases eq : upstream.kind.value with
      | cloud => exact absurd eq kind
      | «local» => rfl
  · rintro ⟨server, register, certificate, connections, allowlist⟩
    refine ⟨⟨⟨⟨server, register⟩, fun file given => certificate (Option.isSome_iff_exists.mpr ⟨file, given⟩)⟩, connections⟩, ?_⟩
    rintro telegram ⟨upstream, mem, kind⟩
    rw [allowlist telegram upstream mem] at kind
    cases kind

theorem clean_ingress {i : At (Ingress IpNet)} : (ingress raw path bot i).Clean ↔ i.value.Valid raw bot := by
  obtain ⟨value, location⟩ := i
  cases value with
  | longPoll poll => exact clean_longPoll
  | webhook hook => exact clean_webhook

theorem clean_rate {r : Rate} : (rate path r).Clean ↔ r.Valid := by
  simp only [rate, Reports.clean_append, clean_atLeastOne, clean_duration, clean_positive]
  constructor
  · rintro ⟨⟨⟨count, plain⟩, pos⟩, burst⟩
    exact ⟨count, ⟨plain, pos⟩, burst⟩
  · rintro ⟨count, ⟨plain, pos⟩, burst⟩
    exact ⟨⟨⟨count, plain⟩, pos⟩, burst⟩

theorem clean_gateway {g : Gateway} : (gateway path g location).Clean ↔ g.Valid := by
  have patterns (base : Str) (hint : Str) : (Reports.each (fun k (method : At Str) => .when (¬validMethodPattern method.value)
      (Diagnostics.error (entry base k) method.location (utf8 "invalid method pattern " ++ quoted method.value) (some hint))) 0
        g.rateLimit.methods.value).Clean ↔ ∀ method ∈ g.rateLimit.methods.value, validMethodPattern method.value = true :=
    Reports.clean_each_mem fun k method => by simp
  simp only [gateway, Reports.clean_append, Reports.clean_when, Diagnostics.not_clean_error, imp_false, not_and, not_not, ne_eq, patterns,
    clean_rate, clean_duration, clean_atLeast, clean_atMost, List.isEmpty_iff]
  constructor
  · rintro ⟨⟨⟨⟨⟨⟨⟨⟨⟨⟨plain, long⟩, delay⟩, most⟩, pats⟩, methods⟩, global⟩, chat⟩, group⟩, wait⟩, least⟩
    exact ⟨⟨plain, long⟩, ⟨delay, most delay⟩, pats, methods, ⟨global, chat, group⟩, wait, least wait⟩
  · rintro ⟨⟨plain, long⟩, ⟨delay, most⟩, pats, methods, ⟨global, chat, group⟩, wait, least⟩
    exact ⟨⟨⟨⟨⟨⟨⟨⟨⟨⟨plain, long⟩, delay⟩, fun _ => most⟩, pats⟩, methods⟩, global⟩, chat⟩, group⟩, wait⟩, fun _ => least⟩

end

/-! ### Routes -/

/-- By the targets of the targets. -/
theorem Target.induction {P : Target → Prop} (consumer : ∀ name, P (.consumer name))
    (all : ∀ children, (∀ c ∈ children, P c.value) → P (.all children))
    (split : ∀ strategy among weights, (∀ c ∈ among, P c.value) → P (.split strategy among weights)) (target : Target) : P target := by
  refine @Target.rec P (fun targets => ∀ c ∈ targets, P c.value) (fun c => P c.value) consumer split all ?_ ?_ ?_ target
  · exact List.forall_mem_nil _
  · intro c targets hc htargets
    exact List.forall_mem_cons.mpr ⟨hc, htargets⟩
  · intro value _ h
    exact h

/-- A name a target mentions. -/
inductive Target.Names : Target → Str → Prop where
  | consumer (name : Str) : Names (.consumer name) name
  | all {children : List (At Target)} {c : At Target} {name : Str} (child : c ∈ children) (names : Names c.value name) :
    Names (.all children) name
  | split {strategy : At SplitStrategy} {among : List (At Target)} {weights : Option (At (List (At UInt32)))} {c : At Target} {name : Str}
    (child : c ∈ among) (names : Names c.value name) : Names (.split strategy among weights) name

/-- One weight above 0 for each child where the split is weighted, and none elsewhere. -/
def Weighted (strategy : SplitStrategy) (among : Nat) (weights : Option (At (List (At UInt32)))) : Prop :=
  match weights with
  | none => strategy ≠ .weighted
  | some weights => strategy = .weighted ∧ weights.value.length = among ∧ ∀ weight ∈ weights.value, weight.value ≠ 0

/-- Every split of a target has its weights. -/
inductive Target.Weights : Target → Prop where
  | consumer (name : Str) : Weights (.consumer name)
  | all {children : List (At Target)} (below : ∀ c ∈ children, Weights c.value) : Weights (.all children)
  | split {strategy : At SplitStrategy} {among : List (At Target)} {weights : Option (At (List (At UInt32)))}
    (own : Weighted strategy.value among.length weights) (below : ∀ c ∈ among, Weights c.value) : Weights (.split strategy among weights)

/-- The targets name consumers that exist, and its splits have their weights. -/
structure Target.Valid (consumers : IndexMap (At Consumer)) (target : Target) : Prop where
  known : ∀ name, target.Names name → (consumers.getIndexOf name).isSome
  weights : target.Weights

/-- A target mentions the consumer number `c`. -/
def Target.Reaches (consumers : IndexMap (At Consumer)) (target : Target) (c : Nat) : Prop :=
  ∃ name, target.Names name ∧ consumers.getIndexOf name = some c

structure Route.Valid (consumers : IndexMap (At Consumer)) (route : Route) : Prop where
  commands : ∀ m ∈ route.match', ∀ command ∈ m.commands, validCommand command.value = true
  targets : ∀ target ∈ route.to', target.value.Valid consumers

/-- A rule of the bot mentions the consumer number `c`. -/
def Bot.Reaches (consumers : IndexMap (At Consumer)) (bot : Bot IpNet) (c : Nat) : Prop :=
  ∃ route ∈ bot.routes, ∃ target ∈ route.value.to', target.value.Reaches consumers c

structure Bot.Valid (raw : RawConfig IpNet) (bot : Bot IpNet) : Prop where
  name : validName bot.name.value = true
  upstream : ∀ name ∈ bot.upstream, bot.apiUrl = none ∧ (raw.upstreams.get name.value).isSome
  ingress : ∀ ingress ∈ bot.ingress, ingress.value.Valid raw bot
  gateway : bot.gateway.Valid
  routes : ∀ route ∈ bot.routes, route.value.Valid raw.consumers

section
variable {path : Str} {location : Location} {raw : RawConfig IpNet} {consumers : IndexMap (At Consumer)}

theorem Target.names_all {children : List (At Target)} {name : Str} : (Target.all children).Names name ↔ ∃ c ∈ children, c.value.Names name :=
  ⟨fun h => by cases h with | all child names => exact ⟨_, child, names⟩, fun ⟨_, child, names⟩ => .all child names⟩

theorem Target.names_split {strategy : At SplitStrategy} {among : List (At Target)} {weights : Option (At (List (At UInt32)))} {name : Str} :
    (Target.split strategy among weights).Names name ↔ ∃ c ∈ among, c.value.Names name :=
  ⟨fun h => by cases h with | split child names => exact ⟨_, child, names⟩, fun ⟨_, child, names⟩ => .split child names⟩

theorem clean_weights {strategy : At SplitStrategy} {among : Nat} {ws : Option (At (List (At UInt32)))} :
    (weights path strategy among ws location).Clean ↔ Weighted strategy.value among ws := by
  unfold weights Weighted
  cases ws with
  | none => simp
  | some ws =>
    have each (at' : Location) : (Reports.each (fun k (weight : At UInt32) => .when (weight.value = 0)
        (Diagnostics.error (entry (field path "weights") k) (known weight.location at') (utf8 "weights must be greater than 0"))) 0
          ws.value).Clean ↔ ∀ weight ∈ ws.value, weight.value ≠ 0 :=
      Reports.clean_each_mem fun k weight => by simp
    dsimp only
    split
    · rename_i other
      exact iff_of_false Diagnostics.not_clean_error fun h => other h.1
    · rename_i weighted
      rw [Reports.clean_append, each, and_iff_right (not_not.mp weighted)]
      refine and_congr_left fun _ => ?_
      simp

/-- What the check of a target finds, and the consumers it reaches. -/
structure TargetSpec (consumers : IndexMap (At Consumer)) (target : Target) (given : Diagnostics × List Reached) : Prop where
  clean : given.1.Clean ↔ target.Valid consumers
  reached : ∀ c, (∃ r ∈ given.2, r.consumer = c) ↔ target.Reaches consumers c

variable (path) in
theorem targets_spec {l : List (At Target)}
    (each : ∀ t ∈ l, ∀ path location, TargetSpec consumers t.value (target consumers path location t.value)) (k : Nat) :
    ((targets consumers path k l).1.Clean ↔ ∀ t ∈ l, t.value.Valid consumers) ∧
      ∀ c, (∃ r ∈ (targets consumers path k l).2, r.consumer = c) ↔ ∃ t ∈ l, t.value.Reaches consumers c := by
  induction l generalizing k with
  | nil => simp [targets]
  | cons t l ih =>
    obtain ⟨value, location⟩ := t
    obtain ⟨clean, reached⟩ := each _ List.mem_cons_self (entry path k) location
    obtain ⟨clean', reached'⟩ := ih (fun t mem => each t (List.mem_cons_of_mem _ mem)) (k + 1)
    rw [targets]
    refine ⟨?_, fun c => ?_⟩
    · rw [Reports.clean_append, clean, clean', List.forall_mem_cons]
    · simp only [List.mem_append, or_and_right, exists_or, reached, reached', List.exists_mem_cons_iff]

theorem target_spec (t : Target) (path : Str) (location : Location) : TargetSpec consumers t (target consumers path location t) := by
  induction t using Target.induction generalizing path location with
  | consumer name =>
    rw [target]
    have names {other : Str} : (Target.consumer name).Names other ↔ other = name :=
      ⟨fun h => by cases h; rfl, fun h => h ▸ .consumer name⟩
    cases found : consumers.getIndexOf name with
    | none =>
      refine ⟨iff_of_false Diagnostics.not_clean_error fun valid => ?_, fun c => ⟨fun ⟨_, h, _⟩ => absurd h List.not_mem_nil, ?_⟩⟩
      · have := valid.known name (.consumer name)
        rw [found] at this
        cases this
      · rintro ⟨other, mentioned, index⟩
        rw [names.mp mentioned, found] at index
        cases index
    | some index =>
      refine ⟨iff_of_true Reports.clean_none ⟨fun other h => ?_, .consumer name⟩, fun c => ?_⟩
      · rw [names.mp h, found]
        rfl
      · simp [Target.Reaches, names, found]
  | all children ih =>
    rw [target]
    obtain ⟨clean, reached⟩ := targets_spec (field path "all") (fun t mem => ih t mem) 0
    refine ⟨clean.trans ⟨fun h => ?_, fun h t mem => ?_⟩, fun c => (reached c).trans ?_⟩
    · refine ⟨fun name names => ?_, .all fun t mem => (h t mem).weights⟩
      obtain ⟨t, mem, names⟩ := Target.names_all.mp names
      exact (h t mem).known name names
    · obtain ⟨known, weights⟩ := h
      cases weights with
      | all below => exact ⟨fun name names => known name (.all mem names), below t mem⟩
    · simp only [Target.Reaches, Target.names_all]
      grind
  | split strategy among ws ih =>
    rw [target]
    obtain ⟨clean, reached⟩ := targets_spec (field (field path "split") "among") (fun t mem => ih t mem) 0
    refine ⟨?_, fun c => (reached c).trans ?_⟩
    · rw [Reports.clean_append, clean_weights, clean]
      constructor
      · rintro ⟨own, h⟩
        refine ⟨fun name names => ?_, .split own fun t mem => (h t mem).weights⟩
        obtain ⟨t, mem, names⟩ := Target.names_split.mp names
        exact (h t mem).known name names
      · rintro ⟨known, weights⟩
        cases weights with
        | split own below => exact ⟨own, fun t mem => ⟨fun name names => known name (.split mem names), below t mem⟩⟩
    · simp only [Target.Reaches, Target.names_split]
      grind

variable (path consumers) in
theorem routes_spec (j : Nat) (l : List (At Route)) : ((routes consumers path j l).1.Clean ↔ ∀ route ∈ l, route.value.Valid consumers) ∧
    ∀ c, (∃ r ∈ (routes consumers path j l).2, r.consumer = c) ↔ ∃ route ∈ l, ∃ t ∈ route.value.to', t.value.Reaches consumers c := by
  induction l generalizing j with
  | nil => simp [routes]
  | cons route l ih =>
    obtain ⟨clean', reached'⟩ := ih (j + 1)
    obtain ⟨clean, reached⟩ := targets_spec (field (entry (field path "routes") j) "to") (l := route.value.to')
      (fun t _ path location => target_spec t.value path location) 0
    have commands (base : Str) (m : Match) : (commands base m.commands).Clean ↔ ∀ command ∈ m.commands, validCommand command.value = true :=
      Reports.clean_each_mem fun k command => by simp
    rw [routes]
    refine ⟨?_, fun c => ?_⟩
    · rw [Reports.clean_append, Reports.clean_append, Reports.clean_given, clean, clean', List.forall_mem_cons]
      refine and_congr_left fun _ => ?_
      have cleans : (∀ m ∈ route.value.match', (Raw.commands (entry (field path "routes") j) m.commands).Clean) ↔
          ∀ m ∈ route.value.match', ∀ command ∈ m.commands, validCommand command.value = true := forall₂_congr fun m _ => commands _ m
      rw [cleans]
      constructor
      · rintro ⟨cs, ts⟩
        exact ⟨cs, ts⟩
      · rintro ⟨cs, ts⟩
        exact ⟨cs, ts⟩
    · simp only [List.mem_append, or_and_right, exists_or, reached, reached', List.exists_mem_cons_iff]

end

/-! ### Bots together -/

/-- The consumer number `c` serves one bot. -/
def Exclusive (consumers : IndexMap (At Consumer)) (c : Nat) : Prop :=
  ∃ entry, consumers.entries[c]? = some entry ∧ (servesOneBot entry.2.value).isSome

/-- Who has a consumer that serves one bot has the name of the bot that had it first. -/
def OwnedBy (consumers : IndexMap (At Consumer)) (owners : List (Nat × Str)) (bot : Bot IpNet) : Prop :=
  ∀ c, bot.Reaches consumers c → Exclusive consumers c → ∀ owner, owners.lookup c = some owner → owner = bot.name.value

section
variable {raw : RawConfig IpNet} {consumers : IndexMap (At Consumer)} {name : Str} {owners : List (Nat × Str)}

section
variable {α β : Type} [BEq α] [LawfulBEq α] {l : List (α × β)} {a c : α} {b : β}

theorem lookup_append_self (h : l.lookup a = none) : (l ++ [(a, b)]).lookup a = some b := by
  rw [List.lookup_append, h, Option.none_or, List.lookup_cons_self]

theorem lookup_append_ne (ne : c ≠ a) : (l ++ [(a, b)]).lookup c = l.lookup c := by
  rw [List.lookup_append, List.lookup_cons, beq_eq_false_iff_ne.mpr ne, List.lookup_nil, Option.or_none]

end

theorem firsts_consumers (seen : List Nat) (l : List Reached) (c : Nat) :
    (∃ r ∈ firsts seen l, r.consumer = c) ↔ c ∉ seen ∧ ∃ r ∈ l, r.consumer = c := by
  induction l generalizing seen with
  | nil => simp [firsts]
  | cons r l ih =>
    rw [firsts]
    split
    · rename_i old
      rw [ih]
      have old : r.consumer ∈ seen := List.contains_iff_mem.mp old
      constructor
      · rintro ⟨fresh, more⟩
        exact ⟨fresh, List.exists_mem_cons_iff .. |>.mpr (.inr more)⟩
      · rintro ⟨fresh, more⟩
        refine ⟨fresh, ((List.exists_mem_cons_iff ..).mp more).resolve_left ?_⟩
        rintro rfl
        exact fresh old
    · rename_i new
      have new : r.consumer ∉ seen := fun mem => new (List.contains_iff_mem.mpr mem)
      rw [List.exists_mem_cons_iff, ih, List.exists_mem_cons_iff, List.mem_cons, not_or]
      constructor
      · rintro (rfl | ⟨⟨-, fresh⟩, more⟩)
        · exact ⟨new, .inl rfl⟩
        · exact ⟨fresh, .inr more⟩
      · rintro ⟨fresh, rfl | more⟩
        · exact .inl rfl
        · by_cases eq : r.consumer = c
          · exact .inl eq
          · exact .inr ⟨⟨fun h => eq h.symm, fresh⟩, more⟩

theorem owned_cons_shared {r : Reached} {l : List Reached} (shared : ¬Exclusive consumers r.consumer) :
    owned consumers name owners (r :: l) = owned consumers name owners l := by
  rw [owned]
  split
  · rfl
  · rename_i consumerName value found
    cases rule : servesOneBot value.value with
    | none => rfl
    | some kind => exact absurd ⟨_, found, by rw [rule]; rfl⟩ shared

theorem owned_cons_new {r : Reached} {l : List Reached} (own : Exclusive consumers r.consumer) (first : owners.lookup r.consumer = none) :
    owned consumers name owners (r :: l) = owned consumers name (owners ++ [(r.consumer, name)]) l := by
  obtain ⟨⟨consumerName, value⟩, found, serves⟩ := own
  obtain ⟨kind, rule⟩ := Option.isSome_iff_exists.mp serves
  rw [owned]
  simp only [found, rule, first]

variable (name) in
theorem owned_cons_had {r : Reached} {l : List Reached} {owner : Str} (own : Exclusive consumers r.consumer)
    (first : owners.lookup r.consumer = some owner) :
    ((owned consumers name owners (r :: l)).1.Clean ↔ owner = name ∧ (owned consumers name owners l).1.Clean) ∧
      (owned consumers name owners (r :: l)).2 = (owned consumers name owners l).2 := by
  obtain ⟨⟨consumerName, value⟩, found, serves⟩ := own
  obtain ⟨kind, rule⟩ := Option.isSome_iff_exists.mp serves
  rw [owned]
  simp only [found, rule, first]
  refine ⟨?_, trivial⟩
  rw [Reports.clean_append, Reports.clean_when]
  refine and_congr_left fun _ => ?_
  simp

variable (name consumers) in
/-- What is found against the bot's consumers, and whose the consumers are then. -/
theorem owned_spec (l : List Reached) (owners : List (Nat × Str)) :
    ((owned consumers name owners l).1.Clean ↔
      ∀ r ∈ l, Exclusive consumers r.consumer → ∀ owner, owners.lookup r.consumer = some owner → owner = name) ∧
    ∀ c owner, (owned consumers name owners l).2.lookup c = some owner ↔
      owners.lookup c = some owner ∨ owners.lookup c = none ∧ Exclusive consumers c ∧ (∃ r ∈ l, r.consumer = c) ∧ owner = name := by
  induction l generalizing owners with
  | nil => simp [owned]
  | cons r l ih =>
    by_cases own : Exclusive consumers r.consumer
    · cases first : owners.lookup r.consumer with
      | none =>
        obtain ⟨clean, left⟩ := ih (owners ++ [(r.consumer, name)])
        have here := lookup_append_self (b := name) first
        have elsewhere (c : Nat) (ne : c ≠ r.consumer) := lookup_append_ne (l := owners) (b := name) ne
        rw [owned_cons_new own first]
        refine ⟨clean.trans ?_, fun c owner => (left c owner).trans ?_⟩
        · rw [List.forall_mem_cons]
          constructor
          · intro h
            refine ⟨fun _ owner eq => ?_, fun r' mem own' owner eq => h r' mem own' owner ?_⟩
            · rw [first] at eq
              cases eq
            · rw [elsewhere, eq]
              intro same
              rw [same, first] at eq
              cases eq
          · rintro ⟨-, h⟩ r' mem own' owner eq
            by_cases same : r'.consumer = r.consumer
            · rw [same, here] at eq
              exact (Option.some.inj eq).symm
            · rw [elsewhere _ same] at eq
              exact h r' mem own' owner eq
        · rw [List.exists_mem_cons_iff]
          by_cases eq : c = r.consumer
          · subst eq
            rw [here, first]
            constructor
            · rintro (same | ⟨absent, -⟩)
              · exact .inr ⟨rfl, own, .inl rfl, (Option.some.inj same).symm⟩
              · cases absent
            · rintro (absent | ⟨-, -, -, rfl⟩)
              · cases absent
              · exact .inl rfl
          · rw [elsewhere _ eq, or_iff_right (a := r.consumer = c) fun same => eq same.symm]
      | some owner =>
        obtain ⟨clean, left⟩ := ih owners
        obtain ⟨cleans, same⟩ := owned_cons_had name (l := l) own first
        refine ⟨cleans.trans ?_, fun c other => ?_⟩
        · rw [List.forall_mem_cons, clean]
          refine and_congr_left fun _ => ⟨?_, fun h => h own owner first⟩
          rintro rfl - other eq
          rw [first] at eq
          exact (Option.some.inj eq).symm
        · rw [same, left, List.exists_mem_cons_iff]
          refine or_congr_right (and_congr_right fun absent => ?_)
          rw [or_iff_right]
          rintro rfl
          rw [first] at absent
          cases absent
    · rw [owned_cons_shared own]
      obtain ⟨clean, left⟩ := ih owners
      refine ⟨clean.trans ?_, fun c owner => (left c owner).trans ?_⟩
      · rw [List.forall_mem_cons]
        exact ⟨fun h => ⟨fun exclusive => absurd exclusive own, h⟩, And.right⟩
      · rw [List.exists_mem_cons_iff]
        refine or_congr_right (and_congr_right fun _ => and_congr_right fun exclusive => ?_)
        rw [or_iff_right]
        rintro rfl
        exact own exclusive

theorem isSome_lookup {α β : Type} [BEq α] [LawfulBEq α] {l : List (α × β)} {a : α} : (l.lookup a).isSome ↔ a ∈ l.map (·.1) := by
  induction l with
  | nil => simp
  | cons x l ih =>
    rw [List.lookup_cons, List.map_cons, List.mem_cons]
    split
    · rename_i eq
      simp [eq_of_beq eq]
    · rename_i ne
      rw [ih, or_iff_right]
      rintro rfl
      rw [beq_self_eq_true] at ne
      cases ne

theorem clean_bot {path : Str} {b : Bot IpNet} : (bot raw path b).Clean ↔
    (∀ name ∈ b.upstream, b.apiUrl = none ∧ (raw.upstreams.get name.value).isSome) ∧
      (∀ ingress ∈ b.ingress, ingress.value.Valid raw b) ∧ b.gateway.Valid := by
  simp only [bot, Reports.clean_append, Reports.clean_given, clean_botUpstream, clean_ingress, clean_gateway, and_assoc]

theorem clean_lastRoute {path : Str} {l : List (At Route)} : (lastRoute path l).Clean ↔ True := by
  simp [lastRoute]

/-- Bots that are valid each, have distinct names (of which none is in `names`), and share no consumer that serves one bot. -/
theorem clean_bots {names : List (Str × Nat)} {owners : List (Nat × Str)} (i : Nat) (l : List (Bot IpNet)) :
    (bots raw i names owners l).Clean ↔ (∀ bot ∈ l, bot.Valid raw) ∧ (l.map (·.name.value)).Nodup ∧
      (∀ bot ∈ l, bot.name.value ∉ names.map (·.1)) ∧ (∀ bot ∈ l, OwnedBy raw.consumers owners bot) ∧
      l.Pairwise fun bot other => ∀ c, bot.Reaches raw.consumers c → other.Reaches raw.consumers c → ¬Exclusive raw.consumers c := by
  induction l generalizing i names owners with
  | nil => simp [bots]
  | cons b l ih =>
    obtain ⟨clean, reached⟩ := routes_spec (entry (utf8 "bots") i) raw.consumers 0 b.routes
    have reaches (c : Nat) : (∃ r ∈ firsts [] (routes raw.consumers (entry (utf8 "bots") i) 0 b.routes).2, r.consumer = c) ↔
        b.Reaches raw.consumers c := by
      rw [firsts_consumers, and_iff_right List.not_mem_nil]
      exact reached c
    obtain ⟨shared, after⟩ := owned_spec raw.consumers b.name.value
      (firsts [] (routes raw.consumers (entry (utf8 "bots") i) 0 b.routes).2) owners
    have shared : (owned raw.consumers b.name.value owners
        (firsts [] (routes raw.consumers (entry (utf8 "bots") i) 0 b.routes).2)).1.Clean ↔ OwnedBy raw.consumers owners b := by
      rw [shared]
      constructor
      · intro h c reaches' own owner eq
        obtain ⟨r, mem, rfl⟩ := (reaches c).mpr reaches'
        exact h r mem own owner eq
      · intro h r mem own owner eq
        exact h r.consumer ((reaches _).mp ⟨r, mem, rfl⟩) own owner eq
    simp only [reaches] at after
    rw [bots]
    simp only [Reports.clean_append, clean_checkName, Reports.clean_given, Diagnostics.not_clean_error, clean_bot, clean, clean_lastRoute,
      shared, List.map_cons, List.nodup_cons, List.forall_mem_cons, List.pairwise_cons, and_true]
    by_cases used : (names.lookup b.name.value).isSome
    · refine iff_of_false (fun h => ?_) fun h => h.2.2.1.1 (isSome_lookup.mp used)
      obtain ⟨first, eq⟩ := Option.isSome_iff_exists.mp used
      exact h.1.1.1.1.2 first eq
    · have free : names.lookup b.name.value = none := Option.not_isSome_iff_eq_none.mp used
      rw [if_neg used, ih]
      have others (bot : Bot IpNet) (ne : bot.name.value ≠ b.name.value) (own : OwnedBy raw.consumers owners b) :
          OwnedBy raw.consumers (owned raw.consumers b.name.value owners
            (firsts [] (routes raw.consumers (entry (utf8 "bots") i) 0 b.routes).2)).2 bot ↔
          OwnedBy raw.consumers owners bot ∧ ∀ c, b.Reaches raw.consumers c → bot.Reaches raw.consumers c → ¬Exclusive raw.consumers c := by
        constructor
        · intro h
          refine ⟨fun c reaches exclusive owner eq => h c reaches exclusive owner ((after c owner).mpr (.inl eq)), ?_⟩
          intro c mine its exclusive
          -- The consumer is this bot's or an earlier bot's: either way it is not the other's.
          cases eq : owners.lookup c with
          | none => exact ne (h c its exclusive _ ((after c _).mpr (.inr ⟨eq, exclusive, mine, rfl⟩))).symm
          | some owner =>
            have hers := h c its exclusive owner ((after c owner).mpr (.inl eq))
            exact ne (hers.symm.trans (own c mine exclusive owner eq))
        · rintro ⟨h, apart⟩ c its exclusive owner eq
          rcases (after c owner).mp eq with eq | ⟨-, -, mine, -⟩
          · exact h c its exclusive owner eq
          · exact absurd exclusive (apart c mine its)
      constructor
      · rintro ⟨⟨⟨⟨⟨name, -⟩, alone⟩, routes⟩, own⟩, valid, distinct, unused, owned, apart⟩
        have ne (bot : Bot IpNet) (mem : bot ∈ l) : bot.name.value ≠ b.name.value := fun eq => unused bot mem (by simp [eq])
        refine ⟨⟨⟨name, alone.1, alone.2.1, alone.2.2, routes⟩, valid⟩, ⟨?_, distinct⟩, ⟨?_, fun bot mem was => unused bot mem ?_⟩,
          ⟨own, fun bot mem => ((others bot (ne bot mem) own).mp (owned bot mem)).1⟩,
          fun bot mem => ((others bot (ne bot mem) own).mp (owned bot mem)).2, apart⟩
        · intro mem
          obtain ⟨bot, mem, eq⟩ := List.mem_map.mp mem
          exact ne bot mem eq
        · exact fun mem => used (isSome_lookup.mpr mem)
        · simp [List.mem_map.mp was]
      · rintro ⟨⟨valid, valids⟩, ⟨fresh, distinct⟩, ⟨unused, unuseds⟩, ⟨own, owns⟩, apart, aparts⟩
        have ne (bot : Bot IpNet) (mem : bot ∈ l) : bot.name.value ≠ b.name.value := fun eq => fresh (eq ▸ List.mem_map_of_mem mem)
        refine ⟨⟨⟨⟨⟨valid.name, fun first eq => ?_⟩, valid.upstream, valid.ingress, valid.gateway⟩, valid.routes⟩, own⟩, valids, distinct,
          fun bot mem was => ?_, fun bot mem => (others bot (ne bot mem) own).mpr ⟨owns bot mem, apart bot mem⟩, aparts⟩
        · rw [free] at eq
          cases eq
        · rw [List.map_append, List.mem_append] at was
          rcases was with was | was
          · exact unuseds bot mem was
          · exact ne bot mem (List.mem_singleton.mp was)

end

/-! ### The configuration -/

/-- What needs no environment. -/
structure RawConfig.Valid (raw : RawConfig IpNet) : Prop where
  version : raw.version.value = 1
  runtime : raw.runtime.lameDuck.value.Plain ∧ raw.runtime.shutdownGrace.value.Plain
  server : ∀ server ∈ raw.server,
    server.maxConnections.value ≠ 0 ∧ server.headerReadTimeout.value.Plain ∧ 0 < server.headerReadTimeout.value.value
  /-- An admin API beyond this machine has a token. -/
  admin : raw.admin.token = none → ∀ listen ∈ raw.admin.listen, isLoopback listen.value.ip = true
  reload : raw.reload.debounce.value.Plain ∧ 10 * 10 ^ 6 ≤ raw.reload.debounce.value.value ∧ raw.reload.drainTimeout.value.Plain
  consumers : ∀ entry ∈ raw.consumers.entries, validName entry.1 = true ∧ entry.2.value.Valid raw.server.isSome
  upstreams : ∀ entry ∈ raw.upstreams.entries,
    (entry.1 ≠ Gateway.Upstream.SHORTHAND ∧ validName entry.1 = true) ∧ entry.2.value.Valid
  bots : ∀ bot ∈ raw.bots, bot.Valid raw
  botNames : (raw.bots.map (·.name.value)).Nodup
  /-- No two bots reach a consumer that serves one. -/
  owned : raw.bots.Pairwise fun bot other =>
    ∀ c, bot.Reaches raw.consumers c → other.Reaches raw.consumers c → ¬Exclusive raw.consumers c

/-- No error is found exactly in what is valid. -/
theorem clean_validate {raw : RawConfig IpNet} : (validate raw).Clean ↔ raw.Valid := by
  have listens : (Reports.each (fun i (listen : At SocketAddr) => .when (¬isLoopback listen.value.ip)
      (Diagnostics.error (entry (utf8 "admin.listen") i) listen.location
        (utf8 "the admin API listens on " ++ listen.value.display ++
          utf8 ", which is not a loopback address, so `admin.token` is required"))) 0 raw.admin.listen).Clean ↔
      ∀ listen ∈ raw.admin.listen, isLoopback listen.value.ip = true :=
    Reports.clean_each_mem fun i listen => by simp
  simp only [validate, Reports.clean_append, Reports.clean_when, Reports.clean_given, Diagnostics.not_clean_error, imp_false, not_not, ne_eq,
    clean_duration, clean_positive, clean_atLeast, clean_atLeastOne, listens, clean_consumers, clean_upstreams, clean_bots,
    Option.isNone_iff_eq_none]
  constructor
  · rintro ⟨⟨⟨⟨⟨⟨⟨⟨⟨⟨version, lameDuck⟩, grace⟩, served⟩, admin⟩, debounce⟩, least⟩, drain⟩, consumers⟩, upstreams⟩, bots, names, -, -, owned⟩
    exact {
      version, admin, consumers, upstreams, bots, owned
      runtime := ⟨lameDuck, grace⟩
      server := fun server mem => ⟨(served server mem).1.1, (served server mem).1.2, (served server mem).2⟩
      reload := ⟨debounce, least, drain⟩
      botNames := names }
  · intro h
    refine ⟨⟨⟨⟨⟨⟨⟨⟨⟨⟨h.version, h.runtime.1⟩, h.runtime.2⟩, fun server mem => ?_⟩, h.admin⟩, h.reload.1⟩, h.reload.2.1⟩, h.reload.2.2⟩,
      h.consumers⟩, h.upstreams⟩, h.bots, h.botNames, fun _ _ => List.not_mem_nil, fun _ _ _ _ _ _ eq => ?_, h.owned⟩
    · obtain ⟨connections, plain, pos⟩ := h.server server mem
      exact ⟨⟨connections, plain⟩, pos⟩
    · cases eq

end Tgin.Config.Raw
