import Tgin.Admission.Routes
import Tgin.Config.Load
import Tgin.Rules.Route

/-! What the engine gets from a file that loads: a configuration as it relies on, and rules that mean what the file's routes mean, which
    go by names. -/

namespace Tgin.Config
open Checked Check Raw Rules
open Rules.TargetSpec (reachesAny_iff)
open Gateway (Urls)
open Gateway.GatewayPath (standardUrls)

variable {u : Urls} {m : Matchers} {IpNet : Type} {w : World u}

/-! ### Numbers for names -/

namespace Raw.IndexMap
variable {α : Type} {map : IndexMap α}

theorem getIndexOf_eq_some {name : Str} {n : Nat} : map.getIndexOf name = some n ↔ ∃ value, map.entries[n]? = some (name, value) := by
  unfold getIndexOf
  rw [List.findIdx?_eq_some_iff_getElem]
  constructor
  · rintro ⟨inside, at', -⟩
    obtain rfl := of_decide_eq_true at'
    exact ⟨_, List.getElem?_eq_getElem inside⟩
  · rintro ⟨value, at'⟩
    obtain ⟨inside, eq⟩ := List.getElem?_eq_some_iff.mp at'
    refine ⟨inside, by simp [eq], fun j before same => ?_⟩
    -- A key is there once.
    have inside' : n < (map.entries.map (·.1)).length := by simpa using inside
    have earlier : j < (map.entries.map (·.1)).length := before.trans inside'
    have first : (map.entries.map (·.1))[j] = (map.entries.map (·.1))[n] := by
      simp only [List.getElem_map, eq]
      exact of_decide_eq_true same
    exact Nat.ne_of_lt before ((map.keys.getElem_inj_iff).mp first)

theorem getIndexOf_lt {name : Str} {n : Nat} (h : map.getIndexOf name = some n) : n < map.entries.length := by
  obtain ⟨value, at'⟩ := getIndexOf_eq_some.mp h
  exact (List.getElem?_eq_some_iff.mp at').1

end Raw.IndexMap

/-- The number that stands for a name. -/
def idOf (consumers : IndexMap (At Raw.Consumer)) (name : Str) : ConsumerId :=
  match consumers.getIndexOf name with
  | some index => if index < 2 ^ 16 then .ofNat index else PLACEHOLDER
  | none => PLACEHOLDER

section
variable {consumers : IndexMap (At Raw.Consumer)}

theorem targetSpecs_eq (l : List (At Target)) : targetSpecs consumers l = l.map fun target => targetSpec consumers target.value := by
  induction l with
  | nil => rw [targetSpecs, List.map_nil]
  | cons target l ih => rw [targetSpecs, ih, List.map_cons]

theorem targetSpec_consumer (name : Str) : targetSpec consumers (.consumer name) = .consumer (idOf consumers name) := by
  rw [targetSpec, idOf]
  cases consumers.getIndexOf name <;> rfl

theorem idOf_toNat {name : Str} {n : Nat} (few : consumers.entries.length ≤ 2 ^ 16) (h : consumers.getIndexOf name = some n) :
    (idOf consumers name).toNat = n := by
  have small : n < 2 ^ 16 := Nat.lt_of_lt_of_le (IndexMap.getIndexOf_lt h) few
  rw [idOf, h]
  dsimp only
  rw [if_pos small, UInt16.toNat_ofNat', Nat.mod_eq_of_lt small]

theorem Raw.Target.Valid.all {children : List (At Target)} (h : (Target.all children).Valid consumers) :
    ∀ c ∈ children, c.value.Valid consumers := by
  obtain ⟨known, weights⟩ := h
  cases weights with
  | all weights => exact fun c mem => ⟨fun name names => known name (.all mem names), weights c mem⟩

theorem Raw.Target.Valid.split {strategy : At SplitStrategy} {among : List (At Target)} {weights : Option (At (List (At UInt32)))}
    (h : (Target.split strategy among weights).Valid consumers) :
    Weighted strategy.value among.length weights ∧ ∀ c ∈ among, c.value.Valid consumers := by
  obtain ⟨known, weights⟩ := h
  cases weights with
  | split own weights => exact ⟨own, fun c mem => ⟨fun name names => known name (.split mem names), weights c mem⟩⟩

/-- A rule's target reaches the consumers that it mentions. -/
theorem reaches_targetSpec (few : consumers.entries.length ≤ 2 ^ 16) {id : ConsumerId} (target : Target) (valid : target.Valid consumers) :
    reaches id (targetSpec consumers target) = true ↔ target.Reaches consumers id.toNat := by
  have below {l : List (At Target)} (ih : ∀ c ∈ l, c.value.Valid consumers →
      (reaches id (targetSpec consumers c.value) = true ↔ c.value.Reaches consumers id.toNat)) (valid : ∀ c ∈ l, c.value.Valid consumers) :
      reachesAny id (targetSpecs consumers l) = true ↔ ∃ c ∈ l, c.value.Reaches consumers id.toNat := by
    rw [targetSpecs_eq, reachesAny_iff]
    simp only [List.mem_map, exists_exists_and_eq_and]
    exact exists_congr fun c => and_congr_right fun mem => ih c mem (valid c mem)
  induction target using Target.induction with
  | consumer name =>
    obtain ⟨n, at'⟩ := Option.isSome_iff_exists.mp (valid.known name (.consumer name))
    rw [targetSpec_consumer, reaches, decide_eq_true_eq]
    constructor
    · rintro rfl
      exact ⟨name, .consumer name, by rw [idOf_toNat few at', at']⟩
    · rintro ⟨_, ⟨⟩, at''⟩
      exact UInt16.toNat_inj.mp (idOf_toNat few at'')
  | all children ih =>
    rw [targetSpec, reaches, below ih valid.all]
    simp only [Target.Reaches, Target.names_all]
    grind
  | split strategy among weights ih =>
    rw [targetSpec, reaches, below ih valid.split.2]
    simp only [Target.Reaches, Target.names_split]
    grind

end

/-! ### The consumers of a loaded file -/

section
variable {raw : RawConfig IpNet} {config : Loaded u IpNet}

/-- Whether only one bot may target the consumer. -/
def Loaded.ConsumerKind.servesOneBot : Loaded.ConsumerKind u → Bool
  | .pull _ => true
  | .push p => p.acceptSetWebhook

/-- A consumer's place in the file is its number. -/
structure ConsumerAt (raw : RawConfig IpNet) (n : Nat) (consumer : Loaded.Consumer u) : Prop where
  small : n < 2 ^ 16
  id : consumer.id = .ofNat n
  written : ∃ value, raw.consumers.entries[n]? = some (consumer.name, value) ∧
    (servesOneBot value.value).isSome = consumer.kind.servesOneBot

theorem consumerOf_at {e : Found} {n : Nat} {named : Str × At Raw.Consumer} {consumer : Loaded.Consumer u} (h : ConsumerOf w n named consumer e)
    (at' : raw.consumers.entries[n]? = some named) : ConsumerAt raw n consumer := by
  obtain ⟨small, kind, given, rfl⟩ := h
  obtain ⟨name, value, location⟩ := named
  refine ⟨small, rfl, _, at', ?_⟩
  cases value with
  | pull p =>
    obtain ⟨pull, -, rfl⟩ := given
    rfl
  | push p =>
    obtain ⟨push, ⟨endpoints, -, rfl⟩, rfl⟩ := given
    cases eq : p.acceptSetWebhook <;> simp [servesOneBot, Loaded.ConsumerKind.servesOneBot, pushWith, eq]

namespace Loads
variable (h : Loads m w raw config)
include h

theorem consumers_length : config.consumers.length = raw.consumers.entries.length := by
  obtain ⟨e, consumers, e₁, upstreams, bots, e₂, server, token, e₃, each, -, -, -, -, rfl, rfl⟩ := h.resolves
  exact each.length

theorem consumer_at {n : Nat} {consumer : Loaded.Consumer u} (at' : config.consumers[n]? = some consumer) : ConsumerAt raw n consumer := by
  obtain ⟨e, consumers, e₁, upstreams, bots, e₂, server, token, e₃, each, -, -, -, -, rfl, rfl⟩ := h.resolves
  obtain ⟨named, e', there, given⟩ := each.exists_get at'
  rw [Nat.zero_add] at given
  exact consumerOf_at given there

theorem few : raw.consumers.entries.length ≤ 2 ^ 16 := by
  by_contra many
  have inside : 2 ^ 16 < config.consumers.length := by
    rw [h.consumers_length]
    omega
  exact Nat.lt_irrefl _ (h.consumer_at (List.getElem?_eq_getElem inside)).small

theorem consumer_names : config.consumers.map (·.name) = raw.consumers.entries.map (·.1) := by
  refine List.ext_getElem? fun n => ?_
  rw [List.getElem?_map, List.getElem?_map]
  cases at' : config.consumers[n]? with
  | none =>
    rw [List.getElem?_eq_none_iff, h.consumers_length] at at'
    rw [List.getElem?_eq_none at']
    rfl
  | some consumer =>
    obtain ⟨value, there, -⟩ := (h.consumer_at at').written
    rw [there]
    rfl

theorem consumer_ids : config.consumers.map (·.id.toNat) = List.range config.consumers.length := by
  refine List.ext_getElem (by simp) fun n inside _ => ?_
  rw [List.length_map] at inside
  obtain ⟨small, id, -⟩ := h.consumer_at (List.getElem?_eq_getElem inside)
  rw [List.getElem_map, List.getElem_range, id, UInt16.toNat_ofNat', Nat.mod_eq_of_lt small]

/-! ### Its bots -/

theorem bots_each : ∃ upstreams e, Each (BotOf m w raw upstreams) 0 raw.bots config.bots e := by
  obtain ⟨e, consumers, e₁, upstreams, bots, e₂, server, token, e₃, -, -, each, -, -, rfl, rfl⟩ := h.resolves
  exact ⟨upstreams, e₂, each⟩

theorem bots_length : config.bots.length = raw.bots.length := by
  obtain ⟨upstreams, e, each⟩ := h.bots_each
  exact each.length

theorem bot_at {n : Nat} {bot : Loaded.Bot u IpNet} (at' : config.bots[n]? = some bot) :
    ∃ written, raw.bots[n]? = some written ∧ bot.name = written.name.value ∧ bot.rules = specs raw written := by
  obtain ⟨upstreams, e, each⟩ := h.bots_each
  obtain ⟨written, e', there, given⟩ := each.exists_get at'
  obtain ⟨-, token, upstream, ingress, e₁, -, -, -, -, rfl, -⟩ := given
  exact ⟨written, there, rfl, rfl⟩

theorem bot_names : config.bots.map (·.name) = raw.bots.map (·.name.value) := by
  refine List.ext_getElem? fun n => ?_
  rw [List.getElem?_map, List.getElem?_map]
  cases at' : config.bots[n]? with
  | none =>
    rw [List.getElem?_eq_none_iff, h.bots_length] at at'
    rw [List.getElem?_eq_none at']
    rfl
  | some bot =>
    obtain ⟨written, there, name, -⟩ := h.bot_at at'
    rw [there, Option.map_some, Option.map_some, name]

end Loads

end

/-! ### What the engine is given -/

namespace Loaded

def Pull.forEngine (pull : Pull) : Config.Pull where
  queue := pull.queue
  honorDropPending := pull.honorDropPending

/-- `text` is the serialization of a URL. -/
def Push.forEngine (text : u.Url → Str) (push : Push u) : Config.Push where
  endpoints := push.endpoints.map fun ep => { url := text ep.url, secretToken := ep.secretToken, timeout := ep.timeout }
  balance := push.balance
  maxInFlight := push.maxInFlight
  ordering := push.ordering
  capacity := push.capacity
  capacityBytes := push.capacityBytes
  onFull := push.onFull
  retry := push.retry
  breaker := push.breaker
  acceptSetWebhook := push.acceptSetWebhook
  webhookReply := push.webhookReply
  honorDropPending := push.honorDropPending

def ConsumerKind.forEngine (text : u.Url → Str) : ConsumerKind u → Config.ConsumerKind
  | .pull p => .pull p.forEngine
  | .push p => .push (p.forEngine text)

def Consumer.forEngine (text : u.Url → Str) (consumer : Consumer u) : Config.Consumer where
  id := consumer.id
  name := consumer.name
  kind := consumer.kind.forEngine text

def Bot.forEngine (bot : Bot u IpNet) : Config.Bot where
  name := bot.name
  token := bot.token
  rules := bot.rules

theorem servesOneBot_forEngine {text : u.Url → Str} {kind : ConsumerKind u} : (kind.forEngine text).servesOneBot = kind.servesOneBot := by
  cases kind <;> rfl

end Loaded

section
variable {raw : RawConfig IpNet} {config : Loaded u IpNet}

theorem any_specs_reach (few : raw.consumers.entries.length ≤ 2 ^ 16) {written : Raw.Bot IpNet} (valid : written.Valid raw) {id : ConsumerId} :
    ((specs raw written).any fun rule => rule.targets.any (reaches id)) = true ↔ written.Reaches raw.consumers id.toNat := by
  simp only [specs, ruleSpec, targetSpecs_eq, List.any_eq_true, List.mem_map, exists_exists_and_eq_and, Raw.Bot.Reaches]
  refine exists_congr fun route => and_congr_right fun mem => exists_congr fun target => and_congr_right fun mem' => ?_
  exact reaches_targetSpec few target.value ((valid.routes route mem).targets target mem')

namespace Loads
variable (h : Loads m w raw config)
include h

theorem botTargets_iff {n : Nat} {bot : Loaded.Bot u IpNet} (at' : config.bots[n]? = some bot) :
    ∃ written ∈ raw.bots, bot.name = written.name.value ∧
      ∀ id, botTargets bot.forEngine id = true ↔ written.Reaches raw.consumers id.toNat := by
  obtain ⟨written, there, name, rules⟩ := h.bot_at at'
  have mem := List.mem_of_getElem? there
  refine ⟨written, mem, name, fun id => ?_⟩
  rw [← any_specs_reach h.few (h.valid.bots written mem), ← rules]
  rfl

/-- A consumer that serves one bot is targeted by one. -/
theorem owned {consumer : Loaded.Consumer u} (mem : consumer ∈ config.consumers) (own : consumer.kind.servesOneBot = true)
    {bot other : Loaded.Bot u IpNet} (memBot : bot ∈ config.bots) (memOther : other ∈ config.bots)
    (targets : botTargets bot.forEngine consumer.id = true) (targets' : botTargets other.forEngine consumer.id = true) :
    bot.name = other.name := by
  obtain ⟨n, at'⟩ := List.mem_iff_getElem?.mp mem
  obtain ⟨small, id, value, there, exclusive⟩ := h.consumer_at at'
  have number : consumer.id.toNat = n := by rw [id, UInt16.toNat_ofNat', Nat.mod_eq_of_lt small]
  obtain ⟨i, ati⟩ := List.mem_iff_getElem?.mp memBot
  obtain ⟨j, atj⟩ := List.mem_iff_getElem?.mp memOther
  obtain ⟨written, memW, name, reach⟩ := h.botTargets_iff ati
  obtain ⟨written', memW', name', reach'⟩ := h.botTargets_iff atj
  rw [name, name']
  by_contra ne
  have apart : Std.Symm fun bot other : Raw.Bot IpNet =>
      ∀ c, bot.Reaches raw.consumers c → other.Reaches raw.consumers c → ¬Exclusive raw.consumers c :=
    ⟨fun _ _ apart c reaches reaches' => apart c reaches' reaches⟩
  refine h.valid.owned.forall memW memW' (fun same => ne (same ▸ rfl)) n (number ▸ (reach _).mp targets) (number ▸ (reach' _).mp targets') ?_
  exact ⟨_, there, exclusive.trans own⟩

/-- What the engine relies on of a configuration is so of every file that loads. -/
def forEngine (text : u.Url → Str) : Tgin.Config where
  bots := config.bots.map (·.forEngine)
  consumers := config.consumers.map (·.forEngine text)
  botNames := by
    rw [List.map_map]
    have := h.valid.botNames
    rwa [← h.bot_names] at this
  tokens := by
    rw [List.map_map]
    exact h.tokens
  consumerNames := by
    rw [List.map_map]
    have := raw.consumers.keys
    rwa [← h.consumer_names] at this
  ids := by
    rw [List.map_map, List.length_map]
    exact h.consumer_ids
  owned := by
    intro _ given own _ givenBot _ givenOther targets targets'
    obtain ⟨consumer, mem, rfl⟩ := List.mem_map.mp given
    obtain ⟨bot, memBot, rfl⟩ := List.mem_map.mp givenBot
    obtain ⟨other, memOther, rfl⟩ := List.mem_map.mp givenOther
    rw [show (consumer.forEngine text).kind = consumer.kind.forEngine text from rfl, Loaded.servesOneBot_forEngine] at own
    exact h.owned mem own memBot memOther targets targets'

end Loads

/-- A file that loads gives the engine a configuration as it relies on, with every bot and consumer of the file, in its order. -/
theorem load_forEngine {ruleMessage : RuleError m → Str} {out : Accepted u IpNet} (loaded : load w ruleMessage raw = .ok out)
    (text : u.Url → Str) : ∃ cfg : Tgin.Config, cfg.bots = out.config.bots.map (·.forEngine) ∧
      cfg.consumers = out.config.consumers.map (·.forEngine text) ∧ cfg.bots.map (·.name) = raw.bots.map (·.name.value) ∧
      cfg.consumers.map (·.name) = raw.consumers.entries.map (·.1) := by
  have h := (loads_of_ok loaded).1
  refine ⟨h.forEngine text, rfl, rfl, ?_, ?_⟩
  · rw [← h.bot_names]
    exact List.map_map ..
  · rw [← h.consumer_names]
    exact List.map_map ..

end

/-! ### Two bots -/

/-- `http` and `https` URLs of a host and a path. -/
def parseHttp (text : Str) : Except Str standardUrls.Url :=
  let parts (scheme rest : Str) : standardUrls.Url :=
    { scheme, host := rest.takeWhile (· ≠ slash), text := rest.dropWhile (· ≠ slash), query := none, fragment := none }
  match Split.strip (utf8 "https://") text, Split.strip (utf8 "http://") text with
  | some rest, _ => .ok (parts HTTPS rest)
  | _, some rest => .ok (parts HTTP rest)
  | _, _ => .error (utf8 "relative URL without a base")

/-- `T` is `2:b`. -/
def hereWorld : World standardUrls where
  env := { var := fun name => if name = utf8 "T" then some (utf8 "2:b") else none, readFile := fun _ => .error (utf8 "not found") }
  baseDir := [slash]
  absolute := .ok
  parseUrl := parseHttp
  port url := if url.scheme = HTTPS then some 443 else some 80
  hostIp _ := none

def oneSecond : At HumanDuration := .new (limit (secs 1) "1s")

def oneEach : Raw.Rate := { count := .new 1, per := oneSecond, burst := .new 1 }

def namedBot (name token : String) (routes : List Route) : Raw.Bot Unit where
  name := .new (utf8 name)
  token := .new (utf8 token)
  apiUrl := none
  upstream := none
  allowLocalFiles := false
  ingress := none
  gateway := {
    upstreamIdleTimeout := oneSecond
    rateLimit := { mode := .off, maxDelay := oneSecond, methods := .new [], global := oneEach, perChat := oneEach, perGroup := oneEach }
    retry429 := { maxWait := oneSecond } }
  routes := routes.map .new

def hooks : Raw.Push where
  endpoints := .new []
  balance := .roundRobin
  maxInFlight := .new 1
  ordering := .perKey
  capacity := .new 1
  capacityBytes := .new (2 ^ 20)
  onFull := .backpressure
  retry := { initial := oneSecond, max := oneSecond, maxAttempts := .new 1, maxAge := oneSecond }
  breaker := { failureThreshold := .new 1, openFor := oneSecond }
  acceptSetWebhook := true
  webhookReply := .ignore
  honorDropPending := false

def jobs : Raw.Pull where
  capacity := .new 1
  capacityBytes := .new (2 ^ 20)
  onFull := .backpressure
  leaseTimeout := oneSecond
  ordering := .perKey
  authToken := none
  aliases := [.new (utf8 "/jobs"), .new (utf8 "/bot1%3Aa/jobs")]
  honorDropPending := false

/-- Bot `a` splits its updates between `hooks` and `jobs`, twice as many to `jobs`; bot `b` has neither. -/
def twoBots : RawConfig Unit where
  version := .new 1
  runtime := { workerThreads := .auto, lameDuck := oneSecond, shutdownGrace := oneSecond }
  log := { level := .info, format := .text }
  server := some {
    listen := [], tls := none, trustedProxies := [], maxConnections := .new 1, headerReadTimeout := oneSecond }
  admin := { listen := [], token := none, publicMetrics := false }
  reload := { watch := false, debounce := oneSecond, drainTimeout := oneSecond }
  upstreams := { entries := [], keys := List.nodup_nil }
  bots := [
    namedBot "a" "1:a" [{
      match' := none
      to' := [.new (.split (.new .weighted) [.new (.consumer (utf8 "hooks")), .new (.consumer (utf8 "jobs"))] (some (.new [.new 1, .new 2])))] }],
    namedBot "b" "$\x7benv:T\x7d" []]
  consumers := { entries := [(utf8 "hooks", .new (.push hooks)), (utf8 "jobs", .new (.pull jobs))], keys := by decide }

theorem twoBots_loads : ∃ out, load hereWorld (fun _ : RuleError literal => []) twoBots = .ok out := by
  have accepted : (load hereWorld (fun _ : RuleError literal => []) twoBots).toBool = true := by decide +kernel
  cases eq : load hereWorld (fun _ : RuleError literal => []) twoBots with
  | ok out => exact ⟨out, rfl⟩
  | error found =>
    rw [eq] at accepted
    cases accepted

theorem load_forEngine_twoBots : ∃ cfg : Tgin.Config, cfg.bots.map (·.name) = [utf8 "a", utf8 "b"] ∧
    cfg.consumers.map (·.name) = [utf8 "hooks", utf8 "jobs"] := by
  obtain ⟨out, loaded⟩ := twoBots_loads
  obtain ⟨cfg, -, -, bots, consumers⟩ := load_forEngine loaded fun _ => []
  exact ⟨cfg, bots, consumers⟩

/-! ### Its paths -/

/-- A file that loads takes no path of the gateway's, but for one with the token percent-encoded. -/
theorem load_paths {raw : RawConfig IpNet} {ruleMessage : RuleError m → Str} {out : Accepted u IpNet}
    (loaded : load w ruleMessage raw = .ok out) : out.config.paths.Nodup ∧ ∀ path ∈ out.config.paths, Gateway.GatewayPath.parse path = none ∨
      ∃ lead segment rest, path = slash :: (lead ++ (Gateway.GatewayPath.BOT ++ segment ++ slash :: rest)) ∧
        (lead = [] ∨ lead = Gateway.GatewayPath.FILE) ∧ slash ∉ segment ∧ (37 : UInt8) ∈ segment := by
  have h := (loads_of_ok loaded).1
  refine ⟨h.paths, fun path mem => ?_⟩
  cases parsed : Gateway.GatewayPath.parse path with
  | none => exact .inl rfl
  | some served => exact .inr ((h.routable path mem).shadows parsed)

theorem load_paths_twoBots : ∃ out, load hereWorld (fun _ : RuleError literal => []) twoBots = .ok out ∧ out.config.paths.Nodup := by
  obtain ⟨out, loaded⟩ := twoBots_loads
  exact ⟨out, loaded, (load_paths loaded).1⟩

end Tgin.Config
