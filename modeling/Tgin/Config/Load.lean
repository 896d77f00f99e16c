import Tgin.Config
import Tgin.Config.Resolves

/-! Which configurations load, and what a loaded one is: it needs no word of how it was read. -/

namespace Tgin.Config
open Checked Check Raw Rules
open Gateway (Urls)

variable {u : Urls} {m : Matchers} {IpNet : Type} {w : World u}

/-! ### What a configuration holds -/

namespace Loaded

def ConsumerKind.secrets : ConsumerKind u → List Str
  | .pull p => p.authToken.toList
  | .push p => p.endpoints.flatMap (·.secretToken.toList)

def ConsumerKind.paths : ConsumerKind u → List Str
  | .pull p => p.aliases
  | .push _ => []

def WebhookSecret.secrets : WebhookSecret → List Str
  | .token secret => [secret]
  | _ => []

def Ingress.secrets : Ingress u IpNet → List Str
  | .longPoll _ => []
  | .webhook hook => hook.secretToken.secrets

def Ingress.paths : Ingress u IpNet → List Str
  | .longPoll _ => []
  | .webhook hook => [hook.path]

def Bot.secrets (bot : Bot u IpNet) : List Str := bot.token :: bot.ingress.toList.flatMap (·.secrets)

def Bot.paths (bot : Bot u IpNet) : List Str := bot.ingress.toList.flatMap (·.paths)

end Loaded

namespace Loaded
variable (config : Loaded u IpNet)

/-- Every secret, in the order of the file. -/
def secrets : List Str := config.consumers.flatMap (·.kind.secrets) ++ (config.bots.flatMap (·.secrets) ++ config.admin.token.toList)

/-- Every HTTP path that is served. -/
def paths : List Str := config.consumers.flatMap (·.kind.paths) ++ config.bots.flatMap (·.paths)

def tokens : List Str := config.bots.map (·.token)

end Loaded

/-! ### What is found is what is held -/

/-- What was found of a value that holds so much. -/
structure Holds (e : Found) (secrets paths tokens : List Str) : Prop where
  secrets : e.secrets = secrets
  paths : e.paths.map (·.1) = paths
  tokens : e.tokens.map (·.1) = tokens

namespace Holds
variable {e e' : Found} {s s' p p' t t' : List Str}

theorem one : Holds 1 [] [] [] := ⟨rfl, rfl, rfl⟩

theorem mul (h : Holds e s p t) (h' : Holds e' s' p' t') : Holds (e * e') (s ++ s') (p ++ p') (t ++ t') where
  secrets := by rw [Found.secrets_mul, h.secrets, h'.secrets]
  paths := by rw [Found.paths_mul, List.map_append, h.paths, h'.paths]
  tokens := by rw [Found.tokens_mul, List.map_append, h.tokens, h'.tokens]

theorem secret (v : Str) : Holds (oneSecret v) [v] [] [] := ⟨rfl, rfl, rfl⟩

theorem path (http yaml : Str) : Holds (onePath http yaml) [] [http] [] := ⟨rfl, rfl, rfl⟩

theorem token (v : Str) (n : Nat) : Holds (oneToken v n) [] [] [v] := ⟨rfl, rfl, rfl⟩

theorem each {α β : Type} {G : Nat → α → β → Found → Prop} {f g k : β → List Str} (step : ∀ i a b e, G i a b e → Holds e (f b) (g b) (k b))
    {i : Nat} {l : List α} {bs : List β} (h : Each G i l bs e) : Holds e (bs.flatMap f) (bs.flatMap g) (bs.flatMap k) where
  secrets := h.flatMap Found.secrets rfl (fun _ _ => rfl) fun i a b e given => (step i a b e given).secrets
  paths := h.flatMap (fun e => e.paths.map (·.1)) rfl (fun _ _ => List.map_append) fun i a b e given => (step i a b e given).paths
  tokens := h.flatMap (fun e => e.tokens.map (·.1)) rfl (fun _ _ => List.map_append) fun i a b e given => (step i a b e given).tokens

/-- A secret that may be absent. -/
theorem optionalSecret {α : Type} {P : α → Str → Prop} {o : Option α} {v : Option Str}
    (h : Optional (fun a v e => P a v ∧ e = oneSecret v) o v e) : Holds e v.toList [] [] := by
  cases h with
  | none => exact one
  | some given => exact given.2 ▸ secret _

end Holds

section
variable {e : Found}

theorem flatMap_nothing {α β : Type} (l : List α) : (l.flatMap fun _ => ([] : List β)) = [] :=
  List.flatMap_eq_nil_iff.mpr fun _ _ => rfl

theorem holds_endpoint {raw : Raw.Endpoint} {ep : Loaded.Endpoint u} (h : EndpointOf w raw ep e) : Holds e ep.secretToken.toList [] [] := by
  obtain ⟨url, token, -, secret, rfl⟩ := h
  exact .optionalSecret secret

theorem holds_kind {path : Str} {raw : Raw.Consumer} {kind : Loaded.ConsumerKind u} (h : KindOf w path raw kind e) :
    Holds e kind.secrets kind.paths [] := by
  cases raw with
  | pull raw =>
    obtain ⟨pull, ⟨token, e₁, aliases, e₂, secret, each, rfl, rfl⟩, rfl⟩ := h
    have served : Holds e₂ (aliases.flatMap fun _ => []) (aliases.flatMap fun http => [http]) (aliases.flatMap fun _ => []) :=
      .each (fun i text v e given => given.2 ▸ .path ..) each
    have := (Holds.optionalSecret secret).mul served
    simpa [Loaded.ConsumerKind.secrets, Loaded.ConsumerKind.paths, pullWith, flatMap_nothing] using this
  | push raw =>
    obtain ⟨push, ⟨endpoints, each, rfl⟩, rfl⟩ := h
    have := Holds.each (f := fun ep : Loaded.Endpoint u => ep.secretToken.toList) (g := fun _ => []) (k := fun _ => [])
      (fun _ _ _ _ given => holds_endpoint given) each
    simpa [Loaded.ConsumerKind.secrets, Loaded.ConsumerKind.paths, pushWith, flatMap_nothing] using this

theorem holds_consumer {i : Nat} {named : Str × At Raw.Consumer} {consumer : Loaded.Consumer u} (h : ConsumerOf w i named consumer e) :
    Holds e consumer.kind.secrets consumer.kind.paths [] := by
  obtain ⟨-, kind, given, rfl⟩ := h
  exact holds_kind given

theorem holds_hookSecret {raw : Raw.WebhookSecret} {secret : Loaded.WebhookSecret} (h : HookSecretOf w raw secret e) :
    Holds e secret.secrets [] [] := by
  cases raw with
  | auto =>
    obtain ⟨rfl, rfl⟩ := h
    exact .one
  | none =>
    obtain ⟨rfl, rfl⟩ := h
    exact .one
  | secret text =>
    obtain ⟨v, -, rfl, rfl⟩ := h
    exact .secret v

theorem holds_ingress {path name : Str} {rules : WebhookRules} {raw : At (Raw.Ingress IpNet)} {ingress : Loaded.Ingress u IpNet}
    (h : IngressOf w path name rules raw ingress e) : Holds e ingress.secrets ingress.paths [] := by
  obtain ⟨value, location⟩ := raw
  cases value with
  | longPoll poll =>
    obtain ⟨rfl, rfl⟩ := h
    exact .one
  | webhook hook =>
    obtain ⟨_, ⟨route, url, secret, e₁, certificate, -, -, given, -, rfl, rfl⟩, rfl⟩ := h
    exact (Holds.path route _).mul (holds_hookSecret given)

theorem holds_bot {raw : RawConfig IpNet} {upstreams : List (Gateway.Upstream u)} {i : Nat} {bot : Raw.Bot IpNet} {loaded : Loaded.Bot u IpNet}
    (h : BotOf m w raw upstreams i bot loaded e) : Holds e loaded.secrets loaded.paths [loaded.token] := by
  obtain ⟨-, token, upstream, ingress, e₁, -, -, hook, -, rfl, rfl⟩ := h
  have hooked : Holds e₁ (ingress.toList.flatMap (·.secrets)) (ingress.toList.flatMap (·.paths)) [] := by
    generalize bot.ingress = written at hook
    cases hook with
    | none => exact .one
    | some given => simpa using holds_ingress given
  exact ((Holds.secret token).mul (.token token i)).mul hooked

theorem LoadedOf.holds {raw : RawConfig IpNet} {config : Loaded u IpNet} (h : LoadedOf m w raw config e) :
    Holds e config.secrets config.paths config.tokens := by
  obtain ⟨consumers, e₁, upstreams, bots, e₂, server, token, e₃, first, -, second, -, third, rfl, rfl⟩ := h
  have := (Holds.each (k := fun _ => []) (fun _ _ _ _ given => holds_consumer given) first).mul
    ((Holds.each (fun _ _ _ _ given => holds_bot given) second).mul (.optionalSecret third))
  simpa only [Loaded.secrets, Loaded.paths, Loaded.tokens, loadedWith, flatMap_nothing, ← List.map_eq_flatMap, List.nil_append,
    List.append_nil] using this

end

/-! ### Loading -/

variable (m w) in
/-- What the file loads as: each section of a valid file resolves, no two bots have one token, no HTTP path is served twice or for something
    else, and the rules of all bots compile together. -/
structure Loads (raw : RawConfig IpNet) (config : Loaded u IpNet) : Prop where
  valid : raw.Valid
  resolves : ∃ e, LoadedOf m w raw config e
  routable : ∀ path ∈ config.paths, Routable w path
  paths : config.paths.Nodup
  tokens : config.tokens.Nodup
  compiles : ∃ table : RouteTable m, RouteTable.compile 0 (sources config.bots) [] = .ok table

section
variable {raw : RawConfig IpNet} {config : Loaded u IpNet} {ruleMessage : RuleError m → Str}

theorem clean_compileAll {bots : List (Loaded.Bot u IpNet)} :
    (compileAll ruleMessage raw bots).Clean ↔ ∃ table : RouteTable m, RouteTable.compile 0 (sources bots) [] = .ok table := by
  unfold compileAll
  cases (RouteTable.compile 0 (sources bots) [] : Except (RuleError m) (RouteTable m)) with
  | ok table => simp
  | error err => cases err <;> simp

/-- Nothing is read before a file. -/
theorem admits_first {e : Found} (h : Holds e config.secrets config.paths config.tokens) :
    (guard w).Admits 1 e ↔ (∀ path ∈ config.paths, Routable w path) ∧ config.paths.Nodup ∧ config.tokens.Nodup := by
  rw [← h.paths, ← h.tokens, List.forall_mem_map]
  simp [guard, Fresh]

theorem clean_check : (check w ruleMessage raw).2.2.Clean ↔ (validate raw).Clean ∧ (resolved w ruleMessage raw 1).reports.Clean ∧
    (compileAll ruleMessage raw (resolved w ruleMessage raw 1).value.bots).Clean := by
  unfold check
  dsimp only
  by_cases found : (validate raw ++ (resolved w ruleMessage raw 1).reports).errors.isEmpty
  · rw [if_pos found, Reports.clean_append, Reports.clean_append, and_assoc]
  · rw [if_neg found, ← and_assoc, ← Reports.clean_append]
    have dirty : ¬(validate raw ++ (resolved w ruleMessage raw 1).reports).Clean := fun clean => found (List.isEmpty_iff.mpr clean)
    exact iff_of_false dirty fun h => dirty h.1

theorem load_eq_ok {out : Accepted u IpNet} : load w ruleMessage raw = .ok out ↔ (check w ruleMessage raw).2.2.Clean ∧
    out = { config := (check w ruleMessage raw).1, masker := (check w ruleMessage raw).2.1, warnings := (check w ruleMessage raw).2.2.warnings } := by
  unfold load Reports.Clean
  rw [← List.isEmpty_iff]
  dsimp only
  split
  · rename_i clean
    rw [Except.ok.injEq, and_iff_right clean]
    exact eq_comm
  · rename_i found
    exact iff_of_false (by simp) fun h => found h.1

theorem loads_of_ok {out : Accepted u IpNet} (h : load w ruleMessage raw = .ok out) :
    Loads m w raw out.config ∧ out.masker = out.config.secrets := by
  obtain ⟨clean, rfl⟩ := load_eq_ok.mp h
  obtain ⟨valid, resolves, compiles⟩ := clean_check.mp clean
  have valid := clean_validate.mp valid
  obtain ⟨e, given, admits, state⟩ := (resolved_means ruleMessage valid 1 _ _).mp ⟨resolves, rfl, rfl⟩
  obtain ⟨routable, paths, tokens⟩ := (admits_first given.holds).mp admits
  rw [one_mul] at state
  exact ⟨{ valid, resolves := ⟨e, given⟩, routable, paths, tokens, compiles := clean_compileAll.mp compiles },
    (congrArg Found.secrets state).trans given.holds.secrets⟩

/-- A file loads exactly as what its sections resolve to, if it is valid and they do; what it is shown without are its secrets. -/
theorem load_accepts {masker : List Str} : (∃ warnings, load w ruleMessage raw = .ok { config, masker, warnings }) ↔
    Loads m w raw config ∧ masker = config.secrets := by
  constructor
  · rintro ⟨warnings, h⟩
    exact loads_of_ok h
  · rintro ⟨h, rfl⟩
    obtain ⟨e, given⟩ := h.resolves
    have admits := (admits_first given.holds).mpr ⟨h.routable, h.paths, h.tokens⟩
    obtain ⟨clean, value, state⟩ := (resolved_means ruleMessage h.valid 1 config e).mpr ⟨e, given, admits, (one_mul e).symm⟩
    refine ⟨(check w ruleMessage raw).2.2.warnings, load_eq_ok.mpr ⟨clean_check.mpr ⟨clean_validate.mpr h.valid, clean, ?_⟩, ?_⟩⟩
    · rw [value]
      exact clean_compileAll.mpr h.compiles
    · rw [← given.holds.secrets, ← value, ← state]
      rfl

end

end Tgin.Config
