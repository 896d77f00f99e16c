import Mathlib.Data.List.Forall2
import Tgin.Config.Resolve
import Tgin.Config.Valid

/-! What each section of a valid configuration resolves to, whatever was read before it. -/

namespace Tgin.Config
open Checked Check Raw Rules Diagnostics
open Gateway (Urls)
open Gateway.GatewayPath (isAlphanumeric gatewayToken)

/-! ### What resolving admits -/

section
variable {α : Type}

/-- Elements without repetition, none of which was there before. -/
def Fresh (before l : List α) : Prop := l.Nodup ∧ ∀ a ∈ l, a ∉ before

theorem fresh_nil (before : List α) : Fresh before [] := ⟨List.nodup_nil, List.forall_mem_nil _⟩

theorem fresh_append {before l l' : List α} : Fresh before (l ++ l') ↔ Fresh before l ∧ Fresh (before ++ l) l' := by
  unfold Fresh
  rw [List.nodup_append', List.forall_mem_append]
  constructor
  · rintro ⟨⟨nodup, nodup', apart⟩, fresh, fresh'⟩
    exact ⟨⟨nodup, fresh⟩, nodup', fun a mem old => (List.mem_append.mp old).elim (fresh' a mem) fun mem' => apart mem' mem⟩
  · rintro ⟨⟨nodup, fresh⟩, nodup', fresh'⟩
    exact ⟨⟨nodup, nodup', fun a mem mem' => fresh' a mem' (List.mem_append_right _ mem)⟩, fresh,
      fun a mem old => fresh' a mem (List.mem_append_left _ old)⟩

end

@[simp] theorem Found.secrets_mul (e e' : Found) : (e * e').secrets = e.secrets ++ e'.secrets := rfl
@[simp] theorem Found.tokens_mul (e e' : Found) : (e * e').tokens = e.tokens ++ e'.tokens := rfl
@[simp] theorem Found.paths_mul (e e' : Found) : (e * e').paths = e.paths ++ e'.paths := rfl
@[simp] theorem Found.tokens_one : (1 : Found).tokens = [] := rfl
@[simp] theorem Found.paths_one : (1 : Found).paths = [] := rfl

variable {u : Urls} {m : Matchers} {IpNet : Type} {w : World u}

variable (w) in
/-- Tokens and paths are used once, and every path can be. -/
def guard : Guard Found where
  Admits s e := (∀ p ∈ e.paths, Routable w p.1) ∧ Fresh (s.paths.map (·.1)) (e.paths.map (·.1)) ∧
    Fresh (s.tokens.map (·.1)) (e.tokens.map (·.1))
  one _ := ⟨List.forall_mem_nil _, fresh_nil _, fresh_nil _⟩
  mul s e e' := by
    simp only [Found.paths_mul, Found.tokens_mul, List.map_append, fresh_append, List.forall_mem_append]
    tauto

theorem admits_oneSecret (s : Found) (value : Str) : (guard w).Admits s (oneSecret value) :=
  ⟨List.forall_mem_nil _, fresh_nil _, fresh_nil _⟩

variable (w) in
/-- What a text expands to. -/
def Expands (text : At Str) (value : Str) : Prop := interpolate text.value w.env w.baseDir = .ok value

theorem Expands.unique {text : At Str} {value value' : Str} (h : Expands w text value) (h' : Expands w text value') : value = value' :=
  Except.ok.inj (h.symm.trans h')

variable (w) in
/-- A secret that is not empty. -/
def SecretOf (text : SecretText) (value : Str) : Prop := Expands w text value ∧ value ≠ []

variable (w) in
/-- The path of a file, below the configuration's directory unless it is absolute. -/
def FileOf (text : Template) (path : Str) : Prop := ∃ value, Expands w text value ∧ value ≠ [] ∧ path = join w.baseDir value

variable (w) in
/-- A URL with a scheme that is allowed. -/
def UrlOf (httpsOnly : Bool) (text : Template) (url : u.Url) : Prop :=
  ∃ value, Expands w text value ∧ w.parseUrl value = .ok url ∧ (u.scheme url = HTTPS ∨ httpsOnly = false ∧ u.scheme url = HTTP)

/-! ### Texts -/

section
variable {path : Str} {text : At Str}

theorem unexpanded_not_clean {location : Location} {what : String} (err : InterpError) : ¬(unexpanded path location what err).Clean := by
  cases err <;> exact not_clean_error

theorem secret_yields : Yields (guard w) (secret w path text) fun v e => SecretOf w text v ∧ e = oneSecret v := by
  unfold secret SecretOf Expands
  split
  · rename_i err eq
    exact (Yields.rejected (unexpanded_not_clean err)).congr fun v e => ⟨False.elim, fun ⟨⟨h, _⟩, _⟩ => by rw [eq] at h; cases h⟩
  · rename_i value eq
    by_cases empty : value = []
    · rw [if_pos empty]
      refine (Yields.rejected not_clean_error).congr fun v e => ⟨False.elim, fun ⟨⟨h, ne⟩, _⟩ => ne ?_⟩
      rw [eq] at h
      rw [← Except.ok.inj h, empty]
    · rw [if_neg empty]
      refine ((Means.append fun s => admits_oneSecret s value).bind fun _ _ _ => Means.pure (some value)).congr fun o e => ⟨?_, ?_⟩
      · rintro ⟨-, _, _, rfl, ⟨rfl, rfl⟩, rfl⟩
        exact ⟨value, rfl, ⟨eq, empty⟩, mul_one _⟩
      · rintro ⟨v, rfl, ⟨h, -⟩, rfl⟩
        rw [eq] at h
        cases h
        exact ⟨(), _, 1, rfl, ⟨rfl, rfl⟩, (mul_one _).symm⟩

variable (w) in
/-- A secret that a header can carry. -/
def HeaderSecretOf (text : SecretText) (value : Str) : Prop := SecretOf w text value ∧ headerSafeSecret value = true

theorem headerSecret_yields : Yields (guard w) (headerSecret w path text) fun v e => HeaderSecretOf w text v ∧ e = oneSecret v := by
  have step (v : Str) : Means (guard w)
      (if headerSafeSecret v then pure (some v) else do
        Check.report (error path text.location (utf8 "the secret_token is not a valid secret header value")
          (some (utf8 "it is sent as `X-Telegram-Bot-Api-Secret-Token`: use 1 to 256 ASCII letters, digits, `_` or `-`")))
        pure none) fun o e => headerSafeSecret v = true ∧ o = some v ∧ e = 1 := by
    split
    · rename_i safe
      exact (Means.pure (some v)).congr fun o e => (and_iff_right safe).symm
    · rename_i refused
      exact (Means.rejected not_clean_error).congr fun o e => ⟨False.elim, fun h => refused h.1⟩
  refine (secret_yields.then_ fun v _ _ => step v).congr fun o e => ⟨?_, ?_⟩
  · rintro ⟨v, _, _, ⟨given, rfl⟩, ⟨safe, rfl, rfl⟩, rfl⟩
    exact ⟨v, rfl, ⟨given, safe⟩, mul_one _⟩
  · rintro ⟨v, rfl, ⟨given, safe⟩, rfl⟩
    exact ⟨v, oneSecret v, 1, ⟨given, rfl⟩, ⟨safe, rfl, rfl⟩, (mul_one _).symm⟩

variable (w) in
/-- A bot token. -/
def TokenOf (text : SecretText) (value : Str) : Prop := SecretOf w text value ∧ validBotToken value = true

theorem botToken_yields : Yields (guard w) (botToken w path text) fun v e => TokenOf w text v ∧ e = oneSecret v := by
  refine (secret_yields.then_ (H := fun v o e => validBotToken v = true ∧ o = some v ∧ e = 1) fun v _ _ => ?_).congr fun o e => ⟨?_, ?_⟩
  · dsimp only
    split
    · rename_i valid
      exact Means.report.congr fun o e => and_congr_left fun _ => iff_of_true (by simp) valid
    · rename_i invalid
      exact (Means.rejected not_clean_error).congr fun o e => ⟨False.elim, fun h => invalid h.1⟩
  · rintro ⟨v, _, _, ⟨given, rfl⟩, ⟨valid, rfl, rfl⟩, rfl⟩
    exact ⟨v, rfl, ⟨given, valid⟩, mul_one _⟩
  · rintro ⟨v, rfl, ⟨given, valid⟩, rfl⟩
    exact ⟨v, oneSecret v, 1, ⟨given, rfl⟩, ⟨valid, rfl, rfl⟩, (mul_one _).symm⟩

theorem template_yields : Yields (guard w) (template w path text) fun v e => Expands w text v ∧ e = 1 := by
  unfold template Expands
  split
  · rename_i value eq
    refine (Yields.pure value).congr fun v e => and_congr_left fun _ => ⟨fun h => h ▸ eq, fun h => ?_⟩
    rw [eq] at h
    exact (Except.ok.inj h).symm
  · rename_i err eq
    exact (Yields.rejected not_clean_error).congr fun v e => ⟨False.elim, fun ⟨h, _⟩ => by rw [eq] at h; cases h⟩

theorem file_yields : Yields (guard w) (file w path text) fun p e => FileOf w text p ∧ e = 1 := by
  refine (template_yields.then_ (H := fun v o e => v ≠ [] ∧ o = some (join w.baseDir v) ∧ e = 1) fun v _ _ => ?_).congr fun o e => ⟨?_, ?_⟩
  · dsimp only
    split
    · rename_i empty
      exact (Means.rejected not_clean_error).congr fun o e => ⟨False.elim, fun h => h.1 empty⟩
    · rename_i ne
      exact (Means.pure _).congr fun o e => (and_iff_right ne).symm
  · rintro ⟨v, _, _, ⟨given, rfl⟩, ⟨ne, rfl, rfl⟩, rfl⟩
    exact ⟨_, rfl, ⟨v, given, ne, rfl⟩, mul_one _⟩
  · rintro ⟨p, rfl, ⟨v, given, ne, rfl⟩, rfl⟩
    exact ⟨v, 1, 1, ⟨given, rfl⟩, ⟨ne, rfl, rfl⟩, (mul_one _).symm⟩

theorem lookup_eq_none {α β : Type} [BEq α] [LawfulBEq α] {l : List (α × β)} {a : α} : l.lookup a = none ↔ a ∉ l.map (·.1) := by
  rw [← isSome_lookup, Option.not_isSome_iff_eq_none]

/-- What is found where one path is. -/
abbrev onePath (http path : Str) : Found := { secrets := [], tokens := [], paths := [(http, path)] }

theorem addPath_means {http : Str} {location : Location} : Means (guard w) (addPath w path http location) fun _ e => e = onePath http path := by
  rintro s ⟨⟩ s'
  have admits : (guard w).Admits s (onePath http path) ↔ pathProblem w http = none ∧ s.paths.lookup http = none := by
    rw [pathProblem_eq_none, lookup_eq_none]
    simp [guard, Fresh]
  have found : s * onePath http path = { s with paths := s.paths ++ [(http, path)] } :=
    Found.ext (List.append_nil _) (List.append_nil _) rfl
  constructor
  · rintro ⟨clean, -, rfl⟩
    refine ⟨_, rfl, ?_⟩
    rw [admits, found]
    unfold addPath HttpPaths.add at clean ⊢
    cases problem : pathProblem w http with
    | some problem' =>
      rw [problem] at clean
      exact absurd clean not_clean_error
    | none =>
      cases used : s.paths.lookup http with
      | some first =>
        rw [problem, used] at clean
        exact absurd clean not_clean_error
      | none => simp only [and_self]
  · rintro ⟨_, rfl, admitted, rfl⟩
    obtain ⟨fits, new⟩ := admits.mp admitted
    have added : HttpPaths.add w s.paths path http location = (s.paths ++ [(http, path)], .none) := by
      unfold HttpPaths.add
      rw [fits]
      dsimp only
      rw [new]
    refine ⟨?_, rfl, ?_⟩
    · unfold addPath
      rw [added]
      exact Reports.clean_none
    · unfold addPath
      rw [added, found]

theorem route_yields : Yields (guard w) (route w path text) fun v e => Expands w text v ∧ e = onePath v path := by
  refine (template_yields.then_ (H := fun v o e => o = some v ∧ e = onePath v path) fun v _ _ => ?_).congr fun o e => ⟨?_, ?_⟩
  · refine (addPath_means.bind fun _ _ _ => Means.pure (some v)).congr fun o e => ⟨?_, ?_⟩
    · rintro ⟨-, _, _, rfl, ⟨rfl, rfl⟩, rfl⟩
      exact ⟨rfl, mul_one _⟩
    · rintro ⟨rfl, rfl⟩
      exact ⟨(), _, 1, rfl, ⟨rfl, rfl⟩, (mul_one _).symm⟩
  · rintro ⟨v, _, _, ⟨given, rfl⟩, ⟨rfl, rfl⟩, rfl⟩
    exact ⟨v, rfl, given, one_mul _⟩
  · rintro ⟨v, rfl, given, rfl⟩
    exact ⟨v, 1, _, ⟨given, rfl⟩, ⟨rfl, rfl⟩, (one_mul _).symm⟩

theorem url_yields {httpsOnly : Bool} : Yields (guard w) (url w path text httpsOnly) fun v e => UrlOf w httpsOnly text v ∧ e = 1 := by
  unfold url UrlOf Expands
  split
  · rename_i err eq
    refine (Yields.rejected (unexpanded_not_clean err)).congr fun v e => ⟨False.elim, ?_⟩
    rintro ⟨⟨value, h, -⟩, -⟩
    rw [eq] at h
    cases h
  · rename_i value eq
    split
    · rename_i err bad
      refine (Yields.rejected not_clean_error).congr fun v e => ⟨False.elim, ?_⟩
      rintro ⟨⟨value', h, parsed, -⟩, -⟩
      rw [eq] at h
      cases h
      rw [bad] at parsed
      cases parsed
    · rename_i url good
      have scheme : schemeAllowed httpsOnly url = true ↔ u.scheme url = HTTPS ∨ httpsOnly = false ∧ u.scheme url = HTTP := by
        cases httpsOnly <;> simp [schemeAllowed, or_comm]
      split
      · rename_i other
        refine (Yields.rejected not_clean_error).congr fun v e => ⟨False.elim, ?_⟩
        rintro ⟨⟨value', h, parsed, allowed⟩, -⟩
        rw [eq] at h
        cases h
        rw [good] at parsed
        cases parsed
        exact other (scheme.mpr allowed)
      · rename_i allowed
        refine (Yields.pure url).congr fun v e => and_congr_left fun _ => ⟨?_, ?_⟩
        · rintro rfl
          exact ⟨value, eq, good, scheme.mp (not_not.mp allowed)⟩
        · rintro ⟨value', h, parsed, -⟩
          rw [eq] at h
          cases h
          rw [good] at parsed
          exact (Except.ok.inj parsed).symm

theorem upstreamUrl_yields {name : Str} {hint : String} :
    Yields (guard w) (upstreamUrl w path name text hint) fun v e => UrlOf w false text v ∧ e = 1 := by
  refine (url_yields.then_ fun v _ _ => Means.report).congr fun o e => ⟨?_, ?_⟩
  · rintro ⟨v, _, _, ⟨given, rfl⟩, ⟨-, rfl, rfl⟩, rfl⟩
    exact ⟨v, rfl, given, one_mul _⟩
  · rintro ⟨v, rfl, given, rfl⟩
    exact ⟨v, 1, 1, ⟨given, rfl⟩, ⟨by simp, rfl, rfl⟩, (one_mul _).symm⟩

theorem id_yields {index : Nat} {location : Location} {what : String} :
    Yields (guard w) (id index path location what) fun n e => index < 2 ^ 16 ∧ n = .ofNat index ∧ e = 1 := by
  unfold id
  split
  · rename_i few
    exact (Yields.pure _).congr fun n e => (and_iff_right few).symm
  · rename_i many
    exact (Yields.rejected not_clean_error).congr fun n e => ⟨False.elim, fun h => many h.1⟩

end

/-- What an absent value gives, and one that is not. -/
inductive Optional {α β : Type} (G : α → β → Found → Prop) : Option α → Option β → Found → Prop where
  | none : Optional G none none 1
  | some {a : α} {b : β} {e : Found} (given : G a b e) : Optional G (some a) (some b) e

theorem optional_means {α β : Type} {check : α → Resolve (Option β)} {G : α → β → Found → Prop}
    (h : ∀ a, Yields (guard w) (check a) (G a)) (value : Option α) : Means (guard w) (optional value check) (Optional G value) := by
  cases value with
  | none =>
    refine (Means.pure none).congr fun o e => ⟨?_, ?_⟩
    · rintro ⟨rfl, rfl⟩
      exact .none
    · rintro ⟨⟩
      exact ⟨rfl, rfl⟩
  | some a =>
    refine Means.congr (h a) fun o e => ⟨?_, ?_⟩
    · rintro ⟨b, rfl, given⟩
      exact .some given
    · intro given
      cases given with
      | some given => exact ⟨_, rfl, given⟩

/-- Where nothing is appended. -/
theorem optional_one {α β : Type} {P : α → β → Prop} {o : Option α} {r : Option β} {e : Found} :
    Optional (fun a b e => P a b ∧ e = 1) o r e ↔ Option.Rel P o r ∧ e = 1 := by
  constructor
  · rintro (_ | ⟨given, rfl⟩)
    · exact ⟨.none, rfl⟩
    · exact ⟨.some given, rfl⟩
  · rintro ⟨h, rfl⟩
    cases h with
    | some given => exact .some ⟨given, rfl⟩
    | none => exact .none

theorem reduceOption_some {α : Type} (l : List α) : (l.map some).reduceOption = l := by
  change (l.map some).filterMap (fun o => o) = l
  rw [List.filterMap_map]
  exact List.filterMap_some

/-! ### Consumers -/

variable (w) in
def EndpointOf (raw : Raw.Endpoint) (ep : Loaded.Endpoint u) (e : Found) : Prop :=
  ∃ url token, UrlOf w false raw.url url ∧ Optional (fun t v e => HeaderSecretOf w t v ∧ e = oneSecret v) raw.secretToken token e ∧
    ep = { url, secretToken := token, timeout := raw.timeout.value.value }

variable (w) in
def PushOf (raw : Raw.Push) (push : Loaded.Push u) (e : Found) : Prop :=
  ∃ endpoints, Each (fun _ => EndpointOf w) 0 raw.endpoints.value endpoints e ∧ push = pushWith raw endpoints

variable (w) in
def PullOf (path : Str) (raw : Raw.Pull) (pull : Loaded.Pull) (e : Found) : Prop :=
  ∃ token e₁ aliases e₂, Optional (fun t v e => SecretOf w t v ∧ e = oneSecret v) raw.authToken token e₁ ∧
    Each (fun k text v e => Expands w text v ∧ e = onePath v (entry (field path "pull.aliases") k)) 0 raw.aliases aliases e₂ ∧
    pull = pullWith raw token aliases ∧ e = e₁ * e₂

variable (w) in
def KindOf (path : Str) : Raw.Consumer → Loaded.ConsumerKind u → Found → Prop
  | .pull raw, kind, e => ∃ pull, PullOf w path raw pull e ∧ kind = .pull pull
  | .push raw, kind, e => ∃ push, PushOf w raw push e ∧ kind = .push push

variable (w) in
def ConsumerOf (index : Nat) (named : Str × At Raw.Consumer) (consumer : Loaded.Consumer u) (e : Found) : Prop :=
  index < 2 ^ 16 ∧ ∃ kind, KindOf w (utf8 "consumers." ++ named.1) named.2.value kind e ∧
    consumer = { id := .ofNat index, name := named.1, kind }

theorem endpoint_yields {path : Str} {k : Nat} {raw : Raw.Endpoint} : Yields (guard w) (endpoint w path k raw) (EndpointOf w raw) := by
  refine (url_yields.then_ fun url _ _ => (optional_means (fun _ => headerSecret_yields) raw.secretToken).bind
    fun token _ _ => Means.pure _).congr fun o e => ⟨?_, ?_⟩
  · rintro ⟨url, _, _, ⟨given, rfl⟩, ⟨token, e₁, _, secret, ⟨rfl, rfl⟩, rfl⟩, rfl⟩
    rw [mul_one, one_mul]
    exact ⟨_, rfl, url, token, given, secret, rfl⟩
  · rintro ⟨_, rfl, url, token, given, secret, rfl⟩
    exact ⟨url, 1, e, ⟨given, rfl⟩, ⟨token, e, 1, secret, ⟨rfl, rfl⟩, (mul_one _).symm⟩, (one_mul _).symm⟩

theorem pushConsumer_means {path : Str} {raw : Raw.Push} : Means (guard w) (pushConsumer w path raw) (PushOf w raw) := by
  refine ((Means.each (fun k raw => show Yields _ (endpoint w path k raw) _ from endpoint_yields) 0 raw.endpoints.value).bind
    fun os _ _ => Means.pure _).congr fun push e => ⟨?_, ?_⟩
  · rintro ⟨os, e₁, _, each, ⟨rfl, rfl⟩, rfl⟩
    obtain ⟨endpoints, rfl, all⟩ := Each.some_iff.mp each
    rw [mul_one, reduceOption_some]
    exact ⟨endpoints, all, rfl⟩
  · rintro ⟨endpoints, each, rfl⟩
    exact ⟨endpoints.map some, e, 1, Each.some_iff.mpr ⟨endpoints, rfl, each⟩, ⟨by rw [reduceOption_some], rfl⟩, (mul_one _).symm⟩

theorem pullConsumer_means {path : Str} {raw : Raw.Pull} : Means (guard w) (pullConsumer w path raw) (PullOf w path raw) := by
  refine ((optional_means (fun _ => secret_yields) raw.authToken).bind fun token _ _ =>
    (Means.each (fun k text => show Yields _ (route w (entry (field path "pull.aliases") k) text) _ from route_yields) 0 raw.aliases).bind
      fun os _ _ => Means.pure _).congr fun pull e => ⟨?_, ?_⟩
  · rintro ⟨token, e₁, _, secret, ⟨os, e₂, _, each, ⟨rfl, rfl⟩, rfl⟩, rfl⟩
    obtain ⟨aliases, rfl, all⟩ := Each.some_iff.mp each
    rw [mul_one, reduceOption_some]
    exact ⟨token, e₁, aliases, e₂, secret, all, rfl, rfl⟩
  · rintro ⟨token, e₁, aliases, e₂, secret, each, rfl, rfl⟩
    exact ⟨token, e₁, e₂, secret, ⟨aliases.map some, e₂, 1, Each.some_iff.mpr ⟨aliases, rfl, each⟩,
      ⟨by rw [reduceOption_some], rfl⟩, (mul_one _).symm⟩, rfl⟩

theorem consumerKind_means {path : Str} {raw : Raw.Consumer} : Means (guard w) (consumerKind w path raw) (KindOf w path raw) := by
  cases raw with
  | pull raw =>
    refine (pullConsumer_means.bind fun pull _ _ => Means.pure _).congr fun kind e => ⟨?_, ?_⟩
    · rintro ⟨pull, e₁, _, given, ⟨rfl, rfl⟩, rfl⟩
      rw [mul_one]
      exact ⟨pull, given, rfl⟩
    · rintro ⟨pull, given, rfl⟩
      exact ⟨pull, e, 1, given, ⟨rfl, rfl⟩, (mul_one _).symm⟩
  | push raw =>
    refine (pushConsumer_means.bind fun push _ _ => Means.pure _).congr fun kind e => ⟨?_, ?_⟩
    · rintro ⟨push, e₁, _, given, ⟨rfl, rfl⟩, rfl⟩
      rw [mul_one]
      exact ⟨push, given, rfl⟩
    · rintro ⟨push, given, rfl⟩
      exact ⟨push, e, 1, given, ⟨rfl, rfl⟩, (mul_one _).symm⟩

theorem loadedConsumer_yields {index : Nat} {named : Str × At Raw.Consumer} :
    Yields (guard w) (loadedConsumer w index named) (ConsumerOf w index named) := by
  refine (id_yields.then_ fun n _ _ => consumerKind_means.bind fun kind _ _ => Means.pure _).congr fun o e => ⟨?_, ?_⟩
  · rintro ⟨n, _, _, ⟨few, rfl, rfl⟩, ⟨kind, e₁, _, given, ⟨rfl, rfl⟩, rfl⟩, rfl⟩
    rw [mul_one, one_mul]
    exact ⟨_, rfl, few, kind, given, rfl⟩
  · rintro ⟨_, rfl, few, kind, given, rfl⟩
    exact ⟨_, 1, e, ⟨few, rfl, rfl⟩, ⟨kind, e, 1, given, ⟨rfl, rfl⟩, (mul_one _).symm⟩, (one_mul _).symm⟩

/-! ### Upstreams -/

variable (w) in
/-- A directory as the server sees it: as it is here, unless written. -/
def ServerDirOf (raw : Option Template) (dir serverDir : Str) : Prop :=
  match raw with
  | none => serverDir = dir
  | some text => Expands w text serverDir ∧ serverDir.head? = some slash

variable (w) in
def FilesOf (raw : Raw.Files) (files : Gateway.Files u) : Prop :=
  match raw.url with
  | some text => ∃ url, UrlOf w false text url ∧ files = .url url
  | none => ∃ text file dir serverDir, raw.dir = some text ∧ FileOf w text file ∧ w.absolute file = .ok dir ∧
      ServerDirOf w raw.serverDir dir serverDir ∧ files = .dir ⟨dir⟩ ⟨serverDir⟩

variable (w) in
def UpstreamOf (named : Str × At Raw.Upstream) (upstream : Gateway.Upstream u) : Prop :=
  ∃ url files, UrlOf w false named.2.value.url url ∧ Option.Rel (fun raw files => FilesOf w raw.value files) named.2.value.files files ∧
    upstream = upstreamWith named.1 named.2.value url files

theorem upstreamFiles_yields {path name : Str} {raw : Raw.Files} (shape : raw.url.isSome ∨ raw.dir.isSome) :
    Yields (guard w) (upstreamFiles w path name raw) fun files e => FilesOf w raw files ∧ e = 1 := by
  unfold upstreamFiles FilesOf
  cases written : raw.url with
  | some text =>
    refine Means.congr (upstreamUrl_yields.map (Option.map Gateway.Files.url)) fun o e => ⟨?_, ?_⟩
    · rintro ⟨url, rfl, given, rfl⟩
      exact ⟨_, rfl, ⟨url, given, rfl⟩, rfl⟩
    · rintro ⟨_, rfl, ⟨url, given, rfl⟩, rfl⟩
      exact ⟨url, rfl, given, rfl⟩
  | none =>
    rw [written] at shape
    obtain ⟨text, place⟩ := Option.isSome_iff_exists.mp (shape.resolve_left (by simp))
    rw [place]
    refine (file_yields.then_ (H := fun file o e => ∃ dir serverDir, w.absolute file = .ok dir ∧
      ServerDirOf w raw.serverDir dir serverDir ∧ o = some (.dir ⟨dir⟩ ⟨serverDir⟩) ∧ e = 1) fun file _ _ => ?_).congr fun o e => ⟨?_, ?_⟩
    · dsimp only
      cases absolute : w.absolute file with
      | error err =>
        refine (Means.rejected not_clean_error).congr fun o e => ⟨False.elim, ?_⟩
        rintro ⟨dir, serverDir, h, -⟩
        cases h
      | ok dir =>
        dsimp only
        unfold ServerDirOf
        cases raw.serverDir with
        | none =>
          refine (Means.pure _).congr fun o e => ⟨fun ⟨eq, one⟩ => ⟨dir, dir, rfl, rfl, eq, one⟩, ?_⟩
          rintro ⟨dir', serverDir, h, rfl, eq, one⟩
          cases h
          exact ⟨eq, one⟩
        | some text =>
          refine (template_yields.then_ (H := fun v o e => v.head? = some slash ∧ o = some (.dir ⟨dir⟩ ⟨v⟩) ∧ e = 1) fun v _ _ => ?_).congr
            fun o e => ⟨?_, ?_⟩
          · dsimp only
            by_cases rooted : v.head? = some slash
            · rw [if_neg (not_not.mpr rooted)]
              exact (Means.pure _).congr fun o e => (and_iff_right rooted).symm
            · rw [if_pos rooted]
              exact (Means.rejected not_clean_error).congr fun o e => ⟨False.elim, fun h => rooted h.1⟩
          · rintro ⟨v, _, _, ⟨given, rfl⟩, ⟨rooted, rfl, rfl⟩, rfl⟩
            exact ⟨dir, v, rfl, ⟨given, rooted⟩, rfl, one_mul _⟩
          · rintro ⟨dir', v, h, ⟨given, rooted⟩, rfl, rfl⟩
            cases h
            exact ⟨v, 1, 1, ⟨given, rfl⟩, ⟨rooted, rfl, rfl⟩, (one_mul _).symm⟩
    · rintro ⟨file, _, _, ⟨given, rfl⟩, ⟨dir, serverDir, absolute, seen, rfl, rfl⟩, rfl⟩
      exact ⟨_, rfl, ⟨text, file, dir, serverDir, rfl, given, absolute, seen, rfl⟩, one_mul _⟩
    · rintro ⟨_, rfl, ⟨_, file, dir, serverDir, h, given, absolute, seen, rfl⟩, rfl⟩
      cases h
      exact ⟨file, 1, 1, ⟨given, rfl⟩, ⟨dir, serverDir, absolute, seen, rfl, rfl⟩, (one_mul _).symm⟩

theorem givenFiles_yields {path name : Str} {raw : Option (At Raw.Files)} (valid : ∀ files ∈ raw, files.value.Valid) :
    Yields (guard w) (givenFiles w path name raw) fun files e => Option.Rel (fun raw files => FilesOf w raw.value files) raw files ∧ e = 1 := by
  cases raw with
  | none =>
    refine (Yields.pure none).congr fun files e => and_congr_left fun _ => ⟨?_, ?_⟩
    · rintro rfl
      exact .none
    · rintro ⟨⟩
      rfl
  | some raw =>
    have shape : raw.value.url.isSome ∨ raw.value.dir.isSome := (valid raw rfl).elim (fun h => .inr h.1) fun h => .inl h.2.1
    refine Means.congr ((upstreamFiles_yields shape).map (Option.map some)) fun o e => ⟨?_, ?_⟩
    · rintro ⟨files, rfl, given, rfl⟩
      exact ⟨_, rfl, .some given, rfl⟩
    · rintro ⟨_, rfl, ⟨given⟩, rfl⟩
      exact ⟨_, rfl, given, rfl⟩

theorem namedUpstream_yields {named : Str × At Raw.Upstream} (valid : named.2.value.Valid) :
    Yields (guard w) (namedUpstream w named) fun upstream e => UpstreamOf w named upstream ∧ e = 1 := by
  refine Means.congr (upstreamUrl_yields.then_ fun url _ _ =>
    (givenFiles_yields valid.files).map fun files => files.map fun files => upstreamWith named.1 named.2.value url files) fun o e => ⟨?_, ?_⟩
  · rintro ⟨url, _, _, ⟨given, rfl⟩, ⟨files, rfl, rel, rfl⟩, rfl⟩
    exact ⟨_, rfl, ⟨url, files, given, rel, rfl⟩, one_mul _⟩
  · rintro ⟨_, rfl, ⟨url, files, given, rel, rfl⟩, rfl⟩
    exact ⟨url, 1, 1, ⟨given, rfl⟩, ⟨files, rfl, rel, rfl⟩, (one_mul _).symm⟩

/-! ### Bots -/

variable (w) in
/-- The bot's upstream: the one it names, or its own. -/
def BotUpstreamOf (upstreams : List (Gateway.Upstream u)) (bot : Raw.Bot IpNet) (upstream : Gateway.Upstream u) : Prop :=
  match bot.upstream with
  | some name => upstreams.find? (·.name = name.value) = some upstream
  | none => ∃ url, UrlOf w false (bot.apiUrl.getD API_URL) url ∧ upstream = shorthand url

variable (w) in
/-- A URL that webhooks are posted to. -/
def PublicUrlOf (rules : WebhookRules) (text : Template) (url : u.Url) : Prop :=
  UrlOf w (!rules.httpAllowed) text url ∧ (rules.anyPort = true ∨ ∃ port ∈ WEBHOOK_PORTS, w.port url = some port)

variable (w) in
def HookSecretOf : Raw.WebhookSecret → Loaded.WebhookSecret → Found → Prop
  | .auto, secret, e => secret = .auto ∧ e = 1
  | .none, secret, e => secret = .none ∧ e = 1
  | .secret text, secret, e => ∃ v, HeaderSecretOf w text v ∧ secret = .token v ∧ e = oneSecret v

variable (w) in
def WebhookOf (path name : Str) (location : Location) (rules : WebhookRules) (raw : Raw.Webhook IpNet) (hook : Loaded.Webhook u IpNet)
    (e : Found) : Prop :=
  ∃ route url secret e₁ certificate, Expands w (hookPath name location raw) route ∧ Option.Rel (PublicUrlOf w rules) raw.publicUrl url ∧
    HookSecretOf w raw.secretToken secret e₁ ∧ Option.Rel (FileOf w) raw.certificateFile certificate ∧
    hook = webhookWith raw route url secret certificate ∧ e = onePath route (field (field path "ingress.webhook") "path") * e₁

variable (w) in
def IngressOf (path name : Str) (rules : WebhookRules) (raw : At (Raw.Ingress IpNet)) (ingress : Loaded.Ingress u IpNet) (e : Found) : Prop :=
  match raw.value with
  | .longPoll poll => ingress = .longPoll {
      timeout := poll.timeout.value.value, limit := poll.limit.value, allowedUpdates := poll.allowedUpdates
      deleteWebhookOnStart := poll.deleteWebhookOnStart } ∧ e = 1
  | .webhook raw' => ∃ hook, WebhookOf w path name raw.location rules raw' hook e ∧ ingress = .webhook hook

/-- The rules of a bot as the engine runs them. -/
def specs (raw : RawConfig IpNet) (bot : Raw.Bot IpNet) : List RuleSpec := bot.routes.map fun route => ruleSpec route.value raw.consumers

variable (m) in
/-- A rule that compiles by itself. -/
def Compiles (spec : RuleSpec) : Prop := ∃ table : RouteTable m, RouteTable.compile 0 [(0, [spec])] [] = .ok table

/-- What is found where one token is. -/
abbrev oneToken (token : Str) (index : Nat) : Found := { secrets := [], tokens := [(token, index)], paths := [] }

variable (w m) in
def BotOf (raw : RawConfig IpNet) (upstreams : List (Gateway.Upstream u)) (index : Nat) (bot : Raw.Bot IpNet) (loaded : Loaded.Bot u IpNet)
    (e : Found) : Prop :=
  index < 2 ^ 16 ∧ ∃ token upstream ingress e₁, TokenOf w bot.token token ∧ BotUpstreamOf w upstreams bot upstream ∧
    Optional (IngressOf w (entry (utf8 "bots") index) bot.name.value (webhookRules raw bot)) bot.ingress ingress e₁ ∧
    (∀ spec ∈ specs raw bot, Compiles m spec) ∧ loaded = botWith bot token upstream ingress (specs raw bot) ∧
    e = oneSecret token * oneToken token index * e₁

section
variable {path name : Str} {rules : WebhookRules} {raw : RawConfig IpNet} {upstreams : List (Gateway.Upstream u)}
  {ruleMessage : RuleError m → Str}

theorem ownUrl_yields {text : Option Template} :
    Yields (guard w) (ownUrl w path text) fun url e => UrlOf w false (text.getD API_URL) url ∧ e = 1 := by
  cases text with
  | some text => exact upstreamUrl_yields
  | none => exact url_yields

theorem upstreamOfBot_yields {bot : Raw.Bot IpNet} (known : ∀ name ∈ bot.upstream, ∃ up ∈ upstreams, up.name = name.value) :
    Yields (guard w) (upstreamOfBot w path bot upstreams) fun up e => BotUpstreamOf w upstreams bot up ∧ e = 1 := by
  unfold upstreamOfBot BotUpstreamOf
  cases named : bot.upstream with
  | some name =>
    obtain ⟨up, mem, eq⟩ := known name named
    obtain ⟨found, h⟩ := Option.isSome_iff_exists.mp
      (List.find?_isSome (p := fun up : Gateway.Upstream u => up.name = name.value) |>.mpr ⟨up, mem, decide_eq_true eq⟩)
    dsimp only
    rw [h]
    exact (Yields.pure found).congr fun up e => and_congr_left fun _ => ⟨fun eq => congrArg some eq.symm, fun eq => (Option.some.inj eq).symm⟩
  | none =>
    refine Means.congr (ownUrl_yields.map (Option.map shorthand)) fun o e => ⟨?_, ?_⟩
    · rintro ⟨url, rfl, given, rfl⟩
      exact ⟨_, rfl, ⟨url, given, rfl⟩, rfl⟩
    · rintro ⟨_, rfl, ⟨url, given, rfl⟩, rfl⟩
      exact ⟨url, rfl, given, rfl⟩

theorem publicUrl_yields {text : Template} :
    Yields (guard w) (publicUrl w path text rules) fun url e => PublicUrlOf w rules text url ∧ e = 1 := by
  refine (url_yields.then_ (H := fun url o e => (rules.anyPort = true ∨ ∃ port ∈ WEBHOOK_PORTS, w.port url = some port) ∧
    o = some url ∧ e = 1) fun url _ _ => ?_).congr fun o e => ⟨?_, ?_⟩
  · have allowed : (!rules.anyPort && !(w.port url).any WEBHOOK_PORTS.contains) = false ↔
        rules.anyPort = true ∨ ∃ port ∈ WEBHOOK_PORTS, w.port url = some port := by
      cases rules.anyPort <;> cases w.port url <;> simp
    dsimp only
    split
    · rename_i refused
      refine (Means.rejected not_clean_error).congr fun o e => ⟨False.elim, fun h => ?_⟩
      rw [allowed.mpr h.1] at refused
      cases refused
    · rename_i accepted
      exact (Means.pure _).congr fun o e => (and_iff_right (allowed.mp (Bool.not_eq_true _ ▸ accepted))).symm
  · rintro ⟨url, _, _, ⟨given, rfl⟩, ⟨port, rfl, rfl⟩, rfl⟩
    exact ⟨url, rfl, ⟨given, port⟩, one_mul _⟩
  · rintro ⟨url, rfl, ⟨given, port⟩, rfl⟩
    exact ⟨url, 1, 1, ⟨given, rfl⟩, ⟨port, rfl, rfl⟩, (one_mul _).symm⟩

theorem webhookSecret_means {raw : Raw.WebhookSecret} : Means (guard w) (webhookSecret w path raw) (HookSecretOf w raw) := by
  cases raw with
  | auto => exact Means.pure _
  | none => exact Means.pure _
  | secret text =>
    refine (headerSecret_yields.then_ (H := fun v r e => r = .token v ∧ e = 1) fun v _ _ => Means.pure _).congr fun r e => ⟨?_, ?_⟩
    · rintro ⟨v, _, _, ⟨given, rfl⟩, ⟨rfl, rfl⟩, rfl⟩
      exact ⟨v, given, rfl, mul_one _⟩
    · rintro ⟨v, given, rfl, rfl⟩
      exact ⟨v, _, 1, ⟨given, rfl⟩, ⟨rfl, rfl⟩, (mul_one _).symm⟩

theorem loadedWebhook_means {location : Location} {raw : Raw.Webhook IpNet} :
    Means (guard w) (loadedWebhook w path name location rules raw) (WebhookOf w path name location rules raw) := by
  refine (route_yields.then_ fun route _ _ => ((optional_means (fun _ => publicUrl_yields) raw.publicUrl).bind fun url _ _ =>
    webhookSecret_means.bind fun secret _ _ => (optional_means (fun _ => file_yields) raw.certificateFile).bind fun certificate _ _ =>
      Means.pure _)).congr fun hook e => ⟨?_, ?_⟩
  · rintro ⟨route, _, _, ⟨given, rfl⟩, ⟨url, _, _, shown, ⟨secret, e₁, _, token, ⟨certificate, _, _, file, ⟨rfl, rfl⟩, rfl⟩, rfl⟩, rfl⟩, rfl⟩
    obtain ⟨posted, rfl⟩ := optional_one.mp shown
    obtain ⟨read, rfl⟩ := optional_one.mp file
    exact ⟨route, url, secret, e₁, certificate, given, posted, token, read, rfl, by simp only [one_mul, mul_one]⟩
  · rintro ⟨route, url, secret, e₁, certificate, given, shown, token, file, rfl, rfl⟩
    exact ⟨route, _, e₁, ⟨given, rfl⟩, ⟨url, 1, e₁, optional_one.mpr ⟨shown, rfl⟩, ⟨secret, e₁, 1, token,
      ⟨certificate, 1, 1, optional_one.mpr ⟨file, rfl⟩, ⟨rfl, rfl⟩, (one_mul _).symm⟩, (mul_one _).symm⟩, (one_mul _).symm⟩, rfl⟩

theorem loadedIngress_means {raw : At (Raw.Ingress IpNet)} :
    Means (guard w) (loadedIngress w path name rules raw) (IngressOf w path name rules raw) := by
  obtain ⟨value, location⟩ := raw
  cases value with
  | longPoll poll => exact Means.pure _
  | webhook hook =>
    refine (loadedWebhook_means.bind fun hook _ _ => Means.pure _).congr fun ingress e => ⟨?_, ?_⟩
    · rintro ⟨hook, e₁, _, given, ⟨rfl, rfl⟩, rfl⟩
      rw [mul_one]
      exact ⟨hook, given, rfl⟩
    · rintro ⟨hook, given, rfl⟩
      exact ⟨hook, e, 1, given, ⟨rfl, rfl⟩, (mul_one _).symm⟩

theorem clean_compileRule {location : Location} {spec : RuleSpec} : (compileRule ruleMessage path location spec).Clean ↔ Compiles m spec := by
  unfold compileRule Compiles
  cases (RouteTable.compile 0 [(0, [spec])] [] : Except (RuleError m) (RouteTable m)) <;> simp

/-- A loop whose steps give what they give, if each is accepted. -/
theorem each_one {α β : Type} {P : α → Prop} {f : α → β} {i : Nat} {l : List α} {bs : List β} {e : Found} :
    Each (fun _ a b e => P a ∧ b = f a ∧ e = 1) i l bs e ↔ (∀ a ∈ l, P a) ∧ bs = l.map f ∧ e = 1 := by
  constructor
  · intro h
    induction h with
    | nil => exact ⟨List.forall_mem_nil _, rfl, rfl⟩
    | cons first _ ih =>
      obtain ⟨holds, rfl, rfl⟩ := first
      obtain ⟨all, rfl, rfl⟩ := ih
      exact ⟨List.forall_mem_cons.mpr ⟨holds, all⟩, rfl, one_mul _⟩
  · rintro ⟨all, rfl, rfl⟩
    induction l generalizing i with
    | nil => exact .nil i
    | cons a l ih =>
      obtain ⟨holds, all⟩ := List.forall_mem_cons.mp all
      rw [← one_mul (1 : Found)]
      exact .cons ⟨holds, rfl, rfl⟩ (ih all)

theorem rules_means {bot : Raw.Bot IpNet} : Means (guard w) (Config.rules ruleMessage path raw bot) fun rules e =>
    (∀ spec ∈ specs raw bot, Compiles m spec) ∧ rules = specs raw bot ∧ e = 1 := by
  refine (Means.each (G := fun _ (route : At Route) spec e => Compiles m (ruleSpec route.value raw.consumers) ∧
    spec = ruleSpec route.value raw.consumers ∧ e = 1) (fun j route => ?_) 0 bot.routes).congr fun rules e => ?_
  · exact Means.report.congr fun spec e => and_congr_left fun _ => clean_compileRule
  · rw [each_one, specs, List.forall_mem_map]

theorem takeToken_means {index : Nat} {location : Location} {token : Str} :
    Means (guard w) (takeToken raw index path location token) fun _ e => e = oneToken token index := by
  rintro s ⟨⟩ s'
  have admits : (guard w).Admits s (oneToken token index) ↔ s.tokens.lookup token = none := by
    rw [lookup_eq_none]
    simp [guard, Fresh]
  have found : s * oneToken token index = { s with tokens := s.tokens ++ [(token, index)] } :=
    Found.ext (List.append_nil _) rfl (List.append_nil _)
  unfold takeToken
  constructor
  · rintro ⟨clean, -, rfl⟩
    refine ⟨_, rfl, ?_⟩
    rw [admits, found]
    cases used : s.tokens.lookup token with
    | some first =>
      rw [used] at clean
      exact absurd clean not_clean_error
    | none => exact ⟨rfl, rfl⟩
  · rintro ⟨_, rfl, admitted, rfl⟩
    rw [admits] at admitted
    refine ⟨?_, rfl, ?_⟩
    · rw [admitted]
      exact Reports.clean_none
    · rw [admitted, found]

theorem loadedBot_yields {index : Nat} {bot : Raw.Bot IpNet} (known : ∀ name ∈ bot.upstream, ∃ up ∈ upstreams, up.name = name.value) :
    Yields (guard w) (loadedBot w ruleMessage raw upstreams index bot)
      fun o e => ∃ loaded, o = some loaded ∧ BotOf m w raw upstreams index bot loaded e := by
  have ingress (path : Str) := optional_means (fun ingress => show Yields _
      (do return some (← loadedIngress w path bot.name.value (webhookRules raw bot) ingress))
      (IngressOf w path bot.name.value (webhookRules raw bot) ingress) from
    (loadedIngress_means.bind fun hook _ _ => Means.pure (some hook)).congr fun o e =>
        ⟨fun ⟨hook, e₁, _, given, ⟨eq, one⟩, same⟩ => ⟨hook, eq, by rwa [same, one, mul_one]⟩,
          fun ⟨hook, eq, given⟩ => ⟨hook, e, 1, given, ⟨eq, rfl⟩, (mul_one e).symm⟩⟩) bot.ingress
  refine (id_yields.then_ fun n _ _ => botToken_yields.then_ fun token _ _ => takeToken_means.bind fun _ _ _ =>
    (upstreamOfBot_yields known).then_ fun upstream _ _ => (ingress _).bind fun ingress _ _ => rules_means.bind fun rules _ _ =>
      Means.pure _).congr fun o e => ⟨?_, ?_⟩
  · rintro ⟨n, _, _, ⟨few, rfl, rfl⟩, ⟨token, _, _, ⟨given, rfl⟩, ⟨-, _, _, rfl, ⟨upstream, _, _, ⟨up, rfl⟩, ⟨hook, e₁, _, ing,
      ⟨rules, _, _, ⟨compiles, rfl, rfl⟩, ⟨rfl, rfl⟩, rfl⟩, rfl⟩, rfl⟩, rfl⟩, rfl⟩, rfl⟩
    exact ⟨_, rfl, _, rfl, few, token, upstream, hook, e₁, given, up, ing, compiles, rfl, by simp only [one_mul, mul_one, mul_assoc]⟩
  · rintro ⟨_, rfl, _, rfl, few, token, upstream, hook, e₁, given, up, ing, compiles, rfl, rfl⟩
    exact ⟨_, 1, _, ⟨few, rfl, rfl⟩, ⟨token, _, _, ⟨given, rfl⟩, ⟨(), _, _, rfl, ⟨upstream, 1, e₁, ⟨up, rfl⟩, ⟨hook, e₁, 1, ing,
      ⟨_, 1, 1, ⟨compiles, rfl, rfl⟩, ⟨rfl, rfl⟩, (one_mul _).symm⟩, (mul_one _).symm⟩, (one_mul _).symm⟩, rfl⟩, rfl⟩,
      by simp only [one_mul, mul_assoc]⟩

end

/-! ### The configuration -/

variable (w) in
def TlsOf (raw : Raw.Tls) (tls : Loaded.Tls) : Prop := FileOf w raw.certFile tls.certFile ∧ FileOf w raw.keyFile tls.keyFile

variable (w) in
def ServerOf (raw : Raw.Server IpNet) (server : Loaded.Server IpNet) : Prop :=
  ∃ tls, Option.Rel (TlsOf w) raw.tls tls ∧ server = serverWith raw tls

variable (w m) in
/-- What a valid configuration resolves to, and what is found in it. -/
def LoadedOf (raw : RawConfig IpNet) (config : Loaded u IpNet) (e : Found) : Prop :=
  ∃ consumers e₁ upstreams bots e₂ server token e₃, Each (ConsumerOf w) 0 raw.consumers.entries consumers e₁ ∧
    List.Forall₂ (UpstreamOf w) raw.upstreams.entries upstreams ∧ Each (BotOf m w raw upstreams) 0 raw.bots bots e₂ ∧
    Option.Rel (ServerOf w) raw.server server ∧ Optional (fun t v e => SecretOf w t v ∧ e = oneSecret v) raw.admin.token token e₃ ∧
    config = loadedWith raw consumers upstreams bots server token ∧ e = e₁ * (e₂ * e₃)

section
variable {raw : RawConfig IpNet} {ruleMessage : RuleError m → Str}

theorem tls_yields {raw : Raw.Tls} : Yields (guard w) (tls w raw) fun tls e => TlsOf w raw tls ∧ e = 1 := by
  refine Means.congr (file_yields.then_ fun cert _ _ => file_yields.map fun key =>
    key.map fun key => ({ certFile := cert, keyFile := key } : Loaded.Tls)) fun o e => ⟨?_, ?_⟩
  · rintro ⟨cert, _, _, ⟨first, rfl⟩, ⟨key, rfl, second, rfl⟩, rfl⟩
    exact ⟨_, rfl, ⟨first, second⟩, one_mul _⟩
  · rintro ⟨⟨cert, key⟩, rfl, ⟨first, second⟩, rfl⟩
    exact ⟨cert, 1, 1, ⟨first, rfl⟩, ⟨key, rfl, second, rfl⟩, (one_mul _).symm⟩

theorem server_means {raw : Raw.Server IpNet} : Means (guard w) (server w raw) fun server e => ServerOf w raw server ∧ e = 1 := by
  refine ((optional_means (fun _ => tls_yields) raw.tls).bind fun tls _ _ => Means.pure _).congr fun server e => ⟨?_, ?_⟩
  · rintro ⟨tls, _, _, given, ⟨rfl, rfl⟩, rfl⟩
    obtain ⟨rel, rfl⟩ := optional_one.mp given
    exact ⟨⟨tls, rel, rfl⟩, one_mul _⟩
  · rintro ⟨⟨tls, rel, rfl⟩, rfl⟩
    exact ⟨tls, 1, 1, optional_one.mpr ⟨rel, rfl⟩, ⟨rfl, rfl⟩, (one_mul _).symm⟩

/-- A loop that appends nothing. -/
theorem each_forall₂ {α β : Type} {P : α → β → Prop} {i : Nat} {l : List α} {bs : List β} {e : Found} :
    Each (fun _ a b e => P a b ∧ e = 1) i l bs e ↔ List.Forall₂ P l bs ∧ e = 1 := by
  constructor
  · intro h
    induction h with
    | nil => exact ⟨.nil, rfl⟩
    | cons first _ ih =>
      obtain ⟨holds, rfl⟩ := first
      obtain ⟨all, rfl⟩ := ih
      exact ⟨.cons holds all, one_mul _⟩
  · rintro ⟨all, rfl⟩
    induction all generalizing i with
    | nil => exact .nil i
    | cons first _ ih =>
      rw [← one_mul (1 : Found)]
      exact .cons ⟨first, rfl⟩ ih

theorem loadedConsumers_means : Means (guard w) (loadedConsumers w raw) (Each (ConsumerOf w) 0 raw.consumers.entries) :=
  Means.whileSome (fun _ _ => loadedConsumer_yields) 0 _

theorem namedUpstreams_means (valid : ∀ named ∈ raw.upstreams.entries, named.2.value.Valid) :
    Means (guard w) (namedUpstreams w raw) fun upstreams e => List.Forall₂ (UpstreamOf w) raw.upstreams.entries upstreams ∧ e = 1 := by
  refine ((Means.each_mem (fun _ named mem => namedUpstream_yields (w := w) (valid named mem)) 0).bind fun os _ _ => Means.pure _).congr
    fun upstreams e => ⟨?_, ?_⟩
  · rintro ⟨os, _, _, each, ⟨rfl, rfl⟩, rfl⟩
    obtain ⟨upstreams, rfl, all⟩ := Each.some_iff.mp each
    obtain ⟨rel, rfl⟩ := each_forall₂.mp all
    rw [reduceOption_some]
    exact ⟨rel, one_mul _⟩
  · rintro ⟨rel, rfl⟩
    exact ⟨upstreams.map some, 1, 1, Each.some_iff.mpr ⟨upstreams, rfl, each_forall₂.mpr ⟨rel, rfl⟩⟩, ⟨by rw [reduceOption_some], rfl⟩,
      (one_mul _).symm⟩

/-- An upstream keeps its name. -/
theorem upstreams_named {entries : List (Str × At Raw.Upstream)} {upstreams : List (Gateway.Upstream u)}
    (h : List.Forall₂ (UpstreamOf w) entries upstreams) : upstreams.map (·.name) = entries.map (·.1) := by
  induction h with
  | nil => rfl
  | cons first _ ih =>
    obtain ⟨url, files, -, -, rfl⟩ := first
    rw [List.map_cons, List.map_cons, ih]
    rfl

theorem loadedBots_means {upstreams : List (Gateway.Upstream u)}
    (known : ∀ bot ∈ raw.bots, ∀ name ∈ bot.upstream, ∃ up ∈ upstreams, up.name = name.value) :
    Means (guard w) (loadedBots w ruleMessage raw upstreams) (Each (BotOf m w raw upstreams) 0 raw.bots) := by
  refine ((Means.whileSome_mem (fun _ bot mem => loadedBot_yields (known bot mem)) 0).bind fun os _ _ => Means.pure _).congr
    fun bots e => ⟨?_, ?_⟩
  · rintro ⟨os, e₁, _, each, ⟨rfl, rfl⟩, rfl⟩
    obtain ⟨bots, rfl, all⟩ := Each.some_iff.mp each
    rwa [mul_one, reduceOption_some]
  · intro each
    exact ⟨bots.map some, e, 1, Each.some_iff.mpr ⟨bots, rfl, each⟩, ⟨by rw [reduceOption_some], rfl⟩, (mul_one _).symm⟩

variable (ruleMessage) in
theorem resolved_means (valid : raw.Valid) : Means (guard w) (resolved w ruleMessage raw) (LoadedOf m w raw) := by
  have known {upstreams : List (Gateway.Upstream u)} (h : List.Forall₂ (UpstreamOf w) raw.upstreams.entries upstreams) :
      ∀ bot ∈ raw.bots, ∀ name ∈ bot.upstream, ∃ up ∈ upstreams, up.name = name.value := by
    intro bot mem name named
    have mentioned := IndexMap.isSome_get.mp ((valid.bots bot mem).upstream name named).2
    rw [← upstreams_named h] at mentioned
    exact List.mem_map.mp mentioned
  have served := optional_means (fun raw => show Yields _ (do return some (← server w raw)) fun server e => ServerOf w raw server ∧ e = 1 from
    (server_means.bind fun server _ _ => Means.pure (some server)).congr fun o e =>
      ⟨fun ⟨server, e₁, _, ⟨given, one⟩, ⟨eq, one'⟩, same⟩ => ⟨server, eq, given, by rw [same, one, one', mul_one]⟩,
        fun ⟨server, eq, given, one⟩ => ⟨server, 1, 1, ⟨given, rfl⟩, ⟨eq, rfl⟩, one.trans (mul_one _).symm⟩⟩) raw.server
  refine (loadedConsumers_means.bind fun consumers _ _ => (namedUpstreams_means fun named mem => (valid.upstreams named mem).2).bind
    fun upstreams _ h => (loadedBots_means (known h.1)).bind fun bots _ _ => served.bind fun server _ _ =>
      (optional_means (fun _ => secret_yields) raw.admin.token).bind fun token _ _ => Means.pure _).congr fun config e => ⟨?_, ?_⟩
  · rintro ⟨consumers, e₁, _, given, ⟨upstreams, _, _, ⟨rel, rfl⟩, ⟨bots, e₂, _, each, ⟨server, _, _, plane, ⟨token, e₃, _, secret,
      ⟨rfl, rfl⟩, rfl⟩, rfl⟩, rfl⟩, rfl⟩, rfl⟩
    obtain ⟨serves, rfl⟩ := optional_one.mp plane
    exact ⟨consumers, e₁, upstreams, bots, e₂, server, token, e₃, given, rel, each, serves, secret, rfl, by simp only [one_mul, mul_one]⟩
  · rintro ⟨consumers, e₁, upstreams, bots, e₂, server, token, e₃, given, rel, each, serves, secret, rfl, rfl⟩
    exact ⟨consumers, e₁, _, given, ⟨upstreams, 1, _, ⟨rel, rfl⟩, ⟨bots, e₂, e₃, each, ⟨server, 1, e₃, optional_one.mpr ⟨serves, rfl⟩,
      ⟨token, e₃, 1, secret, ⟨rfl, rfl⟩, (mul_one _).symm⟩, (one_mul _).symm⟩, rfl⟩, (one_mul _).symm⟩, rfl⟩

end

end Tgin.Config
