import Tgin.Config.Interp
import Tgin.Config.Report

/-! The HTTP paths a configuration serves, `HttpPaths` and `path_problem` of `config/validate.rs`: what a path may be, that no two are
    one, and that none is the gateway's. -/

namespace Tgin.Config
open Checked Raw Rules
open Gateway (Urls GatewayPath)
open Gateway.GatewayPath (isDigit)

/-- What loading a configuration asks of what is around it: the environment, the working directory, and the `url` crate. -/
structure World (u : Urls) where
  env : Env
  /-- The directory of the configuration file. -/
  baseDir : Str
  /-- `std::path::absolute`. -/
  absolute : Str → Except Str Str
  parseUrl : Str → Except Str u.Url
  /-- `port_or_known_default`. -/
  port : u.Url → Option Nat
  /-- The host is an address. -/
  hostIp : u.Url → Option IpAddr

variable {u : Urls}

/-- Paths that tgin itself serves or will serve. -/
def RESERVED : List Str := ["/c", "/mtproto", "/v1", "/livez", "/readyz", "/metrics"].map utf8

/-- What the gateway would serve at `path`, if anything. -/
def gatewayPath (path : Str) : Option String := do
  let rest ← Split.strip [slash] path
  let (rest, kind) := match Split.strip GatewayPath.FILE rest with
    | some file => (file, "file path")
    | none => (rest, "path segment")
  let ids ← Split.strip GatewayPath.BOT rest
  let digits := (ids.takeWhile isDigit).length
  if 0 < digits ∧ ids[digits]? = some colon then some kind else none

/-- `http://tgin.invalid`. -/
def INVALID_HOST : Str := utf8 "http://tgin.invalid"

/-- Whether a URL carries `path` as it is. -/
def isCarried (w : World u) (path : Str) : Bool :=
  match w.parseUrl (INVALID_HOST ++ path) with
  | .ok url => u.path url = path
  | .error _ => false

/-- Why `path`, joined to a base URL, would not reach the router as written. -/
def urlProblem (w : World u) (path : Str) : Option String :=
  if path.contains 63 then some "contains `?`; a URL would carry what follows as its query"
  else if path.contains 35 then some "contains `#`; a URL would drop what follows as its fragment"
  else if path.any fun b => b < 32 || b = 127 then some "contains a control character, which a URL encodes"
  else if path.contains 32 then some "contains whitespace, which a URL encodes; write it percent-encoded"
  else if ¬path.all (· < 128) then some "contains a non-ASCII character, which a URL encodes; write it percent-encoded"
  else if ¬isCarried w path then
    some "changes when it is part of a URL (`.` or `..` segments, `\\`, or characters a URL encodes); write it as the path is sent"
  else none

/-- Whether `path` is `reserved` or below it. -/
def isBelow (path reserved : Str) : Bool := (Split.strip reserved path).any fun rest => rest.isEmpty || rest.head? = some slash

/-- What is wrong with a configured HTTP path, if anything. -/
def pathProblem (w : World u) (path : Str) : Option Str :=
  if path.head? ≠ some slash then some (utf8 "must start with `/`")
  else if path.contains brace || path.contains close then some (utf8 "contains `\x7b` or `\x7d`; paths are literal")
  else if (path.splitOn slash).any fun segment => segment.head? = some 58 || segment.head? = some 42 then
    some (utf8 "has a segment starting with `:` or `*`; paths are literal")
  else
    match urlProblem w path with
    | some problem => some (utf8 problem)
    | none =>
      match gatewayPath path with
      | some kind => some (utf8 "starts with a bot-token " ++ utf8 kind ++ utf8 ", which tgin reserves for its Bot API gateway")
      | none => (RESERVED.find? (isBelow path)).map fun reserved =>
          utf8 "is " ++ quoted reserved ++ utf8 " or below it, which tgin reserves"

/-- Every configured HTTP path, expanded, with the YAML path of its first use. -/
abbrev HttpPaths := List (Str × Str)

/-- Adds a path; a path with a problem, or used already, is reported. -/
def HttpPaths.add (w : World u) (seen : HttpPaths) (yamlPath http : Str) (location : Location) : HttpPaths × Diagnostics :=
  match pathProblem w http with
  | some problem => (seen, Diagnostics.error yamlPath location (utf8 "the path " ++ problem))
  | none =>
    match seen.lookup http with
    | some first => (seen, Diagnostics.error yamlPath location (utf8 "the path is already used by " ++ first))
    | none => (seen ++ [(http, yamlPath)], .none)

/-! ### What is served -/

/-- A path that can be configured. -/
structure Routable (w : World u) (path : Str) : Prop where
  rooted : path.head? = some slash
  literal : brace ∉ path ∧ close ∉ path ∧ ∀ segment ∈ path.splitOn slash, segment.head? ≠ some 58 ∧ segment.head? ≠ some 42
  /-- Visible ASCII, without `?` and `#`. -/
  visible : ∀ b ∈ path, 32 < b ∧ b < 127 ∧ b ≠ 63 ∧ b ≠ 35
  /-- A URL carries it as it is. -/
  carried : ∃ url, w.parseUrl (INVALID_HOST ++ path) = .ok url ∧ u.path url = path
  notGateway : gatewayPath path = none
  notReserved : ∀ reserved ∈ RESERVED, path ≠ reserved ∧ ∀ rest, path ≠ reserved ++ slash :: rest

section
variable {w : World u} {path : Str}

theorem isCarried_iff : isCarried w path = true ↔ ∃ url, w.parseUrl (INVALID_HOST ++ path) = .ok url ∧ u.path url = path := by
  unfold isCarried
  cases w.parseUrl (INVALID_HOST ++ path) <;> simp

theorem visible_iff : (∀ b ∈ path, 32 < b ∧ b < 127 ∧ b ≠ 63 ∧ b ≠ 35) ↔
    path.contains 63 = false ∧ path.contains 35 = false ∧ (path.any fun b => b < 32 || b = 127) = false ∧
      path.contains 32 = false ∧ path.all (· < 128) = true := by
  simp only [← Bool.not_eq_true, List.contains_iff_mem, List.any_eq_true, List.all_eq_true, decide_eq_true_eq, Bool.or_eq_true,
    not_exists, not_and, not_or]
  constructor
  · intro h
    exact ⟨fun m => (h _ m).2.2.1 rfl, fun m => (h _ m).2.2.2 rfl, fun b m => by grind, fun m => by grind, fun b m => by grind⟩
  · rintro ⟨question, hash, control, space, ascii⟩ b m
    have hc := control b m
    have ha := ascii b m
    have hs : b ≠ 32 := fun eq => space (eq ▸ m)
    exact ⟨by grind, by grind, fun eq => question (eq ▸ m), fun eq => hash (eq ▸ m)⟩

theorem urlProblem_eq_none : urlProblem w path = none ↔
    (∀ b ∈ path, 32 < b ∧ b < 127 ∧ b ≠ 63 ∧ b ≠ 35) ∧ ∃ url, w.parseUrl (INVALID_HOST ++ path) = .ok url ∧ u.path url = path := by
  rw [visible_iff, ← isCarried_iff, urlProblem]
  cases path.contains 63 <;> cases path.contains 35 <;> cases path.any (fun b => b < 32 || b = 127) <;>
    cases path.contains 32 <;> cases path.all (· < 128) <;> cases isCarried w path <;> simp

theorem isBelow_eq_false {reserved : Str} : isBelow path reserved = false ↔ path ≠ reserved ∧ ∀ rest, path ≠ reserved ++ slash :: rest := by
  unfold isBelow
  cases found : Split.strip reserved path with
  | none =>
    simp only [Option.any_none, true_iff]
    have absent (rest : Str) : path ≠ reserved ++ rest := fun eq => by
      rw [Split.strip_eq_some.mpr eq] at found
      cases found
    exact ⟨fun eq => absent [] (by rw [eq, List.append_nil]), fun rest => absent (slash :: rest)⟩
  | some rest =>
    obtain rfl := Split.strip_eq_some.mp found
    rw [Option.any_some, Bool.or_eq_false_iff]
    cases rest with
    | nil => simp
    | cons b rest => simp

theorem pathProblem_eq_none : pathProblem w path = none ↔ Routable w path := by
  have reserved : RESERVED.find? (isBelow path) = none ↔ ∀ reserved ∈ RESERVED, path ≠ reserved ∧ ∀ rest, path ≠ reserved ++ slash :: rest := by
    rw [List.find?_eq_none]
    exact forall₂_congr fun r _ => by rw [Bool.not_eq_true, isBelow_eq_false]
  have literal : ((path.splitOn slash).any fun segment => segment.head? = some 58 || segment.head? = some 42) = false ↔
      ∀ segment ∈ path.splitOn slash, segment.head? ≠ some 58 ∧ segment.head? ≠ some 42 := by
    simp [List.any_eq_false]
  constructor
  · intro h
    unfold pathProblem at h
    split_ifs at h with rooted braces segments
    split at h
    · cases h
    rename_i url
    split at h
    · cases h
    rename_i gateway
    obtain ⟨visible, carried⟩ := urlProblem_eq_none.mp url
    simp only [List.contains_eq_mem, Bool.or_eq_true, decide_eq_true_eq, not_or] at braces
    exact {
      rooted := not_not.mp rooted
      literal := ⟨braces.1, braces.2, literal.mp (Bool.not_eq_true _ ▸ segments)⟩
      visible, carried
      notGateway := gateway
      notReserved := reserved.mp (Option.map_eq_none_iff.mp h) }
  · intro h
    obtain ⟨braces, closes, segments⟩ := h.literal
    unfold pathProblem
    rw [if_neg (not_not.mpr h.rooted), if_neg, if_neg, urlProblem_eq_none.mpr ⟨h.visible, h.carried⟩, h.notGateway]
    · exact Option.map_eq_none_iff.mpr (reserved.mpr h.notReserved)
    · rw [literal.mpr segments]
      exact Bool.false_ne_true
    · simp [braces, closes]

/-! ### The gateway's paths -/

/-- A path the gateway serves has a segment that decodes to a token, below nothing, `file/` or a consumer. -/
theorem parse_segment {served : GatewayPath} (parsed : GatewayPath.parse path = some served) :
    ∃ lead segment rest token, path = slash :: (lead ++ (segment ++ slash :: rest)) ∧ slash ∉ segment ∧
      GatewayPath.tokenSegment segment = some token ∧ (lead = [] ∨ lead = GatewayPath.FILE ∨ GatewayPath.CONSUMER <+: lead) := by
  unfold GatewayPath.parse at parsed
  simp only [Option.bind_eq_bind, Option.bind_eq_some_iff] at parsed
  obtain ⟨rest, lead, ⟨consumed, tail⟩, taken, parsed⟩ := parsed
  obtain rfl := Split.strip_eq_some.mp lead
  have before : ∃ named, rest = named ++ tail ∧ (named = [] ∨ GatewayPath.CONSUMER <+: named) := by
    cases consumed with
    | none => exact ⟨[], (GatewayPath.consumer_none.mp taken).1, .inl rfl⟩
    | some name =>
      obtain ⟨rfl, -⟩ := GatewayPath.consumer_some.mp taken
      exact ⟨GatewayPath.CONSUMER ++ (name ++ [slash]), by simp, .inr (List.prefix_append ..)⟩
  obtain ⟨named, rfl, kinds⟩ := before
  dsimp only at parsed
  split at parsed
  · rename_i after file
    obtain rfl := Split.strip_eq_some.mp file
    simp only [Option.bind_eq_some_iff] at parsed
    obtain ⟨⟨segment, rest⟩, cut, token, decoded, -⟩ := parsed
    obtain ⟨rfl, one⟩ := Split.once_eq_some.mp cut
    refine ⟨named ++ GatewayPath.FILE, segment, rest, token, by simp, one, decoded, ?_⟩
    rcases kinds with rfl | ⟨more, rfl⟩
    · exact .inr (.inl rfl)
    · exact .inr (.inr ⟨more ++ GatewayPath.FILE, (List.append_assoc ..).symm⟩)
  · simp only [Option.bind_eq_some_iff] at parsed
    obtain ⟨⟨segment, rest⟩, cut, token, decoded, -⟩ := parsed
    obtain ⟨rfl, one⟩ := Split.once_eq_some.mp cut
    exact ⟨named, segment, rest, token, rfl, one, decoded, kinds.elim .inl fun h => .inr (.inr h)⟩

theorem percentDecode_plain {text : Str} (plain : (37 : UInt8) ∉ text) : LocalFiles.percentDecode text = text := by
  induction text with
  | nil => rw [LocalFiles.percentDecode]
  | cons b text ih =>
    obtain ⟨ne, rest⟩ := not_or.mp (mt List.mem_cons.mpr plain)
    rw [LocalFiles.percentDecode_cons (Ne.symm ne), ih rest]

/-- A token as it is written begins with digits and a colon. -/
theorem gatewayToken_digits {token : Str} (h : GatewayPath.gatewayToken token = true) :
    ∃ id secret, token = id ++ colon :: secret ∧ id ≠ [] ∧ ∀ b ∈ id, isDigit b = true := by
  unfold GatewayPath.gatewayToken at h
  split at h
  · cases h
  · rename_i id secret cut
    simp only [Bool.and_eq_true, decide_eq_true_eq, List.all_eq_true] at h
    exact ⟨id, secret, (Split.once_eq_some.mp cut).1, h.1.1.1, h.1.1.2⟩

/-- Where a token stands as it is, the path is reserved. -/
theorem gatewayPath_of_token {lead token : Str} (rest : Str) (place : lead = [] ∨ lead = GatewayPath.FILE)
    (shaped : GatewayPath.gatewayToken token = true) :
    (gatewayPath (slash :: (lead ++ (GatewayPath.BOT ++ token ++ rest)))).isSome := by
  obtain ⟨id, secret, rfl, ne, digits⟩ := gatewayToken_digits shaped
  have taken : ((id ++ colon :: (secret ++ rest)).takeWhile isDigit) = id := by
    rw [List.takeWhile_append_of_pos digits, List.takeWhile_cons_of_neg (by decide), List.append_nil]
  have tail : Split.strip GatewayPath.BOT (GatewayPath.BOT ++ (id ++ colon :: (secret ++ rest))) = some (id ++ colon :: (secret ++ rest)) :=
    Split.strip_eq_some.mpr rfl
  have whole : GatewayPath.BOT ++ (id ++ colon :: secret) ++ rest = GatewayPath.BOT ++ (id ++ colon :: (secret ++ rest)) := by simp
  have found : 0 < id.length ∧ (id ++ colon :: (secret ++ rest))[id.length]? = some colon :=
    ⟨List.length_pos_iff.mpr ne, by simp⟩
  rw [whole]
  rcases place with rfl | rfl
  · have noFile : Split.strip GatewayPath.FILE (GatewayPath.BOT ++ (id ++ colon :: (secret ++ rest))) = none := rfl
    have first : Split.strip [slash] (slash :: ([] ++ (GatewayPath.BOT ++ (id ++ colon :: (secret ++ rest))))) =
        some (GatewayPath.BOT ++ (id ++ colon :: (secret ++ rest))) := Split.strip_eq_some.mpr rfl
    simp only [gatewayPath, first, Option.bind_eq_bind, Option.bind_some, noFile, tail, taken, if_pos found, Option.isSome_some]
  · have file : Split.strip GatewayPath.FILE (GatewayPath.FILE ++ (GatewayPath.BOT ++ (id ++ colon :: (secret ++ rest)))) =
        some (GatewayPath.BOT ++ (id ++ colon :: (secret ++ rest))) := Split.strip_eq_some.mpr rfl
    have first : Split.strip [slash] (slash :: (GatewayPath.FILE ++ (GatewayPath.BOT ++ (id ++ colon :: (secret ++ rest))))) =
        some (GatewayPath.FILE ++ (GatewayPath.BOT ++ (id ++ colon :: (secret ++ rest)))) := Split.strip_eq_some.mpr rfl
    simp only [gatewayPath, first, Option.bind_eq_bind, Option.bind_some, file, tail, taken, if_pos found, Option.isSome_some]

/-- A configured path that the gateway would serve as well has its token percent-encoded. -/
theorem Routable.shadows (h : Routable w path) {served : GatewayPath} (parsed : GatewayPath.parse path = some served) :
    ∃ lead segment rest, path = slash :: (lead ++ (GatewayPath.BOT ++ segment ++ slash :: rest)) ∧
      (lead = [] ∨ lead = GatewayPath.FILE) ∧ slash ∉ segment ∧ (37 : UInt8) ∈ segment := by
  obtain ⟨lead, segment, rest, token, rfl, one, decoded, place⟩ := parse_segment parsed
  have noConsumer : ¬GatewayPath.CONSUMER <+: lead := by
    rintro ⟨more, rfl⟩
    -- `/c` and what is below it is reserved.
    refine (h.notReserved (utf8 "/c") (by decide)).2 (more ++ (segment ++ slash :: rest)) ?_
    simp [utf8, GatewayPath.CONSUMER, Utf8.encode]
    rfl
  have place : lead = [] ∨ lead = GatewayPath.FILE := place.imp_right fun p => p.resolve_right noConsumer
  unfold GatewayPath.tokenSegment at decoded
  simp only [Option.bind_eq_bind, Option.bind_eq_some_iff, Option.filter_eq_some_iff] at decoded
  obtain ⟨encoded, bot, read, shaped⟩ := decoded
  obtain rfl := Split.strip_eq_some.mp bot
  refine ⟨lead, encoded, rest, rfl, place, fun mem => one (List.mem_append_right _ mem), ?_⟩
  by_contra plain
  rw [percentDecode_plain plain] at read
  obtain rfl := LocalFiles.fromUtf8_eq read
  have reserved := gatewayPath_of_token (slash :: rest) place shaped
  rw [h.notGateway] at reserved
  cases reserved

end

end Tgin.Config
