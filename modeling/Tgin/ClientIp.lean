import Mathlib.Data.Bool.AllAny
import Mathlib.Data.List.DropRight
import Tgin.IpAddr

/-! The address a webhook request is judged by, `client_ip` of `tgin-botapi/src/webhook.rs`. What stands left of the right-most
    entry that is not a trusted proxy's does not change it, but for bytes that are not text in that entry's own header line
    (`clientIp_eq_iff`). -/

namespace Tgin
variable {IpNet : Type}

/-- A header's value: any bytes but control characters. -/
structure HeaderValue where
  bytes : List UInt8
  valid : ∀ b ∈ bytes, b = 9 ∨ 32 ≤ b ∧ b ≠ 127

namespace HeaderValue

def isVisibleAscii (b : UInt8) : Bool := 32 ≤ b && b < 127 || b = 9

/-- `HeaderValue::to_str`. -/
def toStr (value : HeaderValue) : Option (List UInt8) := if value.bytes.all isVisibleAscii then some value.bytes else none

end HeaderValue
open HeaderValue

namespace ClientIp

def comma : UInt8 := 44

/-- `char::is_whitespace`, of an ASCII character. -/
def isWhitespace (b : UInt8) : Bool := b = 32 || 9 ≤ b && b ≤ 13

def trim (entry : List UInt8) : List UInt8 := (entry.dropWhile isWhitespace).rdropWhile isWhitespace

/-- The address an entry of a line that is text names. -/
def parseEntry (entry : List UInt8) : Option IpAddr := (IpAddr.parse (trim entry)).map (·.toCanonical)

/-- The loop over the entries of a line, from the right: `.error` is a result, `.ok` the left-most address so far. -/
def readEntries (trusted : IpAddr → Bool) : List (List UInt8) → Option IpAddr → Except (Option IpAddr) (Option IpAddr)
  | [], client => .ok client
  | entry :: entries, _ =>
    match parseEntry entry with
    | none => .error none
    | some ip => if trusted ip then readEntries trusted entries (some ip) else .error (some ip)

/-- The loop over the lines, from the last. -/
def readLines (trusted : IpAddr → Bool) : List HeaderValue → Option IpAddr → Option IpAddr
  | [], client => client
  | line :: lines, client =>
    match line.toStr with
    | none => none
    | some text =>
      match readEntries trusted (text.splitOn comma).reverse client with
      | .error result => result
      | .ok client => readLines trusted lines client

/-- The client named by the lines of `X-Forwarded-For`: none without one, and an unknown one when an entry that has to be
    read is not an address. -/
def forwardedClient (headers : List HeaderValue) (trusted : IpAddr → Bool) : Option (Option IpAddr) :=
  if headers = [] then none else some (readLines trusted headers.reverse none)

/-- Whether one of the networks contains an address. -/
def trusts (contains : IpNet → IpAddr → Bool) (trustedProxies : List IpNet) (ip : IpAddr) : Bool :=
  trustedProxies.any (contains · ip)

def clientIp (contains : IpNet → IpAddr → Bool) (peer : IpAddr) (headers : List HeaderValue) (trustedProxies : List IpNet) :
    Option IpAddr :=
  if trusts contains trustedProxies peer.toCanonical then
    (forwardedClient headers (trusts contains trustedProxies)).getD (some peer.toCanonical)
  else some peer.toCanonical

/-! ### The property -/

/-- The entries of the lines, in order. -/
def entries (headers : List HeaderValue) : List (List UInt8) := headers.flatMap fun line => line.bytes.splitOn comma

/-- The address an entry names, if it is one. -/
def address (entry : List UInt8) : Option IpAddr := if entry.all isVisibleAscii then parseEntry entry else none

/-- A trusted proxy's entry. -/
def isProxy (trusted : IpAddr → Bool) (entry : List UInt8) : Bool := (address entry).any trusted

/-- The line of the right-most entry that is not a trusted proxy's is not text. -/
def garbled (trusted : IpAddr → Bool) (headers : List HeaderValue) : Bool :=
  match headers.reverse.find? fun line => !(line.bytes.splitOn comma).all (isProxy trusted) with
  | some line => !line.bytes.all isVisibleAscii
  | none => false

/-! ### Reading from the right -/

section
variable {trusted : IpAddr → Bool} {proxies left : List (List UInt8)} {entry text : List UInt8}

theorem visible_splitOn (text : List UInt8) :
    text.all isVisibleAscii ↔ ∀ entry ∈ text.splitOn comma, entry.all isVisibleAscii := by
  induction text with
  | nil => simp
  | cons b text ih =>
    rw [List.splitOn_cons_eq_if_modifyHead, List.all_cons, Bool.and_eq_true]
    obtain ⟨first, others, eq⟩ := List.exists_cons_of_ne_nil (List.splitOn_ne_nil comma text)
    rw [eq] at ih ⊢
    split
    · rename_i isComma
      rw [beq_iff_eq.mp isComma, List.forall_mem_cons, ih]
      exact and_congr_left' (by decide)
    · rw [ih, List.modifyHead_cons, List.forall_mem_cons, List.forall_mem_cons, List.all_cons, Bool.and_eq_true, and_assoc]

theorem isProxy_iff : isProxy trusted entry ↔ entry.all isVisibleAscii ∧ ∃ ip, parseEntry entry = some ip ∧ trusted ip := by
  rw [isProxy, Option.any_eq_true, address]
  split
  · rename_i visible
    exact (and_iff_right visible).symm
  · rename_i garbled
    simp [garbled]

/-- Proxies' entries are passed over. -/
theorem readEntries_proxies (all : ∀ e ∈ proxies, isProxy trusted e) (client : Option IpAddr) :
    ∃ client', ∀ left, readEntries trusted (proxies ++ left) client = readEntries trusted left client' := by
  induction proxies generalizing client with
  | nil => exact ⟨client, fun _ => rfl⟩
  | cons proxy proxies ih =>
    obtain ⟨first, others⟩ := List.forall_mem_cons.mp all
    obtain ⟨-, ip, named, isTrusted⟩ := isProxy_iff.mp first
    obtain ⟨client', past⟩ := ih others (some ip)
    refine ⟨client', fun left => ?_⟩
    rw [List.cons_append, readEntries, named]
    dsimp only
    rw [if_pos isTrusted, past]

/-- The first other one is the result. -/
theorem readEntries_stops (visible : entry.all isVisibleAscii) (other : ¬isProxy trusted entry) (left : List (List UInt8))
    (client : Option IpAddr) : readEntries trusted (entry :: left) client = .error (address entry) := by
  rw [readEntries, address, if_pos visible]
  rw [isProxy_iff, and_iff_right visible] at other
  cases named : parseEntry entry with
  | none => rfl
  | some ip => exact if_neg fun isTrusted => other ⟨ip, named, isTrusted⟩

theorem readLines_proxies {lines : List HeaderValue} (all : ∀ line ∈ lines, ∀ e ∈ line.bytes.splitOn comma, isProxy trusted e)
    (client : Option IpAddr) : ∃ client', ∀ left, readLines trusted (lines ++ left) client = readLines trusted left client' := by
  induction lines generalizing client with
  | nil => exact ⟨client, fun _ => rfl⟩
  | cons line lines ih =>
    obtain ⟨first, others⟩ := List.forall_mem_cons.mp all
    have text : line.toStr = some line.bytes := if_pos ((visible_splitOn _).mpr fun e he => (isProxy_iff.mp (first e he)).1)
    obtain ⟨client', read⟩ := readEntries_proxies (fun e he => first e (List.mem_reverse.mp he)) client
    obtain ⟨client'', past⟩ := ih others client'
    refine ⟨client'', fun left => ?_⟩
    have whole := read []
    rw [List.append_nil] at whole
    rw [List.cons_append, readLines, text]
    dsimp only
    rw [whole]
    exact past left

/-- The line of the right-most entry that is not a proxy's decides. -/
theorem forwardedClient_eq {before after : List HeaderValue} {line : HeaderValue} {right : List (List UInt8)}
    (here : line.bytes.splitOn comma = left ++ entry :: right) (other : ¬isProxy trusted entry)
    (proxies : ∀ e ∈ right ++ entries after, isProxy trusted e) :
    forwardedClient (before ++ line :: after) trusted = some (if line.bytes.all isVisibleAscii then address entry else none) ∧
      garbled trusted (before ++ line :: after) = !line.bytes.all isVisibleAscii := by
  obtain ⟨inLine, inAfter⟩ := List.forall_mem_append.mp proxies
  have later : ∀ l ∈ after.reverse, ∀ e ∈ l.bytes.splitOn comma, isProxy trusted e := fun l hl e he =>
    inAfter e (List.mem_flatMap.mpr ⟨l, List.mem_reverse.mp hl, he⟩)
  have order : (before ++ line :: after).reverse = after.reverse ++ line :: before.reverse := by simp
  constructor
  · obtain ⟨client, past⟩ := readLines_proxies later none
    rw [forwardedClient, if_neg (by simp), order, past, readLines, toStr]
    by_cases visible : line.bytes.all isVisibleAscii
    · rw [if_pos visible, if_pos visible]
      dsimp only
      have visible := (visible_splitOn _).mp visible
      obtain ⟨client', passed⟩ := readEntries_proxies (fun e he => inLine e (List.mem_reverse.mp he)) client
      rw [here, List.reverse_append, List.reverse_cons, List.append_assoc, List.singleton_append, passed,
        readEntries_stops (visible entry (by simp [here])) other]
    · rw [if_neg visible, if_neg visible]
  · have passed : after.reverse.find? (fun line => !(line.bytes.splitOn comma).all (isProxy trusted)) = none := by
      rw [List.find?_eq_none]
      intro l hl
      simpa using later l hl
    rw [garbled, order, List.find?_append, passed, Option.none_or, List.find?_cons_of_pos]
    simp [here, Bool.eq_false_iff.mpr other]

/-- Where an entry stands in the lines. -/
theorem exists_line {headers : List HeaderValue} {right : List (List UInt8)} (h : entries headers = left ++ entry :: right) :
    ∃ before line after left' right', headers = before ++ line :: after ∧ line.bytes.splitOn comma = left' ++ entry :: right' ∧
      right = right' ++ entries after := by
  induction headers generalizing left with
  | nil => simp [entries] at h
  | cons line headers ih =>
    change line.bytes.splitOn comma ++ entries headers = _ at h
    rcases List.append_eq_append_iff.mp h with ⟨between, rfl, rest⟩ | ⟨between, here, rest⟩
    · obtain ⟨before, line', after, left', right', rfl, here, eq⟩ := ih rest
      exact ⟨line :: before, line', after, left', right', rfl, here, eq⟩
    · cases between with
      | nil =>
        obtain ⟨before, line', after, left', right', rfl, here, eq⟩ := @ih [] rest.symm
        exact ⟨line :: before, line', after, left', right', rfl, here, eq⟩
      | cons e right' =>
        obtain ⟨rfl, eq⟩ := List.cons.inj rest
        exact ⟨[], line, headers, left, right', rfl, here, eq⟩

end

/-! ### What is left of it -/

section
variable {contains : IpNet → IpAddr → Bool} {peer : IpAddr} {trustedProxies : List IpNet} {headers headers' : List HeaderValue}
  {left left' right : List (List UInt8)} {entry : List UInt8}

theorem clientIp_eq (h : entries headers = left ++ entry :: right) (other : ¬isProxy (trusts contains trustedProxies) entry)
    (proxies : ∀ e ∈ right, isProxy (trusts contains trustedProxies) e) :
    clientIp contains peer headers trustedProxies =
      if trusts contains trustedProxies peer.toCanonical then
        if garbled (trusts contains trustedProxies) headers then none else address entry
      else some peer.toCanonical := by
  obtain ⟨before, line, after, left', right', rfl, here, rfl⟩ := exists_line h
  obtain ⟨client, isGarbled⟩ := forwardedClient_eq here other proxies
  rw [clientIp, client, isGarbled, Option.getD_some]
  cases line.bytes.all isVisibleAscii with
  | true => rfl
  | false => rfl

/-- Two requests whose entries agree from the right-most that is not a trusted proxy's on get the same address, if and only if
    the peer is none of the trusted proxies, or that entry is no address, or its header line is text in both or in neither. -/
theorem clientIp_eq_iff (h : entries headers = left ++ entry :: right) (h' : entries headers' = left' ++ entry :: right)
    (other : ¬isProxy (trusts contains trustedProxies) entry) (proxies : ∀ e ∈ right, isProxy (trusts contains trustedProxies) e) :
    clientIp contains peer headers trustedProxies = clientIp contains peer headers' trustedProxies ↔
      ¬trusts contains trustedProxies peer.toCanonical ∨ address entry = none ∨
        garbled (trusts contains trustedProxies) headers = garbled (trusts contains trustedProxies) headers' := by
  rw [clientIp_eq h other proxies, clientIp_eq h' other proxies]
  by_cases believed : trusts contains trustedProxies peer.toCanonical
  · rw [if_pos believed, if_pos believed]
    cases garbled (trusts contains trustedProxies) headers <;> cases garbled (trusts contains trustedProxies) headers' <;>
      simp [believed, eq_comm]
  · rw [if_neg believed, if_neg believed]
    exact iff_of_true rfl (.inl believed)

end

/-- A text, a byte for each character. -/
def bytes (text : String) : List UInt8 := text.toList.map fun c => UInt8.ofNat c.toNat

/-- A proxy, and the address it appends to what a client wrote. -/
def proxy : IpAddr := .v4 0x0a000001
def appended : List UInt8 := bytes " 203.0.113.7"

def honest : HeaderValue := ⟨bytes "198.51.100.2" ++ comma :: appended, List.all_iff_forall_prop.mp (by decide)⟩
def forged : HeaderValue := ⟨[255] ++ comma :: appended, List.all_iff_forall_prop.mp (by decide)⟩

theorem clientIp_eq_iff_forged :
    clientIp (fun net ip => decide (net = ip)) proxy [honest] [proxy] = clientIp (fun net ip => decide (net = ip)) proxy [forged] [proxy] ↔
      ¬trusts (fun net ip => decide (net = ip)) [proxy] proxy.toCanonical ∨ address appended = none ∨
        garbled (trusts (fun net ip => decide (net = ip)) [proxy]) [honest] =
          garbled (trusts (fun net ip => decide (net = ip)) [proxy]) [forged] :=
  @clientIp_eq_iff IpAddr (fun net ip => decide (net = ip)) proxy [proxy] [honest] [forged] [bytes "198.51.100.2"] [[255]] [] appended
    (by decide +kernel) (by decide +kernel) (by decide +kernel) nofun

/-- One byte that is not text, left of what the proxy appended, and the client is unknown. -/
theorem clientIp_forged :
    ¬∀ (headers headers' : List HeaderValue) (left left' right : List (List UInt8)) (entry : List UInt8),
      entries headers = left ++ entry :: right → entries headers' = left' ++ entry :: right →
      ¬isProxy (trusts (fun net ip => decide (net = ip)) [proxy]) entry →
      (∀ e ∈ right, isProxy (trusts (fun net ip => decide (net = ip)) [proxy]) e) →
      clientIp (fun net ip => decide (net = ip)) proxy headers [proxy] = clientIp (fun net ip => decide (net = ip)) proxy headers' [proxy] := by
  intro same
  have both := same [honest] [forged] [bytes "198.51.100.2"] [[255]] [] appended (by decide +kernel) (by decide +kernel)
    (by decide +kernel) nofun
  revert both
  decide +kernel

end ClientIp

end Tgin
