import Tgin.UpdateFacts.Reference

/-! The facts that are read of an update are those that it says, but for a command whose token has an escape. -/

namespace Tgin.UpdateFacts
open Rules
open JsonText (Hex Item Items backslash chars hexDigit)
open Utf8 (Valid encode fit)

section
variable {raw source digits : Str} {item : Item} {items token : List Item} {n : Nat}

/-! ### Tokens -/

theorem char_ofNat {c : Char} (h : Char.ofNat n = c) (char : n.isValidChar) : n = c.toNat := by
  subst h
  rw [Char.ofNat, dif_pos char]
  rfl

/-- The digits of a `/`. -/
theorem hex_slash (h : Hex digits 47) : digits = [48, 48, 50, 102] ∨ digits = [48, 48, 50, 70] := by
  generalize same : 47 = n at h
  cases h with
  | @mk a b c d i j k l first second third fourth =>
    have first := JsonText.hexDigit_eq first
    have second := JsonText.hexDigit_eq second
    have third := JsonText.hexDigit_eq third
    have last := JsonText.hexDigit_eq fourth
    have small := JsonText.hexDigit_lt fourth
    have eq {b : UInt8} (n : Nat) (h : b.toNat = n) : b = .ofNat n := by rw [← h, UInt8.ofNat_toNat]
    obtain rfl := eq (b := a) 48 (by omega)
    obtain rfl := eq (b := b) 48 (by omega)
    obtain rfl := eq (b := c) 50 (by omega)
    rcases last with last | last | last
    · omega
    · exact .inl (by rw [eq (b := d) 102 (by omega)]; rfl)
    · exact .inr (by rw [eq (b := d) 70 (by omega)]; rfl)

/-- A `/` is written in four ways. -/
theorem slash_source (h : Items raw (item :: items)) (slash : item.char = '/') : item.source ∈ SLASHES := by
  cases h with
  | plain _ h =>
    obtain rfl : _ = '/' := slash
    decide
  | @escape e b _ _ escape h =>
    exact escape_forall (P := fun e b => Char.ofNat b.toNat = '/' → [backslash, e] ∈ SLASHES) escape
      (List.all_iff_forall_prop.mp (by decide)) slash
  | unicode hex char h =>
    obtain rfl := char_ofNat slash char
    rcases hex_slash hex with rfl | rfl
    all_goals decide
  | @pair _ _ _ m n _ _ _ high low h =>
    dsimp only at slash
    rw [JsonText.paired] at slash
    have valid : (0x10000 + (m - 0xD800) * 0x400 + (n - 0xDC00)).isValidChar := .inr ⟨by omega, by omega⟩
    have code := char_ofNat slash valid
    have small : '/'.toNat < 0x10000 := by decide
    omega
  | alone =>
    have other : JsonText.REPLACEMENT ≠ '/' := by decide
    exact absurd slash other

theorem findSlash (h : source ∈ SLASHES) (rest : Str) : SLASHES.findSome? (Split.strip · (source ++ rest)) = some rest := by
  simp only [SLASHES, List.mem_cons, List.not_mem_nil, or_false] at h
  rcases h with rfl | rfl | rfl | rfl
  all_goals simp [SLASHES, Split.strip]

/-- The source of a token is looked up behind the source of the `/`. -/
theorem sourceToken_isSome (h : Items raw (item :: items)) (slash : item.char = '/') (token : List Char) :
    (sourceToken (encode token) raw).isSome = true ↔ encode token <+: raw.drop item.source.length := by
  have source := slash_source h slash
  obtain ⟨rest, rfl, later⟩ := h.tail
  rw [sourceToken, findSlash source, Option.bind_some, List.drop_left, Option.isSome_iff_exists]
  constructor
  · rintro ⟨found, same⟩
    obtain ⟨sliced, eq⟩ := Option.filter_eq_some_iff.mp same
    obtain rfl : found = encode token := by simpa using eq
    rw [Utf8.slice] at sliced
    split at sliced
    · rw [List.drop_zero] at sliced
      exact Option.some.inj sliced ▸ List.take_prefix _ _
    · cases sliced
  · rintro ⟨after, rfl⟩
    have valid : Valid after := (valid_of_items later).of_append ⟨token, rfl⟩
    refine ⟨encode token, Option.filter_eq_some_iff.mpr ⟨?_, decide_eq_true rfl⟩⟩
    exact Utf8.slice_eq [] after rfl ⟨token, rfl⟩ valid rfl (Nat.zero_add _).symm

/-- Characters without escapes are their source. -/
theorem encode_prefix (h : Items raw items) (plain : ∀ item ∈ token, item.escaped = false) (first : token <+: items) :
    encode (chars token) <+: raw := by
  obtain ⟨more, rfl⟩ := first
  have same : encode (chars token) = token.flatMap (·.source) := by
    rw [encode, chars, List.flatMap_map]
    exact List.flatMap_congr fun item mem => (h.source_eq item (List.mem_append_left _ mem) (plain item mem)).symm
  rw [h.sources, List.flatMap_append, same]
  exact List.prefix_append _ _

theorem kept_chars (items : List Item) : chars (kept items) = fit TEXT_CAP (chars items) := by
  rw [kept, chars, List.map_take]
  exact (List.prefix_iff_eq_take.mp (Utf8.fit_prefix _ _)).symm

theorem tokenAfter_eq_some {slash : Item} (h : tokenAfter items = some (slash, token)) :
    ∃ rest, items = slash :: rest ∧ slash.char = '/' ∧ rest.takeWhile (fun item => !Utf8.isWhitespace item.char) = token := by
  cases items with
  | nil => cases h
  | cons first rest =>
    rw [tokenAfter] at h
    split at h
    · rename_i begins
      cases h
      exact ⟨rest, rfl, begins, rfl⟩
    · cases h

/-- The command of a text is the one of its literal if the source of a token with an escape is told apart from the token. -/
theorem command_literal (h : Literal raw) : command (encode (chars (kept (JsonText.read raw)))) (raw.contains backslash) raw =
    literalCommand raw ↔ Apart raw := by
  have items := h.items
  obtain ⟨more, whole⟩ : kept (JsonText.read raw) <+: JsonText.read raw := List.take_prefix _ _
  cases cut : tokenAfter (kept (JsonText.read raw)) with
  | none =>
    have absent : commandOf (chars (kept (JsonText.read raw))) = none := by
      cases first : kept (JsonText.read raw) with
      | nil => rfl
      | cons slash rest =>
        rw [first, tokenAfter] at cut
        split at cut
        · cases cut
        · rename_i other
          exact if_neg other
    rw [command_eq_none absent, literalCommand, cut]
    exact iff_of_true rfl fun slash token eq => by rw [cut] at eq; cases eq
  | some found =>
    obtain ⟨slash, token⟩ := found
    obtain ⟨rest, first, begins, taken⟩ := tokenAfter_eq_some cut
    rw [first, List.cons_append] at whole
    rw [← whole] at items
    have held : Apart raw ↔ ((∃ item ∈ token, item.escaped) → ¬encode (chars token) <+: raw.drop slash.source.length) := by
      refine ⟨fun apart => apart slash token cut, fun apart slash' token' cut' => ?_⟩
      obtain ⟨rfl, rfl⟩ := Prod.mk.inj (Option.some.inj (cut.symm.trans cut'))
      exact apart
    have same : tokenOf (chars rest) = chars token := by
      rw [tokenOf, chars, List.takeWhile_map, ← taken]
      rfl
    have text : chars (slash :: rest) = '/' :: chars rest := begins ▸ rfl
    have inside : token <+: rest ++ more := taken ▸ (List.takeWhile_prefix _).trans (List.prefix_append _ _)
    have found := sourceToken_isSome items begins (chars token)
    rw [first, text, command_slash, same, literalCommand, cut, held]
    simp only [Option.bind_some]
    cases escaped : token.any (·.escaped) with
    | true =>
      obtain ⟨item, mem, escape⟩ := List.any_eq_true.mp escaped
      have contains : raw.contains backslash = true :=
        List.contains_iff_mem.mpr (items.escaped (List.mem_cons_of_mem _ (inside.subset mem)) escape)
      rw [contains, if_pos rfl, Bool.not_true, Bool.false_or, forall_prop_of_true ⟨item, mem, escape⟩, ← found]
      cases (sourceToken (encode (chars token)) raw).isSome <;> simp
    | false =>
      have plain : ∀ item ∈ token, item.escaped = false := fun item mem => by simpa using List.any_eq_false.mp escaped item mem
      obtain ⟨source, eq, later⟩ := items.tail
      have begin : encode (chars token) <+: raw.drop slash.source.length := by
        rw [eq, List.drop_left]
        exact encode_prefix later plain inside
      rw [found.mpr begin, Bool.or_true, if_pos rfl, if_neg Bool.false_ne_true]
      refine iff_of_true rfl ?_
      rintro ⟨item, mem, escape⟩
      exact absurd escape (by rw [plain item mem]; exact Bool.false_ne_true)

end

section
variable {serde : Serde} {updateType raw inner : Str} {seed : PayloadSeed} {p : Payload} {doc : JsonDoc}
  {fields : List (Str × JsonDoc)}

/-! ### The facts of an update -/

theorem unescape_escaped (raw : Str) (limit : Nat) (out : Str) : (unescape raw limit out).1.escaped = raw.contains backslash := by
  rw [unescape]
  cases raw.contains backslash <;> rfl

/-- A string looked up in the object is a literal. -/
theorem string_literal {name : String} (each : ∀ f ∈ fields, PayloadMember serde f) (found : string name (.object fields) = some raw) :
    Literal raw := by
  obtain ⟨value, last, contents⟩ := Option.bind_eq_some_iff.mp found
  rw [member] at last
  obtain ⟨f, mem, -, rfl⟩ := mem_of_lastMember last
  have isString : f.2 = .string raw := by
    cases eq : f.2 with
    | string inner =>
      rw [eq] at contents
      rw [Option.some.inj contents]
    | _ =>
      rw [eq] at contents
      cases contents
  rcases (each f mem).value with reads | ⟨-, inner, eq, literal⟩
  · rw [isString] at reads
    cases reads with
    | string key => exact key.literal
  · rw [isString] at eq
    cases eq
    exact literal

theorem literalOf_literal {inlineQuery : Bool} (each : ∀ f ∈ fields, PayloadMember serde f)
    (found : literalOf inlineQuery (.object fields) = some raw) : Literal raw := by
  rcases Option.or_eq_some_iff.mp found with text | ⟨-, found⟩
  · exact string_literal each text
  · rcases Option.or_eq_some_iff.mp found with caption | ⟨-, query⟩
    · exact string_literal each caption
    · split at query
      · exact string_literal each query
      · cases query

/-- The first string of the three that are kept. -/
theorem rawText_eq (of : p.Of serde seed doc) :
    ([p.text, p.caption, p.query].filterMap id).findSome? stringContents = literalOf seed.inlineQuery doc := by
  have first (o : Option JsonDoc) (l : List (Option JsonDoc)) :
      ((o :: l).filterMap id).findSome? stringContents = (o.bind stringContents).or ((l.filterMap id).findSome? stringContents) := by
    cases o with
    | none => rfl
    | some value =>
      rw [List.filterMap_cons, id, List.findSome?_cons, Option.bind_some]
      cases stringContents value <;> rfl
  rw [first, first, first, List.filterMap_nil, List.findSome?_nil, Option.or_none, of.text, of.caption, of.query, literalOf]
  cases seed.inlineQuery <;> rfl

theorem kept_text (h : Literal raw) (out added : Str) :
    (unescape raw TEXT_CAP out).1.resolve ((unescape raw TEXT_CAP out).2 ++ added) = encode (chars (kept (JsonText.read raw))) := by
  rw [unescape_resolve h.items, kept_chars]

/-- The data are not cut. -/
theorem whole_text (h : Literal raw) (out : Str) : (unescape raw wordMax out).1.resolve (unescape raw wordMax out).2 = textOf raw := by
  have resolved := unescape_resolve h.items wordMax out []
  rw [List.append_nil] at resolved
  rw [resolved, Utf8.fit_all (Nat.le_trans (items_length h.items) h.length), textOf]

/-- What of the facts is read is what the object says; the command is the one of the text. -/
theorem intoFacts_eq (updateId : Option Int64)
    (of : p.Of serde { callbackQuery := updateType = CALLBACK_QUERY, inlineQuery := updateType = INLINE_QUERY } doc)
    (texts : ∀ raw, literalOf (updateType = INLINE_QUERY) doc = some raw → Literal raw)
    (datas : ∀ inner, string "data" doc = some inner → Literal inner) :
    Update.intoFacts { updateId, kind := some (updateType, p) } = { factsOf serde updateType doc with
      command := (literalOf (updateType = INLINE_QUERY) doc).bind fun raw =>
        command (encode (chars (kept (JsonText.read raw)))) (raw.contains backslash) raw } := by
  have chat : p.chat.or p.messageChat = (chatOf (updateType = CALLBACK_QUERY) doc).map (chatFacts serde) := by
    rw [of.chat, of.messageChat, chatOf]
    split
    · exact Option.map_or.symm
    · rw [Option.or_none, Option.or_none]
  have user : (p.from.or p.user).join = (userOf doc).bind (integer serde "id") := by
    rw [of.from, of.user, userOf, ← Option.map_or]
    cases (object (member "from" doc)).or (object (member "user" doc)) <;> rfl
  have data : p.data.bind stringContents = if updateType = CALLBACK_QUERY then string "data" doc else none := by
    rw [of.data]
    by_cases callback : updateType = CALLBACK_QUERY
    · simp [callback, string]
    · simp [callback]
  have shownData : (if decide (updateType = CALLBACK_QUERY) = true then (string "data" doc).map textOf else none) =
      (p.data.bind stringContents).map textOf := by
    rw [data]
    by_cases callback : updateType = CALLBACK_QUERY
    · simp [callback]
    · simp [callback]
  have dataLiteral (inner : Str) (found : p.data.bind stringContents = some inner) : Literal inner := by
    rw [data] at found
    split at found
    · exact datas inner found
    · cases found
  have chatId : ((chatOf (updateType = CALLBACK_QUERY) doc).map (chatFacts serde)).bind (·.id) =
      (chatOf (updateType = CALLBACK_QUERY) doc).bind (integer serde "id") := Option.bind_map ..
  have chatType : ((chatOf (updateType = CALLBACK_QUERY) doc).map (chatFacts serde)).bind (·.kind) =
      (chatOf (updateType = CALLBACK_QUERY) doc).bind fun chat => (member "type" chat).bind typeOf := Option.bind_map ..
  rw [Update.intoFacts, factsOf]
  dsimp only
  rw [rawText_eq of, chat, user, shownData, chatId, chatType]
  cases literal : literalOf (updateType = INLINE_QUERY) doc with
  | none =>
    cases found : p.data.bind stringContents with
    | none => rfl
    | some inner =>
      simp only [Option.map_some, Option.map_none, Option.getD_some, Option.bind_none, whole_text (dataLiteral inner found)]
  | some raw =>
    have text := texts raw literal
    have resolved := kept_text text []
    cases found : p.data.bind stringContents with
    | none =>
      have resolved := resolved []
      rw [List.append_nil] at resolved
      simp only [Option.map_some, Option.map_none, Option.getD_some, Option.getD_none, Option.bind_some, resolved, unescape_escaped]
    | some inner =>
      obtain ⟨added, grown, -⟩ := unescape_buffer (dataLiteral inner found).items wordMax (unescape raw TEXT_CAP []).2
      simp only [Option.map_some, Option.getD_some, Option.bind_some, whole_text (dataLiteral inner found), unescape_escaped]
      rw [grown, resolved]

end

/-- The literal of the text of an update. -/
noncomputable def textLiteral (members : List (Str × JsonDoc)) : Option Str :=
  (kindOf members).bind fun (key, p) => literalOf (textOf key = INLINE_QUERY) p

/-- What is kept of the first object among the members is what is looked up in it. -/
def KindOf (serde : Serde) (members : List (Str × JsonDoc)) (kind : Option (Str × Payload)) : Prop :=
  match members.find? fun m => m.1 ≠ UPDATE_ID && isObject m.2 with
  | none => kind = none
  | some (key, doc) => ∃ p, kind = some (key, p) ∧
      p.Of serde { callbackQuery := key = CALLBACK_QUERY, inlineQuery := key = INLINE_QUERY } doc

section
variable {serde : Serde} {members others : List (Str × JsonDoc)} {m : Str × JsonDoc} {update : Update}

/-! ### An update -/

theorem UpdateMember.text (h : UpdateMember serde m) : textOf m.1 = m.1 := textOf_verbatim h.key.literal h.noEscape

theorem UpdateMember.fields (h : UpdateMember serde m) (eq : m.2 = .object others) : ∀ f ∈ others, PayloadMember serde f := by
  rcases h.value with reads | ⟨_, same, each⟩
  · rw [eq] at reads
    cases reads with
    | object keys reads => exact fun f hf => ⟨keys f hf, .inl (reads f hf)⟩
  · rw [eq] at same
    cases same
    exact each

theorem UpdateMember.topKey (h : UpdateMember serde m) (documented : serde.Documented) :
    TopKey.deserialize serde m.1 = some (if m.1 = UPDATE_ID then .updateId else .name m.1) := by
  have borrowed : m.1.contains backslash = false := by simpa using h.noEscape
  rw [TopKey.deserialize, h.key.str documented, h.text]
  simp only [Option.bind_eq_bind, Option.bind_some, borrowed]
  split <;> rfl

/-- What the members make of what is read so far. -/
structure Update.Visited (serde : Serde) (members : List (Str × JsonDoc)) (update read : Update) : Prop where
  updateId : read.updateId = ((lastMember (fun key => key = UPDATE_ID) members).map (i64 serde)).getD update.updateId
  kind : if update.kind.isSome then read.kind = update.kind else KindOf serde members read.kind

/-- A member that is no update's object changes no more than the id. -/
theorem Update.Visited.cons {next read : Update} (h : next.Visited serde members read)
    (other : (m.1 ≠ UPDATE_ID && isObject m.2) = false ∨ update.kind.isSome) (kind : next.kind = update.kind)
    (updateId : next.updateId = if m.1 = UPDATE_ID then i64 serde m.2 else update.updateId) : update.Visited serde (m :: members) read where
  updateId := by
    rw [h.updateId, updateId, lastMember_cons]
    cases lastMember (fun key => key = UPDATE_ID) members with
    | some value => rfl
    | none =>
      by_cases isId : m.1 = UPDATE_ID
      · simp [isId]
      · simp [isId]
  kind := by
    have same := h.kind
    rw [kind] at same
    rcases other with other | started
    · rwa [KindOf, List.find?_cons_of_neg (by rw [other]; exact Bool.false_ne_true)]
    · rw [if_pos started] at same ⊢
      exact same

/-- The induction is on the members that are left. -/
theorem visit_eq (documented : serde.Documented) (each : ∀ m ∈ members, UpdateMember serde m) (update : Update) :
    ∃ read, Update.visit serde members update = some read ∧ update.Visited serde members read := by
  induction members generalizing update with
  | nil =>
    refine ⟨update, rfl, rfl, ?_⟩
    split
    · rfl
    · rename_i none
      simpa [KindOf] using none
  | cons m members ih =>
    obtain ⟨here, each⟩ := List.forall_mem_cons.mp each
    rw [Update.visit, here.topKey documented]
    simp only [Option.bind_eq_bind, Option.bind_some]
    by_cases isId : m.1 = UPDATE_ID
    · obtain ⟨id, integer⟩ := Option.isSome_iff_exists.mp (here.id isId)
      obtain ⟨read, run, visited⟩ := ih each { update with updateId := some id }
      refine ⟨read, ?_, visited.cons (.inl ?_) rfl ?_⟩
      · rw [if_pos isId]
        simp only [integer, Option.bind_some, run]
      · simp [isId]
      · rw [if_pos isId, integer]
    · rw [if_neg isId]
      cases started : update.kind with
      | some kind =>
        obtain ⟨read, run, visited⟩ := ih each update
        exact ⟨read, by simpa [started] using run, visited.cons (.inr (by rw [started]; rfl)) rfl (if_neg isId).symm⟩
      | none =>
        cases object : isObject m.2 with
        | true =>
          obtain ⟨others, eq⟩ := of_isObject object
          obtain ⟨p, reads, of⟩ := PayloadSeed.deserialize_eq { callbackQuery := m.1 = CALLBACK_QUERY, inlineQuery := m.1 = INLINE_QUERY }
            documented (here.fields eq)
          rw [← eq] at reads of
          obtain ⟨read, run, visited⟩ := ih each { update with kind := some (m.1, p) }
          refine ⟨read, ?_, ?_, ?_⟩
          · simp only [Option.isNone_none, if_true, reads, Option.bind_some, run]
          · rw [visited.updateId, lastMember_cons, if_neg (by simpa using isId), Option.or_none]
          · have kept : read.kind = some (m.1, p) := visited.kind
            rw [started, if_neg (by simp), KindOf, List.find?_cons_of_pos (by simp [isId, object]), kept]
            exact ⟨p, rfl, of⟩
        | false =>
          have reads : Reads serde m.2 := by
            rcases here.value with reads | ⟨others, eq, -⟩
            · exact reads
            · rw [eq] at object
              cases object
          have absent : PayloadSeed.deserialize serde { callbackQuery := m.1 = CALLBACK_QUERY, inlineQuery := m.1 = INLINE_QUERY } m.2 =
              some none := by
            cases value : m.2 with
            | object others =>
              rw [value] at object
              cases object
            | _ => exact noneFor_eq (value ▸ reads)
          obtain ⟨read, run, visited⟩ := ih each update
          refine ⟨read, ?_, visited.cons (.inl (by rw [object, Bool.and_false])) rfl (if_neg isId).symm⟩
          simp only [Option.isNone_none, if_true, absent, Option.bind_some, run]

/-- The members are looked up as they are. -/
theorem kindOf_eq (each : ∀ m ∈ members, UpdateMember serde m) :
    kindOf members = members.find? fun m => m.1 ≠ UPDATE_ID && isObject m.2 := by
  rw [kindOf]
  induction members with
  | nil => rfl
  | cons m members ih =>
    obtain ⟨here, each⟩ := List.forall_mem_cons.mp each
    rw [List.find?_cons, List.find?_cons, here.text, ih each]

theorem integer_updateId (each : ∀ m ∈ members, UpdateMember serde m) :
    integer serde "update_id" (.object members) = (lastMember (fun key => key = UPDATE_ID) members).bind (i64 serde) := by
  have same : lastMember (fun key => textOf key = utf8 "update_id") members = lastMember (fun key => key = UPDATE_ID) members :=
    lastMember_congr fun m hm => by
      rw [(each m hm).text]
      rfl
  rw [integer, member, same]

/-- All that is read of an update is what it says, but that the command is the one found in its text. -/
theorem extract_facts (documented : serde.Documented) (update : IsUpdate serde members) : ∃ id facts,
    reference serde members = some (id, facts) ∧ extract serde (.object members) = .ok (id, { facts with
      command := (textLiteral members).bind fun raw => command (encode (chars (kept (JsonText.read raw))))
        (raw.contains backslash) raw }) ∧
    facts.command = (textLiteral members).bind literalCommand ∧ ∀ raw, textLiteral members = some raw → Literal raw := by
  obtain ⟨read, run, visited⟩ := visit_eq documented update.each { updateId := none, kind := none }
  obtain ⟨value, last⟩ : ∃ value, lastMember (fun key => key = UPDATE_ID) members = some value := by
    obtain ⟨m, mem, isId⟩ := update.id
    exact exists_lastMember ⟨m, mem, decide_eq_true isId⟩
  obtain ⟨id, hasId⟩ : ∃ id, i64 serde value = some id := by
    obtain ⟨m, mem, isId, rfl⟩ := mem_of_lastMember last
    exact Option.isSome_iff_exists.mp ((update.each m mem).id (of_decide_eq_true isId))
  have looked : integer serde "update_id" (.object members) = some id := by
    rw [integer_updateId update.each, last, Option.bind_some, hasId]
  have updateId : read.updateId = some id := by
    rw [visited.updateId, last, Option.map_some, Option.getD_some, hasId]
  have kind : KindOf serde members read.kind := visited.kind
  have extracted : extract serde (.object members) = .ok (id, read.intoFacts) := by
    rw [extract, run]
    simp only [updateId]
  rw [extracted, reference, looked, textLiteral, kindOf_eq update.each]
  rw [KindOf] at kind
  cases found : members.find? fun m => m.1 ≠ UPDATE_ID && isObject m.2 with
  | none =>
    rw [found] at kind
    refine ⟨id, default, rfl, ?_, rfl, nofun⟩
    rw [Update.intoFacts, kind]
    rfl
  | some entry =>
    obtain ⟨key, doc⟩ := entry
    rw [found] at kind
    obtain ⟨p, kept, of⟩ := kind
    have here := update.each _ (List.mem_of_find?_eq_some found)
    have text : textOf key = key := here.text
    have holds := List.find?_some found
    rw [Bool.and_eq_true] at holds
    obtain ⟨others, rfl⟩ := of_isObject holds.2
    have each := here.fields rfl
    have facts := intoFacts_eq read.updateId of (fun raw => literalOf_literal each) fun inner => string_literal each
    rw [← kept] at facts
    simp only [Option.map_some, Option.bind_some, text]
    exact ⟨id, factsOf serde key (.object others), rfl, congrArg (fun facts => Except.ok (id, facts)) facts, rfl,
      fun raw => literalOf_literal each⟩

/-- What is read of an update is what it says if and only if the source of a command's token with an escape is told apart from the token;
    all else is read in any case. -/
theorem extract_iff (documented : serde.Documented) (update : IsUpdate serde members) : ∃ id facts,
    reference serde members = some (id, facts) ∧
    (extract serde (.object members) = .ok (id, facts) ↔ ∀ raw, textLiteral members = some raw → Apart raw) ∧
    ∃ command, extract serde (.object members) = .ok (id, { facts with command }) := by
  obtain ⟨id, facts, said, extracted, commanded, literals⟩ := extract_facts documented update
  refine ⟨id, facts, said, ?_, _, extracted⟩
  rw [extracted, Except.ok.injEq, Prod.mk.injEq, and_iff_right rfl]
  have same (c : Option (Str × Option Str)) : { facts with command := c } = facts ↔ c = facts.command := by
    constructor
    · intro eq
      rw [← eq]
    · rintro rfl
      rfl
  rw [same, commanded]
  cases found : textLiteral members with
  | none => exact iff_of_true rfl nofun
  | some raw =>
    rw [Option.bind_some, Option.bind_some, command_literal (literals raw found)]
    simp

end

/-! ### A command of backslashes -/

/-- Reads strings without escapes, and one number. -/
def plainSerde : Serde where
  str inner := if inner.contains backslash then none else some inner
  number text := if text = [49] then some (.u64 1) else none

/-- `/\\\\`, which stands for `/\\`. -/
def backslashes : Str := [47, 92, 92, 92, 92]

def backslashUpdate : List (Str × JsonDoc) :=
  [(utf8 "update_id", .number [49]), (utf8 "message", .object [(utf8 "text", .string backslashes)])]

theorem plainSerde_documented : plainSerde.Documented := by
  intro inner items h text read
  change (if inner.contains backslash then none else some inner) = some text at read
  split at read
  · cases read
  · rename_i plain
    have noEscape : backslash ∉ inner := by simpa using plain
    rw [← items_verbatim h noEscape, Option.some.inj read]

theorem plainSerde_key (text : String) (plain : (utf8 text).all fun b => 32 ≤ b ∧ b ≠ JsonText.quote ∧ b ≠ backslash)
    (short : (utf8 text).length ≤ wordMax) : Key plainSerde (utf8 text) ∧ backslash ∉ utf8 text := by
  have plain := List.all_iff_forall_prop.mp plain
  have noEscape : backslash ∉ utf8 text := fun mem => (plain _ mem).2.2 rfl
  refine ⟨⟨⟨.of_plain plain, ⟨_, rfl⟩, short⟩, ?_⟩, noEscape⟩
  change (if (utf8 text).contains backslash then none else some (utf8 text)).isSome
  rw [if_neg (by simpa using noEscape)]
  rfl

theorem backslashes_items : Items backslashes [⟨[47], '/'⟩, ⟨[92, 92], '\\'⟩, ⟨[92, 92], '\\'⟩] :=
  .plain (c := '/') (by decide) (.escape (b := 92) rfl (.escape (b := 92) rfl .nil))

theorem backslashes_literal : Literal backslashes where
  chars := .plain (by decide) (by decide) (by decide) (.escape (b := 92) rfl (.escape (b := 92) rfl .nil))
  valid := ⟨['/', '\\', '\\', '\\', '\\'], rfl⟩
  length := by decide

theorem textOf_text : textOf (utf8 "text") = utf8 "text" := by
  have key := plainSerde_key "text" (by decide) (by decide)
  exact textOf_verbatim key.1.literal key.2

theorem backslashUpdate_isUpdate : IsUpdate plainSerde backslashUpdate where
  each := by
    have id := plainSerde_key "update_id" (by decide) (by decide)
    have message := plainSerde_key "message" (by decide) (by decide)
    have text := plainSerde_key "text" (by decide) (by decide)
    refine List.forall_mem_cons.mpr ⟨⟨id.1, id.2, fun _ => rfl, .inl (.number rfl)⟩, List.forall_mem_singleton.mpr ?_⟩
    refine ⟨message.1, message.2, fun same => absurd same (by decide), .inr ⟨_, rfl, List.forall_mem_singleton.mpr ⟨text.1, .inr ?_⟩⟩⟩
    exact ⟨textOf_text.symm ▸ by decide, _, rfl, backslashes_literal⟩
  id := ⟨_, List.mem_cons_self, rfl⟩

theorem backslashUpdate_text : textLiteral backslashUpdate = some backslashes := by
  have text : string "text" (.object [(utf8 "text", .string backslashes)]) = some backslashes := by
    rw [string, member, lastMember, List.filter_cons_of_pos (by simp [textOf_text])]
    rfl
  have first : (backslashUpdate.find? fun m => m.1 ≠ UPDATE_ID && isObject m.2) =
      some (utf8 "message", .object [(utf8 "text", .string backslashes)]) := rfl
  rw [textLiteral, kindOf_eq backslashUpdate_isUpdate.each, first, Option.bind_some]
  dsimp only
  rw [literalOf, text, Option.some_or]

/-- The update says no command, as the token has escapes, and one is read. -/
theorem extract_backslashes : ∃ id facts read, reference plainSerde backslashUpdate = some (id, facts) ∧
    extract plainSerde (.object backslashUpdate) = .ok (id, read) ∧ facts.command = none ∧ read.command = some ([92, 92], none) := by
  obtain ⟨id, facts, said, extracted, commanded, -⟩ := extract_facts plainSerde_documented backslashUpdate_isUpdate
  refine ⟨id, facts, _, said, extracted, ?_, ?_⟩
  · rw [commanded, backslashUpdate_text, Option.bind_some, literalCommand, backslashes_items.read]
    decide
  · dsimp only
    rw [backslashUpdate_text, Option.bind_some, backslashes_items.read]
    decide

theorem extract_iff_backslashes : ∃ id facts, reference plainSerde backslashUpdate = some (id, facts) ∧
    (extract plainSerde (.object backslashUpdate) = .ok (id, facts) ↔ ∀ raw, textLiteral backslashUpdate = some raw → Apart raw) := by
  obtain ⟨id, facts, said, iff, -⟩ := extract_iff plainSerde_documented backslashUpdate_isUpdate
  exact ⟨id, facts, said, iff⟩

end Tgin.UpdateFacts
