import Tgin.UpdateFacts.Extract

/-! What an update says, looked up in the document that it is, and that the one pass over it reads the same, but for commands. -/

namespace Tgin.UpdateFacts
open Rules
open JsonText (Chars Hex Item Items backslash chars hexDigit)
open Utf8 (Valid encode fit)

/-! ### Looked up -/

/-- The text of a literal. -/
noncomputable def textOf (inner : Str) : Str := encode (chars (JsonText.read inner))

/-- The last of the members with such a key. -/
def lastMember (p : Str → Bool) (members : List (Str × JsonDoc)) : Option JsonDoc :=
  ((members.filter fun m => p m.1).getLast?).map (·.2)

/-- The last of the members of one name. -/
noncomputable def member (name : String) : JsonDoc → Option JsonDoc
  | .object members => lastMember (fun key => textOf key = utf8 name) members
  | _ => none

def isObject : JsonDoc → Bool
  | .object _ => true
  | _ => false

/-- A value that is an object. -/
def object (value : Option JsonDoc) : Option JsonDoc := value.filter isObject

noncomputable def integer (serde : Serde) (name : String) (doc : JsonDoc) : Option Int64 := (member name doc).bind (i64 serde)

noncomputable def string (name : String) (doc : JsonDoc) : Option Str := (member name doc).bind stringContents

/-- A chat's `type`, if it is a string. -/
noncomputable def typeOf (value : JsonDoc) : Option ChatType := (stringContents value).map fun inner => chatType (textOf inner)

/-- The characters of the text that are kept. -/
def kept (items : List Item) : List Item := items.take (fit TEXT_CAP (chars items)).length

/-- The `/` that the text begins with, and the characters of the token. -/
def tokenAfter : List Item → Option (Item × List Item)
  | slash :: rest => if slash.char = '/' then some (slash, rest.takeWhile fun item => !Utf8.isWhitespace item.char) else none
  | [] => none

/-- The command, if there is no escape in the token. -/
noncomputable def literalCommand (raw : Str) : Option (Str × Option Str) :=
  (tokenAfter (kept (JsonText.read raw))).bind fun (_, token) =>
    if token.any (·.escaped) then none else some (written (named (chars token)))

/-- The literal of the text. -/
noncomputable def literalOf (inlineQuery : Bool) (p : JsonDoc) : Option Str :=
  (string "text" p).or ((string "caption" p).or (if inlineQuery then string "query" p else none))

/-- The update's type and the object under it. -/
noncomputable def kindOf (members : List (Str × JsonDoc)) : Option (Str × JsonDoc) :=
  members.find? fun m => textOf m.1 ≠ UPDATE_ID && isObject m.2

noncomputable def chatOf (callbackQuery : Bool) (p : JsonDoc) : Option JsonDoc :=
  (object (member "chat" p)).or (if callbackQuery then object ((member "message" p).bind (member "chat")) else none)

noncomputable def userOf (p : JsonDoc) : Option JsonDoc := (object (member "from" p)).or (object (member "user" p))

noncomputable def factsOf (serde : Serde) (updateType : Str) (p : JsonDoc) : Facts :=
  let callbackQuery : Bool := updateType = CALLBACK_QUERY
  let literal := literalOf (updateType = INLINE_QUERY) p
  { updateType
    chatId := (chatOf callbackQuery p).bind (integer serde "id")
    chatType := (chatOf callbackQuery p).bind fun chat => (member "type" chat).bind typeOf
    userId := (userOf p).bind (integer serde "id")
    text := literal.map fun raw => encode (chars (kept (JsonText.read raw)))
    callbackData := if callbackQuery then (string "data" p).map textOf else none
    command := literal.bind literalCommand }

/-- What the document says. -/
noncomputable def reference (serde : Serde) (members : List (Str × JsonDoc)) : Option (Int64 × Facts) :=
  (integer serde "update_id" (.object members)).map fun id =>
    (id, match kindOf members with
      | some (key, p) => factsOf serde (textOf key) p
      | none => default)

/-! ### Documents -/

/-- What stands between quotes in a payload. -/
structure Literal (inner : Str) : Prop where
  chars : Chars inner
  valid : Valid inner
  /-- A payload's length is a `usize`. -/
  length : inner.length ≤ wordMax

/-- What is read of a literal is its text. -/
def Serde.Documented (serde : Serde) : Prop := ∀ inner items, Items inner items →
    ∀ text, serde.str inner = some text → text = encode (chars items)

/-- A key is read. -/
structure Key (serde : Serde) (key : Str) : Prop where
  literal : Literal key
  read : (serde.str key).isSome

/-- A document whose keys, strings and numbers are read. -/
inductive Reads (serde : Serde) : JsonDoc → Prop where
  | word (word : Str) : Reads serde (.word word)
  | number {text : Str} (read : (serde.number text).isSome) : Reads serde (.number text)
  | string {inner : Str} (key : Key serde inner) : Reads serde (.string inner)
  | array {elements : List JsonDoc} (reads : ∀ e ∈ elements, Reads serde e) : Reads serde (.array elements)
  | object {members : List (Str × JsonDoc)} (keys : ∀ m ∈ members, Key serde m.1) (reads : ∀ m ∈ members, Reads serde m.2) :
    Reads serde (.object members)

/-- The names of the values that are kept as they are written. -/
def TEXTS : List Str := [utf8 "text", utf8 "caption", utf8 "query", utf8 "data"]

/-- A member of an object under the update's type. A text may have a surrogate alone, which is no character. -/
structure PayloadMember (serde : Serde) (m : Str × JsonDoc) : Prop where
  key : Key serde m.1
  value : Reads serde m.2 ∨ textOf m.1 ∈ TEXTS ∧ ∃ inner, m.2 = .string inner ∧ Literal inner

/-- A member of an update. -/
structure UpdateMember (serde : Serde) (m : Str × JsonDoc) : Prop where
  key : Key serde m.1
  noEscape : backslash ∉ m.1
  id : m.1 = UPDATE_ID → (i64 serde m.2).isSome
  value : Reads serde m.2 ∨ ∃ fields, m.2 = .object fields ∧ ∀ f ∈ fields, PayloadMember serde f

/-- An update. -/
structure IsUpdate (serde : Serde) (members : List (Str × JsonDoc)) : Prop where
  each : ∀ m ∈ members, UpdateMember serde m
  id : ∃ m ∈ members, m.1 = UPDATE_ID

/-- Of the token of a text, if it has an escape, the source after the `/` does not begin with the characters it stands for. -/
def Apart (raw : Str) : Prop :=
  ∀ slash token, tokenAfter (kept (JsonText.read raw)) = some (slash, token) → (∃ item ∈ token, item.escaped) →
    ¬encode (chars token) <+: raw.drop slash.source.length

section
variable {serde : Serde} {inner key : Str} {members : List (Str × JsonDoc)} {value : JsonDoc} {field : Field} {p : Str → Bool}

/-! ### Keys -/

theorem Literal.items (h : Literal inner) : Items inner (JsonText.read inner) := by
  obtain ⟨items, h⟩ := JsonText.items_total h.chars h.valid
  rwa [h.read]

theorem Key.str (h : Key serde key) (documented : serde.Documented) : serde.str key = some (textOf key) := by
  obtain ⟨text, read⟩ := Option.isSome_iff_exists.mp h.read
  rw [read, documented _ _ h.literal.items _ read, textOf]

theorem textOf_verbatim (h : Literal inner) (noEscape : backslash ∉ inner) : textOf inner = inner :=
  (items_verbatim h.items noEscape).symm

/-- The ten names are told apart. -/
theorem ofName_eq {name : Str} (mem : (name, field) ∈ Field.NAMES) (v : Str) : Field.ofName v = field ↔ v = name := by
  have single : Field.NAMES.all fun entry => Field.NAMES.all fun other => entry.2 ≠ other.2 || entry.1 = other.1 := by decide
  have known : ∀ entry ∈ Field.NAMES, entry.2 ≠ .other := by decide
  have first : Field.NAMES.all fun entry => Field.ofName entry.1 = entry.2 := by decide
  constructor
  · intro same
    unfold Field.ofName at same
    cases found : Field.NAMES.find? fun name => name.1 = v with
    | none =>
      rw [found] at same
      exact absurd same.symm (known _ mem)
    | some entry =>
      rw [found] at same
      have equal : entry.2 = field := same
      have one := List.all_eq_true.mp (List.all_eq_true.mp single entry (List.mem_of_find?_eq_some found)) _ mem
      have name : entry.1 = v := by simpa using List.find?_some found
      simpa [equal, name] using one
  · rintro rfl
    simpa using List.all_eq_true.mp first _ mem

theorem lastMember_cons (p : Str → Bool) (m : Str × JsonDoc) (members : List (Str × JsonDoc)) :
    lastMember p (m :: members) = (lastMember p members).or (if p m.1 then some m.2 else none) := by
  rw [lastMember, lastMember, List.filter_cons]
  split
  · rw [List.getLast?_cons]
    cases (members.filter fun m => p m.1).getLast? <;> rfl
  · exact Option.or_none.symm

theorem lastMember_congr {q : Str → Bool} (same : ∀ m ∈ members, p m.1 = q m.1) : lastMember p members = lastMember q members := by
  rw [lastMember, lastMember, List.filter_congr same]

theorem mem_of_lastMember (h : lastMember p members = some value) : ∃ m ∈ members, p m.1 = true ∧ m.2 = value := by
  obtain ⟨m, last, rfl⟩ := Option.map_eq_some_iff.mp h
  obtain ⟨mem, holds⟩ := List.mem_filter.mp (List.mem_of_getLast? last)
  exact ⟨m, mem, holds, rfl⟩

theorem exists_lastMember (h : ∃ m ∈ members, p m.1 = true) : ∃ value, lastMember p members = some value := by
  obtain ⟨m, mem, holds⟩ := h
  have kept : m ∈ members.filter fun m => p m.1 := List.mem_filter.mpr ⟨mem, holds⟩
  have ne := List.ne_nil_of_mem kept
  exact ⟨_, by rw [lastMember, List.getLast?_eq_some_getLast ne, Option.map_some]⟩

theorem of_isObject (h : isObject value = true) : ∃ members, value = .object members := by
  cases value with
  | object members => exact ⟨members, rfl⟩
  | _ => cases h

/-- A field's members are those of its name. -/
theorem lastMember_ofName (name : String) (members : List (Str × JsonDoc)) (mem : (utf8 name, field) ∈ Field.NAMES) :
    lastMember (fun key => Field.ofName (textOf key) = field) members = member name (.object members) := by
  change _ = lastMember (fun key => textOf key = utf8 name) members
  refine lastMember_congr fun m hm => ?_
  rw [decide_eq_decide, ofName_eq mem]

end

section
variable {σ α : Type} {serde : Serde} {step : Field → JsonDoc → σ → Option σ} {taken : Field → JsonDoc → σ → σ}
  {members : List (Str × JsonDoc)} {s : σ}

/-! ### Visits -/

/-- What the members make, if all of them can be read. -/
noncomputable def visited (taken : Field → JsonDoc → σ → σ) (members : List (Str × JsonDoc)) (s : σ) : σ :=
  members.foldl (fun s m => taken (Field.ofName (textOf m.1)) m.2 s) s

theorem visitMap_eq (documented : serde.Documented) (keys : ∀ m ∈ members, Key serde m.1)
    (steps : ∀ m ∈ members, ∀ s, step (Field.ofName (textOf m.1)) m.2 s = some (taken (Field.ofName (textOf m.1)) m.2 s)) (s : σ) :
    visitMap serde step members s = some (visited taken members s) := by
  induction members generalizing s with
  | nil => rfl
  | cons m members ih =>
    obtain ⟨key, keys⟩ := List.forall_mem_cons.mp keys
    obtain ⟨here, steps⟩ := List.forall_mem_cons.mp steps
    rw [visitMap, Field.deserialize, key.str documented]
    simp only [Option.map_some, Option.bind_eq_bind, Option.bind_some, here, ih keys steps]
    rfl

/-- What only the members of one field change is what the last of them makes it. -/
theorem visited_get (taken : Field → JsonDoc → σ → σ) (members : List (Str × JsonDoc)) (s : σ) (get : σ → Option α) (name : String)
    (field : Field) (mem : (utf8 name, field) ∈ Field.NAMES) (reads : JsonDoc → Option α)
    (hits : ∀ value s, get (taken field value s) = reads value)
    (misses : ∀ f value s, f ≠ field → get (taken f value s) = get s) (empty : get s = none) :
    get (visited taken members s) = (member name (.object members)).bind reads := by
  have last : get (visited taken members s) =
      ((lastMember (fun key => Field.ofName (textOf key) = field) members).map reads).getD (get s) := by
    clear empty
    induction members generalizing s with
    | nil => rfl
    | cons m members ih =>
      rw [lastMember_cons]
      refine (ih (taken (Field.ofName (textOf m.1)) m.2 s)).trans ?_
      cases lastMember (fun key => Field.ofName (textOf key) = field) members with
      | some value => rfl
      | none =>
        by_cases same : Field.ofName (textOf m.1) = field
        · rw [if_pos (decide_eq_true same), same]
          exact hits _ _
        · rw [if_neg (by simpa using same)]
          exact misses _ _ _ same
  rw [last, lastMember_ofName name members mem, empty]
  cases member name (.object members) <;> rfl

/-- What no field changes stays. -/
theorem visited_keep (taken : Field → JsonDoc → σ → σ) (members : List (Str × JsonDoc)) (s : σ) (get : σ → Option α)
    (keeps : ∀ f value s, get (taken f value s) = get s) :
    get (visited taken members s) = get s := by
  induction members generalizing s with
  | nil => rfl
  | cons m members ih => exact (ih _).trans (keeps _ _ _)

end

section
variable {serde : Serde} {value : JsonDoc}

/-! ### Values -/

/-- What is read of a chat. -/
noncomputable def chatFacts (serde : Serde) (chat : JsonDoc) : Chat :=
  { id := integer serde "id" chat, kind := (member "type" chat).bind typeOf }

theorem noneFor_eq {α : Type} (h : Reads serde value) : noneFor serde value = some (none : Option α) := by
  cases h with
  | word | array => rfl
  | number read =>
    obtain ⟨_, eq⟩ := Option.isSome_iff_exists.mp read
    rw [noneFor, eq]
    rfl
  | string key =>
    obtain ⟨_, eq⟩ := Option.isSome_iff_exists.mp key.read
    rw [noneFor, eq]
    rfl
  | object keys => exact if_pos (List.all_eq_true.mpr fun m hm => (keys m hm).read)

theorem LenientI64_eq (h : Reads serde value) : LenientI64 serde value = some (i64 serde value) := by
  cases h with
  | number read =>
    obtain ⟨_, eq⟩ := Option.isSome_iff_exists.mp read
    rw [LenientI64, i64, eq]
    rfl
  | word | array => rfl
  | string key => exact noneFor_eq (.string key)
  | object keys reads => exact noneFor_eq (.object keys reads)

theorem ChatTypeSeed_eq (documented : serde.Documented) (h : Reads serde value) : ChatTypeSeed serde value = some (typeOf value) := by
  cases h with
  | string key =>
    rw [ChatTypeSeed, key.str documented]
    rfl
  | word | array => rfl
  | number read => exact noneFor_eq (.number read)
  | object keys reads => exact noneFor_eq (.object keys reads)

/-- What is read of a value that is an object. -/
def ofObject {β : Type} (f : JsonDoc → β) (value : JsonDoc) : Option β := if isObject value then some (f value) else none

theorem bind_ofObject {β : Type} (o : Option JsonDoc) (f : JsonDoc → β) : o.bind (ofObject f) = (object o).map f := by
  cases o with
  | none => rfl
  | some value =>
    rw [Option.bind_some, object, Option.filter_some, ofObject]
    split <;> rfl

theorem objectSeed_eq {α : Type} (visit : List (Str × JsonDoc) → Option (Option α)) (h : Reads serde value)
    (reads : JsonDoc → Option α) (visited : ∀ members, (∀ m ∈ members, Key serde m.1) → (∀ m ∈ members, Reads serde m.2) →
      visit members = some (reads (.object members))) :
    objectSeed serde visit value = some (if isObject value then reads value else none) := by
  cases h with
  | object keys reads => exact visited _ keys reads
  | word | array => rfl
  | number read => exact noneFor_eq (.number read)
  | string key => exact noneFor_eq (.string key)

/-- What a field makes of a chat. -/
noncomputable def Chat.taken (serde : Serde) : Field → JsonDoc → Chat → Chat
  | .id, value, chat => { chat with id := i64 serde value }
  | .type, value, chat => { chat with kind := typeOf value }
  | _, _, chat => chat

theorem Chat.visit_eq (documented : serde.Documented) (h : Reads serde value) (field : Field) (chat : Chat) :
    Chat.visit serde field value chat = some (Chat.taken serde field value chat) := by
  cases field with
  | id => rw [Chat.visit, LenientI64_eq h]; rfl
  | type => rw [Chat.visit, ChatTypeSeed_eq documented h]; rfl
  | _ => rfl

theorem ChatSeed_eq (documented : serde.Documented) (h : Reads serde value) :
    ChatSeed serde value = some (ofObject (chatFacts serde) value) := by
  refine objectSeed_eq _ h (fun value => some (chatFacts serde value)) fun members keys reads => ?_
  rw [visitMap_eq documented keys fun m hm => Chat.visit_eq documented (reads m hm) _, Option.map_some]
  have id := visited_get (Chat.taken serde) members { id := none, kind := none } (·.id) "id" .id (by decide) (i64 serde)
    (fun _ _ => rfl)
    (fun f _ _ other => by cases f <;> first | rfl | exact absurd rfl other) rfl
  have kind := visited_get (Chat.taken serde) members { id := none, kind := none } (·.kind) "type" .type (by decide) typeOf
    (fun _ _ => rfl)
    (fun f _ _ other => by cases f <;> first | rfl | exact absurd rfl other) rfl
  rw [chatFacts, integer, ← id, ← kind]

/-- What a field makes of a message's chat. -/
noncomputable def MessageChatSeed.taken (serde : Serde) : Field → JsonDoc → Option Chat → Option Chat
  | .chat, value, _ => ofObject (chatFacts serde) value
  | _, _, chat => chat

theorem MessageChatSeed.visit_eq (documented : serde.Documented) (h : Reads serde value) (field : Field) (chat : Option Chat) :
    MessageChatSeed.visit serde field value chat = some (MessageChatSeed.taken serde field value chat) := by
  cases field with
  | chat => exact ChatSeed_eq documented h
  | _ => rfl

theorem MessageChatSeed_eq (documented : serde.Documented) (h : Reads serde value) :
    MessageChatSeed serde value = some ((object (member "chat" value)).map (chatFacts serde)) := by
  have whole := objectSeed_eq (fun members => visitMap serde (MessageChatSeed.visit serde) members none) h
    (fun value => (object (member "chat" value)).map (chatFacts serde)) fun members keys reads => ?_
  · rw [MessageChatSeed, whole]
    cases value <;> rfl
  · have chat := visited_get (MessageChatSeed.taken serde) members none id "chat" .chat (by decide)
      (ofObject (chatFacts serde)) (fun _ _ => rfl)
      (fun f _ _ other => by cases f <;> first | rfl | exact absurd rfl other) rfl
    rw [visitMap_eq documented keys fun m hm => MessageChatSeed.visit_eq documented (reads m hm) _, ← bind_ofObject, ← chat, id]

/-- What a field makes of a user's `id`. -/
def UserSeed.taken (serde : Serde) : Field → JsonDoc → Option Int64 → Option Int64
  | .id, value, _ => i64 serde value
  | _, _, id => id

theorem UserSeed.visit_eq (h : Reads serde value) (field : Field) (id : Option Int64) :
    UserSeed.visit serde field value id = some (UserSeed.taken serde field value id) := by
  cases field with
  | id => exact LenientI64_eq h
  | _ => rfl

theorem UserSeed_eq (documented : serde.Documented) (h : Reads serde value) :
    UserSeed serde value = some (ofObject (integer serde "id") value) := by
  refine objectSeed_eq _ h (fun value => some (integer serde "id" value)) fun members keys reads => ?_
  have found := visited_get (UserSeed.taken serde) members none id "id" .id (by decide) (i64 serde) (fun _ _ => rfl)
    (fun f _ _ other => by cases f <;> first | rfl | exact absurd rfl other) rfl
  rw [visitMap_eq documented keys fun m hm => UserSeed.visit_eq (reads m hm) _, Option.map_some, integer, ← found, id]

end

section
variable {serde : Serde} {fields : List (Str × JsonDoc)} {m : Str × JsonDoc} {field : Field} {seed : PayloadSeed} {s p : Payload}

/-! ### The object under the update's type -/

/-- What a field makes of the payload. -/
noncomputable def Payload.taken (serde : Serde) (seed : PayloadSeed) : Field → JsonDoc → Payload → Payload
  | .chat, value, p => { p with chat := ofObject (chatFacts serde) value }
  | .message, value, p =>
    if seed.callbackQuery then { p with messageChat := (object (member "chat" value)).map (chatFacts serde) } else p
  | .from, value, p => { p with «from» := ofObject (integer serde "id") value }
  | .user, value, p => { p with user := ofObject (integer serde "id") value }
  | .text, value, p => { p with text := some value }
  | .caption, value, p => { p with caption := some value }
  | .query, value, p => if seed.inlineQuery then { p with query := some value } else p
  | .data, value, p => if seed.callbackQuery then { p with data := some value } else p
  | _, _, p => p

/-- Each member of the object can be read. -/
theorem Payload.visit_eq (documented : serde.Documented) (h : PayloadMember serde m) (s : Payload) :
    Payload.visit serde seed (Field.ofName (textOf m.1)) m.2 s = some (Payload.taken serde seed (Field.ofName (textOf m.1)) m.2 s) := by
  have reads (name : Str) {field : Field} (same : Field.ofName (textOf m.1) = field) (mem : (name, field) ∈ Field.NAMES)
      (other : name ∉ TEXTS) : Reads serde m.2 :=
    h.value.resolve_right fun text => other ((ofName_eq mem _).mp same ▸ text.1)
  cases same : Field.ofName (textOf m.1) with
  | chat =>
    rw [Payload.visit, ChatSeed_eq documented (reads (utf8 "chat") same (by decide) (by decide))]
    rfl
  | message =>
    rw [Payload.visit, MessageChatSeed_eq documented (reads (utf8 "message") same (by decide) (by decide)), Payload.taken]
    split <;> rfl
  | «from» =>
    rw [Payload.visit, UserSeed_eq documented (reads (utf8 "from") same (by decide) (by decide))]
    rfl
  | user =>
    rw [Payload.visit, UserSeed_eq documented (reads (utf8 "user") same (by decide) (by decide))]
    rfl
  | _ => rfl

/-- What is kept of an object is what is looked up in it. -/
structure Payload.Of (serde : Serde) (seed : PayloadSeed) (p : Payload) (doc : JsonDoc) : Prop where
  chat : p.chat = (object (member "chat" doc)).map (chatFacts serde)
  messageChat : p.messageChat =
    if seed.callbackQuery then (object ((member "message" doc).bind (member "chat"))).map (chatFacts serde) else none
  «from» : p.from = (object (member "from" doc)).map (integer serde "id")
  user : p.user = (object (member "user" doc)).map (integer serde "id")
  text : p.text = member "text" doc
  caption : p.caption = member "caption" doc
  query : p.query = if seed.inlineQuery then member "query" doc else none
  data : p.data = if seed.callbackQuery then member "data" doc else none

theorem Payload.visited_of (serde : Serde) (seed : PayloadSeed) (fields : List (Str × JsonDoc)) :
    Payload.Of serde seed (visited (Payload.taken serde seed) fields .empty) (.object fields) where
  chat := by
    have last := visited_get (Payload.taken serde seed) fields .empty (·.chat) "chat" .chat (by decide) (ofObject (chatFacts serde))
      (fun _ _ => rfl) (fun f _ _ other => by cases f <;> grind [Payload.taken]) rfl
    rw [last, bind_ofObject]
  messageChat := by
    cases on : seed.callbackQuery with
    | true =>
      have last := visited_get (Payload.taken serde seed) fields .empty (·.messageChat) "message" .message (by decide)
        (fun value => (object (member "chat" value)).map (chatFacts serde)) (fun _ _ => by rw [Payload.taken, if_pos on])
        (fun f _ _ other => by cases f <;> grind [Payload.taken]) rfl
      rw [last, if_pos rfl]
      cases member "message" (.object fields) <;> rfl
    | false => exact visited_keep (Payload.taken serde seed) fields .empty (·.messageChat) fun f _ _ => by cases f <;> grind [Payload.taken]
  «from» := by
    have last := visited_get (Payload.taken serde seed) fields .empty (·.from) "from" .from (by decide) (ofObject (integer serde "id"))
      (fun _ _ => rfl) (fun f _ _ other => by cases f <;> grind [Payload.taken]) rfl
    rw [last, bind_ofObject]
  user := by
    have last := visited_get (Payload.taken serde seed) fields .empty (·.user) "user" .user (by decide) (ofObject (integer serde "id"))
      (fun _ _ => rfl) (fun f _ _ other => by cases f <;> grind [Payload.taken]) rfl
    rw [last, bind_ofObject]
  text := by
    have last := visited_get (Payload.taken serde seed) fields .empty (·.text) "text" .text (by decide) some
      (fun _ _ => rfl) (fun f _ _ other => by cases f <;> grind [Payload.taken]) rfl
    rw [last, Option.bind_fun_some]
  caption := by
    have last := visited_get (Payload.taken serde seed) fields .empty (·.caption) "caption" .caption (by decide) some
      (fun _ _ => rfl) (fun f _ _ other => by cases f <;> grind [Payload.taken]) rfl
    rw [last, Option.bind_fun_some]
  query := by
    cases on : seed.inlineQuery with
    | true =>
      have last := visited_get (Payload.taken serde seed) fields .empty (·.query) "query" .query (by decide) some
        (fun _ _ => by rw [Payload.taken, if_pos on]) (fun f _ _ other => by cases f <;> grind [Payload.taken]) rfl
      rw [last, Option.bind_fun_some, if_pos rfl]
    | false => exact visited_keep (Payload.taken serde seed) fields .empty (·.query) fun f _ _ => by cases f <;> grind [Payload.taken]
  data := by
    cases on : seed.callbackQuery with
    | true =>
      have last := visited_get (Payload.taken serde seed) fields .empty (·.data) "data" .data (by decide) some
        (fun _ _ => by rw [Payload.taken, if_pos on]) (fun f _ _ other => by cases f <;> grind [Payload.taken]) rfl
      rw [last, Option.bind_fun_some, if_pos rfl]
    | false => exact visited_keep (Payload.taken serde seed) fields .empty (·.data) fun f _ _ => by cases f <;> grind [Payload.taken]

theorem PayloadSeed.deserialize_eq (seed : PayloadSeed) (documented : serde.Documented) (each : ∀ m ∈ fields, PayloadMember serde m) :
    ∃ p, PayloadSeed.deserialize serde seed (.object fields) = some (some p) ∧ p.Of serde seed (.object fields) := by
  refine ⟨visited (Payload.taken serde seed) fields .empty, ?_, Payload.visited_of serde seed fields⟩
  rw [PayloadSeed.deserialize, objectSeed, visitMap_eq documented (fun m hm => (each m hm).key)
    fun m hm => Payload.visit_eq documented (each m hm)]
  rfl

end

end Tgin.UpdateFacts
