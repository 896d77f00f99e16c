import Tgin.Lib.JsonDoc
import Tgin.UpdateFacts.Unescape

/-! What is read of an update in one pass, `tgin-botapi/src/facts.rs`. The crate `serde_json`, which reads a payload and gives it to the
    visitors member by member, is a parameter as far as it reads strings and numbers. -/

namespace Tgin.UpdateFacts
open Rules
open JsonText (Chars Item Items backslash chars)
open Utf8 (Valid encode fit)

/-- The bytes of a text. -/
def utf8 (text : String) : Str := encode text.toList

/-- What a visitor is given for a number. -/
inductive Num where
  | u64 (n : UInt64)
  | i64 (n : Int64)
  | f64
  deriving DecidableEq, Repr

/-- How `serde_json` reads the text of a literal; nothing stands for an error. -/
structure Serde where
  str : Str → Option Str
  number : Str → Option Num

/-- The most text kept, in bytes. -/
def TEXT_CAP : Nat := 4096

/-- Update types the Bot API sends. -/
def KNOWN_UPDATE_TYPES : List Str :=
  ["message", "edited_message", "channel_post", "edited_channel_post", "business_connection", "business_message",
    "edited_business_message", "deleted_business_messages", "message_reaction", "message_reaction_count", "inline_query",
    "chosen_inline_result", "callback_query", "shipping_query", "pre_checkout_query", "purchased_paid_media", "poll", "poll_answer",
    "my_chat_member", "chat_member", "chat_join_request", "chat_boost", "removed_chat_boost"].map utf8

/-- Why an update could not be read. -/
inductive FactsError where
  | json | missingUpdateId
  deriving DecidableEq, Repr

structure Chat where
  id : Option Int64
  kind : Option ChatType
  deriving DecidableEq, Repr

/-- What the extractor keeps from the update-type object. -/
structure Payload where
  /-- `.chat`, when it is an object. -/
  chat : Option Chat
  /-- `.message.chat`, read for callback queries only. -/
  messageChat : Option Chat
  /-- `.from`, when it is an object: its `id`. -/
  «from» : Option (Option Int64)
  /-- `.user`, when it is an object: its `id`. -/
  user : Option (Option Int64)
  text : Option JsonDoc
  caption : Option JsonDoc
  /-- Read for inline queries only. -/
  query : Option JsonDoc
  /-- Read for callback queries only. -/
  data : Option JsonDoc

def Payload.empty : Payload :=
  { chat := none, messageChat := none, «from» := none, user := none, text := none, caption := none, query := none, data := none }

structure Update where
  updateId : Option Int64
  kind : Option (Str × Payload)

/-- The text between the quotes when the value is a JSON string. -/
def stringContents : JsonDoc → Option Str
  | .string inner => some inner
  | _ => none

/-- Whether the text had escapes. -/
def Text.escaped : Text → Bool
  | .verbatim _ => false
  | .decoded .. => true

namespace Update

/-- `into_facts`. -/
def intoFacts (update : Update) : Facts :=
  match update.kind with
  | none => default
  | some (updateType, p) =>
    let chat := p.chat.or p.messageChat
    let rawText := ([p.text, p.caption, p.query].filterMap id).findSome? stringContents
    let text := rawText.map fun inner => unescape inner TEXT_CAP []
    let decoded := (text.map (·.2)).getD []
    let callbackData := (p.data.bind stringContents).map fun inner => unescape inner wordMax decoded
    let decoded := (callbackData.map (·.2)).getD decoded
    let (shown, command) : Option Str × Option (Str × Option Str) :=
      match text, rawText with
      | some (text, _), some raw => (some (text.resolve decoded), command (text.resolve decoded) text.escaped raw)
      | _, _ => (none, none)
    { updateType
      chatId := chat.bind (·.id)
      chatType := chat.bind (·.kind)
      userId := (p.from.or p.user).join
      text := shown
      callbackData := callbackData.map fun data => data.1.resolve decoded
      command }

end Update

/-! ### Keys -/

def UPDATE_ID : Str := utf8 "update_id"
def CALLBACK_QUERY : Str := utf8 "callback_query"
def INLINE_QUERY : Str := utf8 "inline_query"

/-- A top-level key. -/
inductive TopKey where
  | updateId
  | name (name : Str)
  /-- An escaped key that is not a known update type. -/
  | unborrowable
  deriving DecidableEq, Repr

/-- A key without escapes is borrowed. -/
def TopKey.deserialize (serde : Serde) (key : Str) : Option TopKey := do
  let v ← serde.str key
  if v = UPDATE_ID then return .updateId
  else if key.contains backslash then
    return match KNOWN_UPDATE_TYPES.find? (· = v) with
      | some known => .name known
      | none => .unborrowable
  else return .name v

/-- A key inside the update-type object or one of its nested objects. -/
inductive Field where
  | chat | message | «from» | user | text | caption | query | data | id | type | other
  deriving DecidableEq, Repr

/-- The names of the keys. -/
def Field.NAMES : List (Str × Field) :=
  [(utf8 "chat", .chat), (utf8 "message", .message), (utf8 "from", .from), (utf8 "user", .user), (utf8 "text", .text),
    (utf8 "caption", .caption), (utf8 "query", .query), (utf8 "data", .data), (utf8 "id", .id), (utf8 "type", .type)]

def Field.ofName (v : Str) : Field := ((NAMES.find? fun name => name.1 = v).map (·.2)).getD .other

def Field.deserialize (serde : Serde) (key : Str) : Option Field := (serde.str key).map ofName

/-! ### Visitors -/

/-- `visit_map`: what each member makes of what is read so far. -/
def visitMap {σ : Type} (serde : Serde) (step : Field → JsonDoc → σ → Option σ) : List (Str × JsonDoc) → σ → Option σ
  | [], read => some read
  | (key, value) :: rest, read => do
    let field ← Field.deserialize serde key
    visitMap serde step rest (← step field value read)

/-- `none_for`: a value of another kind reads as absent. Of an object, if it is no value that is read, only the keys are read. -/
def noneFor {α : Type} (serde : Serde) : JsonDoc → Option (Option α)
  | .word _ | .array _ => some none
  | .number text => (serde.number text).map fun _ => none
  | .string inner => (serde.str inner).map fun _ => none
  | .object members => if members.all fun m => (serde.str m.1).isSome then some none else none

/-- An integer that fits `i64`. -/
def Num.toI64 : Num → Option Int64
  | .u64 n => if n.toNat < 2 ^ 63 then some n.toInt64 else none
  | .i64 n => some n
  | .f64 => none

/-- An integer that fits `i64`; `none` for anything else. -/
def LenientI64 (serde : Serde) : JsonDoc → Option (Option Int64)
  | .number text => (serde.number text).map Num.toI64
  | value => noneFor serde value

/-- What a chat's `type` stands for. -/
def chatType (v : Str) : ChatType :=
  if v = utf8 "private" then .privateChat
  else if v = utf8 "group" then .group
  else if v = utf8 "supergroup" then .supergroup
  else if v = utf8 "channel" then .channel
  else .other

/-- A chat `type` string; `none` for anything else. -/
def ChatTypeSeed (serde : Serde) : JsonDoc → Option (Option ChatType)
  | .string inner => (serde.str inner).map fun v => some (chatType v)
  | value => noneFor serde value

/-- A value that is to be an object; `none` for anything else. -/
def objectSeed {α : Type} (serde : Serde) (visit : List (Str × JsonDoc) → Option (Option α)) : JsonDoc → Option (Option α)
  | .object members => visit members
  | value => noneFor serde value

/-- A field of a chat. -/
def Chat.visit (serde : Serde) : Field → JsonDoc → Chat → Option Chat
  | .id, value, chat => (LenientI64 serde value).map fun id => { chat with id }
  | .type, value, chat => (ChatTypeSeed serde value).map fun kind => { chat with kind }
  | _, _, chat => some chat

/-- A chat object; `none` when the value is not an object. -/
def ChatSeed (serde : Serde) : JsonDoc → Option (Option Chat) :=
  objectSeed serde fun members => (visitMap serde (Chat.visit serde) members { id := none, kind := none }).map some

/-- A field of a message. -/
def MessageChatSeed.visit (serde : Serde) : Field → JsonDoc → Option Chat → Option (Option Chat)
  | .chat, value, _ => ChatSeed serde value
  | _, _, chat => some chat

/-- A message's chat object; `none` unless both are objects. -/
def MessageChatSeed (serde : Serde) : JsonDoc → Option (Option Chat) :=
  objectSeed serde fun members => visitMap serde (MessageChatSeed.visit serde) members none

/-- A field of a user. -/
def UserSeed.visit (serde : Serde) : Field → JsonDoc → Option Int64 → Option (Option Int64)
  | .id, value, _ => LenientI64 serde value
  | _, _, id => some id

/-- A user object's `id`; the outer `none` when the value is not an object. -/
def UserSeed (serde : Serde) : JsonDoc → Option (Option (Option Int64)) :=
  objectSeed serde fun members => (visitMap serde (UserSeed.visit serde) members none).map some

/-- Which fields of the update-type object are read. -/
structure PayloadSeed where
  callbackQuery : Bool
  inlineQuery : Bool

/-- A field of the update-type object. -/
def Payload.visit (serde : Serde) (seed : PayloadSeed) : Field → JsonDoc → Payload → Option Payload
  | .chat, value, p => (ChatSeed serde value).map fun chat => { p with chat }
  | .message, value, p =>
    if seed.callbackQuery then (MessageChatSeed serde value).map fun messageChat => { p with messageChat } else some p
  | .from, value, p => (UserSeed serde value).map fun user => { p with «from» := user }
  | .user, value, p => (UserSeed serde value).map fun user => { p with user }
  | .text, value, p => some { p with text := some value }
  | .caption, value, p => some { p with caption := some value }
  | .query, value, p => some (if seed.inlineQuery then { p with query := some value } else p)
  | .data, value, p => some (if seed.callbackQuery then { p with data := some value } else p)
  | _, _, p => some p

/-- The update-type object; `none` when the value is not an object. -/
def PayloadSeed.deserialize (serde : Serde) (seed : PayloadSeed) : JsonDoc → Option (Option Payload) :=
  objectSeed serde fun members => (visitMap serde (Payload.visit serde seed) members .empty).map some

/-- An `i64`; anything else is an error. -/
def i64 (serde : Serde) : JsonDoc → Option Int64
  | .number text => (serde.number text).bind Num.toI64
  | _ => none

namespace Update

/-- The members of an update. -/
def visit (serde : Serde) : List (Str × JsonDoc) → Update → Option Update
  | [], update => some update
  | (key, value) :: rest, update => do
    match ← TopKey.deserialize serde key with
    | .updateId => visit serde rest { update with updateId := some (← i64 serde value) }
    | .name name =>
      if update.kind.isNone then
        let seed : PayloadSeed := { callbackQuery := name = CALLBACK_QUERY, inlineQuery := name = INLINE_QUERY }
        match ← seed.deserialize serde value with
        | some payload => visit serde rest { update with kind := some (name, payload) }
        | none => visit serde rest update
      else visit serde rest update
    | .unborrowable => visit serde rest update

end Update

/-- Reads `update_id` and the routing facts of one update in a single pass. -/
def extract (serde : Serde) : JsonDoc → Except FactsError (Int64 × Facts)
  | .object members =>
    match Update.visit serde members { updateId := none, kind := none } with
    | none => .error .json
    | some update =>
      match update.updateId with
      | none => .error .missingUpdateId
      | some updateId => .ok (updateId, update.intoFacts)
  | _ => .error .json

end Tgin.UpdateFacts
