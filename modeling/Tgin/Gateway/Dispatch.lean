import Tgin.BotLimiter.Alone
import Tgin.Gateway.Intercept
import Tgin.Gateway.Paths

/-! How the gateway takes a request, `Gateway::handle` of `tgin-botapi/src/gateway/mod.rs`, with the method table of
    `gateway/methods.rs`: a call is of the bot whose token is in its path, and goes by the method's name in any case. -/

namespace Tgin.Gateway.Dispatch
open Engine (Shared pushedEngine)
open GatewayPath (cloud gatewayToken parse standardUrls tokenSegment validMethod)
open Intercept (Crates KEPT)
open Rules
open UpdateFacts (utf8)

variable {u : Urls} {m : Matchers}

/-! ### Methods -/

/-- Every method of the Bot API, in the order of the names without case. -/
def METHODS : List Str := [
    "addStickerToSet", "answerCallbackQuery", "answerChatJoinRequestQuery", "answerGuestQuery", "answerInlineQuery",
    "answerPreCheckoutQuery", "answerShippingQuery", "answerWebAppQuery", "approveChatJoinRequest", "approveSuggestedPost",
    "banChatMember", "banChatSenderChat", "close", "closeForumTopic", "closeGeneralForumTopic", "convertGiftToStars",
    "copyMessage", "copyMessages", "createChatInviteLink", "createChatSubscriptionInviteLink", "createForumTopic",
    "createInvoiceLink", "createNewStickerSet", "declineChatJoinRequest", "declineSuggestedPost", "deleteAllMessageReactions",
    "deleteBusinessMessages", "deleteChatPhoto", "deleteChatStickerSet", "deleteEphemeralMessage", "deleteForumTopic",
    "deleteMessage", "deleteMessageReaction", "deleteMessages", "deleteMyCommands", "deleteStickerFromSet", "deleteStickerSet",
    "deleteStory", "deleteWebhook", "editChatInviteLink", "editChatSubscriptionInviteLink", "editEphemeralMessageCaption",
    "editEphemeralMessageMedia", "editEphemeralMessageReplyMarkup", "editEphemeralMessageText", "editForumTopic",
    "editGeneralForumTopic", "editMessageCaption", "editMessageChecklist", "editMessageLiveLocation", "editMessageMedia",
    "editMessageReplyMarkup", "editMessageText", "editStory", "editUserStarSubscription", "exportChatInviteLink",
    "forwardMessage", "forwardMessages", "getAvailableGifts", "getBusinessAccountGifts", "getBusinessAccountStarBalance",
    "getBusinessConnection", "getChat", "getChatAdministrators", "getChatGifts", "getChatMember", "getChatMemberCount",
    "getChatMenuButton", "getCustomEmojiStickers", "getFile", "getForumTopicIconStickers", "getGameHighScores",
    "getManagedBotAccessSettings", "getManagedBotToken", "getMe", "getMyCommands", "getMyDefaultAdministratorRights",
    "getMyDescription", "getMyName", "getMyShortDescription", "getMyStarBalance", "getStarTransactions", "getStickerSet",
    "getUpdates", "getUserChatBoosts", "getUserGifts", "getUserPersonalChatMessages", "getUserProfileAudios",
    "getUserProfilePhotos", "getWebhookInfo", "giftPremiumSubscription", "hideGeneralForumTopic", "leaveChat", "logOut",
    "pinChatMessage", "postStory", "promoteChatMember", "readBusinessMessage", "refundStarPayment",
    "removeBusinessAccountProfilePhoto", "removeChatVerification", "removeMyProfilePhoto", "removeUserVerification",
    "reopenForumTopic", "reopenGeneralForumTopic", "replaceManagedBotToken", "replaceStickerInSet", "repostStory",
    "restrictChatMember", "revokeChatInviteLink", "savePreparedInlineMessage", "savePreparedKeyboardButton", "sendAnimation",
    "sendAudio", "sendChatAction", "sendChatJoinRequestWebApp", "sendChecklist", "sendContact", "sendDice", "sendDocument",
    "sendGame", "sendGift", "sendInvoice", "sendLivePhoto", "sendLocation", "sendMediaGroup", "sendMessage", "sendMessageDraft",
    "sendPaidMedia", "sendPhoto", "sendPoll", "sendRichMessage", "sendRichMessageDraft", "sendSticker", "sendVenue", "sendVideo",
    "sendVideoNote", "sendVoice", "setBusinessAccountBio", "setBusinessAccountGiftSettings", "setBusinessAccountName",
    "setBusinessAccountProfilePhoto", "setBusinessAccountUsername", "setChatAdministratorCustomTitle", "setChatDescription",
    "setChatMemberTag", "setChatMenuButton", "setChatPermissions", "setChatPhoto", "setChatStickerSet", "setChatTitle",
    "setCustomEmojiStickerSetThumbnail", "setGameScore", "setManagedBotAccessSettings", "setMessageReaction", "setMyCommands",
    "setMyDefaultAdministratorRights", "setMyDescription", "setMyName", "setMyProfilePhoto", "setMyShortDescription",
    "setPassportDataErrors", "setStickerEmojiList", "setStickerKeywords", "setStickerMaskPosition", "setStickerPositionInSet",
    "setStickerSetThumbnail", "setStickerSetTitle", "setUserEmojiStatus", "setWebhook", "stopMessageLiveLocation", "stopPoll",
    "transferBusinessAccountStars", "transferGift", "unbanChatMember", "unbanChatSenderChat", "unhideGeneralForumTopic",
    "unpinAllChatMessages", "unpinAllForumTopicMessages", "unpinAllGeneralForumTopicMessages", "unpinChatMessage", "upgradeGift",
    "uploadStickerFile", "verifyChat", "verifyUser"].map utf8

/-- The method's name in the table. A search by halves finds it: no name is there twice (`METHODS_sorted`). -/
def lookup (method : Str) : Option Str := METHODS.find? (Str.eqIgnoreAsciiCase · method)

/-- The label of a request. -/
inductive MethodLabel where
  | method (name : Str)
  /-- A method missing from the table. -/
  | other
  /-- A file download. -/
  | file
  deriving DecidableEq, Repr

namespace MethodLabel

/-- The label of the method named `method`, in any case. -/
def of (method : Str) : MethodLabel := (lookup method).elim .other .method

def asStr : MethodLabel → Str
  | .method name => name
  | .other => utf8 "other"
  | .file => utf8 "file"

end MethodLabel

theorem METHODS_sorted : (METHODS.map Str.toAsciiLowercase).IsChain (· < ·) := by decide +kernel

theorem lookup_kept : ∀ name ∈ KEPT, METHODS.find? (Str.eqIgnoreAsciiCase · name) = some name := by decide +kernel

/-- A kept method is known in any case. -/
theorem label_kept {name method : Str} (kept : name ∈ KEPT) (same : Str.eqIgnoreAsciiCase name method) :
    (MethodLabel.of method).asStr = name := by
  have lower : Str.toAsciiLowercase name = Str.toAsciiLowercase method := of_decide_eq_true same
  have found : lookup method = some name := by
    rw [← lookup_kept name kept, lookup]
    simp only [Str.eqIgnoreAsciiCase, lower]
  rw [MethodLabel.of, found]
  rfl

/-! ### A request -/

inductive Verb where
  | get | post | other
  deriving DecidableEq, Repr

structure Incoming where
  path : Str
  verb : Verb
  request : Intercept.Request

/-- The bot whose token is `token`, the first of the table. Every token is compared. -/
def find (table : List (Bot u)) (token : Str) : Option (Bot u) :=
  table.foldl (fun found bot => if token = bot.token && found.isNone then some bot else found) none

variable (u) in
/-- Where a request goes. -/
inductive Handled where
  | answered (response : Errors.Response) (outcome : Option Intercept.Outcome)
  | method (bot : Bot u) (method : Str) (call : Intercept.Call)
  | file (bot : Bot u) (filePath : Str)

/-- A request as far as its method or its file: it needs a bot's token, a consumer that the bot routes to, and a GET or a POST. -/
def handle (bots : System u) (shared : Shared m) (incoming : Incoming) : Handled u :=
  match parse incoming.path with
  | none => .answered (Errors.error .NOT_FOUND (utf8 "Not Found")) none
  | some target =>
    let (consumer, token) := match target with
      | .method consumer token _ => (consumer, token)
      | .file consumer token _ => (consumer, token)
    match find bots.table token with
    | none => .answered (Errors.error .UNAUTHORIZED (utf8 "Unauthorized")) none
    | some bot =>
      if consumer.any fun consumer => !shared.routesTo bot.source consumer then
        .answered (Errors.error .NOT_FOUND (utf8 "Not Found: consumer not found")) (some .rejected)
      else if incoming.verb = .other then
        .answered (Errors.error .METHOD_NOT_ALLOWED (utf8 "Method Not Allowed")) (some .rejected)
      else match target with
        | .method _ _ method => .method bot method {
            source := bot.source, token := bot.token, rewrite := bot.rewrite, consumer, label := (MethodLabel.of method).asStr
            identity := (bots.cells.identities bot.identity).map (·.raw) }
        | .file _ _ filePath => .file bot filePath

/-- What a request must have for the call that it becomes. -/
structure Authorized (bots : System u) (shared : Shared m) (incoming : Incoming) (bot : Bot u) (method : Str)
    (call : Intercept.Call) : Prop where
  served : bot ∈ bots.table
  path : parse incoming.path = some (.method call.consumer bot.token method)
  source : call.source = bot.source
  token : call.token = bot.token
  routes : ∀ consumer, call.consumer = some consumer → shared.routesTo bot.source consumer
  verb : incoming.verb ≠ .other
  label : call.label = (MethodLabel.of method).asStr

theorem find_eq_some {table : List (Bot u)} {token : Str} {bot : Bot u} (found : find table token = some bot) :
    bot ∈ table ∧ bot.token = token := by
  have fold : ∀ rest ⊆ table, ∀ start : Option (Bot u), (∀ bot, start = some bot → bot ∈ table ∧ bot.token = token) →
      ∀ bot, rest.foldl (fun found bot => if token = bot.token && found.isNone then some bot else found) start = some bot →
        bot ∈ table ∧ bot.token = token := by
    intro rest sub
    induction rest with
    | nil => exact fun start good => good
    | cons first rest ih =>
      obtain ⟨mem, sub⟩ := List.cons_subset.mp sub
      intro start good
      refine ih sub _ fun bot eq => ?_
      dsimp only at eq
      split at eq
      · rename_i hit
        obtain rfl := Option.some.inj eq
        exact ⟨mem, (of_decide_eq_true (Bool.and_eq_true_iff.mp hit).1).symm⟩
      · exact good bot eq
  exact fold table (List.Subset.refl _) none (fun _ eq => by cases eq) bot found

theorem handle_method {bots : System u} {shared : Shared m} {incoming : Incoming} {bot : Bot u} {method : Str}
    {call : Intercept.Call} (handled : handle bots shared incoming = .method bot method call) :
    Authorized bots shared incoming bot method call := by
  unfold handle at handled
  cases parsed : parse incoming.path with
  | none =>
    rw [parsed] at handled
    cases handled
  | some target =>
    rw [parsed] at handled
    cases target with
    | file consumer token filePath =>
      dsimp only at handled
      repeat' split at handled
      all_goals cases handled
    | method consumer token name =>
      dsimp only at handled
      split at handled
      · cases handled
      · rename_i found
        obtain ⟨mem, rfl⟩ := find_eq_some found
        split at handled
        · cases handled
        · rename_i routed
          split at handled
          · cases handled
          · rename_i verb
            cases handled
            refine ⟨mem, parsed, rfl, rfl, fun other same => ?_, verb, rfl⟩
            obtain rfl : consumer = some other := same
            simpa using routed

/-! ### Runs -/

variable (u m) in
/-- The bots that the gateway serves, and the calls that it let in, with their engine. -/
structure Door where
  bots : System u
  inner : Intercept.System m

variable (u) in
inductive Action where
  /-- A reload, a move or a call changes what the gateway keeps of the bots. -/
  | bots (event : Event u)
  | request (incoming : Incoming)
  /-- A call takes its next step. -/
  | step (i : Nat)
  | engine (action : Engine.Action)

namespace Door

def act (c : Crates) (door : Door u m) : Action u → Door u m
  | .bots event => { door with bots := door.bots.step event }
  | .request incoming =>
    match handle door.bots door.inner.shared incoming with
    | .method _ _ call => { door with inner := door.inner.act c (.call call incoming.request) }
    | _ => door
  | .step i => { door with inner := door.inner.act c (.step i) }
  | .engine action => { door with inner := door.inner.act c (.engine action) }

def run (c : Crates) (door : Door u m) (actions : List (Action u)) : Door u m := actions.foldl (act c) door

theorem run_concat (c : Crates) (door : Door u m) (actions : List (Action u)) (action : Action u) :
    door.run c (actions ++ [action]) = (door.run c actions).act c action := List.foldl_concat ..

/-- The calls that were let in. -/
def callers (door : Door u m) : List Intercept.Call := door.inner.calls.map (·.1)

theorem step_callers (c : Crates) (sys : Intercept.System m) (i : Nat) :
    (sys.act c (.step i)).calls.map (·.1) = sys.calls.map (·.1) := by
  simp only [Intercept.System.act]
  cases found : sys.calls[i]? with
  | none => rfl
  | some entry =>
    refine List.ext_getElem? fun j => ?_
    dsimp only
    rw [List.getElem?_map, List.getElem?_map, List.getElem?_set]
    split
    · rename_i same
      subst same
      rw [if_pos (List.getElem?_eq_some_iff.mp found).1, found]
      rfl
    · rfl

/-- Every call that was let in came as a request that had what it must have then. -/
theorem run_came (c : Crates) {door : Door u m} (fresh : door.inner.calls = []) (actions : List (Action u)) :
    ∀ call ∈ (door.run c actions).callers, ∃ before incoming after bot method, actions = before ++ .request incoming :: after ∧
      Authorized (door.run c before).bots (door.run c before).inner.shared incoming bot method call := by
  induction actions using List.reverseRecOn with
  | nil =>
    intro call mem
    rw [callers, run, List.foldl_nil, fresh] at mem
    cases mem
  | append_singleton actions action ih =>
    have earlier {call : Intercept.Call} (mem : call ∈ (door.run c actions).callers) :
        ∃ before incoming after bot method, actions ++ [action] = before ++ .request incoming :: after ∧
          Authorized (door.run c before).bots (door.run c before).inner.shared incoming bot method call := by
      obtain ⟨before, incoming, after, bot, method, rfl, authorized⟩ := ih call mem
      exact ⟨before, incoming, after ++ [action], bot, method, List.append_assoc .., authorized⟩
    intro call mem
    rw [run_concat] at mem
    cases action with
    | bots event => exact earlier mem
    | request incoming =>
      simp only [act] at mem
      cases handled : handle (door.run c actions).bots (door.run c actions).inner.shared incoming with
      | answered response outcome =>
        rw [handled] at mem
        exact earlier mem
      | file bot filePath =>
        rw [handled] at mem
        exact earlier mem
      | method bot method there =>
        rw [handled] at mem
        simp only [callers, Intercept.System.act, List.map_append, List.map_singleton, List.mem_append, List.mem_singleton] at mem
        rcases mem with mem | rfl
        · exact earlier mem
        · exact ⟨actions, incoming, [], bot, method, rfl, handle_method handled⟩
    | step i =>
      rw [callers, act, step_callers] at mem
      exact earlier mem
    | engine action => exact earlier mem

/-- Past the door, the run is one of the calls' own. -/
theorem run_inner (c : Crates) (door : Door u m) (actions : List (Action u)) :
    ∃ acts, (door.run c actions).inner = door.inner.run c acts := by
  induction actions using List.reverseRecOn with
  | nil => exact ⟨[], rfl⟩
  | append_singleton actions action ih =>
    obtain ⟨acts, ran⟩ := ih
    have more (act : Intercept.Action) : ∃ acts, (door.run c actions).inner.act c act = door.inner.run c acts :=
      ⟨acts ++ [act], by rw [ran, Intercept.System.run, Intercept.System.run, List.foldl_concat]⟩
    rw [run_concat]
    cases action with
    | bots event => exact ⟨acts, ran⟩
    | request incoming =>
      simp only [act]
      cases handle (door.run c actions).bots (door.run c actions).inner.shared incoming with
      | answered response outcome => exact ⟨acts, ran⟩
      | file bot filePath => exact ⟨acts, ran⟩
      | method bot method call => exact more (.call call incoming.request)
    | step i => exact more (.step i)
    | engine action => exact more (.engine action)

end Door

/-- Over any run, what is past the door is a run of calls, each of which came with the token that a bot of the table had then, by GET or
    POST, for a consumer that the bot routed to. And no request for a method that tgin keeps, in whatever case it is written, goes on to
    Telegram. -/
theorem dispatched_run (c : Crates) (via : Str) (seeds : Nat → (ChatKey → Nat) × (ChatKey → Nat)) (engine : Shared m)
    (actions : List (Action u)) : let start : Door u m := { bots := .new u via seeds, inner := .new engine }
    let now := start.run c actions
    (∃ acts, now.inner = (Intercept.System.new engine).run c acts) ∧
    ∀ call phase, (call, phase) ∈ now.inner.calls →
      ∃ before incoming after bot method, actions = before ++ .request incoming :: after ∧
        Authorized (start.run c before).bots (start.run c before).inner.shared incoming bot method call ∧
        ∀ there, phase = .routed there → there.forwards → ∀ name ∈ KEPT, Str.eqIgnoreAsciiCase name method = false := by
  intro start now
  obtain ⟨acts, ran⟩ : ∃ acts, now.inner = start.inner.run c acts := start.run_inner c actions
  refine ⟨⟨acts, ran⟩, fun call phase mem => ?_⟩
  obtain ⟨before, incoming, after, bot, method, eq, authorized⟩ :=
    Door.run_came c (show start.inner.calls = [] from rfl) actions call (List.mem_map_of_mem mem)
  refine ⟨before, incoming, after, bot, method, eq, authorized, ?_⟩
  rintro there rfl forwards name kept
  rw [ran] at mem
  have outside := (Intercept.System.run_inv c engine acts).fits _ mem forwards
  refine Bool.eq_false_iff.mpr fun same => outside ?_
  rw [authorized.label, label_kept kept same]
  exact kept

/-- Bot `a` at `https://h/`, with token `1:a`. -/
def servedBot : GatewayBot standardUrls where
  name := [97]
  source := 0
  token := [49, 58, 97]
  upstream := cloud
  allowLocalFiles := false
  gateway := { upstreamIdleTimeout := 10 ^ 9, rateLimit := { methods := [], rates := BotLimiter.oneASecond }, retry429MaxWait := 0 }

/-- A `logOut` of bot `a`, in another case. -/
def outRequest : Incoming where
  path := utf8 "/bot1:a/LOGOUT"
  verb := .post
  request := Intercept.settingRequest

def door : Door standardUrls literal where
  bots := .new standardUrls [] fun _ => (fun _ => 0, fun _ => 0)
  inner := .new pushedEngine

def out : Intercept.Call where
  source := 0
  token := [49, 58, 97]
  rewrite := .off
  identity := none
  consumer := none
  label := utf8 "logOut"

/-- It is let in, and it is refused. -/
theorem dispatched_run_logOut : let actions := [.bots (.setBots [servedBot]), .request outRequest, .step 0]
    (out, .routed (.answered (Errors.error .BAD_REQUEST Intercept.LOG_OUT_DISABLED) .answered)) ∈
        (door.run Intercept.plainCrates actions).inner.calls ∧
      ∃ before incoming after bot method, actions = before ++ .request incoming :: after ∧
        Authorized (door.run Intercept.plainCrates before).bots (door.run Intercept.plainCrates before).inner.shared incoming bot
          method out := by
  intro actions
  have plain : LocalFiles.percentDecode [49, 58, 97] = [49, 58, 97] := by
    rw [LocalFiles.percentDecode_cons, LocalFiles.percentDecode_cons, LocalFiles.percentDecode_cons,
      LocalFiles.percentDecode] <;> decide
  have decoded : tokenSegment [98, 111, 116, 49, 58, 97] = some [49, 58, 97] := by
    change (LocalFiles.fromUtf8 (LocalFiles.percentDecode [49, 58, 97])).filter gatewayToken = _
    rw [plain]
    decide
  have parsed : parse outRequest.path = some (.method none [49, 58, 97] (utf8 "LOGOUT")) := by
    change ((tokenSegment [98, 111, 116, 49, 58, 97]).bind fun token =>
      if validMethod (utf8 "LOGOUT") then some (GatewayPath.method none token (utf8 "LOGOUT")) else none) = _
    rw [decoded]
    decide
  have handled : ∃ bot, handle (door.bots.step (.setBots [servedBot])) door.inner.shared outRequest =
      .method bot (utf8 "LOGOUT") out := by
    rw [handle, parsed]
    exact ⟨_, rfl⟩
  obtain ⟨bot, handled⟩ := handled
  have entered : door.run Intercept.plainCrates [.bots (.setBots [servedBot]), .request outRequest] =
      { bots := door.bots.step (.setBots [servedBot])
        inner := door.inner.act Intercept.plainCrates (.call out outRequest.request) } := by
    change Door.act Intercept.plainCrates { door with bots := door.bots.step (.setBots [servedBot]) } (.request outRequest) = _
    rw [Door.act]
    dsimp only
    rw [handled]
  have there : (out, .routed (.answered (Errors.error .BAD_REQUEST Intercept.LOG_OUT_DISABLED) .answered)) ∈
      (door.run Intercept.plainCrates actions).inner.calls := by
    change _ ∈ ((door.run Intercept.plainCrates [.bots (.setBots [servedBot]), .request outRequest]).act
      Intercept.plainCrates (.step 0)).inner.calls
    rw [entered]
    exact List.mem_singleton.mpr rfl
  obtain ⟨before, incoming, after, bot, method, eq, authorized, -⟩ :=
    (dispatched_run Intercept.plainCrates [] (fun _ => (fun _ => 0, fun _ => 0)) pushedEngine actions).2 out _ there
  exact ⟨there, before, incoming, after, bot, method, eq, authorized⟩

end Tgin.Gateway.Dispatch
