import Tgin.Client.Split
import Tgin.Gateway.Errors

/-! The answer of a poll, `batch_response` and `Chunks` of `tgin-botapi/src/pull.rs`, and what a client of `client.rs` makes of it. -/

namespace Tgin.Pull
open Client (Documented Elements FIELDS SerdeJson Slice parseResult slices splitUpdates updateId)
open Gateway.Errors (KEYS chars_key denotes_iff okDoc)
open JsonText (Denotes Field Member Padded Stands Value)
open Rules
open UpdateFacts (utf8)

/-- A body of ready chunks. -/
structure Chunks where
  chunks : List Str
  remaining : Nat
  counted : remaining = (chunks.map List.length).sum

namespace Chunks

def pollFrame (body : Chunks) : Option Str × Chunks :=
  match body with
  | { chunks := [], remaining, counted } => (none, { chunks := [], remaining, counted })
  | { chunks := chunk :: chunks, remaining, counted } =>
    (some chunk, { chunks, remaining := remaining - chunk.length,
                   counted := by rw [counted, List.map_cons, List.sum_cons, Nat.add_sub_cancel_left] })

def isEndStream (body : Chunks) : Bool := body.chunks.isEmpty

/-- The exact length that it gives. -/
def sizeHint (body : Chunks) : Nat := body.remaining

/-- What `n` polls give, and the body after them. -/
def polls : Nat → Chunks → List Str × Chunks
  | 0, body => ([], body)
  | n + 1, body =>
    match body.pollFrame with
    | (none, body) => ([], body)
    | (some chunk, body) => (chunk :: (body.polls n).1, (body.polls n).2)

end Chunks

def pushItem (chunks : List Str) (item : Str × Nat) : List Str :=
  (if item.2 > 0 then chunks ++ [[JsonText.comma]] else chunks) ++ [item.1]

structure Response where
  contentType : Str
  body : Chunks

/-- The payloads as they are, between what makes them one answer. -/
def batchResponse (items : List Str) : Response :=
  let chunks := items.zipIdx.foldl pushItem [utf8 "\x7b\"ok\":true,\"result\":["] ++ [utf8 "]\x7d"]
  { contentType := utf8 "application/json", body := { chunks, remaining := (chunks.map List.length).sum, counted := rfl } }

/-- What is sent in all. -/
def batchText (items : List Str) : Str := (batchResponse items).body.chunks.flatten

/-! ### The text -/

section
variable {items : List Str}

theorem flatten_pushItems (items : List Str) (k : Nat) (chunks : List Str) :
    ((items.zipIdx (k + 1)).foldl pushItem chunks).flatten = chunks.flatten ++ items.flatMap (JsonText.comma :: ·) := by
  induction items generalizing k chunks with
  | nil => exact (List.append_nil _).symm
  | cons item items ih =>
    rw [List.zipIdx_cons, List.foldl_cons, ih, pushItem, if_pos (Nat.succ_pos k), List.flatMap_cons]
    simp only [List.flatten_append, List.flatten_cons, List.flatten_nil, List.append_assoc, List.cons_append, List.nil_append]

/-- The members of the answer. -/
def members (items : List Str) : List Member :=
  [.bare (utf8 "ok") (utf8 "true"), .bare (utf8 "result") (JsonText.array (items.map .bare))]

theorem batchText_eq (items : List Str) : batchText items = JsonText.object (members items) := by
  have head : utf8 "\x7b\"ok\":true,\"result\":[" = 123 :: JsonText.quoted (utf8 "ok") ++ JsonText.colon :: utf8 "true" ++
      JsonText.comma :: JsonText.quoted (utf8 "result") ++ [JsonText.colon, 91] := by decide
  have close : utf8 "]\x7d" = [93, 125] := by decide
  have bare : (items.map Padded.bare).map Padded.bytes = items := by
    rw [List.map_map]
    exact (List.map_congr_left fun item _ => Padded.bare_bytes item).trans (List.map_id items)
  have between : (items.zipIdx.foldl pushItem [utf8 "\x7b\"ok\":true,\"result\":["]).flatten =
      utf8 "\x7b\"ok\":true,\"result\":[" ++ List.intercalate [JsonText.comma] items := by
    cases items with
    | nil => exact List.append_nil _
    | cons item items =>
      have parted := JsonText.intercalate_middle [] item items
      rw [List.nil_append, List.flatMap_nil, List.nil_append] at parted
      rw [List.zipIdx_cons, List.foldl_cons, flatten_pushItems, pushItem, if_neg (Nat.lt_irrefl 0), parted]
      simp only [List.flatten_append, List.flatten_singleton, List.append_assoc]
  dsimp only [batchText, batchResponse]
  rw [List.flatten_append, List.flatten_singleton, between, head, close, members, JsonText.object, JsonText.array, List.map_cons,
    List.map_singleton, List.intercalate_cons_cons, List.intercalate_singleton, Member.bare_bytes, Member.bare_bytes, bare]
  simp only [List.append_assoc, List.cons_append, List.nil_append]

/-! ### Polls of the body -/

/-- What was given and what is left are the body. -/
theorem polls_chunks (n : Nat) (body : Chunks) : (body.polls n).1 ++ (body.polls n).2.chunks = body.chunks := by
  induction n generalizing body with
  | zero => rfl
  | succ n ih =>
    obtain ⟨chunks, remaining, counted⟩ := body
    cases chunks with
    | nil => rfl
    | cons chunk chunks => exact congrArg _ (ih _)

/-- At every point of a batch that is sent, what is left is as long as it says, and it is at its end only when all was sent. -/
theorem polls_batch (items : List Str) (n : Nat) : let body := ((batchResponse items).body.polls n).2
    batchText items = ((batchResponse items).body.polls n).1.flatten ++ body.chunks.flatten ∧
      body.sizeHint = body.chunks.flatten.length ∧ (body.isEndStream ↔ body.sizeHint = 0) := by
  intro body
  have parts := polls_chunks n (batchResponse items).body
  have left : body.sizeHint = body.chunks.flatten.length := body.counted.trans List.length_flatten.symm
  refine ⟨by rw [batchText, ← parts, List.flatten_append], left, ?_⟩
  rw [left, Chunks.isEndStream, List.isEmpty_iff, List.length_eq_zero_iff, List.flatten_eq_nil_iff]
  constructor
  · intro nil
    rw [nil]
    exact List.forall_mem_nil _
  · intro empty
    by_contra left
    -- what closes the answer is left, and it is not empty
    have last : body.chunks.getLast? = some (utf8 "]\x7d") := by
      rw [← List.getLast?_append_of_ne_nil _ left, parts, batchResponse, List.getLast?_concat]
    have nil : utf8 "]\x7d" = [] := empty _ (List.mem_of_getLast? last)
    exact absurd nil (by decide)

/-! ### What a client reads -/

variable {pairs : List (Str × JsonDoc)} (denote : ∀ p ∈ pairs, Denotes p.1 p.2)
include denote

theorem array_batch : Denotes (JsonText.array ((pairs.map (·.1)).map .bare)) (.array (pairs.map (·.2))) := by
  rw [List.map_map]
  exact JsonText.denotes_array denote

/-- A batch of values stands for one document, the values in order. -/
theorem batch_denotes (doc : JsonDoc) : Denotes (batchText (pairs.map (·.1))) doc ↔ doc = okDoc (.array (pairs.map (·.2))) [] := by
  have keys : [utf8 "ok", utf8 "result"] ⊆ KEYS := by decide
  exact denotes_iff [(utf8 "ok", utf8 "true", .word (utf8 "true")), (utf8 "result", _, _)] keys
    (List.forall_mem_cons.mpr ⟨.word (by decide), List.forall_mem_singleton.mpr (array_batch denote)⟩) (batchText_eq _) doc

/-- Where a reader of an envelope finds the result of a batch. -/
theorem result_batch {p : Padded} {before value after : Str} (spaced : p.Spaced) (text : batchText (pairs.map (·.1)) = p.bytes)
    (result : Field FIELDS (utf8 "result") p.value before value after) :
    value = JsonText.array ((pairs.map (·.1)).map .bare) := by
  have whole := (batch_denotes denote _).mpr rfl
  obtain ⟨hole, -, plug⟩ := result.plug
  obtain ⟨doc, inner⟩ := result.value.denotes
  have denotes := plug value doc inner
  rw [← result.split] at denotes
  have same : p.value = JsonText.object (members (pairs.map (·.1))) := by
    have bare : p = .bare (batchText (pairs.map (·.1))) := Padded.eq_bare spaced denotes whole text
    rw [bare]
    exact batchText_eq _
  generalize p.value = found at same result
  cases result with
  | element => cases same
  | member pre post m formed values key once =>
    obtain ⟨parts, listed, values⟩ := JsonText.exists_pairs fun o ho => (values o ho).denotes
    have wanted : (members (pairs.map (·.1))) = ([(Member.bare (utf8 "ok") (utf8 "true"), JsonDoc.word (utf8 "true")),
        (Member.bare (utf8 "result") (JsonText.array ((pairs.map (·.1)).map .bare)), .array (pairs.map (·.2)))]).map (·.1) := rfl
    have okKey : Stands (utf8 "ok") (utf8 "result") → False := fun stands =>
      absurd (stands.eq_of_plain (by decide)) (by decide)
    rw [← listed, wanted] at same
    have all := JsonText.object_injective (fun o ho => formed _ (listed ▸ List.mem_map_of_mem ho)) values
      (List.forall_mem_cons.mpr ⟨Member.bare_formed (chars_key (by decide)) _,
        List.forall_mem_singleton.mpr (Member.bare_formed (chars_key (by decide)) _)⟩)
      (List.forall_mem_cons.mpr ⟨.word (by decide), List.forall_mem_singleton.mpr (array_batch denote)⟩) same
    rw [all, ← wanted] at listed
    -- the member is the second: the key of the first is another
    cases pre with
    | nil =>
      obtain ⟨rfl, -⟩ := List.cons.inj listed
      exact (okKey key).elim
    | cons first pre =>
      cases pre with
      | nil =>
        obtain ⟨rfl, -⟩ := List.cons.inj (List.cons.inj listed).2
        rfl
      | cons second pre => simpa [members] using congrArg List.length listed

/-- The elements of a batch are the payloads, byte for byte. -/
theorem elements_batch {raws : List Slice} (h : Elements (batchText (pairs.map (·.1))) raws) :
    raws.map (·.of (batchText (pairs.map (·.1)))) = pairs.map (·.1) := by
  cases h with
  | empty text spaced result white =>
    have none := array_batch denote
    rw [← result_batch denote spaced text result] at none
    have docs : [] = pairs.map (·.2) := JsonDoc.array.inj ((Denotes.emptyArray white).unique none)
    rw [List.map_eq_nil_iff.mp docs.symm]
    rfl
  | @mk p before after elements text spaced result each =>
    obtain ⟨parts, rfl, values⟩ := JsonText.exists_pairs fun e he => (each e he).2.1.denotes
    have wanted : (pairs.map (·.1)).map Padded.bare = (pairs.map fun e => (Padded.bare e.1, e.2)).map (·.1) := by
      rw [List.map_map, List.map_map]
      rfl
    have same := result_batch denote spaced text result
    rw [wanted] at same
    have all := JsonText.array_injective (fun e he => (each _ (List.mem_map_of_mem he)).1) values
      (List.forall_mem_map.mpr fun e _ => Padded.bare_spaced e.1) (List.forall_mem_map.mpr denote) same
    have whole : batchText (pairs.map (·.1)) = (p.before ++ before ++ [91]) ++
        List.intercalate [JsonText.comma] ((parts.map (·.1)).map Padded.bytes) ++ ([93] ++ after ++ p.after) := by
      rw [text, Padded.bytes, result.split, JsonText.array]
      simp only [List.append_assoc, List.cons_append, List.nil_append]
    have placed := Client.slices_of (parts.map (·.1)) (p.before ++ before ++ [91]) ([93] ++ after ++ p.after)
    rw [← whole, List.length_append, List.length_append, List.length_singleton] at placed
    rw [placed, all, List.map_map, List.map_map]
    rfl

end

end Tgin.Pull
