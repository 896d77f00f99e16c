import Tgin.Lib.JsonString
import Tgin.Lib.Split
import Tgin.Rules

/-! String literals of updates, `tgin-botapi/src/facts.rs`: their texts, decoded and cut, and the command that a text begins with. -/

namespace Tgin.UpdateFacts
open Rules
open JsonText (Hex Item Items backslash chars hexDigit)
open Utf8 (Valid encode findWhitespace fit fit_all isBoundary isContinuation slice)

/-! ### Decoding -/

/-- Where the text of a JSON string is. -/
inductive Text where
  /-- Verbatim in the payload: the string has no escapes. -/
  | verbatim (text : Str)
  /-- Decoded into the buffer, from `start` up to `stop`. -/
  | decoded (start stop : Nat)
  deriving DecidableEq, Repr

def Text.resolve (decoded : Str) : Text → Str
  | .verbatim text => text
  | .decoded start stop => (decoded.take stop).drop start

/-- The last boundary up to a place. -/
def floorBoundary (s : Str) : Nat → Nat
  | 0 => 0
  | n + 1 => if isBoundary s (n + 1) then n + 1 else floorBoundary s n

/-- `s` cut to at most `limit` bytes on a char boundary. -/
def floor (s : Str) (limit : Nat) : Str := if s.length ≤ limit then s else s.take (floorBoundary s limit)

/-- The four hex digits at the start of `s`. -/
def hex4 : Str → Option Nat
  | a :: b :: c :: d :: _ => do
    let i ← hexDigit a
    let j ← hexDigit b
    let k ← hexDigit c
    let l ← hexDigit d
    return ((i * 16 + j) * 16 + k) * 16 + l
  | _ => none

/-- `char::REPLACEMENT_CHARACTER`. -/
abbrev REPLACEMENT_CHARACTER : Char := JsonText.REPLACEMENT

/-- A `\u` escape (`s` follows the `u`), joining a surrogate pair written as two escapes. -/
def unescapeUnicode (s : Str) : Char × Str :=
  match hex4 s with
  | none => (REPLACEMENT_CHARACTER, s)
  | some unit =>
    let rest := s.drop 4
    let low := if 0xD800 ≤ unit ∧ unit < 0xDC00 then
        ((Split.strip [backslash, 117] rest).bind hex4).filter fun low => 0xDC00 ≤ low && low < 0xE000
      else none
    match low with
    | some low => (.ofNat (0x10000 + (unit - 0xD800) * 0x400 + (low - 0xDC00)), rest.drop 6)
    | none => (if unit.isValidChar then .ofNat unit else REPLACEMENT_CHARACTER, rest)

/-- The char of one escape, given the text after its `\`, and the text after the escape. -/
def unescapeOne : Str → Char × Str
  | [] => (REPLACEMENT_CHARACTER, [])
  | b :: s =>
    -- The bytes of the first char.
    let rest := s.dropWhile isContinuation
    if b = 34 || b = backslash || b = 47 then (.ofNat b.toNat, rest)
    else if b = 98 then (.ofNat 8, rest)
    else if b = 102 then (.ofNat 12, rest)
    else if b = 110 then (.ofNat 10, rest)
    else if b = 114 then (.ofNat 13, rest)
    else if b = 116 then (.ofNat 9, rest)
    else if b = 117 then unescapeUnicode rest
    else (REPLACEMENT_CHARACTER, rest)

theorem unescapeUnicode_length (s : Str) : (unescapeUnicode s).2.length ≤ s.length := by
  unfold unescapeUnicode
  split
  · exact Nat.le_refl _
  · dsimp only
    split
    · simp only [List.length_drop]
      omega
    · simp only [List.length_drop]
      omega

theorem unescapeOne_length (s : Str) : (unescapeOne s).2.length ≤ s.length := by
  cases s with
  | nil => exact Nat.le_refl _
  | cons b s =>
    have rest : (s.dropWhile isContinuation).length ≤ (b :: s).length :=
      Nat.le_succ_of_le (List.dropWhile_sublist isContinuation).length_le
    unfold unescapeOne
    dsimp only
    repeat' split
    all_goals try exact rest
    exact Nat.le_trans (unescapeUnicode_length _) rest

/-- What is decoded of `rest` after the text `decoded`. -/
def unescapeFrom (limit : Nat) (rest decoded : Str) : Str :=
  if _ : rest = [] then decoded
  else
    let plain := rest.takeWhile (· ≠ backslash)
    let room := limit - decoded.length
    if plain.length > room then decoded ++ floor plain room
    else
      match _left : rest.dropWhile (· ≠ backslash) with
      | [] => decoded ++ plain
      | _ :: escaped =>
        -- The char, and the text after its escape.
        let one := unescapeOne escaped
        if one.1.utf8Size > limit - (decoded ++ plain).length then decoded ++ plain
        else unescapeFrom limit one.2 (decoded ++ plain ++ String.utf8EncodeChar one.1)
  termination_by rest.length
  decreasing_by
    have shorter : (rest.dropWhile (· ≠ backslash)).length ≤ rest.length := (List.dropWhile_sublist _).length_le
    rw [_left, List.length_cons] at shorter
    exact Nat.lt_of_le_of_lt (unescapeOne_length escaped) shorter

/-- The contents of a JSON string (between its quotes) decoded and cut to at most `limit` bytes on a char boundary. Without escapes
    the text stays in `inner`; otherwise it is appended to `out`, which is returned. -/
def unescape (inner : Str) (limit : Nat) (out : Str) : Text × Str :=
  if !inner.contains backslash then (.verbatim (floor inner limit), out)
  else
    let decoded := unescapeFrom limit inner []
    (.decoded out.length (out ++ decoded).length, out ++ decoded)

/-! ### Commands -/

/-- A leading `/` as a JSON string may write it. -/
def SLASHES : List Str := [[47], [92, 47], [92, 117, 48, 48, 50, 102], [92, 117, 48, 48, 50, 70]]

/-- The leading `/name[@bot]` of `text`. `raw` is the JSON string `text` was decoded from, `escaped` whether it had escapes. -/
def command (text : Str) (escaped : Bool) (raw : Str) : Option (Str × Option Str) := do
  let rest ← Split.strip [slash] text
  let len := (findWhitespace rest).getD rest.length
  let token ←
    if escaped then do
      -- The same bytes in the escaped source after its `/`.
      let after ← SLASHES.findSome? (Split.strip · raw)
      (slice after 0 len).filter (· = rest.take len)
    else slice text 1 (1 + len)
  match Split.once atSign token with
  | some (name, bot) => some (name, some bot)
  | none => some (token, none)

section
variable {s text rest escaped after digits low : Str} {items : List Item} {item : Item} {limit n m : Nat} {chars : List Char}

/-! ### Cut -/

/-- The place is the last boundary up to `n`. -/
theorem floorBoundary_spec (s : Str) (n : Nat) :
    isBoundary s (floorBoundary s n) = true ∧ floorBoundary s n ≤ n ∧ ∀ m ≤ n, isBoundary s m = true → m ≤ floorBoundary s n := by
  induction n with
  | zero => exact ⟨rfl, Nat.le_refl _, fun m le _ => le⟩
  | succ n ih =>
    rw [floorBoundary]
    split
    · rename_i boundary
      exact ⟨boundary, Nat.le_refl _, fun m le _ => le⟩
    · rename_i inside
      obtain ⟨boundary, le, last⟩ := ih
      refine ⟨boundary, Nat.le_succ_of_le le, fun m le hm => ?_⟩
      rcases Nat.lt_or_eq_of_le le with lt | rfl
      · exact last m (Nat.le_of_lt_succ lt) hm
      · exact absurd hm inside

theorem floor_encode (chars : List Char) (limit : Nat) : floor (encode chars) limit = encode (fit limit chars) := by
  unfold floor
  split
  · rename_i short
    rw [fit_all short]
  · obtain ⟨boundary, le, last⟩ := floorBoundary_spec (encode chars) limit
    obtain ⟨_, _, ⟨left, rfl⟩, ⟨right, rfl⟩, cut, len⟩ := Valid.cut ⟨chars, rfl⟩ boundary
    have whole : chars = left ++ right := Utf8.encode_injective (cut.trans (Utf8.encode_append ..).symm)
    have fits : fit limit chars = left := by
      refine Utf8.fit_eq (whole ▸ List.prefix_append ..) (len ▸ le) (len ▸ last _ (Utf8.fit_length ..) ?_)
      obtain ⟨more, eq⟩ := Utf8.fit_prefix limit chars
      rw [← eq, Utf8.encode_append]
      rw [eq]
      exact Utf8.isBoundary_append _ ⟨more, rfl⟩
    rw [← len, cut, List.take_left, fits]

/-! ### Escapes -/

theorem hex4_append (h : Hex digits n) (rest : Str) : hex4 (digits ++ rest) = some n := by
  obtain ⟨first, second, third, fourth⟩ := h
  simp only [List.cons_append, hex4, first, second, third, fourth, Option.bind_eq_bind, Option.bind_some]
  rfl

theorem hex_of_hex4 (h : hex4 s = some n) : ∃ digits tail, s = digits ++ tail ∧ Hex digits n := by
  unfold hex4 at h
  split at h
  · rename_i a b c d tail
    simp only [Option.bind_eq_bind, Option.bind_eq_some_iff] at h
    obtain ⟨i, first, j, second, k, third, l, fourth, eq⟩ := h
    cases eq
    exact ⟨[a, b, c, d], tail, rfl, first, second, third, fourth⟩
  · cases h

/-- A digit begins the text, which is no rest of a character. -/
theorem dropWhile_digits (h : Hex digits n) (rest : Str) : (digits ++ rest).dropWhile isContinuation = digits ++ rest := by
  obtain ⟨first, -, -, -⟩ := h
  have ascii : isContinuation _ = false := (Valid.ascii (JsonText.hexDigit_ascii first)).head rfl
  rw [List.cons_append, List.dropWhile_cons_of_neg (by rw [ascii]; exact Bool.false_ne_true)]

theorem unescapeUnicode_char (h : Hex digits n) (char : n.isValidChar) (rest : Str) :
    unescapeUnicode (digits ++ rest) = (.ofNat n, rest) := by
  have range := h.isValidChar.mp char
  rw [unescapeUnicode, hex4_append h]
  dsimp only
  rw [if_neg (by omega), ← h.length, List.drop_left]
  dsimp only
  rw [if_pos char]

theorem unescapeUnicode_pair (hm : Hex digits m) (hn : Hex low n) (high : 0xD800 ≤ m ∧ m < 0xDC00)
    (range : 0xDC00 ≤ n ∧ n < 0xE000) (rest : Str) :
    unescapeUnicode (digits ++ backslash :: 117 :: (low ++ rest)) = (JsonText.paired m n, rest) := by
  have after : (digits ++ backslash :: 117 :: (low ++ rest)).drop 4 = backslash :: 117 :: (low ++ rest) := by
    rw [← hm.length, List.drop_left]
  have strip : Split.strip [backslash, 117] (backslash :: 117 :: (low ++ rest)) = some (low ++ rest) := Split.strip_eq_some.mpr rfl
  have inRange : (decide (0xDC00 ≤ n) && decide (n < 0xE000)) = true := by simp [range]
  rw [unescapeUnicode, hex4_append hm]
  dsimp only
  rw [if_pos high, after, strip, Option.bind_some, hex4_append hn, Option.filter_some, if_pos inRange]
  dsimp only
  rw [JsonText.paired, List.drop_succ_cons, List.drop_succ_cons, ← hn.length, List.drop_left]

theorem unescapeUnicode_alone (h : Hex digits n) (surrogate : 0xD800 ≤ n ∧ n < 0xE000)
    (alone : n < 0xDC00 → ¬JsonText.LowFollows rest) : unescapeUnicode (digits ++ rest) = (REPLACEMENT_CHARACTER, rest) := by
  have none : (if 0xD800 ≤ n ∧ n < 0xDC00 then
      ((Split.strip [backslash, 117] rest).bind hex4).filter fun low => 0xDC00 ≤ low && low < 0xE000 else none) = none := by
    split
    · rename_i high
      refine Option.filter_eq_none_iff.mpr fun low found inRange => alone high.2 ?_
      obtain ⟨tail, strip, hex⟩ := Option.bind_eq_some_iff.mp found
      obtain ⟨digits, more, rfl, written⟩ := hex_of_hex4 hex
      simp only [Bool.and_eq_true, decide_eq_true_eq] at inRange
      exact ⟨digits, low, more, Split.strip_eq_some.mp strip, written, inRange⟩
    · rfl
  have invalid : ¬n.isValidChar := fun char => h.isValidChar.mp char surrogate
  rw [unescapeUnicode, hex4_append h]
  dsimp only
  rw [← h.length, List.drop_left, none]
  dsimp only
  rw [if_neg invalid]

end

section
variable {rest : Str} {items : List Item}

/-! ### Items -/

theorem valid_unicode {digits : Str} {n : Nat} (hex : Hex digits n) (h : Valid rest) : Valid (backslash :: 117 :: (digits ++ rest)) := by
  have word : Valid [backslash, 117] := (Valid.ascii (b := backslash) (by decide)).append (Valid.ascii (b := 117) (by decide))
  exact word.append (hex.valid.append h)

theorem valid_of_items (h : Items rest items) : Valid rest := by
  induction h with
  | nil => exact .nil
  | plain _ _ ih => exact (Valid.char _).append ih
  | escape escape _ ih =>
    have word : Valid [backslash] := Valid.ascii (by decide)
    exact word.append ((Valid.ascii (JsonText.escape_ascii escape)).append ih)
  | unicode hex _ _ ih | alone hex _ _ _ ih => exact valid_unicode hex ih
  | pair hexHigh hexLow _ _ _ ih => exact valid_unicode hexHigh (valid_unicode hexLow ih)

/-- What holds of each byte that may stand after a backslash and of what it stands for. -/
theorem escape_forall {e b : UInt8} (h : JsonText.escape e = some b) {P : UInt8 → UInt8 → Prop}
    (all : ∀ x ∈ [((34, 34) : UInt8 × UInt8), (92, 92), (47, 47), (98, 8), (102, 12), (110, 10), (114, 13), (116, 9)], P x.1 x.2) :
    P e b := by
  refine all (e, b) ?_
  unfold JsonText.escape at h
  repeat' split at h
  all_goals cases h
  all_goals try subst e
  all_goals try decide
  rename_i self
  simp only [Bool.or_eq_true, decide_eq_true_eq] at self
  rcases self with (rfl | rfl) | rfl
  all_goals decide

/-- No character is longer than it is written. -/
theorem items_length (h : Items rest items) : (encode (chars items)).length ≤ rest.length := by
  have next {item : Item} {items : List Item} {rest : Str} (source : Str) (short : item.char.utf8Size ≤ source.length)
      (ih : (encode (chars items)).length ≤ rest.length) : (encode (chars (item :: items))).length ≤ (source ++ rest).length := by
    rw [chars, List.map_cons, Utf8.encode_length_cons, List.length_append]
    exact Nat.add_le_add short ih
  have four (c : Char) : c.utf8Size ≤ 4 := c.utf8Size_le_four
  induction h with
  | nil => exact Nat.le_refl _
  | plain _ _ ih => exact next _ (Nat.le_of_eq (String.length_utf8EncodeChar _).symm) ih
  | @escape e b rest items escape _ ih =>
    have short : (Char.ofNat b.toNat).utf8Size ≤ 2 :=
      escape_forall (P := fun _ b => (Char.ofNat b.toNat).utf8Size ≤ 2) escape (List.all_iff_forall_prop.mp (by decide))
    exact next [backslash, e] short ih
  | @unicode digits _ _ _ hex _ _ ih | @alone digits _ _ _ hex _ _ _ ih =>
    refine next (backslash :: JsonText.letterU :: digits) (Nat.le_trans (four _) ?_) ih
    rw [List.length_cons, List.length_cons, hex.length]
    decide
  | @pair high low rest _ _ _ hexHigh hexLow _ _ _ ih =>
    have source : backslash :: JsonText.letterU :: (high ++ backslash :: JsonText.letterU :: (low ++ rest)) =
        backslash :: JsonText.letterU :: high ++ backslash :: JsonText.letterU :: low ++ rest := by
      simp only [List.cons_append, List.append_assoc]
    rw [source]
    refine next _ (Nat.le_trans (four _) ?_) ih
    rw [List.length_append, List.length_cons, List.length_cons, hexHigh.length]
    omega

end

section
variable {s text rest escaped after decoded inner raw : Str} {items more : List Item} {item : Item} {limit : Nat}

/-! ### Decoded -/

/-- The characters up to the next backslash stand for themselves. -/
theorem items_plain (h : Items rest items) : ∃ plain more, items = plain ++ more ∧ rest.takeWhile (· ≠ backslash) = encode (chars plain) ∧
    Items (rest.dropWhile (· ≠ backslash)) more := by
  have stop {source : Str} {items : List Item} (h : Items (backslash :: source) items) : ∃ plain more, items = plain ++ more ∧
      (backslash :: source).takeWhile (· ≠ backslash) = encode (chars plain) ∧
      Items ((backslash :: source).dropWhile (· ≠ backslash)) more := by
    refine ⟨[], items, rfl, List.takeWhile_cons_of_neg (by simp), ?_⟩
    rw [List.dropWhile_cons_of_neg (by simp)]
    exact h
  induction h with
  | nil => exact ⟨[], [], rfl, rfl, .nil⟩
  | @plain c rest items noEscape _ ih =>
    obtain ⟨plain, more, rfl, taken, dropped⟩ := ih
    have through : ∀ b ∈ String.utf8EncodeChar c, decide (b ≠ backslash) = true := fun b mem => decide_eq_true fun eq =>
      JsonText.backslash_notMem noEscape (eq ▸ mem)
    refine ⟨_ :: plain, more, rfl, ?_, ?_⟩
    · rw [List.takeWhile_append_of_pos through, taken, chars, chars, List.map_cons, Utf8.encode_cons]
    · rwa [List.dropWhile_append_of_pos through]
  | escape escape h => exact stop (.escape escape h)
  | unicode hex char h => exact stop (.unicode hex char h)
  | pair hexHigh hexLow rangeHigh rangeLow h => exact stop (.pair hexHigh hexLow rangeHigh rangeLow h)
  | alone hex surrogate alone h => exact stop (.alone hex surrogate alone h)

theorem items_verbatim (h : Items rest items) (noEscape : backslash ∉ rest) : rest = encode (chars items) := by
  obtain ⟨plain, more, rfl, taken, dropped⟩ := items_plain h
  have all : ∀ b ∈ rest, decide (b ≠ backslash) = true := fun b mem => decide_eq_true fun eq => noEscape (eq ▸ mem)
  rw [List.dropWhile_eq_nil_iff.mpr all] at dropped
  rw [dropped.of_nil, List.append_nil, ← taken, List.takeWhile_eq_self_iff.mpr all]

theorem unescapeOne_u (s : Str) : unescapeOne (117 :: s) = unescapeUnicode (s.dropWhile isContinuation) := rfl

/-- An escape is decoded to the character it stands for. -/
theorem unescapeOne_item (h : Items (backslash :: escaped) items) :
    ∃ item more after, items = item :: more ∧ unescapeOne escaped = (item.char, after) ∧ Items after more := by
  generalize same : backslash :: escaped = text at h
  cases h with
  | nil => cases same
  | plain noEscape => exact absurd (JsonText.not_plain same.symm) noEscape
  | @escape e b rest items escape h =>
    cases same
    have whole : rest.dropWhile isContinuation = rest := by
      cases rest with
      | nil => rfl
      | cons b rest =>
        have begins : isContinuation b = false := (valid_of_items h).head rfl
        exact List.dropWhile_cons_of_neg (by rw [begins]; exact Bool.false_ne_true)
    have one (rest : Str) : unescapeOne (e :: rest) = (.ofNat b.toNat, rest.dropWhile isContinuation) := by
      refine escape_forall (P := fun e b => unescapeOne (e :: rest) = (.ofNat b.toNat, rest.dropWhile isContinuation)) escape ?_
      simp only [List.forall_mem_cons]
      exact ⟨rfl, rfl, rfl, rfl, rfl, rfl, rfl, rfl, nofun⟩
    exact ⟨_, _, _, rfl, by rw [one, whole], h⟩
  | @unicode digits rest n items hex char h =>
    cases same
    exact ⟨_, _, _, rfl, by rw [unescapeOne_u, dropWhile_digits hex, unescapeUnicode_char hex char], h⟩
  | @pair high low rest m n items hexHigh hexLow rangeHigh rangeLow h =>
    cases same
    exact ⟨_, _, _, rfl, by rw [unescapeOne_u, dropWhile_digits hexHigh, unescapeUnicode_pair hexHigh hexLow rangeHigh rangeLow], h⟩
  | @alone digits rest n items hex surrogate alone h =>
    cases same
    exact ⟨_, _, _, rfl, by rw [unescapeOne_u, dropWhile_digits hex, unescapeUnicode_alone hex surrogate alone], h⟩

/-- The induction is on what is left of the literal. -/
theorem unescapeFrom_eq (h : Items rest items) (fits : decoded.length ≤ limit) :
    unescapeFrom limit rest decoded = decoded ++ encode (fit (limit - decoded.length) (chars items)) := by
  induction len : rest.length using Nat.strongRecOn generalizing rest items decoded with
  | ind n ih =>
    subst len
    obtain ⟨plain, more, rfl, taken, dropped⟩ := items_plain h
    have split : chars (plain ++ more) = chars plain ++ chars more := List.map_append
    rw [unescapeFrom]
    split
    · rename_i none
      subst none
      rw [h.of_nil]
      exact (List.append_nil _).symm
    · dsimp only
      rw [taken, split]
      split
      · rename_i long
        rw [floor_encode, Utf8.fit_append_long long]
      · rename_i short
        rw [Utf8.fit_append (Nat.not_lt.mp short)]
        split
        · rename_i last
          rw [last] at dropped
          rw [dropped.of_nil]
          simp [chars, fit]
        · rename_i b escaped left
          have isEscape : b = backslash := by
            have stops := List.head?_dropWhile_not (· ≠ backslash) rest
            rw [left] at stops
            simpa using stops
          subst isEscape
          rw [left] at dropped
          obtain ⟨item, others, after, rfl, one, later⟩ := unescapeOne_item dropped
          have shorter : after.length < rest.length := by
            have less := unescapeOne_length escaped
            have whole : (rest.dropWhile (· ≠ backslash)).length ≤ rest.length := (List.dropWhile_sublist _).length_le
            rw [left, List.length_cons] at whole
            rw [one] at less
            exact Nat.lt_of_le_of_lt less whole
          rw [one]
          dsimp only
          have room : limit - (decoded ++ encode (chars plain)).length = limit - decoded.length - (encode (chars plain)).length := by
            rw [List.length_append, Nat.sub_sub]
          have head : chars (item :: others) = item.char :: chars others := rfl
          rw [head, fit, room]
          split
          · rename_i large
            rw [if_neg (Nat.not_le.mpr large), List.append_nil]
          · rename_i small
            have fitting : (decoded ++ encode (chars plain) ++ String.utf8EncodeChar item.char).length ≤ limit := by
              rw [List.length_append, List.length_append, String.length_utf8EncodeChar]
              omega
            have next := ih _ shorter later fitting rfl
            rw [if_pos (Nat.not_lt.mp small), next, List.length_append, List.length_append, String.length_utf8EncodeChar,
              Utf8.encode_append, Utf8.encode_cons, Nat.sub_sub, Nat.sub_sub]
            simp only [List.append_assoc, Nat.add_assoc]

end

section
variable {inner : Str} {items : List Item}

/-- The text is found in the buffer, whatever is appended to it. -/
theorem unescape_resolve (h : Items inner items) (limit : Nat) (out added : Str) :
    (unescape inner limit out).1.resolve ((unescape inner limit out).2 ++ added) = encode (fit limit (chars items)) := by
  rw [unescape]
  split
  · rename_i verbatim
    have noEscape : backslash ∉ inner := by simpa using verbatim
    rw [Text.resolve, items_verbatim h noEscape, floor_encode]
  · dsimp only
    rw [Text.resolve, List.take_left, List.drop_left, unescapeFrom_eq h (Nat.zero_le _), List.nil_append, List.length_nil, Nat.sub_zero]

/-- The buffer only grows, by no more than the text. -/
theorem unescape_buffer (h : Items inner items) (limit : Nat) (out : Str) :
    ∃ added, (unescape inner limit out).2 = out ++ added ∧ added.length ≤ (encode (fit limit (chars items))).length := by
  rw [unescape]
  split
  · exact ⟨[], (List.append_nil _).symm, Nat.zero_le _⟩
  · refine ⟨_, rfl, ?_⟩
    rw [unescapeFrom_eq h (Nat.zero_le _), List.nil_append, List.length_nil, Nat.sub_zero]

end

/-! ### The command of a text -/

/-- A token's name, and the bot's name after the first `@`. -/
def named (token : List Char) : List Char × Option (List Char) :=
  match Split.once '@' token with
  | some (name, bot) => (name, some bot)
  | none => (token, none)

/-- What stands before the first whitespace. -/
def tokenOf (text : List Char) : List Char := text.takeWhile fun c => !Utf8.isWhitespace c

/-- The command after a leading `/`. -/
def commandOf : List Char → Option (List Char × Option (List Char))
  | c :: text => if c = '/' then some (named (tokenOf text)) else none
  | [] => none

/-- The same in bytes. -/
def written (command : List Char × Option (List Char)) : Str × Option Str := (encode command.1, command.2.map encode)

/-- The same bytes after the `/` of the source. -/
def sourceToken (token raw : Str) : Option Str :=
  (SLASHES.findSome? (Split.strip · raw)).bind fun after => (slice after 0 token.length).filter (· = token)

section
variable {inner raw token rest : Str} {items : List Item} {text : List Char} {escaped : Bool} {answer : Str × Option Str}

theorem once_encode {b : UInt8} {c : Char} (ascii : b < 128) (same : c.toNat = b.toNat) (text : List Char) :
    Split.once b (encode text) = (Split.once c text).map fun (left, right) => (encode left, encode right) := by
  have one : String.utf8EncodeChar c = [b] := by
    rw [Utf8.encodeChar_ascii (same ▸ ascii), same, UInt8.ofNat_toNat]
  induction text with
  | nil => rfl
  | cons d text ih =>
    rw [Utf8.encode_cons, Split.once]
    by_cases hd : d = c
    · rw [if_pos hd, hd, one]
      exact Split.once_append List.not_mem_nil
    · have absent : b ∉ String.utf8EncodeChar d := fun mem => hd (Char.ext (UInt32.toNat_inj.mp
        ((Utf8.ascii_of_mem ascii mem).2.trans same.symm)))
      rw [if_neg hd, Split.once_past absent, ih, Option.map_map, Option.map_map]
      congr 1

theorem strip_slash (h : Split.strip [slash] (encode text) = some rest) : ∃ tail, text = '/' :: tail ∧ rest = encode tail := by
  have whole := Split.strip_eq_some.mp h
  cases text with
  | nil => cases whole
  | cons c tail =>
    have same : String.utf8EncodeChar c ++ encode tail = String.utf8EncodeChar '/' ++ rest := whole
    obtain rfl := Utf8.char_injective same
    exact ⟨tail, rfl, (List.append_cancel_left same).symm⟩

theorem encode_tokenOf (text : List Char) : ∃ rest, encode text = encode (tokenOf text) ++ encode rest ∧
    (findWhitespace (encode text)).getD (encode text).length = (encode (tokenOf text)).length := by
  refine ⟨text.dropWhile fun c => !Utf8.isWhitespace c, ?_, ?_⟩
  · rw [← Utf8.encode_append, tokenOf, List.takeWhile_append_dropWhile]
  · rw [Utf8.findWhitespace_encode]
    split
    · rfl
    · rename_i none
      have all : tokenOf text = text := List.takeWhile_eq_self_iff.mpr fun c mem => by
        simp only [List.any_eq_true, not_exists, not_and, Bool.not_eq_true] at none
        rw [none c mem]
        rfl
      rw [all]
      rfl

theorem command_eq_none (h : commandOf text = none) : command (encode text) escaped raw = none := by
  unfold command
  rw [Option.bind_eq_bind, Option.bind_eq_none_iff]
  intro rest strip
  obtain ⟨tail, rfl, -⟩ := strip_slash strip
  cases h

/-- The command of a text with escapes is missing if the source has not the same token. -/
theorem command_slash (text : List Char) (escaped : Bool) (raw : Str) : command (encode ('/' :: text)) escaped raw =
    if !escaped || (sourceToken (encode (tokenOf text)) raw).isSome then some (written (named (tokenOf text))) else none := by
  obtain ⟨rest, whole, len⟩ := encode_tokenOf text
  have strip : Split.strip [slash] (encode ('/' :: text)) = some (encode text) := Split.strip_eq_some.mpr rfl
  have cut : (encode text).take (encode (tokenOf text)).length = encode (tokenOf text) := by rw [whole, List.take_left]
  have sliced : slice (encode ('/' :: text)) 1 (1 + (encode (tokenOf text)).length) = some (encode (tokenOf text)) := by
    refine Utf8.slice_eq [slash] (encode rest) ?_ ⟨_, rfl⟩ ⟨_, rfl⟩ rfl rfl
    rw [← whole]
    rfl
  have split : (match Split.once atSign (encode (tokenOf text)) with
      | some (name, bot) => some (name, some bot)
      | none => some (encode (tokenOf text), none)) = some (written (named (tokenOf text))) := by
    rw [once_encode (c := '@') (by decide) rfl, named]
    cases Split.once '@' (tokenOf text) with
    | none => rfl
    | some parts => rfl
  unfold command
  rw [strip]
  simp only [Option.bind_eq_bind, Option.bind_some, len, cut, sliced]
  cases escaped with
  | false => exact split
  | true =>
    rw [if_pos rfl, ← Option.bind_assoc, ← sourceToken]
    cases found : sourceToken (encode (tokenOf text)) raw with
    | none => rfl
    | some token =>
      obtain ⟨after, -, same⟩ := Option.bind_eq_some_iff.mp found
      obtain rfl : token = encode (tokenOf text) := by simpa using (Option.filter_eq_some_iff.mp same).2
      exact split

/-- What is answered is the text's command. -/
theorem commandOf_of_command (h : command (encode text) escaped raw = some answer) : (commandOf text).map written = some answer := by
  cases has : commandOf text with
  | none => rw [command_eq_none has] at h; cases h
  | some parts =>
    cases text with
    | nil => cases has
    | cons c tail =>
      rw [commandOf] at has
      split at has
      · rename_i first
        subst first
        rw [command_slash] at h
        split at h
        · rw [Option.map_some, ← h, ← Option.some.inj has]
        · cases h
      · cases has

/-- A string literal is read as the characters it has, as many of them as fit; a command that its text is found to have is the
    command of these characters. -/
theorem unescape_text (literal : JsonText.Chars inner) (valid : Valid inner) :
    (∃ items, Items inner items) ∧ ∀ items, Items inner items → ∀ limit out, ∃ text more : List Char,
      (unescape inner limit out).1.resolve (unescape inner limit out).2 = encode text ∧ chars items = text ++ more ∧
      (encode text).length ≤ limit ∧ (∀ others, others <+: chars items → (encode others).length ≤ limit → others <+: text) ∧
      (encode text).length ≤ inner.length ∧ (∃ added, (unescape inner limit out).2 = out ++ added ∧
        added.length ≤ min inner.length limit) ∧
      ∀ raw answer, command (encode text) true raw = some answer → (commandOf text).map written = some answer := by
  refine ⟨JsonText.items_total literal valid, fun items h limit out => ?_⟩
  obtain ⟨more, whole⟩ := Utf8.fit_prefix limit (chars items)
  have short : (encode (fit limit (chars items))).length ≤ inner.length := by
    have all := items_length h
    rw [← whole, Utf8.encode_length_append] at all
    omega
  have fits := Utf8.fit_length limit (chars items)
  obtain ⟨added, grown, bound⟩ := unescape_buffer h limit out
  have resolved := unescape_resolve h limit out []
  rw [List.append_nil] at resolved
  exact ⟨fit limit (chars items), more, resolved, whole.symm, fits, fun _ => Utf8.fit_longest, short,
    ⟨added, grown, Nat.le_min.mpr ⟨Nat.le_trans bound short, Nat.le_trans bound fits⟩⟩, fun raw answer => commandOf_of_command⟩

theorem unescape_text_newline : ∃ text more : List Char,
    (unescape [92, 110, 47] 1 [65]).1.resolve (unescape [92, 110, 47] 1 [65]).2 = encode text ∧ ['\n', '/'] = text ++ more ∧
      (encode text).length ≤ 1 := by
  have literal : JsonText.Chars [92, 110, 47] := .escape (b := 10) rfl (.plain (by decide) (by decide) (by decide) .nil)
  have items : Items [92, 110, 47] [⟨[92, 110], '\n'⟩, ⟨[47], '/'⟩] := .escape (b := 10) rfl (.plain (c := '/') (by decide) .nil)
  obtain ⟨text, more, same, whole, short, -⟩ := (unescape_text literal ⟨['\\', 'n', '/'], rfl⟩).2 _ items 1 [65]
  exact ⟨text, more, same, whole, short⟩

end

end Tgin.UpdateFacts
