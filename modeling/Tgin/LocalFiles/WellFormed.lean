import Tgin.Lib.JsonText
import Tgin.LocalFiles.Levels

/-! The scan's reading of a JSON text, well-formed or not, compared with the grammar: of a well-formed one it reads every
    string, and a string that begins with `file:` as one that does. -/

namespace Tgin.LocalFiles
open JsonText (Chars Hex Stands quoted)

/-! ### String literals -/

theorem hex_of_hexDigit {b : UInt8} {n : Nat} (h : JsonText.hexDigit b = some n) :
    ∃ digit, hex b = some digit ∧ digit.toNat = n ∧ n < 16 := by
  unfold JsonText.hexDigit at h
  unfold hex
  simp only [Bool.and_eq_true, decide_eq_true_eq, UInt8.le_iff_toNat_le] at h ⊢
  split_ifs at h with decimal lower upper <;> obtain rfl := Option.some.inj h
  · rw [if_pos decimal]
    refine ⟨_, rfl, UInt8.toNat_sub_of_le _ _ decimal.1, ?_⟩
    have : (57 : UInt8).toNat = 57 := rfl
    omega
  · rw [if_neg decimal, if_pos lower]
    refine ⟨_, rfl, UInt8.toNat_sub_of_le _ _ ?_, ?_⟩
    · exact UInt8.le_iff_toNat_le.mpr (Nat.le_trans (by decide) lower.1)
    · have : (102 : UInt8).toNat = 102 := rfl
      omega
  · rw [if_neg decimal, if_neg lower, if_pos upper]
    refine ⟨_, rfl, UInt8.toNat_sub_of_le _ _ ?_, ?_⟩
    · exact UInt8.le_iff_toNat_le.mpr (Nat.le_trans (by decide) upper.1)
    · have : (70 : UInt8).toNat = 70 := rfl
      omega

/-- One more digit. -/
theorem toNat_digit {code : UInt32} {digit : UInt8} {m n : Nat} (hm : code.toNat = m) (hn : digit.toNat = n) (room : m < 2 ^ 28)
    (small : n < 16) : (code <<< 4 ||| digit.toUInt32).toNat = m * 16 + n := by
  have shifted : (code <<< 4).toNat = m * 16 := by
    rw [UInt32.toNat_shiftLeft, hm, show (4 : UInt32).toNat % 32 = 4 from rfl, Nat.shiftLeft_eq, Nat.mod_eq_of_lt]
    omega
  rw [UInt32.toNat_or, shifted, UInt8.toNat_toUInt32, hn, Nat.mul_comm m 16]
  exact (Nat.two_pow_add_eq_or_of_lt (show n < 2 ^ 4 from small) m).symm

theorem number_of_hex {digits : List UInt8} {n : Nat} (h : Hex digits n) :
    digits.length = 4 ∧ (∀ b ∈ digits, isHex b) ∧ (number 0 digits).toNat = n := by
  obtain @⟨a, b, c, d, i, j, k, l, first, second, third, fourth⟩ := h
  obtain ⟨w, ha, hi, iSmall⟩ := hex_of_hexDigit first
  obtain ⟨x, hb, hj, jSmall⟩ := hex_of_hexDigit second
  obtain ⟨y, hc, hk, kSmall⟩ := hex_of_hexDigit third
  obtain ⟨z, hd, hl, lSmall⟩ := hex_of_hexDigit fourth
  refine ⟨rfl, by simp [isHex, ha, hb, hc, hd], ?_⟩
  have one : ((0 : UInt32) <<< 4 ||| w.toUInt32).toNat = 0 * 16 + i := toNat_digit rfl hi (by decide) iSmall
  rw [Nat.zero_mul, Nat.zero_add] at one
  simp only [number, List.foldl_cons, List.foldl_nil, ha, hb, hc, hd, Option.getD_some]
  exact toNat_digit (toNat_digit (toNat_digit one hj (by omega) jSmall) hk (by omega) kSmall) hl (by omega) lSmall

theorem unicode_of_hex {digits : List UInt8} {n : Nat} (h : Hex digits n) (rest : Bytes) :
    unicode (digits ++ rest) = ([Values.decoded (number 0 digits)], rest) := by
  obtain ⟨length, areHex, -⟩ := number_of_hex h
  have digits_eq : ((digits ++ rest).takeWhile isHex).take 4 = digits := by
    rw [List.takeWhile_append_of_pos areHex, List.take_append_of_le_length (Nat.le_of_eq length.symm),
      List.take_of_length_le (Nat.le_of_eq length)]
  unfold unicode
  simp only [digits_eq, length, if_true]
  rw [← length, List.drop_left]

theorem unescape_of_escape {e b : UInt8} (h : JsonText.escape e = some b) : e ≠ letterU ∧ unescape e = b := by
  unfold JsonText.escape at h
  split_ifs at h with self <;> obtain rfl := Option.some.inj h
  · simp only [Bool.or_eq_true, decide_eq_true_eq] at self
    rcases self with (rfl | rfl) | rfl <;> decide
  all_goals subst_vars; decide

theorem literal_nil : literal [] = ([], []) := by rw [literal]

theorem literal_quote (rest : Bytes) : literal (quote :: rest) = ([], rest) := by rw [literal, if_pos rfl]

/-- What a literal's escape is read as. -/
theorem literal_escape {e b : UInt8} (h : JsonText.escape e = some b) (rest : Bytes) :
    literal (backslash :: e :: rest) = (b :: (literal rest).1, (literal rest).2) := by
  obtain ⟨notU, eq⟩ := unescape_of_escape h
  rw [literal, if_neg (by decide), unit, if_pos rfl, escaped, if_neg notU, eq]
  rfl

theorem literal_unicode {digits : List UInt8} {n : Nat} (h : Hex digits n) (rest : Bytes) :
    literal (backslash :: letterU :: digits ++ rest) = (Values.decoded (number 0 digits) :: (literal rest).1, (literal rest).2) := by
  rw [List.cons_append, List.cons_append, literal, if_neg (by decide), unit, if_pos rfl, escaped, if_pos rfl, unicode_of_hex h]
  rfl

theorem literal_plain {b : UInt8} (noQuote : b ≠ quote) (noEscape : b ≠ backslash) (rest : Bytes) :
    literal (b :: rest) = (b :: (literal rest).1, (literal rest).2) := by
  rw [literal, if_neg noQuote, unit, if_neg noEscape]
  rfl

/-- A literal is read to its closing quote. -/
theorem literal_quoted {inner : Bytes} (h : Chars inner) (rest : Bytes) : literal (inner ++ quote :: rest) = ((literal inner).1, rest) := by
  induction h with
  | nil => rw [List.nil_append, literal_quote, literal_nil]
  | plain _ noQuote noEscape _ ih => rw [List.cons_append, literal_plain noQuote noEscape, literal_plain noQuote noEscape, ih]
  | escape escape _ ih => rw [List.cons_append, List.cons_append, literal_escape escape, literal_escape escape, ih]
  | unicode hex _ ih => rw [List.append_assoc, literal_unicode hex, literal_unicode hex, ih]

theorem utf8EncodeChar_first (c : Char) :
    (c.toNat < 128 ∧ String.utf8EncodeChar c = [UInt8.ofNat c.toNat]) ∨
      ∃ b rest, String.utf8EncodeChar c = b :: rest ∧ 128 ≤ b := by
  unfold String.utf8EncodeChar
  dsimp only
  split_ifs with one two three
  · exact .inl ⟨Nat.lt_succ_of_le one, rfl⟩
  all_goals
    refine .inr ⟨_, _, rfl, UInt8.le_iff_toNat_le.mpr ?_⟩
    rw [UInt8.toNat_ofNat']
    have : (128 : UInt8).toNat = 128 := rfl
    omega

/-- A text that begins with ASCII is read as one that does. -/
theorem literal_begins {inner text : Bytes} (h : Stands inner text) :
    ∀ {start : Bytes}, (∀ b ∈ start, b < 128) → start <+: text → start <+: (literal inner).1 := by
  induction h with
  | nil =>
    intro start _ begins
    rw [List.prefix_nil.mp begins]
    exact List.nil_prefix
  | plain noQuote noEscape _ ih =>
    rintro (_ | ⟨a, start⟩) small begins
    · exact List.nil_prefix
    · obtain ⟨rfl, others⟩ := List.cons_prefix_cons.mp begins
      rw [literal_plain noQuote noEscape]
      exact List.cons_prefix_cons.mpr ⟨rfl, ih (fun b hb => small b (List.mem_cons_of_mem _ hb)) others⟩
  | escape escape _ ih =>
    rintro (_ | ⟨a, start⟩) small begins
    · exact List.nil_prefix
    · obtain ⟨rfl, others⟩ := List.cons_prefix_cons.mp begins
      rw [literal_escape escape]
      exact List.cons_prefix_cons.mpr ⟨rfl, ih (fun b hb => small b (List.mem_cons_of_mem _ hb)) others⟩
  | @unicode digits rest text n hex c char _ ih =>
    rintro (_ | ⟨a, start⟩) small begins
    · exact List.nil_prefix
    · rcases utf8EncodeChar_first c with ⟨ascii, encoded⟩ | ⟨b, others, encoded, large⟩
      · rw [encoded] at begins
        obtain ⟨rfl, others⟩ := List.cons_prefix_cons.mp begins
        rw [literal_unicode hex]
        refine List.cons_prefix_cons.mpr ⟨?_, ih (fun b hb => small b (List.mem_cons_of_mem _ hb)) others⟩
        obtain ⟨-, -, number_eq⟩ := number_of_hex hex
        have below : number 0 digits < 128 := UInt32.lt_iff_toNat_lt.mpr (by rw [number_eq, ← char]; exact ascii)
        rw [Values.decoded, if_pos below, char, ← number_eq]
        rfl
      · rw [encoded] at begins
        obtain ⟨rfl, -⟩ := List.cons_prefix_cons.mp begins
        exact absurd (small a List.mem_cons_self) (UInt8.not_lt.mpr large)
  | surrogates _ _ _ _ c char _ _ =>
    rintro (_ | ⟨a, start⟩) small begins
    · exact List.nil_prefix
    · rcases utf8EncodeChar_first c with ⟨ascii, -⟩ | ⟨b, others, encoded, large⟩
      · omega
      · rw [encoded] at begins
        obtain ⟨rfl, -⟩ := List.cons_prefix_cons.mp begins
        exact absurd (small a List.mem_cons_self) (UInt8.not_lt.mpr large)

/-! ### Values -/

/-- The scan is outside of a string after it: what comes next is read on its own. -/
def Apart (part : Bytes) : Prop := ∀ rest, literals (part ++ rest) = literals part ++ literals rest

theorem literals_nil : literals [] = [] := by rw [literals]

theorem literals_quote (rest : Bytes) : literals (quote :: rest) = (literal rest).1 :: literals (literal rest).2 := by
  rw [literals, if_pos rfl]

theorem literals_plain {b : UInt8} (h : b ≠ quote) (rest : Bytes) : literals (b :: rest) = literals rest := by
  rw [literals, if_neg h]

theorem literals_append {part : Bytes} (h : ∀ b ∈ part, b ≠ quote) (rest : Bytes) : literals (part ++ rest) = literals rest := by
  induction part with
  | nil => rfl
  | cons b part ih =>
    rw [List.cons_append, literals_plain (h b List.mem_cons_self)]
    exact ih fun c hc => h c (List.mem_cons_of_mem _ hc)

theorem apart_plain {part : Bytes} (h : ∀ b ∈ part, b ≠ quote) : Apart part := by
  intro rest
  have none := literals_append h []
  rw [List.append_nil, literals_nil] at none
  rw [literals_append h, none, List.nil_append]

theorem apart_space {part : Bytes} (h : ∀ b ∈ part, JsonText.isWhitespace b) : Apart part :=
  apart_plain fun b hb => JsonText.not_quote_of_isWhitespace (h b hb)

theorem Apart.append {part part' : Bytes} (h : Apart part) (h' : Apart part') : Apart (part ++ part') := by
  intro rest
  rw [List.append_assoc, h, h', h, List.append_assoc]

theorem Apart.cons {b : UInt8} (hb : b ≠ quote) {part : Bytes} (h : Apart part) : Apart (b :: part) := by
  have plain : ∀ c ∈ [b], c ≠ quote := fun _ hc => List.mem_singleton.mp hc ▸ hb
  exact (apart_plain plain).append h

theorem literals_quoted {inner : Bytes} (h : Chars inner) (rest : Bytes) :
    literals (quoted inner ++ rest) = (literal inner).1 :: literals rest := by
  rw [quoted, List.cons_append, List.cons_append, List.append_assoc, List.singleton_append, literals_quote, literal_quoted h]

theorem apart_quoted {inner : Bytes} (h : Chars inner) : Apart (quoted inner) := by
  intro rest
  have own := literals_quoted h []
  rw [List.append_nil, literals_nil] at own
  rw [literals_quoted h, own]
  rfl

/-- The strings of what stands between commas. -/
theorem apart_joined {parts : List Bytes} (h : ∀ part ∈ parts, Apart part) :
    Apart (List.intercalate [JsonText.comma] parts) ∧
      literals (List.intercalate [JsonText.comma] parts) = parts.flatMap literals := by
  induction parts with
  | nil => exact ⟨apart_plain nofun, literals_nil⟩
  | cons part parts ih =>
    obtain ⟨apart, eq⟩ := ih fun part hp => h part (List.mem_cons_of_mem _ hp)
    have first := h part List.mem_cons_self
    cases parts with
    | nil =>
      rw [List.intercalate_singleton]
      exact ⟨first, (List.append_nil _).symm⟩
    | cons next parts =>
      have comma : Apart [JsonText.comma] := apart_plain (List.forall_mem_singleton.mpr (by decide))
      rw [List.intercalate_cons_cons]
      refine ⟨(first.append comma).append apart, ?_⟩
      rw [first.append comma, first, literals_plain (by decide), literals_nil, List.append_nil, eq]
      rfl

theorem apart_padded {p : JsonText.Padded} (spaced : p.Spaced) (h : Apart p.value) : Apart p.bytes :=
  ((apart_space spaced.1).append h).append (apart_space spaced.2)

/-- What of a member comes before its value. -/
theorem apart_key {m : JsonText.Member} (formed : m.Formed) :
    Apart (m.key.before ++ quoted m.key.value ++ m.key.after ++ [JsonText.colon]) := by
  obtain ⟨⟨spaced, chars⟩, -⟩ := formed
  have key := (apart_space spaced.1).append (apart_quoted chars)
  exact (key.append (apart_space spaced.2)).append (apart_plain (List.forall_mem_singleton.mpr (by decide)))

theorem apart_member {m : JsonText.Member} (formed : m.Formed) (h : Apart m.value.value) : Apart m.bytes :=
  (apart_key formed).append (apart_padded formed.value h)

theorem apart_value {value : Bytes} (h : JsonText.Value value) : Apart value := by
  have closed {b : UInt8} (hb : b ≠ quote) : Apart [b] := apart_plain (List.forall_mem_singleton.mpr hb)
  induction h with
  | word mem => exact apart_plain (JsonText.not_quote_of_mem_words mem)
  | number n formed => exact apart_plain formed.not_quote
  | string chars => exact apart_quoted chars
  | emptyArray spaced => exact ((apart_space spaced).cons (by decide)).append (closed (by decide))
  | array elements spaced _ ih =>
    have each : ∀ part ∈ elements.map JsonText.Padded.bytes, Apart part := by
      simp only [List.forall_mem_map]
      exact fun e he => apart_padded (spaced e he) (ih e he)
    exact ((apart_joined each).1.cons (by decide)).append (closed (by decide))
  | emptyObject spaced => exact ((apart_space spaced).cons (by decide)).append (closed (by decide))
  | object members formed _ ih =>
    have each : ∀ part ∈ members.map JsonText.Member.bytes, Apart part := by
      simp only [List.forall_mem_map]
      exact fun m hm => apart_member (formed m hm) (ih m hm)
    exact ((apart_joined each).1.cons (by decide)).append (closed (by decide))

theorem mem_literals_member {m : JsonText.Member} (formed : m.Formed) {inner : Bytes} (chars : Chars inner)
    (value : m.value.value = quoted inner) : (literal inner).1 ∈ literals m.bytes := by
  have padded : literals m.value.bytes = literals m.value.before ++ (literal inner).1 :: literals m.value.after := by
    rw [JsonText.Padded.bytes, List.append_assoc, apart_space formed.value.1, value, literals_quoted chars]
  rw [JsonText.Member.bytes, apart_key formed, padded]
  simp

/-- A member's string is one that the scan reads. -/
theorem mem_literals {text inner : Bytes} {members : List JsonText.Member} (h : JsonText.IsObject text members)
    {m : JsonText.Member} (hm : m ∈ members) (chars : Chars inner) (value : m.value.value = quoted inner) :
    (literal inner).1 ∈ literals text := by
  obtain ⟨⟨before, after, rfl, spaceBefore, -⟩, formed, values⟩ := h
  have each : ∀ part ∈ members.map JsonText.Member.bytes, Apart part := by
    simp only [List.forall_mem_map]
    exact fun m hm => apart_member (formed m hm) (apart_value (values m hm))
  obtain ⟨apart, joined⟩ := apart_joined each
  have mem : (literal inner).1 ∈ literals (List.intercalate [JsonText.comma] (members.map JsonText.Member.bytes)) := by
    rw [joined, List.mem_flatMap]
    exact ⟨m.bytes, List.mem_map_of_mem hm, mem_literals_member (formed m hm) chars value⟩
  rw [List.append_assoc, apart_space spaceBefore, JsonText.object, List.cons_append, List.cons_append, literals_plain (by decide),
    List.append_assoc, apart]
  exact List.mem_append_right _ (List.mem_append_left _ mem)

end Tgin.LocalFiles
