import Tgin.Lib.JsonString
import Tgin.Lib.JsonUnique

/-! JSON texts written without whitespace: what they stand for, and that strings and numbers are read back as they were. -/

namespace JsonText

/-! ### Objects and arrays -/

/-- A value with no whitespace around it. -/
def Padded.bare (value : List UInt8) : Padded := { before := [], value, after := [] }

def Member.bare (key value : List UInt8) : Member := { key := .bare key, value := .bare value }

theorem Padded.bare_bytes (value : List UInt8) : (Padded.bare value).bytes = value := List.append_nil value

theorem Padded.bare_spaced (value : List UInt8) : (Padded.bare value).Spaced := ⟨List.forall_mem_nil _, List.forall_mem_nil _⟩

theorem Member.bare_bytes (key value : List UInt8) : (Member.bare key value).bytes = quoted key ++ colon :: value := by
  rw [Member.bytes, Member.bare, Padded.bare_bytes]
  simp only [Padded.bare, List.nil_append, List.append_nil, List.append_assoc, List.cons_append]

theorem Member.bare_formed {key : List UInt8} (chars : Chars key) (value : List UInt8) : (Member.bare key value).Formed where
  key := ⟨Padded.bare_spaced key, chars⟩
  value := Padded.bare_spaced value

/-- An object of keys, each with its value and what that stands for. -/
theorem denotes_object {members : List (List UInt8 × List UInt8 × JsonDoc)} (chars : ∀ m ∈ members, Chars m.1)
    (values : ∀ m ∈ members, Denotes m.2.1 m.2.2) :
    Denotes (object (members.map fun m => .bare m.1 m.2.1)) (.object (members.map fun m => (m.1, m.2.2))) := by
  have denote : ∀ m ∈ members.map fun m => (Member.bare m.1 m.2.1, m.2.2), Denotes m.1.value.value m.2 := List.forall_mem_map.mpr values
  have whole := Denotes.object _ (List.forall_mem_map.mpr fun m hm => Member.bare_formed (chars m hm) m.2.1) denote
  rw [List.map_map, List.map_map] at whole
  exact whole

/-- An array of values, each with what it stands for. -/
theorem denotes_array {elements : List (List UInt8 × JsonDoc)} (values : ∀ e ∈ elements, Denotes e.1 e.2) :
    Denotes (array (elements.map fun e => .bare e.1)) (.array (elements.map (·.2))) := by
  have denote : ∀ e ∈ elements.map fun e => (Padded.bare e.1, e.2), Denotes e.1.value e.2 := List.forall_mem_map.mpr values
  have whole := Denotes.array _ (List.forall_mem_map.mpr fun e _ => Padded.bare_spaced e.1) denote
  rw [List.map_map, List.map_map] at whole
  exact whole

/-! ### Where the parts are -/

/-- An object's text is of its members only. -/
theorem object_injective {l l' : List (Member × JsonDoc)} (formed : ∀ m ∈ l, m.1.Formed) (values : ∀ m ∈ l, Denotes m.1.value.value m.2)
    (formed' : ∀ m ∈ l', m.1.Formed) (values' : ∀ m ∈ l', Denotes m.1.value.value m.2)
    (same : object (l.map (·.1)) = object (l'.map (·.1))) : l = l' := by
  have opens {l : List (Member × JsonDoc)} (formed : ∀ m ∈ l, m.1.Formed) : ∀ m ∈ l, Opens 125 m.1.bytes := fun m hm =>
    ⟨m.1.key.before, quote, _, by simp only [Member.bytes, quoted, List.append_assoc, List.cons_append]; rfl, (formed m hm).key.1.1,
      by decide, by decide⟩
  have told : ∀ m ∈ l, ∀ m' ∈ l', Told 125 (·.1.bytes) m m' := by
    intro m hm m' hm' s s' x y sep sep' eq
    obtain ⟨text, doc, rest⟩ :=
      Member.unique (formed m hm) (formed' m' hm') (values m hm) (values' m' hm') (values m hm).ends sep sep' eq
    exact ⟨Prod.ext text doc, rest⟩
  rw [object, object, List.map_map, List.map_map] at same
  exact ((Listed.of_parts _ l).unique (by decide) (by decide) (.of_parts _ l') told (opens formed) (opens formed')
    (List.cons.inj same).2).2

/-- An array's text is of its elements only. -/
theorem array_injective {l l' : List (Padded × JsonDoc)} (spaced : ∀ e ∈ l, e.1.Spaced) (values : ∀ e ∈ l, Denotes e.1.value e.2)
    (spaced' : ∀ e ∈ l', e.1.Spaced) (values' : ∀ e ∈ l', Denotes e.1.value e.2)
    (same : array (l.map (·.1)) = array (l'.map (·.1))) : l = l' := by
  have opens {l : List (Padded × JsonDoc)} (spaced : ∀ e ∈ l, e.1.Spaced) (values : ∀ e ∈ l, Denotes e.1.value e.2) :
      ∀ e ∈ l, Opens 93 e.1.bytes := fun e he => (values e he).opens (spaced e he).1 rfl
  have told : ∀ e ∈ l, ∀ e' ∈ l', Told 93 (·.1.bytes) e e' := by
    intro e he e' he' s s' x y sep sep' eq
    obtain ⟨text, doc, rest⟩ :=
      Padded.unique (.inl rfl) (spaced e he) (spaced' e' he') (values e he) (values' e' he') (values e he).ends sep sep' eq
    exact ⟨Prod.ext text doc, rest⟩
  rw [array, array, List.map_map, List.map_map] at same
  exact ((Listed.of_parts _ l).unique (by decide) (by decide) (.of_parts _ l') told (opens spaced values) (opens spaced' values')
    (List.cons.inj same).2).2

/-- A value is not taken for another with whitespace around it. -/
theorem Padded.eq_bare {p : Padded} {text : List UInt8} {doc doc' : JsonDoc} (spaced : p.Spaced) (denotes : Denotes p.value doc)
    (denotes' : Denotes text doc') (same : text = p.bytes) : p = .bare text := by
  have closed : p.bytes ++ [93] = (Padded.bare text).bytes ++ [93] := by rw [Padded.bare_bytes, same]
  exact (Padded.unique (.inl rfl) spaced (Padded.bare_spaced text) denotes denotes' denotes.ends (.inr rfl) (.inr rfl) closed).1

/-! ### What a literal is read as -/

section
variable {rest text digits : List UInt8} {b e : UInt8} {n : Nat}

theorem Stands.of_plain (noEscape : b ≠ backslash) (h : Stands (b :: rest) text) :
    ∃ tail, text = b :: tail ∧ Stands rest tail := by
  generalize same : b :: rest = inner at h
  cases h with
  | nil => cases same
  | plain _ _ h =>
    obtain ⟨rfl, rfl⟩ := List.cons.inj same
    exact ⟨_, rfl, h⟩
  | _ => exact absurd (List.cons.inj same).1 noEscape

theorem Stands.of_escape (escape : JsonText.escape e = some b) (h : Stands (backslash :: e :: rest) text) :
    ∃ tail, text = b :: tail ∧ Stands rest tail := by
  have other : e ≠ letterU := by
    rintro rfl
    cases escape
  generalize same : backslash :: e :: rest = inner at h
  cases h with
  | nil => cases same
  | plain _ noEscape _ => exact absurd (List.cons.inj same).1.symm noEscape
  | escape escape' h =>
    obtain ⟨rfl, rfl⟩ := List.cons.inj (List.cons.inj same).2
    obtain rfl := Option.some.inj (escape.symm.trans escape')
    exact ⟨_, rfl, h⟩
  | _ => exact absurd (List.cons.inj (List.cons.inj same).2).1 other

/-- An escape by number below the surrogates is that character. -/
theorem Stands.of_unicode (hex : Hex digits n) (low : n < 0xD800) (h : Stands (backslash :: letterU :: (digits ++ rest)) text) :
    ∃ c tail, c.toNat = n ∧ text = String.utf8EncodeChar c ++ tail ∧ Stands rest tail := by
  generalize same : backslash :: letterU :: (digits ++ rest) = inner at h
  cases h with
  | nil => cases same
  | plain _ noEscape _ => exact absurd (List.cons.inj same).1.symm noEscape
  | escape escape _ =>
    obtain rfl := (List.cons.inj (List.cons.inj same).2).1
    cases escape
  | unicode hex' c char h =>
    obtain ⟨rfl, rfl⟩ := List.append_inj (List.cons.inj (List.cons.inj same).2).2 (hex.length.trans hex'.length.symm)
    exact ⟨c, _, char.trans (hex'.unique hex), rfl, h⟩
  | surrogates hexHigh _ rangeHigh =>
    obtain ⟨rfl, -⟩ := List.append_inj (List.cons.inj (List.cons.inj same).2).2 (hex.length.trans hexHigh.length.symm)
    exact absurd low (Nat.not_lt.mpr (hexHigh.unique hex ▸ rangeHigh.1))

end

/-! ### Numbers -/

theorem digit_encoded {c : Char} (digit : c.isDigit) : ∃ b : UInt8, String.utf8EncodeChar c = [b] ∧ isDigit b ∧ b.toNat = c.toNat := by
  simp only [Char.isDigit, Bool.and_eq_true, decide_eq_true_eq, ge_iff_le, UInt32.le_iff_toNat_le] at digit
  have low : 48 ≤ c.toNat := digit.1
  have high : c.toNat ≤ 57 := digit.2
  have small : (UInt8.ofNat c.toNat).toNat = c.toNat := UInt8.toNat_ofNat_of_lt (Nat.lt_of_le_of_lt high (by decide))
  refine ⟨_, Utf8.encodeChar_ascii (Nat.lt_of_le_of_lt high (by decide)), ?_, small⟩
  rw [isDigit, Bool.and_eq_true, decide_eq_true_eq, decide_eq_true_eq, UInt8.le_iff_toNat_le, UInt8.le_iff_toNat_le, small]
  exact ⟨low, high⟩

/-- What digits are worth. -/
def worth (digits : List UInt8) : Nat := digits.foldl (fun n b => 10 * n + (b.toNat - 48)) 0

/-- A number in decimal. -/
def decimalOf (n : Nat) : List UInt8 := Utf8.encode (Nat.toDigits 10 n)

/-- Digits that are characters are as many bytes, of the same worth. -/
theorem digits_encoded {chars : List Char} (digits : ∀ c ∈ chars, c.isDigit) (start : Nat) : (∀ b ∈ Utf8.encode chars, isDigit b) ∧
    (Utf8.encode chars).foldl (fun n b => 10 * n + (b.toNat - 48)) start = Nat.ofDigitChars 10 chars start := by
  induction chars generalizing start with
  | nil => exact ⟨List.forall_mem_nil _, rfl⟩
  | cons c chars ih =>
    obtain ⟨digit, digits⟩ := List.forall_mem_cons.mp digits
    obtain ⟨b, encoded, isDigit, worth⟩ := digit_encoded digit
    obtain ⟨all, value⟩ := ih digits (10 * start + (c.toNat - 48))
    rw [Utf8.encode_cons, encoded, List.singleton_append, List.foldl_cons, worth, value, Nat.ofDigitChars_cons]
    exact ⟨List.forall_mem_cons.mpr ⟨isDigit, all⟩, rfl⟩

theorem decimalOf_digits (n : Nat) : Digits (decimalOf n) := by
  refine ⟨fun nil => ?_, (digits_encoded (fun c => Nat.isDigit_of_mem_toDigits (by decide) (by decide)) 0).1⟩
  obtain ⟨c, chars, some⟩ := List.exists_cons_of_ne_nil (Nat.toDigits_ne_nil (n := n) (b := 10))
  rw [decimalOf, some, Utf8.encode_cons] at nil
  exact Utf8.encodeChar_ne_nil c (List.append_eq_nil_iff.mp nil).1

/-- The digits of a number are worth it. -/
theorem worth_decimalOf (n : Nat) : worth (decimalOf n) = n := by
  rw [worth, decimalOf, (digits_encoded (fun c => Nat.isDigit_of_mem_toDigits (by decide) (by decide)) 0).2,
    Nat.ofDigitChars_ten_toDigits]

theorem decimalOf_small {n : Nat} (small : n < 10) : decimalOf n = [.ofNat (48 + n)] := by
  have each : ∀ n < 10, Utf8.encode [Nat.digitChar n] = [.ofNat (48 + n)] := by decide
  rw [decimalOf, Nat.toDigits_of_lt_base small, each n small]

/-- Only zero is written with a zero first. -/
theorem decimalOf_head (n : Nat) : (decimalOf n).head? = some 48 → decimalOf n = [48] := by
  induction n using Nat.base_induction 10 (by decide) with
  | single n small =>
    rw [decimalOf_small small]
    exact fun zero => congrArg (fun b => [b]) (Option.some.inj zero)
  | digit n k small positive ih =>
    have longer : decimalOf (10 * n + k) = decimalOf n ++ decimalOf k := by
      rw [decimalOf, ← Nat.toDigits_append_toDigits (by decide) positive small, Utf8.encode_append]
      rfl
    intro zero
    rw [longer, List.head?_append_of_ne_nil _ (decimalOf_digits n).1] at zero
    have worth := worth_decimalOf n
    rw [ih zero] at worth
    exact absurd positive (worth ▸ Nat.lt_irrefl 0)

theorem denotes_decimalOf (n : Nat) : Denotes (decimalOf n) (.number (decimalOf n)) := by
  have number := Denotes.number { minus := false, int := decimalOf n, fraction := none, exponent := none } {
    int := decimalOf_digits n
    noLeadingZero := decimalOf_head n
    fraction := fun _ none => by cases none
    exponent := fun _ _ _ none => by cases none }
  rwa [show Number.bytes _ = [] ++ decimalOf n ++ [] ++ [] from rfl, List.nil_append, List.append_nil, List.append_nil] at number

end JsonText
