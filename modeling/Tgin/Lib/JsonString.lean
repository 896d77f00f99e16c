import Tgin.Lib.JsonText
import Tgin.Lib.Whitespace

/-! The characters of a string literal, each with how it is written: itself, an escape, or the two escapes of a surrogate pair. A
    surrogate alone is read as U+FFFD. -/

namespace JsonText
open Utf8 (Valid encode isContinuation)

/-- A character and how the literal has it. -/
structure Item where
  source : List UInt8
  char : Char

namespace Item

/-- Whether the character is written as an escape. -/
def escaped (item : Item) : Bool := item.source.head? = some backslash

end Item

/-- The character that two surrogates are. -/
def paired (high low : Nat) : Char := .ofNat (0x10000 + (high - 0xD800) * 0x400 + (low - 0xDC00))

/-- What stands in the place of a surrogate alone. -/
def REPLACEMENT : Char := .ofNat 0xFFFD

/-- A low surrogate's escape. -/
def LowFollows (rest : List UInt8) : Prop :=
  ∃ digits n tail, rest = backslash :: letterU :: (digits ++ tail) ∧ Hex digits n ∧ 0xDC00 ≤ n ∧ n < 0xE000

/-- The characters between the quotes of a literal. -/
inductive Items : List UInt8 → List Item → Prop where
  | nil : Items [] []
  | plain {c : Char} {rest : List UInt8} {items : List Item} (noEscape : c.toNat ≠ 92) :
    Items rest items → Items (String.utf8EncodeChar c ++ rest) (⟨String.utf8EncodeChar c, c⟩ :: items)
  | escape {e b : UInt8} {rest : List UInt8} {items : List Item} (escape : escape e = some b) :
    Items rest items → Items (backslash :: e :: rest) (⟨[backslash, e], .ofNat b.toNat⟩ :: items)
  | unicode {digits rest : List UInt8} {n : Nat} {items : List Item} (hex : Hex digits n) (char : n.isValidChar) :
    Items rest items → Items (backslash :: letterU :: (digits ++ rest)) (⟨backslash :: letterU :: digits, .ofNat n⟩ :: items)
  | pair {high low rest : List UInt8} {m n : Nat} {items : List Item} (hexHigh : Hex high m) (hexLow : Hex low n)
    (rangeHigh : 0xD800 ≤ m ∧ m < 0xDC00) (rangeLow : 0xDC00 ≤ n ∧ n < 0xE000) :
    Items rest items → Items (backslash :: letterU :: (high ++ backslash :: letterU :: (low ++ rest)))
      (⟨backslash :: letterU :: (high ++ backslash :: letterU :: low), paired m n⟩ :: items)
  | alone {digits rest : List UInt8} {n : Nat} {items : List Item} (hex : Hex digits n) (surrogate : 0xD800 ≤ n ∧ n < 0xE000)
    (alone : n < 0xDC00 → ¬LowFollows rest) :
    Items rest items → Items (backslash :: letterU :: (digits ++ rest)) (⟨backslash :: letterU :: digits, REPLACEMENT⟩ :: items)

/-- The characters alone. -/
def chars (items : List Item) : List Char := items.map (·.char)

section
variable {inner rest left : List UInt8} {items : List Item} {b : UInt8} {digits : List UInt8} {n : Nat}

theorem hexDigit_lt {i : Nat} (h : hexDigit b = some i) : i < 16 := by
  have := UInt8.toNat_lt b
  unfold hexDigit at h
  simp only [Bool.and_eq_true, decide_eq_true_eq, UInt8.le_iff_toNat_le] at h
  split at h
  · rename_i digit
    cases h
    have : b.toNat ≤ 57 := digit.2
    omega
  · split at h
    · rename_i lower
      cases h
      have : b.toNat ≤ 102 := lower.2
      omega
    · split at h
      · rename_i upper
        cases h
        have : b.toNat ≤ 70 := upper.2
        omega
      · cases h

theorem hexDigit_eq {i : Nat} (h : hexDigit b = some i) :
    b.toNat = i + 48 ∧ i < 10 ∨ b.toNat = i + 87 ∧ 10 ≤ i ∨ b.toNat = i + 55 ∧ 10 ≤ i := by
  unfold hexDigit at h
  simp only [Bool.and_eq_true, decide_eq_true_eq, UInt8.le_iff_toNat_le] at h
  repeat' split at h
  · rename_i digit
    have : 48 ≤ b.toNat ∧ b.toNat ≤ 57 := digit
    cases h
    omega
  · rename_i lower
    have : 97 ≤ b.toNat ∧ b.toNat ≤ 102 := lower
    cases h
    omega
  · rename_i upper
    have : 65 ≤ b.toNat ∧ b.toNat ≤ 70 := upper
    cases h
    omega
  · cases h

theorem Hex.lt (h : Hex digits n) : n < 0x10000 := by
  obtain ⟨h₁, h₂, h₃, h₄⟩ := h
  have := hexDigit_lt h₁
  have := hexDigit_lt h₂
  have := hexDigit_lt h₃
  have := hexDigit_lt h₄
  omega

/-- Of the numbers of four digits those that are no surrogates are characters. -/
theorem Hex.isValidChar (h : Hex digits n) : n.isValidChar ↔ ¬(0xD800 ≤ n ∧ n < 0xE000) := by
  have := h.lt
  unfold Nat.isValidChar
  omega

theorem escape_ascii {e : UInt8} (h : JsonText.escape e = some b) : e < 128 := by
  unfold JsonText.escape at h
  by_contra high
  have ne {x : UInt8} (low : x < 128) : e ≠ x := fun eq => high (eq ▸ low)
  simp [ne (x := 98) (by decide), ne (x := 102) (by decide), ne (x := 110) (by decide), ne (x := 114) (by decide),
    ne (x := 116) (by decide), ne (x := 47) (by decide), ne (x := quote) (by decide), ne (x := backslash) (by decide)] at h

theorem hexDigit_ascii {i : Nat} (h : hexDigit b = some i) : b < 128 := by
  unfold hexDigit at h
  simp only [Bool.and_eq_true, decide_eq_true_eq] at h
  split at h
  · rename_i digit
    exact UInt8.lt_of_le_of_lt digit.2 (by decide)
  · split at h
    · rename_i lower
      exact UInt8.lt_of_le_of_lt lower.2 (by decide)
    · split at h
      · rename_i upper
        exact UInt8.lt_of_le_of_lt upper.2 (by decide)
      · cases h

theorem Hex.valid (h : Hex digits n) : Valid digits := by
  obtain ⟨h₁, h₂, h₃, h₄⟩ := h
  have first := Valid.ascii (hexDigit_ascii h₁)
  have second := Valid.ascii (hexDigit_ascii h₂)
  exact first.append (second.append ((Valid.ascii (hexDigit_ascii h₃)).append (.ascii (hexDigit_ascii h₄))))

theorem Chars.of_append (h : Chars (left ++ rest)) (plain : backslash ∉ left) : Chars rest := by
  induction left with
  | nil => exact h
  | cons b left ih =>
    rw [List.cons_append] at h
    generalize same : left ++ rest = text at h
    cases h with
    | plain _ _ _ h => exact ih (same ▸ h) fun mem => plain (List.mem_cons_of_mem _ mem)
    | escape => exact absurd List.mem_cons_self plain
    | unicode => exact absurd List.mem_cons_self plain

theorem Chars.of_unicode (h : Chars (backslash :: letterU :: (digits ++ rest))) (hex : Hex digits n) : Chars rest := by
  generalize same : backslash :: letterU :: (digits ++ rest) = text at h
  cases h with
  | nil => cases same
  | plain _ _ noEscape => exact absurd (List.cons.inj same).1.symm noEscape
  | escape escape =>
    cases (List.cons.inj (List.cons.inj same).2).1
    cases escape
  | @unicode others tail m hex' h =>
    have parts := (List.cons.inj (List.cons.inj same).2).2
    exact (List.append_inj parts (hex.length.trans hex'.length.symm)).2 ▸ h

theorem Valid.of_unicode (h : Valid (letterU :: (digits ++ rest))) (hex : Hex digits n) : Valid rest := by
  exact (h.of_cons (by decide)).of_append hex.valid

/-- A literal of UTF-8 has characters. -/
theorem items_total (literal : Chars inner) (valid : Valid inner) : ∃ items, Items inner items := by
  induction len : inner.length using Nat.strongRecOn generalizing inner with
  | ind n ih =>
    subst len
    obtain ⟨cs, rfl⟩ := valid
    cases cs with
    | nil => exact ⟨[], .nil⟩
    | cons c cs =>
      rw [Utf8.encode_cons] at literal ih ⊢
      by_cases isEscape : c.toNat = 92
      · have written : String.utf8EncodeChar c = [backslash] := by
          rw [Utf8.encodeChar_ascii (by omega), isEscape]
          rfl
        have valid : Valid (encode cs) := ⟨cs, rfl⟩
        rw [written, List.singleton_append] at literal ih ⊢
        generalize encode cs = tail at literal ih valid ⊢
        cases literal with
        | plain _ _ noEscape => exact absurd rfl noEscape
        | @escape e b rest escape h =>
          obtain ⟨items, rest⟩ := ih _ (Nat.lt_succ_of_lt (Nat.lt_succ_self _)) h (valid.of_cons (escape_ascii escape)) rfl
          exact ⟨_, .escape escape rest⟩
        | @unicode digits rest n hex h =>
          have validRest := Valid.of_unicode valid hex
          by_cases surrogate : 0xD800 ≤ n ∧ n < 0xE000
          · by_cases low : n < 0xDC00 ∧ LowFollows rest
            · obtain ⟨high, others, m, tail, rfl, hex', range⟩ := low
              have validTail := Valid.of_unicode (validRest.of_cons (by decide)) hex'
              obtain ⟨items, rest⟩ := ih _ (by simp; omega) (h.of_unicode hex') validTail rfl
              exact ⟨_, .pair hex hex' ⟨surrogate.1, high⟩ range rest⟩
            · obtain ⟨items, rest⟩ := ih _ (by simp; omega) h validRest rfl
              exact ⟨_, .alone hex surrogate (fun high follows => low ⟨high, follows⟩) rest⟩
          · obtain ⟨items, rest⟩ := ih _ (by simp; omega) h validRest rfl
            exact ⟨_, .unicode hex (hex.isValidChar.mpr surrogate) rest⟩
      · have plain : backslash ∉ String.utf8EncodeChar c := fun mem => isEscape (Utf8.ascii_of_mem (by decide) mem).2
        obtain ⟨items, rest⟩ := ih _ (by
          rw [List.length_append]
          exact Nat.lt_add_of_pos_left (List.length_pos_iff.mpr (Utf8.encodeChar_ne_nil c))) (literal.of_append plain) ⟨cs, rfl⟩ rfl
        exact ⟨_, .plain isEscape rest⟩

end

section
variable {inner rest : List UInt8} {items others : List Item} {c : Char} {e b : UInt8} {digits : List UInt8} {n : Nat}

/-! ### One reading -/

theorem backslash_notMem (noEscape : c.toNat ≠ 92) : backslash ∉ String.utf8EncodeChar c := fun mem =>
  noEscape (Utf8.ascii_of_mem (by decide) mem).2

/-- A character that begins with a backslash is one. -/
theorem not_plain {text : List UInt8} (same : String.utf8EncodeChar c ++ rest = backslash :: text) : c.toNat = 92 := by
  obtain ⟨first, tail, written, -, -⟩ := Utf8.encodeChar_eq c
  rw [written] at same
  obtain rfl := (List.cons.inj same).1
  exact (Utf8.ascii_of_mem (by decide) (written ▸ List.mem_cons_self)).2

theorem Hex.unique {m : Nat} (h : Hex digits n) (h' : Hex digits m) : n = m := by
  obtain ⟨h₁, h₂, h₃, h₄⟩ := h
  obtain ⟨h₁', h₂', h₃', h₄'⟩ := h'
  obtain rfl := Option.some.inj (h₁.symm.trans h₁')
  obtain rfl := Option.some.inj (h₂.symm.trans h₂')
  obtain rfl := Option.some.inj (h₃.symm.trans h₃')
  obtain rfl := Option.some.inj (h₄.symm.trans h₄')
  rfl

theorem Items.of_nil (h : Items [] items) : items = [] := by
  generalize same : [] = text at h
  cases h with
  | nil => rfl
  | plain => exact absurd (List.append_eq_nil_iff.mp same.symm).1 (Utf8.encodeChar_ne_nil _)
  | _ => cases same

theorem Items.of_plain (h : Items (String.utf8EncodeChar c ++ rest) items) (noEscape : c.toNat ≠ 92) :
    ∃ more, items = ⟨String.utf8EncodeChar c, c⟩ :: more ∧ Items rest more := by
  generalize same : String.utf8EncodeChar c ++ rest = text at h
  cases h with
  | nil => exact absurd (List.append_eq_nil_iff.mp same).1 (Utf8.encodeChar_ne_nil _)
  | plain _ h =>
    obtain rfl := Utf8.char_injective same
    exact ⟨_, rfl, List.append_cancel_left same ▸ h⟩
  | _ => exact absurd (not_plain same) noEscape

theorem Items.of_escape (h : Items (backslash :: e :: rest) items) (escape : JsonText.escape e = some b) :
    ∃ more, items = ⟨[backslash, e], .ofNat b.toNat⟩ :: more ∧ Items rest more := by
  generalize same : backslash :: e :: rest = text at h
  cases h with
  | nil => cases same
  | plain noEscape => exact absurd (not_plain same.symm) noEscape
  | escape escape' h =>
    cases same
    obtain rfl := Option.some.inj (escape.symm.trans escape')
    exact ⟨_, rfl, h⟩
  | _ =>
    obtain rfl := (List.cons.inj (List.cons.inj same).2).1
    cases escape

/-- The digits of an escape are a character, the first half of one, or neither. -/
theorem Items.of_unicode (h : Items (backslash :: letterU :: (digits ++ rest)) items) (hex : Hex digits n) :
    (∃ more, n.isValidChar ∧ items = ⟨backslash :: letterU :: digits, .ofNat n⟩ :: more ∧ Items rest more) ∨
    (∃ low tail m more, (0xD800 ≤ n ∧ n < 0xDC00) ∧ rest = backslash :: letterU :: (low ++ tail) ∧ Hex low m ∧
      (0xDC00 ≤ m ∧ m < 0xE000) ∧ items = ⟨backslash :: letterU :: (digits ++ backslash :: letterU :: low), paired n m⟩ :: more ∧
      Items tail more) ∨
    ∃ more, (0xD800 ≤ n ∧ n < 0xE000) ∧ (n < 0xDC00 → ¬LowFollows rest) ∧
      items = ⟨backslash :: letterU :: digits, REPLACEMENT⟩ :: more ∧ Items rest more := by
  generalize same : backslash :: letterU :: (digits ++ rest) = text at h
  have parts {others tail : List UInt8} {m : Nat} (hex' : Hex others m)
      (same : backslash :: letterU :: (digits ++ rest) = backslash :: letterU :: (others ++ tail)) :
      others = digits ∧ tail = rest ∧ m = n := by
    obtain ⟨rfl, rfl⟩ := List.append_inj (List.cons.inj (List.cons.inj same).2).2 (hex.length.trans hex'.length.symm)
    exact ⟨rfl, rfl, hex'.unique hex⟩
  cases h with
  | nil => cases same
  | plain noEscape => exact absurd (not_plain same.symm) noEscape
  | escape escape =>
    cases (List.cons.inj (List.cons.inj same).2).1
    cases escape
  | unicode hex' char h =>
    obtain ⟨rfl, rfl, rfl⟩ := parts hex' same
    exact .inl ⟨_, char, rfl, h⟩
  | pair hexHigh hexLow rangeHigh rangeLow h =>
    obtain ⟨rfl, rfl, rfl⟩ := parts hexHigh same
    exact .inr (.inl ⟨_, _, _, _, rangeHigh, rfl, hexLow, rangeLow, rfl, h⟩)
  | alone hex' surrogate alone h =>
    obtain ⟨rfl, rfl, rfl⟩ := parts hex' same
    exact .inr (.inr ⟨_, surrogate, alone, rfl, h⟩)

/-- A literal has one reading. -/
theorem Items.unique (h : Items inner items) (h' : Items inner others) : items = others := by
  induction h generalizing others with
  | nil => exact h'.of_nil.symm
  | plain noEscape _ ih =>
    obtain ⟨more, rfl, same⟩ := h'.of_plain noEscape
    rw [ih same]
  | escape escape _ ih =>
    obtain ⟨more, rfl, same⟩ := h'.of_escape escape
    rw [ih same]
  | unicode hex char _ ih =>
    have plain := hex.isValidChar.mp char
    rcases h'.of_unicode hex with ⟨more, -, rfl, same⟩ | ⟨_, _, _, _, range, -⟩ | ⟨_, range, -⟩
    · rw [ih same]
    · omega
    · exact absurd range plain
  | @pair high low rest m n items hexHigh hexLow rangeHigh rangeLow _ ih =>
    rcases h'.of_unicode hexHigh with ⟨_, char, -⟩ | ⟨low', tail, m', more, -, eq, hex, -, rfl, same⟩ | ⟨_, -, alone, -⟩
    · have plain := hexHigh.isValidChar.mp char
      omega
    · obtain ⟨rfl, rfl⟩ := List.append_inj (List.cons.inj (List.cons.inj eq).2).2 (hexLow.length.trans hex.length.symm)
      rw [ih same, hexLow.unique hex]
    · exact absurd ⟨low, n, rest, rfl, hexLow, rangeLow⟩ (alone rangeHigh.2)
  | alone hex surrogate alone _ ih =>
    rcases h'.of_unicode hex with ⟨_, char, -⟩ | ⟨low, tail, m, more, range, rfl, hexLow, rangeLow, -⟩ | ⟨more, -, -, rfl, same⟩
    · exact absurd surrogate (hex.isValidChar.mp char)
    · exact absurd ⟨low, m, tail, rfl, hexLow, rangeLow⟩ (alone range.2)
    · rw [ih same]

/-! ### How they are written -/

theorem Items.sources (h : Items inner items) : inner = items.flatMap (·.source) := by
  induction h with
  | nil => rfl
  | pair _ _ _ _ _ ih =>
    rw [List.flatMap_cons, ← ih]
    simp only [List.cons_append, List.append_assoc]
  | _ =>
    rename_i ih
    simp only [List.flatMap_cons, ← ih, List.cons_append, List.nil_append]

theorem Items.tail {item : Item} (h : Items inner (item :: items)) : ∃ rest, inner = item.source ++ rest ∧ Items rest items := by
  cases h with
  | plain _ h => exact ⟨_, rfl, h⟩
  | escape _ h => exact ⟨_, rfl, h⟩
  | unicode _ _ h => exact ⟨_, rfl, h⟩
  | pair _ _ _ _ h => exact ⟨_, by simp only [List.cons_append, List.append_assoc], h⟩
  | alone _ _ _ h => exact ⟨_, rfl, h⟩

/-- A character without an escape is its own source. -/
theorem Items.source_eq (h : Items inner items) :
    ∀ item ∈ items, item.escaped = false → item.source = String.utf8EncodeChar item.char := by
  induction h with
  | nil => nofun
  | plain _ _ ih => exact List.forall_mem_cons.mpr ⟨fun _ => rfl, ih⟩
  | _ =>
    rename_i ih
    exact List.forall_mem_cons.mpr ⟨fun unescaped => absurd unescaped (by simp [Item.escaped]), ih⟩

theorem Items.escaped (h : Items inner items) {item : Item} (mem : item ∈ items) (escaped : item.escaped = true) : backslash ∈ inner := by
  rw [h.sources]
  refine List.mem_flatMap.mpr ⟨item, mem, List.mem_of_mem_head? ?_⟩
  simpa [Item.escaped] using escaped

/-- How a character is written. -/
noncomputable def read (inner : List UInt8) : List Item := Classical.epsilon (Items inner)

theorem Items.read (h : Items inner items) : JsonText.read inner = items := (Classical.epsilon_spec ⟨items, h⟩).unique h

end

end JsonText
