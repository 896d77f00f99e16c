import Mathlib.Data.List.Basic
import Mathlib.Data.List.Forall2

/-! UTF-8 on lists of bytes: where the characters of a text begin, and its slices. -/

namespace Utf8

def encode (chars : List Char) : List UInt8 := chars.flatMap String.utf8EncodeChar

/-- A text is the encoding of characters. -/
def Valid (text : List UInt8) : Prop := ∃ chars, text = encode chars

/-- A byte that no character begins with. -/
def isContinuation (b : UInt8) : Bool := 128 ≤ b && b < 192

/-- Whether a character begins at `n`, or the text ends there. -/
def isBoundary (text : List UInt8) (n : Nat) : Bool :=
  n = 0 || match text[n]? with
    | some b => !isContinuation b
    | none => n = text.length

/-- The text from `start` up to `stop`, if that cuts no character. -/
def slice (text : List UInt8) (start stop : Nat) : Option (List UInt8) :=
  if start ≤ stop && isBoundary text start && isBoundary text stop then some ((text.take stop).drop start) else none

section
variable {text left right word : List UInt8} {c : Char} {n start stop : Nat}

theorem encode_cons (c : Char) (chars : List Char) : encode (c :: chars) = String.utf8EncodeChar c ++ encode chars := List.flatMap_cons

theorem encode_append (chars others : List Char) : encode (chars ++ others) = encode chars ++ encode others := List.flatMap_append

theorem Valid.nil : Valid [] := ⟨[], rfl⟩

theorem Valid.append (h : Valid left) (h' : Valid right) : Valid (left ++ right) := by
  obtain ⟨chars, rfl⟩ := h
  obtain ⟨others, rfl⟩ := h'
  exact ⟨chars ++ others, (encode_append chars others).symm⟩

theorem Valid.char (c : Char) : Valid (String.utf8EncodeChar c) := ⟨[c], by rw [encode_cons, encode, List.flatMap_nil, List.append_nil]⟩

/-! ### Characters -/

theorem isContinuation_ofNat {n : Nat} (h : n < 256) : isContinuation (.ofNat n) = true ↔ 128 ≤ n ∧ n < 192 := by
  rw [isContinuation, Bool.and_eq_true, decide_eq_true_eq, decide_eq_true_eq, UInt8.le_iff_toNat_le, UInt8.lt_iff_toNat_lt,
    UInt8.toNat_ofNat_of_lt' h]
  rfl

/-- The first byte of a character is its only one that could be first. -/
theorem encodeChar_eq (c : Char) : ∃ first rest, String.utf8EncodeChar c = first :: rest ∧ isContinuation first = false ∧
    ∀ b ∈ rest, isContinuation b = true := by
  have first {n : Nat} (h : n < 256) (plain : n < 128 ∨ 192 ≤ n) : isContinuation (.ofNat n) = false := by
    rw [← Bool.not_eq_true, isContinuation_ofNat h]
    omega
  have next (n : Nat) : isContinuation (.ofNat (n % 64 + 128)) = true := (isContinuation_ofNat (by omega)).mpr (by omega)
  unfold String.utf8EncodeChar
  dsimp only
  split
  · exact ⟨_, _, rfl, first (by omega) (by omega), nofun⟩
  · split
    · exact ⟨_, _, rfl, first (by omega) (by omega), List.forall_mem_singleton.mpr (next _)⟩
    · split
      · exact ⟨_, _, rfl, first (by omega) (by omega), List.forall_mem_cons.mpr ⟨next _, List.forall_mem_singleton.mpr (next _)⟩⟩
      · refine ⟨_, _, rfl, first (by omega) (by omega), List.forall_mem_cons.mpr ⟨next _, ?_⟩⟩
        exact List.forall_mem_cons.mpr ⟨next _, List.forall_mem_singleton.mpr (next _)⟩

theorem encodeChar_ne_nil (c : Char) : String.utf8EncodeChar c ≠ [] := by
  obtain ⟨_, _, eq, -⟩ := encodeChar_eq c
  rw [eq]
  exact List.cons_ne_nil _ _

/-- The first byte of a text begins a character. -/
theorem Valid.head (h : Valid text) {b : UInt8} (hb : text[0]? = some b) : isContinuation b = false := by
  obtain ⟨chars, rfl⟩ := h
  cases chars with
  | nil => cases hb
  | cons c chars =>
    obtain ⟨first, rest, eq, begins, -⟩ := encodeChar_eq c
    rw [encode_cons, eq] at hb
    exact Option.some.inj hb ▸ begins

/-- No encoding of a character begins another. -/
theorem Valid.of_char_append (h : Valid (String.utf8EncodeChar c ++ text)) : Valid text := by
  obtain ⟨chars, eq⟩ := h
  have valid : ByteArray.IsValidUTF8 ([c].utf8Encode ++ text.toByteArray) := by
    refine ⟨chars, ?_⟩
    rw [List.utf8Encode_singleton, ← List.toByteArray_append, eq]
    rfl
  obtain ⟨others, same⟩ := ByteArray.isValidUTF8_utf8Encode_singleton_append_iff.mp valid
  exact ⟨others, List.toByteArray_inj.mp same⟩

theorem Valid.of_append (h : Valid (left ++ right)) (hl : Valid left) : Valid right := by
  obtain ⟨chars, rfl⟩ := hl
  induction chars with
  | nil => exact h
  | cons c chars ih =>
    rw [encode_cons, List.append_assoc] at h
    exact ih h.of_char_append

/-! ### Boundaries -/

theorem isBoundary_zero (text : List UInt8) : isBoundary text 0 = true := rfl

theorem isBoundary_length (text : List UInt8) : isBoundary text text.length = true := by
  rw [isBoundary, List.getElem?_eq_none (Nat.le_refl _)]
  simp

theorem isBoundary_iff_getElem? : isBoundary text n = true ↔
    n = 0 ∨ (∃ b, text[n]? = some b ∧ isContinuation b = false) ∨ text[n]? = none ∧ n = text.length := by
  rw [isBoundary, Bool.or_eq_true, decide_eq_true_eq]
  refine or_congr_right ?_
  cases text[n]? with
  | none => simp
  | some b => simp

theorem le_of_isBoundary (h : isBoundary text n = true) : n ≤ text.length := by
  rcases isBoundary_iff_getElem?.mp h with rfl | ⟨b, found, -⟩ | ⟨-, last⟩
  · exact Nat.zero_le _
  · exact Nat.le_of_lt (List.getElem?_eq_some_iff.mp found).1
  · exact Nat.le_of_eq last

theorem isBoundary_append (left : List UInt8) (hr : Valid right) : isBoundary (left ++ right) left.length = true := by
  rw [isBoundary_iff_getElem?, List.getElem?_append_right (Nat.le_refl _), Nat.sub_self]
  right
  cases right with
  | nil => exact .inr ⟨rfl, by rw [List.append_nil]⟩
  | cons b right => exact .inl ⟨b, rfl, hr.head rfl⟩

/-- At a boundary a text is cut into texts. -/
theorem Valid.cut (h : Valid text) (hb : isBoundary text n = true) :
    ∃ left right, Valid left ∧ Valid right ∧ text = left ++ right ∧ left.length = n := by
  obtain ⟨chars, rfl⟩ := h
  induction chars generalizing n with
  | nil => exact ⟨[], [], .nil, .nil, rfl, (Nat.le_zero.mp (le_of_isBoundary hb)).symm⟩
  | cons c chars ih =>
    obtain ⟨first, rest, eq, -, continued⟩ := encodeChar_eq c
    rcases Nat.eq_zero_or_pos n with rfl | pos
    · exact ⟨[], encode (c :: chars), .nil, ⟨_, rfl⟩, rfl, rfl⟩
    · rw [isBoundary_iff_getElem?, encode_cons] at hb
      have long : (String.utf8EncodeChar c).length ≤ n := by
        by_contra short
        have inside := Nat.lt_of_not_le short
        rw [List.getElem?_append_left inside, List.getElem?_eq_getElem inside] at hb
        rcases hb with rfl | ⟨b, found, begins⟩ | ⟨none, -⟩
        · exact Nat.lt_irrefl 0 pos
        · have mem : b ∈ rest := by
            simp only [eq] at found
            rw [List.getElem_cons, dif_neg (Nat.ne_of_gt pos)] at found
            exact Option.some.inj found ▸ List.getElem_mem _
          exact Bool.false_ne_true (begins.symm.trans (continued b mem))
        · cases none
      have inner : isBoundary (encode chars) (n - (String.utf8EncodeChar c).length) = true := by
        rw [List.getElem?_append_right long, List.length_append] at hb
        rw [isBoundary_iff_getElem?]
        refine hb.imp (fun zero => by rw [zero, Nat.zero_sub]) (Or.imp_right fun ⟨past, last⟩ => ⟨past, by omega⟩)
      obtain ⟨left, right, hl, hr, same, len⟩ := ih inner
      refine ⟨String.utf8EncodeChar c ++ left, right, (Valid.char c).append hl, hr, ?_, ?_⟩
      · rw [encode_cons, same, List.append_assoc]
      · rw [List.length_append, len, Nat.add_sub_cancel' long]

/-- A word of a text is no part of characters. -/
theorem Valid.around (h : Valid (left ++ word ++ right)) (hw : Valid word) (ne : word ≠ []) : Valid left ∧ Valid right := by
  have begins : isBoundary (left ++ word ++ right) left.length = true := by
    obtain ⟨b, rest, rfl⟩ := List.exists_cons_of_ne_nil ne
    refine isBoundary_iff_getElem?.mpr (.inr (.inl ⟨b, ?_, hw.head rfl⟩))
    rw [List.append_assoc, List.getElem?_append_right (Nat.le_refl _), Nat.sub_self]
    rfl
  obtain ⟨before, after, hb, ha, same, len⟩ := h.cut begins
  rw [List.append_assoc] at same
  obtain ⟨rfl, rfl⟩ := List.append_inj same len.symm
  exact ⟨hb, ha.of_append hw⟩

theorem encodeChar_ascii (h : c.toNat < 128) : String.utf8EncodeChar c = [.ofNat c.toNat] := by
  unfold String.utf8EncodeChar
  exact if_pos (Nat.le_of_lt_succ h)

theorem high_of_large (h : 128 ≤ c.toNat) : ∀ b ∈ String.utf8EncodeChar c, 128 ≤ b.toNat := by
  have high {n : Nat} (size : n < 256) (out : 128 ≤ n) : 128 ≤ (UInt8.ofNat n).toNat := by rwa [UInt8.toNat_ofNat_of_lt' size]
  have large : ¬c.val.toNat ≤ 127 := Nat.not_le.mpr h
  unfold String.utf8EncodeChar
  dsimp only
  rw [if_neg large]
  split
  · exact List.forall_mem_cons.mpr ⟨high (by omega) (by omega), List.forall_mem_singleton.mpr (high (by omega) (by omega))⟩
  · split
    · refine List.forall_mem_cons.mpr ⟨high (by omega) (by omega), List.forall_mem_cons.mpr ⟨high (by omega) (by omega), ?_⟩⟩
      exact List.forall_mem_singleton.mpr (high (by omega) (by omega))
    · refine List.forall_mem_cons.mpr ⟨high (by omega) (by omega), List.forall_mem_cons.mpr ⟨high (by omega) (by omega), ?_⟩⟩
      exact List.forall_mem_cons.mpr ⟨high (by omega) (by omega), List.forall_mem_singleton.mpr (high (by omega) (by omega))⟩

/-- A byte of ASCII is in no other character. -/
theorem ascii_of_mem {b : UInt8} (ascii : b < 128) (h : b ∈ String.utf8EncodeChar c) :
    String.utf8EncodeChar c = [b] ∧ c.toNat = b.toNat := by
  rcases Nat.lt_or_ge c.toNat 128 with small | large
  · rw [encodeChar_ascii small, List.mem_singleton] at h
    subst h
    exact ⟨encodeChar_ascii small, (UInt8.toNat_ofNat_of_lt' (Nat.lt_trans small (by decide))).symm⟩
  · exact absurd (high_of_large large b h) (Nat.not_le.mpr ascii)

/-- A byte of ASCII is a character. -/
theorem Valid.ascii {b : UInt8} (h : b < 128) : Valid [b] := by
  have lt : b.toNat < 128 := h
  have code : b.toUInt32.toNat = b.toNat := UInt8.toNat_toUInt32 b
  refine ⟨[⟨b.toUInt32, .inl (by rw [code]; omega)⟩], ?_⟩
  rw [encode, List.flatMap_singleton, String.utf8EncodeChar]
  simp only [code]
  rw [if_pos (by omega), UInt8.ofNat_toNat]

theorem Valid.of_ascii (h : ∀ b ∈ text, b < 128) : Valid text := by
  induction text with
  | nil => exact .nil
  | cons b text ih => exact (Valid.ascii (h b List.mem_cons_self)).append (ih fun c hc => h c (List.mem_cons_of_mem _ hc))

theorem Valid.of_cons {b : UInt8} (h : Valid (b :: text)) (ascii : b < 128) : Valid text := by
  rw [← List.singleton_append] at h
  exact h.of_append (.ascii ascii)

/-- A part between texts is cut out. -/
theorem slice_eq (left right : List UInt8) (whole : text = left ++ (word ++ right)) (hw : Valid word) (hr : Valid right)
    (hs : start = left.length) (he : stop = left.length + word.length) : slice text start stop = some word := by
  subst whole hs he
  have starts := isBoundary_append left (hw.append hr)
  have ends := isBoundary_append (left ++ word) hr
  rw [List.append_assoc, List.length_append] at ends
  rw [slice, starts, ends, if_pos]
  · rw [← List.append_assoc, ← List.length_append, List.take_left, List.drop_left]
  · simp

theorem slice_last (left : List UInt8) (whole : text = left ++ word) (hw : Valid word) (hs : start = left.length) :
    slice text start text.length = some word := by
  refine slice_eq left [] ?_ hw .nil hs ?_
  · rw [whole, List.append_nil]
  · rw [whole, List.length_append]

end

/-! ### Cut to a length -/

theorem encode_injective {chars others : List Char} (h : encode chars = encode others) : chars = others := by
  have same : chars.utf8Encode = others.utf8Encode := congrArg List.toByteArray h
  exact String.ofList_injective (String.toByteArray_inj.mp same)

/-- The characters that a number of bytes hold. -/
def fit (limit : Nat) : List Char → List Char
  | [] => []
  | c :: chars => if c.utf8Size ≤ limit then c :: fit (limit - c.utf8Size) chars else []

section
variable {limit : Nat} {chars others : List Char} {c : Char}

theorem encode_length_cons (c : Char) (chars : List Char) : (encode (c :: chars)).length = c.utf8Size + (encode chars).length := by
  rw [encode_cons, List.length_append, String.length_utf8EncodeChar]

theorem encode_length_append (chars others : List Char) :
    (encode (chars ++ others)).length = (encode chars).length + (encode others).length := by
  rw [encode_append, List.length_append]

theorem fit_prefix (limit : Nat) (chars : List Char) : fit limit chars <+: chars := by
  induction chars generalizing limit with
  | nil => exact List.prefix_refl _
  | cons c chars ih =>
    rw [fit]
    split
    · exact List.cons_prefix_cons.mpr ⟨rfl, ih _⟩
    · exact List.nil_prefix

theorem fit_length (limit : Nat) (chars : List Char) : (encode (fit limit chars)).length ≤ limit := by
  induction chars generalizing limit with
  | nil => exact Nat.zero_le _
  | cons c chars ih =>
    rw [fit]
    split
    · have := ih (limit - c.utf8Size)
      rw [encode_length_cons]
      omega
    · exact Nat.zero_le _

/-- No more characters fit. -/
theorem fit_longest (h : others <+: chars) (short : (encode others).length ≤ limit) : others <+: fit limit chars := by
  induction chars generalizing limit others with
  | nil => exact h
  | cons c chars ih =>
    cases others with
    | nil => exact List.nil_prefix
    | cons d others =>
      obtain ⟨rfl, begins⟩ := List.cons_prefix_cons.mp h
      rw [encode_length_cons] at short
      rw [fit, if_pos (by omega)]
      exact List.cons_prefix_cons.mpr ⟨rfl, ih begins (by omega)⟩

theorem fit_append (short : (encode chars).length ≤ limit) (others : List Char) :
    fit limit (chars ++ others) = chars ++ fit (limit - (encode chars).length) others := by
  induction chars generalizing limit with
  | nil => rfl
  | cons c chars ih =>
    rw [encode_length_cons] at short ⊢
    rw [List.cons_append, fit, if_pos (by omega), ih (by omega), Nat.sub_sub, List.cons_append]

theorem fit_append_long (long : limit < (encode chars).length) (others : List Char) : fit limit (chars ++ others) = fit limit chars := by
  induction chars generalizing limit with
  | nil => cases long
  | cons c chars ih =>
    rw [encode_length_cons] at long
    rw [List.cons_append, fit, fit]
    split
    · rw [ih (by omega)]
    · rfl

theorem fit_all (short : (encode chars).length ≤ limit) : fit limit chars = chars := by
  have all := fit_append short []
  rwa [List.append_nil, fit, List.append_nil] at all

/-- The longest start between two boundaries is what fits. -/
theorem fit_eq (h : others <+: chars) (short : (encode others).length ≤ limit)
    (longest : (encode (fit limit chars)).length ≤ (encode others).length) : fit limit chars = others := by
  obtain ⟨more, eq⟩ := fit_longest h short
  rw [← eq, encode_length_append] at longest
  cases more with
  | nil => rw [← eq, List.append_nil]
  | cons c more =>
    rw [encode_length_cons] at longest
    have := c.utf8Size_pos
    omega

end

/-! ### Bytes that are no text -/

/-- U+FFFD. -/
def REPLACEMENT : List UInt8 := [0xEF, 0xBF, 0xBD]

/-- The ranges of the bytes that are to follow the first one of a character. -/
def tails (first : UInt8) : Option (List (UInt8 × UInt8)) :=
  if first < 0x80 then some []
  else if first < 0xC2 then none
  else if first < 0xE0 then some [(0x80, 0xBF)]
  else if first = 0xE0 then some [(0xA0, 0xBF), (0x80, 0xBF)]
  else if first = 0xED then some [(0x80, 0x9F), (0x80, 0xBF)]
  else if first < 0xF0 then some [(0x80, 0xBF), (0x80, 0xBF)]
  else if first = 0xF0 then some [(0x90, 0xBF), (0x80, 0xBF), (0x80, 0xBF)]
  else if first < 0xF4 then some [(0x80, 0xBF), (0x80, 0xBF), (0x80, 0xBF)]
  else if first = 0xF4 then some [(0x80, 0x8F), (0x80, 0xBF), (0x80, 0xBF)]
  else none

/-- How many bytes there are of those. -/
def matched : List (UInt8 × UInt8) → List UInt8 → Nat
  | (low, high) :: ranges, b :: rest => if low ≤ b ∧ b ≤ high then matched ranges rest + 1 else 0
  | _, _ => 0

/-- How many bytes after the first one are of its character, and whether it is whole. -/
def following (first : UInt8) (rest : List UInt8) : Nat × Bool :=
  match tails first with
  | some ranges => (matched ranges rest, matched ranges rest = ranges.length)
  | none => (0, false)

/-- `String::from_utf8_lossy`: what begins a character and does not end it becomes U+FFFD, as does every other byte that is of none. -/
def lossy : List UInt8 → List UInt8
  | [] => []
  | b :: rest =>
    (if (following b rest).2 then b :: rest.take (following b rest).1 else REPLACEMENT) ++ lossy (rest.drop (following b rest).1)
  termination_by text => text.length
  decreasing_by
    rw [List.length_drop, List.length_cons]
    omega

section
variable {text left right : List UInt8} {b c : UInt8}

theorem matched_le (ranges : List (UInt8 × UInt8)) (text : List UInt8) : matched ranges text ≤ text.length := by
  induction ranges generalizing text with
  | nil => exact Nat.zero_le _
  | cons range ranges ih =>
    cases text with
    | nil => exact Nat.zero_le _
    | cons b rest =>
      rw [matched]
      split
      · exact Nat.succ_le_succ (ih rest)
      · exact Nat.zero_le _

/-- Nothing after a byte that is in none of the ranges matters. -/
theorem matched_append {ranges : List (UInt8 × UInt8)} (apart : ∀ range ∈ ranges, c < range.1) (left right : List UInt8) :
    matched ranges (left ++ c :: right) = matched ranges left := by
  induction ranges generalizing left with
  | nil => cases left <;> rfl
  | cons range ranges ih =>
    obtain ⟨here, others⟩ := List.forall_mem_cons.mp apart
    cases left with
    | nil => exact if_neg fun h => UInt8.not_le.mpr here h.1
    | cons b left => rw [List.cons_append, matched, matched, ih others]

theorem tails_low {ranges : List (UInt8 × UInt8)} (h : tails b = some ranges) : ∀ range ∈ ranges, (0x7F : UInt8) < range.1 := by
  have all : ranges.all (fun range => (0x7F : UInt8) < range.1) = true := by
    unfold tails at h
    repeat' split at h
    all_goals
      cases h
      try rfl
  exact fun range mem => of_decide_eq_true (List.all_eq_true.mp all range mem)

theorem following_append (ascii : c < 0x80) (b : UInt8) (left right : List UInt8) :
    following b (left ++ c :: right) = following b left := by
  unfold following
  split
  · rename_i ranges found
    have apart : ∀ range ∈ ranges, c < range.1 := fun range mem => by
      have low := tails_low found range mem
      rw [UInt8.lt_iff_toNat_lt] at ascii low ⊢
      exact Nat.lt_of_lt_of_le ascii low
    rw [matched_append apart]
  · rfl

theorem following_le (b : UInt8) (text : List UInt8) : (following b text).1 ≤ text.length := by
  unfold following
  split
  · exact matched_le _ _
  · exact Nat.zero_le _

/-- A text is read for itself up to a character of one byte. -/
theorem lossy_append (ascii : c < 0x80) (left right : List UInt8) : lossy (left ++ c :: right) = lossy left ++ c :: lossy right := by
  induction len : left.length using Nat.strongRecOn generalizing left with
  | ind n ih =>
    subst len
    cases left with
    | nil =>
      have whole : following c right = (0, true) := by
        have none : tails c = some [] := if_pos ascii
        rw [following, none]
        cases right <;> rfl
      rw [List.nil_append, lossy.eq_2, lossy.eq_1, whole]
      rfl
    | cons b left =>
      have fits := following_le b left
      have rest := ih (left.drop (following b left).1).length (by rw [List.length_drop, List.length_cons]; omega) _ rfl
      rw [List.cons_append, lossy, lossy, following_append ascii, List.take_append_of_le_length fits, List.drop_append_of_le_length fits,
        rest,
        List.append_assoc]

theorem matched_all {ranges : List (UInt8 × UInt8)} {rest : List UInt8}
    (h : List.Forall₂ (fun range b => range.1 ≤ b ∧ b ≤ range.2) ranges rest)
    (right : List UInt8) : matched ranges (rest ++ right) = ranges.length := by
  induction h with
  | nil => rfl
  | cons here _ ih => rw [List.cons_append, matched, if_pos here, ih, List.length_cons]

theorem following_all {first : UInt8} {ranges : List (UInt8 × UInt8)} {rest : List UInt8} (h : tails first = some ranges)
    (all : List.Forall₂ (fun range b => range.1 ≤ b ∧ b ≤ range.2) ranges rest) (right : List UInt8) :
    following first (rest ++ right) = (rest.length, true) := by
  rw [following, h]
  dsimp only
  rw [matched_all all, decide_eq_true rfl, all.length_eq]

/-- The ranges in numbers. -/
theorem tails_ofNat {n : Nat} (h : n < 256) : tails (.ofNat n) =
    if n < 0x80 then some []
    else if n < 0xC2 then none
    else if n < 0xE0 then some [(0x80, 0xBF)]
    else if n = 0xE0 then some [(0xA0, 0xBF), (0x80, 0xBF)]
    else if n = 0xED then some [(0x80, 0x9F), (0x80, 0xBF)]
    else if n < 0xF0 then some [(0x80, 0xBF), (0x80, 0xBF)]
    else if n = 0xF0 then some [(0x90, 0xBF), (0x80, 0xBF), (0x80, 0xBF)]
    else if n < 0xF4 then some [(0x80, 0xBF), (0x80, 0xBF), (0x80, 0xBF)]
    else if n = 0xF4 then some [(0x80, 0x8F), (0x80, 0xBF), (0x80, 0xBF)]
    else none := by
  simp only [tails, UInt8.lt_iff_toNat_lt, ← UInt8.toNat_inj, UInt8.toNat_ofNat_of_lt' h]
  rfl

theorem range_ofNat {n : Nat} (h : n < 256) (low high : UInt8) : low ≤ .ofNat n ∧ .ofNat n ≤ high ↔ low.toNat ≤ n ∧ n ≤ high.toNat := by
  rw [UInt8.le_iff_toNat_le, UInt8.le_iff_toNat_le, UInt8.toNat_ofNat_of_lt' h]

/-- The bytes of a character follow its first one. -/
theorem following_char (c : Char) (right : List UInt8) : ∃ first rest, String.utf8EncodeChar c = first :: rest ∧
    following first (rest ++ right) = (rest.length, true) := by
  have big : c.val.toNat < 0xD800 ∨ 0xDFFF < c.val.toNat ∧ c.val.toNat < 0x110000 := c.valid
  have inRange {n : Nat} (low high : UInt8) (size : n < 256) (h : low.toNat ≤ n ∧ n ≤ high.toNat) : low ≤ .ofNat n ∧ .ofNat n ≤ high :=
    (range_ofNat size low high).mpr h
  have next (n : Nat) : (0x80 : UInt8) ≤ .ofNat (n % 64 + 128) ∧ .ofNat (n % 64 + 128) ≤ (0xBF : UInt8) :=
    inRange 0x80 0xBF (by omega) ⟨by show 128 ≤ _; omega, by show _ ≤ 191; omega⟩
  unfold String.utf8EncodeChar
  dsimp only
  generalize c.val.toNat = v at big ⊢
  split
  · exact ⟨_, _, rfl, following_all (by rw [tails_ofNat (by omega), if_pos (by omega)]) .nil right⟩
  · split
    · have first : tails (.ofNat (v / 64 % 32 + 192)) = some [(0x80, 0xBF)] := by
        rw [tails_ofNat (by omega), if_neg (by omega), if_neg (by omega), if_pos (by omega)]
      exact ⟨_, _, rfl, following_all first (.cons (next v) .nil) right⟩
    · split
      · have two (low high : UInt8) (first : tails (.ofNat (v / 4096 % 16 + 224)) = some [(low, high), (0x80, 0xBF)])
            (bounds : low.toNat ≤ v / 64 % 64 + 128 ∧ v / 64 % 64 + 128 ≤ high.toNat) :=
          following_all first (.cons (inRange low high (by omega) bounds) (.cons (next v) .nil)) right
        refine ⟨_, _, rfl, ?_⟩
        by_cases e0 : v < 0x1000
        · refine two 0xA0 0xBF ?_ ⟨?_, ?_⟩
          · rw [tails_ofNat (by omega), if_neg (by omega), if_neg (by omega), if_neg (by omega), if_pos (by omega)]
          · change 160 ≤ _
            omega
          · change _ ≤ 191
            omega
        · by_cases ed : 0xD000 ≤ v ∧ v < 0xE000
          · refine two 0x80 0x9F ?_ ⟨?_, ?_⟩
            · rw [tails_ofNat (by omega), if_neg (by omega), if_neg (by omega), if_neg (by omega), if_neg (by omega), if_pos (by omega)]
            · change 128 ≤ _
              omega
            · change _ ≤ 159
              omega
          · refine two 0x80 0xBF ?_ ⟨?_, ?_⟩
            · rw [tails_ofNat (by omega), if_neg (by omega), if_neg (by omega), if_neg (by omega), if_neg (by omega), if_neg (by omega),
                if_pos (by omega)]
            · change 128 ≤ _
              omega
            · change _ ≤ 191
              omega
      · have three (low high : UInt8) (first : tails (.ofNat (v / 262144 % 8 + 240)) = some [(low, high), (0x80, 0xBF), (0x80, 0xBF)])
            (bounds : low.toNat ≤ v / 4096 % 64 + 128 ∧ v / 4096 % 64 + 128 ≤ high.toNat) :=
          following_all first (.cons (inRange low high (by omega) bounds) (.cons (next (v / 64)) (.cons (next v) .nil))) right
        refine ⟨_, _, rfl, ?_⟩
        by_cases f0 : v < 0x40000
        · refine three 0x90 0xBF ?_ ⟨?_, ?_⟩
          · rw [tails_ofNat (by omega), if_neg (by omega), if_neg (by omega), if_neg (by omega), if_neg (by omega), if_neg (by omega),
              if_neg (by omega), if_pos (by omega)]
          · change 144 ≤ _
            omega
          · change _ ≤ 191
            omega
        · by_cases f4 : v < 0x100000
          · refine three 0x80 0xBF ?_ ⟨?_, ?_⟩
            · rw [tails_ofNat (by omega), if_neg (by omega), if_neg (by omega), if_neg (by omega), if_neg (by omega), if_neg (by omega),
                if_neg (by omega), if_neg (by omega), if_pos (by omega)]
            · change 128 ≤ _
              omega
            · change _ ≤ 191
              omega
          · refine three 0x80 0x8F ?_ ⟨?_, ?_⟩
            · rw [tails_ofNat (by omega), if_neg (by omega), if_neg (by omega), if_neg (by omega), if_neg (by omega), if_neg (by omega),
                if_neg (by omega), if_neg (by omega), if_neg (by omega), if_pos (by omega)]
            · change 128 ≤ _
              omega
            · change _ ≤ 143
              omega

/-- A text is read for itself. -/
theorem lossy_valid {text : List UInt8} (h : Valid text) : lossy text = text := by
  obtain ⟨chars, rfl⟩ := h
  induction chars with
  | nil => exact lossy.eq_1
  | cons c chars ih =>
    obtain ⟨first, rest, eq, follows⟩ := following_char c (encode chars)
    rw [encode_cons, eq, List.cons_append, lossy, follows]
    dsimp only
    rw [if_pos rfl, List.take_left, List.drop_left, ih, List.cons_append]

/-- What is read for ASCII is ASCII. -/
theorem lossy_ascii {text : List UInt8} (h : ∀ b ∈ lossy text, b < 0x80) : lossy text = text := by
  induction len : text.length using Nat.strongRecOn generalizing text with
  | ind n ih =>
    subst len
    cases text with
    | nil => exact lossy.eq_1
    | cons b rest =>
      rw [lossy] at h ⊢
      obtain ⟨first, others⟩ := List.forall_mem_append.mp h
      by_cases ascii : b < 0x80
      · have whole : following b rest = (0, true) := by
          rw [following, show tails b = some [] from if_pos ascii]
          cases rest <;> rfl
        rw [whole] at others ⊢
        rw [List.drop_zero] at others ⊢
        rw [if_pos rfl, List.take_zero, ih _ (Nat.lt_succ_self _) others rfl, List.singleton_append]
      · split at first
        · exact absurd (first b List.mem_cons_self) ascii
        · exact absurd (first 0xEF List.mem_cons_self) (by decide)

end

end Utf8
