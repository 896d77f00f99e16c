import Tgin.Lib.Utf8

/-! The whitespace of Unicode in UTF-8. -/

namespace Utf8

/-- The code points that are whitespace. -/
def WHITESPACE : List Nat :=
  [9, 10, 11, 12, 13, 32, 0x85, 0xA0, 0x1680, 0x2000, 0x2001, 0x2002, 0x2003, 0x2004, 0x2005, 0x2006, 0x2007, 0x2008, 0x2009, 0x200A,
    0x2028, 0x2029, 0x202F, 0x205F, 0x3000]

/-- `char::is_whitespace`. -/
def isWhitespace (c : Char) : Bool := WHITESPACE.contains c.toNat

/-- The encoding of a whitespace character that the text begins with. -/
def leading (text : List UInt8) : Option (List UInt8) :=
  (WHITESPACE.map fun n => String.utf8EncodeChar (.ofNat n)).find? (·.isPrefixOf text)

/-- `str::find` of whitespace. -/
def findWhitespace : List UInt8 → Option Nat
  | [] => none
  | b :: rest => if (leading (b :: rest)).isSome then some 0 else (findWhitespace rest).map (· + 1)

section
variable {text right : List UInt8} {c : Char}

theorem char_injective {left right : List UInt8} {c d : Char}
    (h : String.utf8EncodeChar c ++ left = String.utf8EncodeChar d ++ right) : c = d := by
  have same := congrArg (fun text => ByteArray.utf8DecodeChar? (List.toByteArray text) 0) h
  simp only [List.toByteArray_append, ByteArray.utf8DecodeChar?_utf8EncodeChar_append] at same
  exact Option.some.inj same

theorem isWhitespace_ofNat : ∀ n ∈ WHITESPACE, (Char.ofNat n).toNat = n := by decide

theorem isWhitespace_of_mem {n : Nat} (h : n ∈ WHITESPACE) : isWhitespace (.ofNat n) = true := by
  rw [isWhitespace, isWhitespace_ofNat n h, List.contains_iff_mem]
  exact h

/-- A text begins with whitespace if its first character is. -/
theorem leading_char (c : Char) (right : List UInt8) :
    leading (String.utf8EncodeChar c ++ right) = if isWhitespace c then some (String.utf8EncodeChar c) else none := by
  cases found : leading (String.utf8EncodeChar c ++ right) with
  | none =>
    rw [if_neg]
    intro white
    refine List.find?_eq_none.mp found _ (List.mem_map_of_mem (List.contains_iff_mem.mp white)) ?_
    rw [Char.ofNat_toNat, List.isPrefixOf_iff_prefix]
    exact List.prefix_append ..
  | some e =>
    obtain ⟨n, mem, rfl⟩ := List.mem_map.mp (List.mem_of_find?_eq_some found)
    have begins : (String.utf8EncodeChar (.ofNat n)).isPrefixOf (String.utf8EncodeChar c ++ right) = true := by
      unfold leading at found
      simpa using List.find?_some found
    obtain ⟨tail, eq⟩ := List.isPrefixOf_iff_prefix.mp begins
    obtain rfl := char_injective eq
    rw [if_pos (isWhitespace_of_mem mem)]

theorem leading_continuation {b : UInt8} (h : isContinuation b = true) (right : List UInt8) : leading (b :: right) = none := by
  refine List.find?_eq_none.mpr fun e mem begins => ?_
  obtain ⟨n, -, rfl⟩ := List.mem_map.mp mem
  obtain ⟨first, rest, eq, plain, -⟩ := encodeChar_eq (.ofNat n)
  rw [eq, List.isPrefixOf_iff_prefix] at begins
  obtain ⟨rfl, -⟩ := List.cons_prefix_cons.mp begins
  exact Bool.false_ne_true (plain.symm.trans h)

theorem findWhitespace_continuation {bytes : List UInt8} (h : ∀ b ∈ bytes, isContinuation b = true) (right : List UInt8) :
    findWhitespace (bytes ++ right) = (findWhitespace right).map (· + bytes.length) := by
  induction bytes with
  | nil => exact Option.map_id'.symm
  | cons b bytes ih =>
    obtain ⟨here, others⟩ := List.forall_mem_cons.mp h
    rw [List.cons_append, findWhitespace, leading_continuation here, if_neg (by simp), ih others, Option.map_map]
    rfl

/-- Whitespace is found where the characters before it end. -/
theorem findWhitespace_encode (chars : List Char) : findWhitespace (encode chars) =
    if chars.any isWhitespace then some (encode (chars.takeWhile (!isWhitespace ·))).length else none := by
  induction chars with
  | nil => rfl
  | cons c chars ih =>
    obtain ⟨first, rest, eq, -, continued⟩ := encodeChar_eq c
    have begins : leading (first :: (rest ++ encode chars)) = if isWhitespace c then some (String.utf8EncodeChar c) else none := by
      rw [← List.cons_append, ← eq, leading_char]
    rw [encode_cons, eq, List.cons_append, findWhitespace, begins, List.any_cons, List.takeWhile_cons]
    cases white : isWhitespace c with
    | true => rfl
    | false =>
      rw [findWhitespace_continuation continued, ih, Bool.false_or]
      cases chars.any isWhitespace with
      | false => rfl
      | true =>
        simp only [if_true, Option.map_some, Bool.not_false, encode_cons, eq, List.length_append, List.length_cons, Option.isSome_none,
          Bool.false_eq_true, if_false]
        congr 1
        omega

end

end Utf8
