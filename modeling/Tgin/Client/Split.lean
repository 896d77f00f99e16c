import Tgin.Client
import Tgin.Lib.JsonUnique

/-! When a body is split as a full parse of its elements would: the id that an element begins with is the one a full parse gives, if
    that gives one. -/

namespace Tgin.Client
open Gateway.Proxy (parseI64)
open JsonText (Chars Denotes Follows Member Number Padded Value backslash colon comma isDigit isNumeric isWhitespace quote quoted)
open Rules
open UpdateFacts (UPDATE_ID i64 utf8)

section
variable {text sign digits : Str} {id : Int64} {n : Number}

/-! ### Integers -/

/-- The integer of a sign and digits. -/
theorem parseI64_cases (h : parseI64 text = some id) : ∃ sign digits, text = sign ++ digits ∧
    (sign = [] ∨ sign = [45] ∨ sign = [43]) ∧ digits ≠ [] ∧ (∀ b ∈ digits, isDigit b) ∧
    (sign = [45] → decimal digits ≤ 2 ^ 63 ∧ id = .ofInt (-decimal digits)) ∧
    (sign ≠ [45] → decimal digits < 2 ^ 63 ∧ id = .ofInt (decimal digits)) := by
  have rest (negative : Bool) (digits : Str)
      (h : (if digits = [] ∨ !digits.all fun b => 48 ≤ b && b ≤ 57 then none
        else
          let size : Nat := digits.foldl (fun n b => 10 * n + (b.toNat - 48)) 0
          let n : Int := if negative then -(size : Int) else size
          if -2 ^ 63 ≤ n ∧ n < 2 ^ 63 then some (Int64.ofInt n) else none) = some id) :
      digits ≠ [] ∧ (∀ b ∈ digits, isDigit b) ∧ (negative = true → decimal digits ≤ 2 ^ 63 ∧ id = .ofInt (-decimal digits)) ∧
        (negative = false → decimal digits < 2 ^ 63 ∧ id = .ofInt (decimal digits)) := by
    split at h
    · cases h
    rename_i formed
    rw [not_or] at formed
    refine ⟨formed.1, by simpa [isDigit] using formed.2, ?_, ?_⟩
    · rintro rfl
      change (if -2 ^ 63 ≤ -(decimal digits : Int) ∧ -(decimal digits : Int) < 2 ^ 63 then _ else none) = _ at h
      split at h
      · exact ⟨by omega, (Option.some.inj h).symm⟩
      · cases h
    · rintro rfl
      change (if -2 ^ 63 ≤ (decimal digits : Int) ∧ (decimal digits : Int) < 2 ^ 63 then _ else none) = _ at h
      split at h
      · exact ⟨by omega, (Option.some.inj h).symm⟩
      · cases h
  unfold parseI64 at h
  split at h
  rename_i negative digits split
  obtain ⟨ne, all, neg, pos⟩ := rest negative digits h
  split at split <;> rw [Prod.mk.injEq] at split <;> obtain ⟨rfl, rfl⟩ := split
  · exact ⟨[45], _, rfl, .inr (.inl rfl), ne, all, fun _ => neg rfl, fun other => absurd rfl other⟩
  · exact ⟨[43], _, rfl, .inr (.inr rfl), ne, all, nofun, fun _ => pos rfl⟩
  · exact ⟨[], _, rfl, .inl rfl, ne, all, nofun, fun _ => pos rfl⟩

/-- A number written with a sign and digits has no more to it. -/
theorem number_of_digits (formed : n.Formed) (bytes : n.bytes = sign ++ digits) (hsign : sign = [] ∨ sign = [45] ∨ sign = [43])
    (all : ∀ b ∈ digits, isDigit b) :
    n.fraction = none ∧ n.exponent = none ∧ n.int = digits ∧ (n.minus = true ∧ sign = [45] ∨ n.minus = false ∧ sign = []) := by
  have absent {b : UInt8} (hb : isDigit b = false) (plus : b ≠ 43) (minus : b ≠ 45) : b ∉ n.bytes := by
    rw [bytes, List.mem_append, not_or]
    refine ⟨?_, fun mem => ?_⟩
    · rcases hsign with rfl | rfl | rfl <;> simp [plus, minus]
    · rw [all b mem] at hb
      cases hb
  have fraction : n.fraction = none := by
    cases eq : n.fraction with
    | none => rfl
    | some ds => exact absurd (by simp [Number.bytes, eq]) (absent (b := 46) rfl (by decide) (by decide))
  have exponent : n.exponent = none := by
    cases eq : n.exponent with
    | none => rfl
    | some exponent =>
      obtain ⟨e, s, ds⟩ := exponent
      have mem : e ∈ n.bytes := by simp [Number.bytes, eq]
      rcases (formed.exponent e s ds eq).1 with rfl | rfl
      · exact absurd mem (absent rfl (by decide) (by decide))
      · exact absurd mem (absent rfl (by decide) (by decide))
  obtain ⟨d, ds, int⟩ := List.exists_cons_of_ne_nil formed.int.1
  have digit : isDigit d := formed.int.2 d (int ▸ List.mem_cons_self)
  simp only [Number.bytes, fraction, exponent, Option.elim_none, List.append_nil] at bytes
  refine ⟨fraction, exponent, ?_⟩
  cases minus : n.minus with
  | true =>
    rw [minus, if_pos rfl, List.singleton_append] at bytes
    rcases hsign with rfl | rfl | rfl
    · rw [List.nil_append] at bytes
      exact absurd (all 45 (bytes ▸ List.mem_cons_self)) (by decide)
    · exact ⟨(List.cons.inj bytes).2, .inl ⟨rfl, rfl⟩⟩
    · cases bytes
  | false =>
    rw [minus, if_neg Bool.false_ne_true, List.nil_append] at bytes
    rcases hsign with rfl | rfl | rfl
    · exact ⟨bytes, .inr ⟨rfl, rfl⟩⟩
    · rw [int] at bytes
      obtain ⟨rfl, -⟩ := List.cons.inj bytes
      cases digit
    · rw [int] at bytes
      obtain ⟨rfl, -⟩ := List.cons.inj bytes
      cases digit

theorem le_decimal (ds : Str) (n : Nat) : n ≤ ds.foldl (fun n b => 10 * n + (b.toNat - 48)) n := by
  induction ds generalizing n with
  | nil => exact Nat.le_refl n
  | cons b ds ih =>
    refine Nat.le_trans ?_ (ih _)
    dsimp only
    omega

/-- Without leading zeros, only `0` is zero. -/
theorem int_of_zero (formed : n.Formed) (zero : decimal n.int = 0) : n.int = [48] := by
  obtain ⟨d, ds, int⟩ := List.exists_cons_of_ne_nil formed.int.1
  have digit : isDigit d := formed.int.2 d (int ▸ List.mem_cons_self)
  apply formed.noLeadingZero
  rw [int, decimal, List.foldl_cons] at zero
  have small := le_decimal ds (10 * 0 + (d.toNat - 48))
  rw [zero] at small
  simp only [isDigit, Bool.and_eq_true, decide_eq_true_eq, UInt8.le_iff_toNat_le] at digit
  have : 48 ≤ d.toNat := digit.1
  rw [int, List.head?_cons, Option.some.injEq, ← UInt8.toNat_inj]
  change d.toNat = 48
  omega

/-- Rust's integer and JSON's are the same but for `-0`. -/
theorem parseI64_number (formed : n.Formed) (h : parseI64 n.bytes = some id) :
    n.fraction = none ∧ n.exponent = none ∧ decimal n.int < 2 ^ 64 ∧
      (numOf n).toI64 = if n.bytes = [45, 48] then none else some id := by
  obtain ⟨sign, digits, bytes, hsign, -, all, negative, positive⟩ := parseI64_cases h
  obtain ⟨fraction, exponent, int, minus⟩ := number_of_digits formed bytes hsign all
  refine ⟨fraction, exponent, ?_⟩
  rcases minus with ⟨minus, rfl⟩ | ⟨minus, rfl⟩
  · obtain ⟨size, rfl⟩ := negative rfl
    rw [← int] at size ⊢ bytes
    refine ⟨by omega, ?_⟩
    rw [numOf, if_pos minus]
    by_cases zero : decimal n.int = 0
    · have written : n.bytes = [45, 48] := by
        rw [bytes, int_of_zero formed zero]
        rfl
      rw [if_pos written, if_neg (by omega)]
      rfl
    · have other : n.bytes ≠ [45, 48] := by
        rw [bytes]
        intro same
        have whole : n.int = [48] := (List.cons.inj same).2
        refine zero ?_
        rw [whole]
        rfl
      rw [if_neg other, if_pos ⟨Nat.pos_of_ne_zero zero, size⟩]
      rfl
  · obtain ⟨size, rfl⟩ := positive (by decide)
    rw [← int] at size ⊢ bytes
    refine ⟨by omega, ?_⟩
    have other : n.bytes ≠ [45, 48] := by
      rw [bytes, List.nil_append]
      intro same
      exact absurd (formed.int.2 45 (same ▸ List.mem_cons_self)) (by decide)
    have small : (UInt64.ofNat (decimal n.int)).toNat = decimal n.int := UInt64.toNat_ofNat_of_lt' (by change _ < 2 ^ 64; omega)
    rw [numOf, minus, if_neg Bool.false_ne_true, if_neg other]
    dsimp only [UpdateFacts.Num.toI64]
    rw [small, if_pos size, Int64.ofInt_eq_ofNat, UInt64.toInt64_ofNat']

/-! ### Elements -/

/-- How a text that an id is read from begins. -/
theorem leading_text (h : leading text = some id) :
    ∃ digits stop tail, text = LEADING ++ (digits ++ stop :: tail) ∧ (stop = comma ∨ stop = 125) ∧ parseI64 digits = some id := by
  unfold leading at h
  split at h
  · rename_i leads
    obtain ⟨tail, rfl⟩ := List.isPrefixOf_iff_prefix.mp leads
    simp only [List.drop_left, Option.bind_eq_bind, Option.bind_some, Option.bind_eq_some_iff] at h
    obtain ⟨stop, found, read⟩ := h
    obtain ⟨lt, stops, -⟩ := List.findIdx?_eq_some_iff_getElem.mp found
    refine ⟨tail.take stop, tail[stop], tail.drop (stop + 1), ?_, by simpa using stops, read⟩
    rw [← List.drop_eq_getElem_cons lt, List.take_append_drop]
  · cases h

theorem parseI64_begins (h : parseI64 digits = some id) :
    (∃ b rest, digits = b :: rest ∧ ¬isWhitespace b) ∧ ∀ b ∈ digits, isNumeric b := by
  obtain ⟨sign, ds, rfl, hsign, ne, all, -⟩ := parseI64_cases h
  have numeric : ∀ b ∈ sign ++ ds, isNumeric b := by
    refine List.forall_mem_append.mpr ⟨?_, fun b hb => by simp [isNumeric, all b hb]⟩
    rcases hsign with rfl | rfl | rfl
    · exact List.forall_mem_nil _
    · exact List.forall_mem_singleton.mpr rfl
    · exact List.forall_mem_singleton.mpr rfl
  refine ⟨?_, numeric⟩
  obtain ⟨b, rest, eq⟩ := List.exists_cons_of_ne_nil (List.append_ne_nil_of_right_ne_nil sign ne)
  refine ⟨b, rest, eq, fun space => ?_⟩
  have := numeric b (eq ▸ List.mem_cons_self)
  simp only [isWhitespace, Bool.or_eq_true, decide_eq_true_eq] at space
  rcases space with ((rfl | rfl) | rfl) | rfl <;> cases this

/-- It is an object, with the id first. -/
theorem leading_number (value : Value text) (h : leading text = some id) : ∃ n : Number, ∃ rest, n.Formed ∧ parseI64 n.bytes = some id ∧
    Denotes text (.object ((UPDATE_ID, .number n.bytes) :: rest)) := by
  obtain ⟨digits, stop, tail, rfl, stops, read⟩ := leading_text h
  obtain ⟨⟨b, more, begins, solid⟩, numeric⟩ := parseI64_begins read
  obtain ⟨doc, denotes⟩ := value.denotes
  -- it is an object
  obtain ⟨members, rfl⟩ : ∃ members, doc = .object members := by
    obtain ⟨c, rest, eq, isKind⟩ := denotes.begins
    obtain rfl := (List.cons.inj eq).1
    cases doc with
    | object members => exact ⟨members, rfl⟩
    | _ => cases isKind
  obtain ⟨body, l, whole, listed, rfl, formed, values⟩ := denotes.of_object
  rcases listed with ⟨rfl, spaced⟩ | ⟨ne, rfl⟩
  · -- an empty one has no quote
    have second := (List.cons.inj whole).2
    cases body with
    | nil => cases (List.cons.inj second).1
    | cons c body =>
      obtain rfl := (List.cons.inj second).1
      exact absurd (spaced _ List.mem_cons_self) (by decide)
  · obtain ⟨⟨m, idDoc⟩, l, rfl⟩ := List.exists_cons_of_ne_nil ne
    obtain ⟨⟨keySpaced, chars⟩, spaced⟩ := formed _ List.mem_cons_self
    have idDenotes := values _ List.mem_cons_self
    dsimp only at keySpaced chars spaced idDenotes
    obtain ⟨c, after, last, sep⟩ : ∃ c after, (l.map (·.1)).flatMap (comma :: ·.bytes) ++ [125] = c :: after ∧
        JsonText.Separates 125 c := by
      cases l with
      | nil => exact ⟨125, [], rfl, .inr rfl⟩
      | cons next l => exact ⟨comma, _, rfl, .inl rfl⟩
    have shape : LEADING ++ (digits ++ stop :: tail) =
        JsonText.beforeMember [] m ++ m.value.value ++ JsonText.afterMember m (l.map (·.1)) := by
      rw [whole, ← JsonText.object_eq, JsonText.object, List.nil_append, List.map_cons, List.map_cons, List.map_map]
      rfl
    rw [JsonText.beforeMember, JsonText.afterMember, List.append_assoc m.value.after, last] at shape
    simp only [LEADING, quoted, List.flatMap_nil, List.append_assoc, List.cons_append, List.nil_append] at shape
    have solidCons {c : UInt8} (hc : ¬isWhitespace c) (rest : Str) : ∀ b, (c :: rest).head? = some b → ¬isWhitespace b :=
      fun _ => JsonText.not_space_cons hc _
    have solidQuote : ¬isWhitespace quote := by decide
    have solidColon : ¬isWhitespace colon := by decide
    have fromKey := JsonText.spaces_nil keySpaced.1 (solidCons solidQuote _) (solidCons solidQuote _) (List.cons.inj shape).2
    have idChars : Chars UPDATE_ID := .of_plain (List.all_iff_forall_prop.mp (by decide))
    obtain ⟨key, fromAfter⟩ := idChars.unique chars (List.cons.inj fromKey).2
    have fromColon := JsonText.spaces_nil keySpaced.2 (solidCons solidColon _) (solidCons solidColon _) fromAfter
    have fromValue := JsonText.spaces_nil spaced.1 (begins ▸ solidCons solid _) idDenotes.not_space (List.cons.inj fromColon).2
    -- the value begins as the integer does, so it is a number, and goes on as long
    obtain ⟨t, rfl⟩ : ∃ t, idDoc = .number t := by
      obtain ⟨b', rest, eq, isKind⟩ := idDenotes.begins
      rw [eq, begins] at fromValue
      obtain rfl := (List.cons.inj fromValue).1
      have isNumber := JsonText.kindOf_numeric (numeric b (begins ▸ List.mem_cons_self)) isKind
      cases idDoc with
      | number t => exact ⟨t, rfl⟩
      | _ => cases isNumber
    obtain ⟨n, numberFormed, same, rfl⟩ := idDenotes.of_number
    have follows : Follows (m.value.after ++ c :: after) := JsonText.follows_spaced spaced.2 (.inr rfl) sep
    obtain ⟨rfl, -⟩ := JsonText.run_unique (p := (isNumeric ·)) numeric (same ▸ numberFormed.numeric)
      (by rcases stops with rfl | rfl <;> intro c hc <;> obtain rfl := Option.some.inj hc <;> decide)
      (JsonText.not_isNumeric_of_follows follows) fromValue
    refine ⟨n, l.map fun m => (m.1.key.value, m.2), numberFormed, same ▸ read, ?_⟩
    rw [key]
    exact denotes

end

section
variable {serde : SerdeJson} {text body : Str} {id : Int64} {raws : List Slice} {updates : List (Int64 × Slice)}

/-! ### Full parses -/

/-- Once the id is read, no other key may be `update_id`. -/
theorem visitMap_read (serde : UpdateFacts.Serde) (rest : List (Str × JsonDoc)) (id : Int64) (read : Option Int64) :
    UpdateId.visitMap serde rest (some id) = some read ↔
      read = some id ∧ ∀ m ∈ rest, ∃ name, serde.str m.1 = some name ∧ name ≠ UPDATE_ID := by
  induction rest with
  | nil =>
    rw [UpdateId.visitMap, Option.some.injEq]
    exact ⟨fun eq => ⟨eq.symm, nofun⟩, fun h => h.1.symm⟩
  | cons m rest ih =>
    rw [UpdateId.visitMap, List.forall_mem_cons]
    cases found : serde.str m.1 with
    | none => simp
    | some name =>
      simp only [Option.bind_eq_bind, Option.bind_some, Option.isSome_some, if_true, Option.some.injEq, exists_eq_left']
      by_cases again : name = UPDATE_ID
      · simp [again]
      · rw [if_neg again, ih]
        simp [again]

theorem str_updateId (documented : Documented serde) : serde.str UPDATE_ID = some UPDATE_ID :=
  documented.str UPDATE_ID (.of_plain (List.all_iff_forall_prop.mp (by decide))) ⟨_, rfl⟩ (by decide)

/-- Of a text that an id is read from, a full parse gives that id or none. -/
theorem reads_leading (documented : Documented serde) (value : Value text) (h : leading text = some id) (read : Int64) :
    Reads serde.toSerde text read ↔ read = id ∧ ¬Hidden serde.toSerde text := by
  obtain ⟨n, rest, formed, parsed, denotes⟩ := leading_number value h
  obtain ⟨fraction, exponent, size, integer⟩ := parseI64_number formed parsed
  have first : i64 serde.toSerde (.number n.bytes) = if n.bytes = [45, 48] then none else some id := by
    rw [i64, documented.number n formed fraction exponent size]
    exact integer
  have hidden : Hidden serde.toSerde text ↔ n.bytes = [45, 48] ∨ ∃ m ∈ rest, ∀ name, serde.str m.1 = some name → name = UPDATE_ID := by
    constructor
    · rintro ⟨-, value, rest', denotes', bad⟩
      obtain ⟨⟨-, rfl⟩, rfl⟩ : ((UPDATE_ID = UPDATE_ID) ∧ .number n.bytes = value) ∧ rest = rest' := by
        simpa using denotes.unique denotes'
      simpa using bad
    · intro bad
      exact ⟨by rw [h]; rfl, _, rest, denotes, by simpa using bad⟩
  have whole : Reads serde.toSerde text read ↔
      UpdateId.deserialize serde.toSerde (.object ((UPDATE_ID, .number n.bytes) :: rest)) = some read := by
    constructor
    · rintro ⟨doc, denotes', reads⟩
      rwa [denotes.unique denotes']
    · exact fun reads => ⟨_, denotes, reads⟩
  rw [whole, hidden, UpdateId.deserialize, UpdateId.visitMap, str_updateId documented]
  simp only [Option.bind_eq_bind, Option.bind_some, if_true, Option.isSome_none, Bool.false_eq_true, if_false, first]
  by_cases zero : n.bytes = [45, 48]
  · simp [zero]
  · rw [if_neg zero, Option.bind_some, Option.join_eq_some_iff, visitMap_read, Option.some.injEq, or_iff_right zero]
    push Not
    rfl

/-! ### The elements of a body -/

theorem slice_of (front text back : Str) : Slice.of ⟨front.length, text.length⟩ (front ++ text ++ back) = text := by
  rw [Slice.of, List.append_assoc, List.drop_left, List.take_left]

theorem slices_of (elements : List Padded) : ∀ front back : Str,
    (slices front.length elements).map (·.of (front ++ List.intercalate [comma] (elements.map Padded.bytes) ++ back)) =
      elements.map (·.value) := by
  induction elements with
  | nil => exact fun _ _ => rfl
  | cons e elements ih =>
    intro front back
    obtain ⟨tail, first⟩ : ∃ tail, List.intercalate [comma] ((e :: elements).map Padded.bytes) = e.bytes ++ tail := by
      cases elements with
      | nil => exact ⟨[], by simp⟩
      | cons next elements => exact ⟨_, by rw [List.map_cons, List.map_cons, List.intercalate_cons_cons, List.append_assoc]⟩
    have here : Slice.of ⟨front.length + e.before.length, e.value.length⟩
        (front ++ List.intercalate [comma] ((e :: elements).map Padded.bytes) ++ back) = e.value := by
      have := slice_of (front ++ e.before) e.value (e.after ++ (tail ++ back))
      rw [List.length_append] at this
      rw [first, Padded.bytes]
      simpa only [List.append_assoc] using this
    refine List.cons_eq_cons.mpr ⟨here, ?_⟩
    cases elements with
    | nil => rfl
    | cons next elements =>
      have := ih (front ++ e.bytes ++ [comma]) back
      rw [List.length_append, List.length_append, List.length_singleton] at this
      rw [List.map_cons (f := Padded.bytes), List.map_cons (f := Padded.bytes), List.intercalate_cons_cons]
      simpa only [List.append_assoc, List.map_cons] using this

/-- An element is a value of its own. -/
theorem Elements.value (h : Elements body raws) : ∀ raw ∈ raws, Value (raw.of body) ∧ Utf8.Valid (raw.of body) := by
  cases h with
  | empty => nofun
  | @mk p before after elements text spaced result each =>
    intro raw mem
    have whole : body = (p.before ++ before ++ [91]) ++ List.intercalate [comma] (elements.map Padded.bytes) ++
        ([93] ++ after ++ p.after) := by
      rw [text, Padded.bytes, result.split, JsonText.array]
      simp only [List.append_assoc, List.cons_append, List.nil_append]
    have all := slices_of elements (p.before ++ before ++ [91]) ([93] ++ after ++ p.after)
    rw [← whole, List.length_append, List.length_append, List.length_singleton] at all
    obtain ⟨e, he, eq⟩ := List.mem_map.mp (all ▸ List.mem_map_of_mem mem : raw.of body ∈ elements.map (·.value))
    rw [← eq]
    exact (each e he).2

theorem mapM_ok_iff {α β ε : Type} {f : α → Except ε β} {l : List α} {out : List β} :
    l.mapM f = .ok out ↔ List.Forall₂ (fun a b => f a = .ok b) l out := by
  induction l generalizing out with
  | nil =>
    rw [List.mapM_nil, List.forall₂_nil_left_iff]
    exact ⟨fun h => (Except.ok.inj h).symm, fun h => by rw [h]; rfl⟩
  | cons a l ih =>
    rw [List.mapM_cons, List.forall₂_cons_left_iff]
    constructor
    · intro h
      cases here : f a with
      | error err =>
        rw [here] at h
        cases h
      | ok b =>
        cases rest : l.mapM f with
        | error err =>
          rw [here, rest] at h
          cases h
        | ok bs =>
          rw [here, rest] at h
          exact ⟨b, bs, rfl, ih.mp rest, (Except.ok.inj h).symm⟩
    · rintro ⟨b, bs, here, rest, rfl⟩
      rw [here, ih.mpr rest]
      rfl

/-- What is read of an element, if no id is read from its beginning, is what a full parse gives. -/
theorem updateId_plain (documented : Documented serde) (value : Value text) (valid : Utf8.Valid text) (plain : leading text = none) :
    updateId serde text = .ok id ↔ Reads serde.toSerde text id := by
  obtain ⟨doc, denotes⟩ := value.denotes
  have full := documented.updateId text doc valid denotes
  have reads : Reads serde.toSerde text id ↔ (serde.updateId text).toOption = some id := by
    rw [full]
    exact ⟨fun ⟨_, denotes', reads⟩ => denotes.unique denotes' ▸ reads, fun reads => ⟨doc, denotes, reads⟩⟩
  rw [reads, updateId, plain]
  cases serde.updateId text <;> simp [Except.mapError, Except.toOption]

theorem forall₂_left {α β : Type} {R : α → β → Prop} {l : List α} {out : List β} (h : List.Forall₂ R l out) : ∀ a ∈ l, ∃ b, R a b := by
  induction h with
  | nil => nofun
  | cons here _ ih => exact List.forall_mem_cons.mpr ⟨⟨_, here⟩, ih⟩

theorem forall₂_congr {α β : Type} {R S : α → β → Prop} {l : List α} {out : List β} (h : ∀ a ∈ l, ∀ b, R a b ↔ S a b) :
    List.Forall₂ R l out ↔ List.Forall₂ S l out := by
  induction l generalizing out with
  | nil => rw [List.forall₂_nil_left_iff, List.forall₂_nil_left_iff]
  | cons a l ih =>
    obtain ⟨here, rest⟩ := List.forall_mem_cons.mp h
    simp only [List.forall₂_cons_left_iff, here, ih rest]

theorem parseResult_elements (documented : Documented serde) (h : parseResult serde body = .ok raws) : Elements body raws := by
  unfold parseResult at h
  cases found : serde.envelope body with
  | error err =>
    rw [found] at h
    cases h
  | ok envelope =>
    rw [found] at h
    dsimp only at h
    split at h
    · cases h
    · cases result : envelope.result with
      | none =>
        rw [result] at h
        cases h
      | some raws' =>
        rw [result] at h
        obtain rfl := Except.ok.inj h
        exact documented.envelope body envelope raws' found result

theorem splitUpdates_ok_iff : splitUpdates serde body = .ok updates ↔ ∃ raws, parseResult serde body = .ok raws ∧
    List.Forall₂ (fun raw update => update.2 = raw ∧ updateId serde (raw.of body) = .ok update.1) raws updates := by
  have each (raw : Slice) (update : Int64 × Slice) :
      ((do return (← updateId serde (raw.of body), raw)) : Except LongPoll.ApiError (Int64 × Slice)) = .ok update ↔
        update.2 = raw ∧ updateId serde (raw.of body) = .ok update.1 := by
    obtain ⟨id, slice⟩ := update
    cases updateId serde (raw.of body) with
    | error err => exact ⟨nofun, fun h => nomatch h.2⟩
    | ok id' =>
      change Except.ok (id', raw) = Except.ok (id, slice) ↔ slice = raw ∧ Except.ok id' = Except.ok id
      rw [Except.ok.injEq, Except.ok.injEq, Prod.mk.injEq, and_comm, eq_comm]
  unfold splitUpdates
  cases parseResult serde body with
  | error err => exact ⟨nofun, fun ⟨_, h, _⟩ => nomatch h⟩
  | ok raws =>
    change raws.mapM _ = Except.ok updates ↔ _
    rw [mapM_ok_iff]
    simp only [each, Except.ok.injEq, exists_eq_left']

/-- A body is split as a full parse of its elements would if and only if that takes every element that an id is read from the
    beginning of, or fails at one that no id is read from so. -/
theorem splitUpdates_agrees_iff (documented : Documented serde) (body : Str) : Agrees serde body ↔
    ∀ raws, parseResult serde body = .ok raws → (∃ raw ∈ raws, Hidden serde.toSerde (raw.of body)) →
      ∃ raw ∈ raws, leading (raw.of body) = none ∧ ¬∃ id, Reads serde.toSerde (raw.of body) id := by
  constructor
  · rintro agrees raws result ⟨raw, mem, hidden⟩
    by_contra none
    have elements := parseResult_elements documented result
    -- then an id is read of each
    have each : ∀ raw ∈ raws, ∃ id, updateId serde (raw.of body) = .ok id := by
      intro raw mem
      obtain ⟨value, valid⟩ := elements.value raw mem
      cases leads : leading (raw.of body) with
      | none =>
        by_contra unread
        refine none ⟨raw, mem, leads, fun ⟨id, reads⟩ => unread ⟨id, ?_⟩⟩
        exact (updateId_plain documented value valid leads).mpr reads
      | some id => exact ⟨id, by rw [updateId, leads]⟩
    obtain ⟨pairs, rfl, ids⟩ := JsonText.exists_pairs each
    have split : splitUpdates serde body = .ok (pairs.map Prod.swap) := by
      refine splitUpdates_ok_iff.mpr ⟨_, result, ?_⟩
      rw [List.forall₂_map_left_iff, List.forall₂_map_right_iff, List.forall₂_same]
      exact fun pair hpair => ⟨rfl, ids pair hpair⟩
    obtain ⟨raws', result', -, plain⟩ := (agrees _).mp split
    obtain rfl := Except.ok.inj (result.symm.trans result')
    obtain ⟨⟨id, _⟩, -, reads⟩ := forall₂_left plain raw mem
    obtain ⟨first, leads⟩ := Option.isSome_iff_exists.mp hidden.1
    exact ((reads_leading documented (elements.value raw mem).1 leads id).mp reads).2 hidden
  · intro condition updates
    rw [splitUpdates_ok_iff]
    -- element by element, the two give the same
    have same (raws : List Slice) (result : parseResult serde body = .ok raws) :
        List.Forall₂ (fun raw update => update.2 = raw ∧ updateId serde (raw.of body) = .ok update.1) raws updates ↔
          List.Forall₂ (fun raw update => update.2 = raw ∧ Reads serde.toSerde (raw.of body) update.1) raws updates := by
      have elements := parseResult_elements documented result
      have unread (raw : Slice) (mem : raw ∈ raws) (leads : leading (raw.of body) = none) (id : Int64) :=
        @updateId_plain serde (raw.of body) id documented (elements.value raw mem).1 (elements.value raw mem).2 leads
      by_cases some : ∃ raw ∈ raws, Hidden serde.toSerde (raw.of body)
      · obtain ⟨raw, mem, leads, fails⟩ := condition raws result some
        refine iff_of_false (fun split => ?_) fun plain => ?_
        · obtain ⟨update, -, read⟩ := forall₂_left split raw mem
          exact fails ⟨_, (unread raw mem leads update.1).mp read⟩
        · obtain ⟨update, -, read⟩ := forall₂_left plain raw mem
          exact fails ⟨_, read⟩
      · refine forall₂_congr fun raw mem update => and_congr_right' ?_
        cases leads : leading (raw.of body) with
        | none => exact unread raw mem leads update.1
        | some id =>
          rw [reads_leading documented (elements.value raw mem).1 leads, updateId, leads]
          have plain : ¬Hidden serde.toSerde (raw.of body) := fun hidden => some ⟨raw, mem, hidden⟩
          simp [plain, eq_comm]
    constructor
    · rintro ⟨raws, result, split⟩
      exact ⟨raws, result, parseResult_elements documented result, (same raws result).mp split⟩
    · rintro ⟨raws, result, -, plain⟩
      exact ⟨raws, result, (same raws result).mpr plain⟩

end

/-! ### An update with two ids -/

/-- Reads literals without escapes, and integers. -/
def plainSerde : UpdateFacts.Serde where
  str inner := if inner.contains backslash then none else some inner
  number
    | 45 :: digits => some (numOf { minus := true, int := digits, fraction := none, exponent := none })
    | digits => some (numOf { minus := false, int := digits, fraction := none, exponent := none })

def plainMember (key : Str) (value : Str) : Member where
  key := { before := [], value := key, after := [] }
  value := { before := [], value, after := [] }

/-- A body with one update. -/
def bodyOf (update : Str) : Str :=
  JsonText.object [plainMember (utf8 "ok") (utf8 "true"),
    plainMember (utf8 "result") (JsonText.array [{ before := [], value := update, after := [] }])]

/-- An update with the one id 5. -/
def oneId : Str := JsonText.object [plainMember UPDATE_ID [53]]

/-- An update with the id 5, then the id 6. -/
def twoIds : Str := JsonText.object [plainMember UPDATE_ID [53], plainMember UPDATE_ID [54]]

/-- Reads the two bodies, and all that the grammar allows as an update. -/
noncomputable def plainJson : SerdeJson where
  toSerde := plainSerde
  envelope body :=
    if body = bodyOf oneId ∨ body = bodyOf twoIds then
      .ok { ok := true, result := some [{ start := 21, len := body.length - 23 }], description := none, errorCode := none,
            parameters := none }
    else .error { category := .malformed, line := 1, column := 0 }
  updateId text :=
    match (JsonText.docOf text).bind (UpdateId.deserialize plainSerde) with
    | some id => .ok id
    | none => .error { category := .data, line := 1, column := 0 }

theorem number_digit {d : UInt8} (digit : isDigit d) : Denotes [d] (.number [d]) := by
  refine .number { minus := false, int := [d], fraction := none, exponent := none } ⟨⟨List.cons_ne_nil _ _, ?_⟩, ?_, nofun, nofun⟩
  · exact List.forall_mem_singleton.mpr digit
  · intro zero
    rw [Option.some.inj zero]

theorem plainMember_formed {key : Str} (value : Str) (chars : Chars key) : (plainMember key value).Formed :=
  ⟨⟨⟨nofun, nofun⟩, chars⟩, ⟨nofun, nofun⟩⟩

theorem ids_denote {digits : Str} (all : ∀ d ∈ digits, isDigit d) :
    Denotes (JsonText.object (digits.map fun d => plainMember UPDATE_ID [d]))
      (.object (digits.map fun d => (UPDATE_ID, .number [d]))) := by
  have whole := Denotes.object (digits.map fun d => (plainMember UPDATE_ID [d], JsonDoc.number [d]))
    (List.forall_mem_map.mpr fun d _ => plainMember_formed [d] (.of_plain (List.all_iff_forall_prop.mp (by decide))))
    (List.forall_mem_map.mpr fun d hd => number_digit (all d hd))
  rw [List.map_map, List.map_map] at whole
  exact whole

theorem oneId_denotes : Denotes oneId (.object [(UPDATE_ID, .number [53])]) := @ids_denote [53] (List.all_iff_forall_prop.mp (by decide))

theorem twoIds_denotes : Denotes twoIds (.object [(UPDATE_ID, .number [53]), (UPDATE_ID, .number [54])]) :=
  @ids_denote [53, 54] (List.all_iff_forall_prop.mp (by decide))

theorem bodyOf_length (update : Str) : (bodyOf update).length = update.length + 23 := by
  have ok : (utf8 "ok").length = 2 := rfl
  have result : (utf8 "result").length = 6 := rfl
  have yes : (utf8 "true").length = 4 := rfl
  simp only [bodyOf, plainMember, JsonText.object, JsonText.array, Member.bytes, Padded.bytes, quoted, List.map_cons, List.map_nil,
    List.intercalate_cons_cons, List.intercalate_singleton, List.length_append, List.length_cons, List.length_nil, ok, result, yes]
  omega

theorem bodyOf_elements {update : Str} (value : Value update) (valid : Utf8.Valid update) :
    Elements (bodyOf update) [{ start := 21, len := (bodyOf update).length - 23 }] := by
  have okChars : Chars (utf8 "ok") := .of_plain (List.all_iff_forall_prop.mp (by decide))
  have resultChars : Chars (utf8 "result") := .of_plain (List.all_iff_forall_prop.mp (by decide))
  have resultStands : JsonText.Stands (utf8 "result") (utf8 "result") :=
    LocalFiles.stands_plain (List.all_iff_forall_prop.mp (by decide))
  have okStands : ¬JsonText.Stands (utf8 "ok") (utf8 "result") := fun stands =>
    absurd (stands.eq_of_plain (by decide)) (by decide)
  have spaced : Padded.Spaced { before := [], value := update, after := [] } := ⟨nofun, nofun⟩
  have arrayValue : Value (JsonText.array [{ before := [], value := update, after := [] }]) :=
    .array _ (List.forall_mem_singleton.mpr spaced) (List.forall_mem_singleton.mpr value)
  have result := @JsonText.Field.member FIELDS (utf8 "result") [plainMember (utf8 "ok") (utf8 "true")] []
    (plainMember (utf8 "result") (JsonText.array [{ before := [], value := update, after := [] }]))
    (List.forall_mem_cons.mpr ⟨plainMember_formed _ okChars, List.forall_mem_singleton.mpr (plainMember_formed _ resultChars)⟩)
    (List.forall_mem_cons.mpr ⟨.word (by decide), List.forall_mem_singleton.mpr arrayValue⟩)
    resultStands (List.forall_mem_singleton.mpr okStands)
  have elements : Elements (bodyOf update) _ := .mk (p := { before := [], value := bodyOf update, after := [] })
    [{ before := [], value := update, after := [] }] (List.append_nil _).symm ⟨nofun, nofun⟩ result
    (List.forall_mem_singleton.mpr ⟨spaced, value, valid⟩)
  have length : (bodyOf update).length - 23 = update.length := by
    rw [bodyOf_length, Nat.add_sub_cancel]
  rw [length]
  exact elements

theorem plainJson_documented : Documented plainJson where
  envelope := by
    intro body envelope raws read result
    dsimp only [plainJson] at read
    split at read
    · rename_i sample
      obtain rfl := Except.ok.inj read
      obtain rfl := Option.some.inj result
      rcases sample with rfl | rfl
      · exact bodyOf_elements oneId_denotes.value (.of_ascii (List.all_iff_forall_prop.mp (by decide)))
      · exact bodyOf_elements twoIds_denotes.value (.of_ascii (List.all_iff_forall_prop.mp (by decide)))
    · cases read
  updateId := by
    intro text doc _ denotes
    dsimp only [plainJson]
    rw [denotes.docOf, Option.bind_some]
    cases UpdateId.deserialize plainSerde doc <;> rfl
  str inner _ _ noEscape := if_neg (by simpa using noEscape)
  number := by
    intro n formed fraction exponent _
    obtain ⟨d, ds, int⟩ := List.exists_cons_of_ne_nil formed.int.1
    have digit : isDigit d := formed.int.2 d (int ▸ List.mem_cons_self)
    obtain ⟨minus, digits, _, _⟩ := n
    dsimp only at fraction exponent int
    subst fraction exponent int
    cases minus with
    | true =>
      rw [show Number.bytes _ = 45 :: (d :: ds) ++ [] ++ [] from rfl, List.append_nil, List.append_nil]
      rfl
    | false =>
      rw [show Number.bytes _ = d :: ds ++ [] ++ [] from rfl, List.append_nil, List.append_nil]
      have other : d ≠ 45 := by
        rintro rfl
        cases digit
      dsimp only [plainJson, plainSerde]
      split
      · rename_i same
        exact absurd (List.cons.inj same).1 other
      · rfl

theorem parseResult_plainJson {body : Str} (sample : body = bodyOf oneId ∨ body = bodyOf twoIds) :
    parseResult plainJson body = .ok [{ start := 21, len := body.length - 23 }] := by
  rw [parseResult, show plainJson.envelope body = _ from if_pos sample]
  rfl

/-- Of an update with two ids, the first is taken, and a full parse takes none. -/
theorem splitUpdates_twoIds : ¬∀ serde, Documented serde → ∀ body, Agrees serde body := by
  intro agrees
  have result := parseResult_plainJson (.inr rfl : bodyOf twoIds = bodyOf oneId ∨ _)
  have update : Slice.of { start := 21, len := (bodyOf twoIds).length - 23 } (bodyOf twoIds) = twoIds := by decide
  have leads : leading twoIds = some 5 := by decide
  have split : splitUpdates plainJson (bodyOf twoIds) = .ok [(5, { start := 21, len := (bodyOf twoIds).length - 23 })] :=
    splitUpdates_ok_iff.mpr ⟨_, result, .cons ⟨rfl, by rw [update, updateId, leads]⟩ .nil⟩
  obtain ⟨raws, result', -, plain⟩ := (agrees plainJson plainJson_documented (bodyOf twoIds) _).mp split
  obtain rfl := Except.ok.inj (result.symm.trans result')
  obtain ⟨⟨id, _⟩, -, doc, denotes, reads⟩ := forall₂_left plain _ List.mem_cons_self
  rw [update] at denotes
  obtain rfl := denotes.unique twoIds_denotes
  cases reads

/-- An update with one id is taken on both paths. -/
theorem agrees_oneId : Agrees plainJson (bodyOf oneId) := by
  refine (splitUpdates_agrees_iff plainJson_documented (bodyOf oneId)).mpr ?_
  have result := parseResult_plainJson (.inl rfl : bodyOf oneId = bodyOf oneId ∨ _)
  have update : Slice.of { start := 21, len := (bodyOf oneId).length - 23 } (bodyOf oneId) = oneId := by decide
  rintro raws result' ⟨raw, mem, -, value, rest, denotes, bad⟩
  obtain rfl := Except.ok.inj (result.symm.trans result')
  obtain rfl := List.mem_singleton.mp mem
  rw [update] at denotes
  have same := denotes.unique oneId_denotes
  rw [JsonDoc.object.injEq, List.cons.injEq, Prod.mk.injEq] at same
  obtain ⟨⟨-, rfl⟩, rfl⟩ := same
  rcases bad with zero | ⟨_, none, -⟩
  · cases zero
  · cases none

end Tgin.Client
