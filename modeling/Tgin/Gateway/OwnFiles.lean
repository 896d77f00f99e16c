import Tgin.Gateway.Files

/-! Which files a bot gets at: of a `getFile` answer only a path under the bot's own directory is made relative, and only that of
    the answer changes; of a file origin it is asked for plain paths only, and for what was asked of the gateway. -/

namespace Tgin.Gateway
open Rules
open LocalFiles (Bytes fromUtf8 percentDecode percentEscape)
open JsonText (Chars Denotes Field Hole Padded Parses Stands quoted)

/-! ### The bot's own paths -/

theorem strip_eq_some {start text rest : Str} : strip start text = some rest ↔ text = start ++ rest := by
  unfold strip
  split
  · rename_i h
    obtain ⟨tail, rfl⟩ := List.isPrefixOf_iff_prefix.mp h
    rw [List.drop_left, Option.some.injEq, List.append_cancel_left_eq]
  · rename_i h
    refine iff_of_false nofun ?_
    rintro rfl
    exact h (List.isPrefixOf_iff_prefix.mpr (List.prefix_append ..))

/-- The text has the needle at the first place there is. -/
theorem find_first {needle text : Str} {place : Nat} (h : find needle text = some place) :
    (∃ before after, text = before ++ needle ++ after ∧ before.length = place) ∧
      ∀ before after, text = before ++ needle ++ after → place ≤ before.length := by
  induction text generalizing place with
  | nil =>
    unfold find at h
    split at h
    · rename_i empty
      cases h
      exact ⟨⟨[], [], by rw [empty]; rfl, rfl⟩, fun _ _ _ => Nat.zero_le _⟩
    · cases h
  | cons b text ih =>
    unfold find at h
    split at h
    · rename_i here
      cases h
      obtain ⟨after, same⟩ := List.isPrefixOf_iff_prefix.mp here
      exact ⟨⟨[], after, same.symm, rfl⟩, fun _ _ _ => Nat.zero_le _⟩
    · rename_i absent
      obtain ⟨n, found, rfl⟩ := Option.map_eq_some_iff.mp h
      obtain ⟨⟨before, after, same, len⟩, least⟩ := ih found
      refine ⟨⟨b :: before, after, by rw [same]; rfl, by rw [List.length_cons, len]⟩, fun before after same => ?_⟩
      cases before with
      | nil => exact absurd (List.isPrefixOf_iff_prefix.mpr ⟨after, same.symm⟩) absent
      | cons b before => exact Nat.succ_le_succ (least before after (List.cons.inj same).2)

theorem find_some (needle before after : Str) : ∃ place, find needle (before ++ needle ++ after) = some place := by
  induction before with
  | nil =>
    cases needle with
    | nil => cases after <;> exact ⟨0, rfl⟩
    | cons b needle =>
      refine ⟨0, ?_⟩
      exact if_pos (List.isPrefixOf_iff_prefix.mpr ⟨after, rfl⟩)
  | cons b before ih =>
    obtain ⟨place, found⟩ := ih
    rw [List.cons_append, List.cons_append, find]
    split
    · exact ⟨0, rfl⟩
    · exact ⟨place + 1, by rw [found]; rfl⟩

/-- The least of the candidates is found. -/
theorem foldl_least {α γ : Type} (f : α → Option γ) (key : γ → Nat) (l : List α) {found : Option γ} {c : γ}
    (h : l.foldl (fun found a => (f a).elim found fun next =>
      if found.all fun first => key next < key first then some next else found) found = some c) :
    (found = some c ∨ ∃ a ∈ l, f a = some c) ∧ (∀ d ∈ found, key c ≤ key d) ∧ ∀ a ∈ l, ∀ d ∈ f a, key c ≤ key d := by
  induction l generalizing found with
  | nil => exact ⟨.inl h, by rintro d hd; cases h.symm.trans hd; exact Nat.le_refl _, nofun⟩
  | cons a l ih =>
    rw [List.foldl_cons] at h
    cases hf : f a with
    | none =>
      rw [hf, Option.elim_none] at h
      obtain ⟨source, first, rest⟩ := ih h
      refine ⟨source.imp_right fun ⟨a', ha', eq⟩ => ⟨a', List.mem_cons_of_mem _ ha', eq⟩, first, fun a' ha' d hd => ?_⟩
      rcases List.mem_cons.mp ha' with rfl | ha'
      · cases hf.symm.trans hd
      · exact rest a' ha' d hd
    | some next =>
      rw [hf, Option.elim_some] at h
      by_cases before : found.all fun first => key next < key first
      · rw [if_pos before] at h
        obtain ⟨source, first, rest⟩ := ih h
        have le : key c ≤ key next := first next rfl
        refine ⟨.inr ?_, fun d hd => ?_, fun a' ha' d hd => ?_⟩
        · rcases source with same | ⟨a', ha', eq⟩
          · exact ⟨a, List.mem_cons_self, hf.trans same⟩
          · exact ⟨a', List.mem_cons_of_mem _ ha', eq⟩
        · rw [Option.mem_def.mp hd] at before
          exact le.trans (Nat.le_of_lt (of_decide_eq_true before))
        · rcases List.mem_cons.mp ha' with rfl | ha'
          · cases hf.symm.trans hd
            exact le
          · exact rest a' ha' d hd
      · rw [if_neg before] at h
        obtain ⟨source, first, rest⟩ := ih h
        refine ⟨source.imp_right fun ⟨a', ha', eq⟩ => ⟨a', List.mem_cons_of_mem _ ha', eq⟩, first, fun a' ha' d hd => ?_⟩
        rcases List.mem_cons.mp ha' with rfl | ha'
        · cases hf.symm.trans hd
          cases found with
          | none => exact absurd rfl before
          | some d' => exact (first d' rfl).trans (Nat.le_of_not_lt fun lt => before (decide_eq_true lt))
        · exact rest a' ha' d hd

/-- A path has a directory of the bot with `token` between separators. -/
structure Occurs (path token before : Str) (sep : UInt8) (dir rest : Str) : Prop where
  own : dir ∈ Upstream.tokenDirs token
  separator : sep = slash ∨ sep = backslash
  split : path = before ++ sep :: dir ++ sep :: rest

/-- A directory of the bot after `before` counts: it is the server's root, or the path is absolute and the directory its first. -/
def Counts (path token before : Str) : Option Str → Prop
  | some root => before = trimmed root
  | none => absolute path ∧ ∀ before' sep' dir' rest', Occurs path token before' sep' dir' rest' → before.length ≤ before'.length

theorem candidate_eq_some {path dir rest : Str} {serverRoot : Option Str} {sep sep' : UInt8} {place : Nat} :
    candidate path serverRoot dir sep = some (place, rest, sep') ↔
      remainder path serverRoot dir sep = some (place, rest) ∧ rest ≠ [] ∧ sep' = sep := by
  unfold candidate
  rw [Option.map_eq_some_iff]
  constructor
  · rintro ⟨⟨_, _⟩, found, ⟨⟩⟩
    obtain ⟨found, ne⟩ := Option.filter_eq_some_iff.mp found
    exact ⟨found, of_decide_eq_true ne, rfl⟩
  · rintro ⟨found, ne, rfl⟩
    exact ⟨(place, rest), Option.filter_eq_some_iff.mpr ⟨found, decide_eq_true ne⟩, rfl⟩

theorem remainder_under {path root dir rest : Str} {sep : UInt8} {place : Nat}
    (h : remainder path (some root) dir sep = some (place, rest)) : path = trimmed root ++ sep :: dir ++ sep :: rest := by
  unfold remainder at h
  simp only [Option.bind_eq_bind, Option.bind_eq_some_iff, strip_eq_some] at h
  obtain ⟨_, rfl, _, rfl, _, rfl, rest', rfl, same⟩ := h
  cases same
  simp only [List.append_assoc, List.cons_append, List.nil_append]

theorem remainder_absolute {path dir rest : Str} {sep : UInt8} {place : Nat} (h : remainder path none dir sep = some (place, rest)) :
    absolute path ∧ (∃ before, path = before ++ sep :: dir ++ sep :: rest ∧ before.length = place) ∧
      ∀ before after, path = before ++ sep :: dir ++ sep :: after → place ≤ before.length := by
  unfold remainder at h
  dsimp only at h
  split at h
  · rename_i isAbsolute
    obtain ⟨n, found, same⟩ := Option.map_eq_some_iff.mp h
    obtain ⟨⟨before, after, split, len⟩, least⟩ := find_first found
    cases same
    refine ⟨isAbsolute, ⟨before, ?_, len⟩, fun before after split => least before after ?_⟩
    · rw [split, ← len, ← List.length_append, List.drop_left]
      simp only [List.append_assoc, List.cons_append, List.nil_append]
    · rw [split]
      simp only [List.append_assoc, List.cons_append, List.nil_append]
  · cases h

theorem length_tokenDir {token dir : Str} (h : dir ∈ Upstream.tokenDirs token) : dir.length = token.length := by
  simp only [Upstream.tokenDirs, List.mem_cons, List.not_mem_nil, or_false] at h
  rcases h with rfl | rfl
  · rfl
  · exact List.length_map _

/-- A relative path is made of a path that has a directory of the bot where the server keeps it, or the first one there is. -/
theorem ownRelative_spec {path token rel : Str} {serverRoot : Option Str} (h : ownRelative path token serverRoot = some rel) :
    ∃ before sep dir rest, Occurs path token before sep dir rest ∧ Counts path token before serverRoot ∧ rest ≠ [] ∧
      rel = slashed sep rest := by
  obtain ⟨⟨place, rest, sep⟩, found, rfl⟩ := Option.map_eq_some_iff.mp h
  obtain ⟨source, -, least⟩ := foldl_least (fun pair : Str × UInt8 => candidate path serverRoot pair.1 pair.2) (·.1) _ found
  obtain ⟨⟨dir, sep'⟩, mem, eq⟩ := source.resolve_left nofun
  obtain ⟨eq, ne, rfl⟩ := candidate_eq_some.mp eq
  have pair {dir : Str} {sep : UInt8} : (dir, sep) ∈ (Upstream.tokenDirs token).product [slash, backslash] ↔
      dir ∈ Upstream.tokenDirs token ∧ (sep = slash ∨ sep = backslash) := by
    rw [List.pair_mem_product, List.mem_cons, List.mem_singleton]
  obtain ⟨own, separator⟩ := pair.mp mem
  cases serverRoot with
  | some root => exact ⟨_, _, dir, rest, ⟨own, separator, remainder_under eq⟩, rfl, ne, rfl⟩
  | none =>
    obtain ⟨isAbsolute, ⟨before, split, len⟩, -⟩ := remainder_absolute eq
    refine ⟨before, _, dir, rest, ⟨own, separator, split⟩, ⟨isAbsolute, fun before' sep' dir' rest' occurs => ?_⟩, ne, rfl⟩
    obtain ⟨place', found'⟩ := find_some (sep' :: dir' ++ [sep']) before' rest'
    have eq' : remainder path none dir' sep' = some (place', path.drop (place' + (sep' :: dir' ++ [sep']).length)) := by
      have again : path = before' ++ (sep' :: dir' ++ [sep']) ++ rest' := by
        rw [occurs.split]
        simp only [List.append_assoc, List.cons_append, List.nil_append]
      unfold remainder
      dsimp only
      rw [if_pos isAbsolute, again, found']
      rfl
    obtain ⟨-, ⟨before'', split', len'⟩, first⟩ := remainder_absolute eq'
    have le := first before' rest' occurs.split
    rw [len]
    refine Nat.le_trans ?_ le
    by_cases empty : path.drop (place' + (sep' :: dir' ++ [sep']).length) = []
    · -- Then it ends the path, and what is found has something after it.
      rw [empty] at split'
      have total := congrArg List.length (split.symm.trans split')
      simp only [List.length_append, List.length_cons, List.length_nil, length_tokenDir own, length_tokenDir occurs.own] at total
      have := List.length_pos_iff.mpr ne
      omega
    · exact least (dir', sep') (pair.mpr ⟨occurs.own, occurs.separator⟩) _ (candidate_eq_some.mpr ⟨eq', empty, rfl⟩)

/-! ### `getFile` answers -/

theorem Slice.get_middle (before value after : Bytes) :
    Slice.get ⟨before.length, value.length⟩ (before ++ value ++ after) = some value := by
  have le : before.length + value.length ≤ (before ++ value ++ after).length := by
    rw [List.length_append, List.length_append]
    exact Nat.le_add_right ..
  rw [Slice.get, if_pos le, List.append_assoc, List.drop_left, List.take_left]

/-- What is put in the place of a value. -/
theorem splice_middle (before value after other : Bytes) :
    (before ++ value ++ after).take before.length ++ other ++ (before ++ value ++ after).drop (before.length + value.length) =
      before ++ other ++ after := by
  rw [← List.length_append, List.drop_left, List.append_assoc before, List.take_left]

/-- A body that has a literal in one place, and a file path of it, under the names a `getFile` answer has it under. -/
structure AnswerOf (body before inner after : Bytes) (hole : JsonDoc → JsonDoc) : Prop where
  split : body = before ++ quoted inner ++ after
  parses : Parses body (hole (.string inner))

/-- The hole of a `getFile` answer for its file path. -/
inductive PathHole : (JsonDoc → JsonDoc) → Prop where
  | mk {result path : JsonDoc → JsonDoc} (outer : Hole [OK, RESULT] RESULT result) (inner : Hole [FILE_PATH] FILE_PATH path) :
    PathHole fun doc => result (path doc)

/-- An answer is rewritten only if its path is the bot's own, and then nothing but the literal of the path. -/
theorem rewriteGetFile_spec {serde : Serde} (documented : serde.Documented) {body out : Bytes} {token : Str} {serverRoot : Option Str}
    (h : rewriteGetFile serde body token serverRoot = some out) :
    ∃ before inner inner' after hole path rel, PathHole hole ∧ AnswerOf body before inner after hole ∧ Stands inner path ∧
      ownRelative path token serverRoot = some rel ∧ AnswerOf out before inner' after hole ∧ Stands inner' rel := by
  unfold rewriteGetFile at h
  simp only [Option.bind_eq_bind, Option.bind_eq_some_iff] at h
  obtain ⟨⟨ok, result⟩, answer, h⟩ := h
  dsimp only at h
  split at h
  · cases h
  simp only [Option.bind_eq_some_iff] at h
  obtain ⟨slice, same, text, get, raw', file, raw, same', literal, get', path, string, rel, own, h⟩ := h
  cases same
  cases same'
  obtain ⟨p, before₁, val₁, after₁, spaced, rfl, field₁, rfl⟩ := documented.answer body ok slice answer
  -- `result` in the body, and `file_path` in `result`.
  have body_eq : p.bytes = (p.before ++ before₁) ++ val₁ ++ (after₁ ++ p.after) := by
    rw [Padded.bytes, field₁.split]
    simp only [List.append_assoc]
  rw [body_eq, ← List.length_append, Slice.get_middle] at get
  obtain rfl := Option.some.inj get
  obtain ⟨before₂, val₂, after₂, field₂, rfl⟩ := documented.file _ _ field₁.value file
  have text_eq := field₂.split
  rw [text_eq, Slice.get_middle] at get'
  obtain rfl := Option.some.inj get'
  obtain ⟨inner, rfl, chars, stands⟩ := documented.string _ _ field₂.value string
  obtain ⟨inner', encoded, chars', stands'⟩ := documented.toVec rel
  obtain ⟨hole₁, outer, plug₁⟩ := field₁.plug
  obtain ⟨hole₂, inner₂, plug₂⟩ := field₂.plug
  have answers {inner : Bytes} (chars : Chars inner) :
      AnswerOf (p.before ++ before₁ ++ before₂ ++ quoted inner ++ (after₂ ++ after₁ ++ p.after)) (p.before ++ before₁ ++ before₂) inner
        (after₂ ++ after₁ ++ p.after) fun doc => hole₁ (hole₂ doc) := by
    refine ⟨rfl, ⟨p.before, before₁ ++ (before₂ ++ quoted inner ++ after₂) ++ after₁, p.after⟩, spaced, ?_,
      plug₁ _ _ (plug₂ _ _ (.string chars))⟩
    rw [Padded.bytes]
    simp only [List.append_assoc]
  have whole : p.bytes = p.before ++ before₁ ++ before₂ ++ quoted inner ++ (after₂ ++ after₁ ++ p.after) := by
    rw [body_eq, text_eq]
    simp only [List.append_assoc]
  have written : out = p.before ++ before₁ ++ before₂ ++ quoted inner' ++ (after₂ ++ after₁ ++ p.after) := by
    split at h
    · cases h
    · rw [whole, ← List.length_append, ← List.length_append, splice_middle, encoded] at h
      exact (Option.some.inj h).symm
  exact ⟨_, inner, inner', _, _, path, rel, .mk outer inner₂, whole ▸ answers chars, stands, own, written ▸ answers chars', stands'⟩

/-! ### Paths asked for -/

theorem percentEscape_digits (b : UInt8) (rest : Bytes) : percentEscape (hexDigit (b >>> 4) :: hexDigit (b &&& 15) :: rest) = some b := by
  have digits : ∀ n : Fin 256, percentEscape [hexDigit (UInt8.ofNat n >>> 4), hexDigit (UInt8.ofNat n &&& 15)] = some (UInt8.ofNat n) := by
    decide +kernel
  have here := digits ⟨b.toNat, b.toNat_lt⟩
  rw [UInt8.ofNat_toNat] at here
  exact here

theorem percentDecode_encode (text rest : Bytes) :
    percentDecode (percentEncode text TOKEN_SEGMENT ++ rest) = text ++ percentDecode rest := by
  induction text with
  | nil => rfl
  | cons b text ih =>
    rw [percentEncode, List.flatMap_cons, List.append_assoc, ← percentEncode]
    by_cases encoded : TOKEN_SEGMENT b
    · rw [if_pos encoded]
      have escape := LocalFiles.percentDecode_escape (percentEscape_digits b (percentEncode text TOKEN_SEGMENT ++ rest))
      exact escape.trans (congrArg (b :: ·) ih)
    · rw [if_neg encoded]
      have plain : b ≠ LocalFiles.percentSign := by
        rintro rfl
        exact encoded (by decide)
      exact (LocalFiles.percentDecode_cons plain _).trans (congrArg (b :: ·) ih)

theorem percentDecode_joined (segments : List Bytes) :
    percentDecode (List.intercalate [slash] (segments.map (percentEncode · TOKEN_SEGMENT))) = List.intercalate [slash] segments := by
  have own (text : Bytes) : percentDecode (percentEncode text TOKEN_SEGMENT) = text := by
    have whole := percentDecode_encode text []
    rw [List.append_nil, percentDecode, List.append_nil] at whole
    exact whole
  induction segments with
  | nil => rw [List.map_nil, List.intercalate_nil, percentDecode]
  | cons first segments ih =>
    cases segments with
    | nil =>
      rw [List.map_singleton, List.intercalate_singleton, List.intercalate_singleton]
      exact own first
    | cons next segments =>
      rw [List.map_cons, List.map_cons, List.intercalate_cons_cons, List.intercalate_cons_cons, List.append_assoc, percentDecode_encode,
        List.singleton_append, LocalFiles.percentDecode_cons (by decide), List.append_assoc]
      exact congrArg (first ++ slash :: ·) ih

/-- A file origin is asked for what was asked of the gateway, and only for plain segments, two at least. -/
theorem originPath_spec {rel path : Str} (h : originPath rel = some path) :
    percentDecode path = percentDecode rel ∧ 2 ≤ ((percentDecode rel).splitOn slash).length ∧
      ∀ segment ∈ (percentDecode rel).splitOn slash, segment ≠ [] ∧ segment ≠ [dot] ∧ segment ≠ [dot, dot] := by
  obtain ⟨decoded, isChecked, rfl⟩ := Option.map_eq_some_iff.mp h
  unfold checked at isChecked
  simp only [Option.bind_eq_bind, Option.bind_eq_some_iff] at isChecked
  obtain ⟨text, utf8, isPlain⟩ := isChecked
  obtain rfl : text = percentDecode rel := by
    unfold fromUtf8 at utf8
    split at utf8
    · exact (Option.some.inj utf8).symm
    · cases utf8
  split at isPlain
  · rename_i plain
    cases isPlain
    simp only [Bool.and_eq_true, List.all_eq_true, decide_eq_true_eq, List.contains_iff_mem] at plain
    obtain ⟨⟨-, separated⟩, segments⟩ := plain
    refine ⟨?_, ?_, fun segment hs => ⟨(segments segment hs).1.1, (segments segment hs).1.2, (segments segment hs).2⟩⟩
    · rw [percentDecode_joined, List.intercalate_splitOn]
    · obtain ⟨before, after, eq⟩ := List.append_of_mem separated
      rw [eq, List.splitOn_append_cons_self, List.length_append]
      exact Nat.add_le_add (List.length_pos_iff.mpr (List.splitOn_ne_nil _ _)) (List.length_pos_iff.mpr (List.splitOn_ne_nil _ _))
  · cases isPlain

/-- A bot gets at its own files only: a path is made relative only when it is the server's root (without the separators it ends
    with), a separator, a directory of the bot, the same separator and something more, or an absolute path with such a directory in
    it, the first of which counts; of a `getFile` answer only that path changes; and a file origin gets the path asked for. -/
theorem files_own {serde : Serde} (documented : serde.Documented) :
    (∀ path token serverRoot rel, ownRelative path token serverRoot = some rel →
      ∃ before sep dir rest, Occurs path token before sep dir rest ∧ Counts path token before serverRoot ∧ rest ≠ [] ∧
        rel = slashed sep rest) ∧
    (∀ body token serverRoot out, rewriteGetFile serde body token serverRoot = some out →
      ∃ before inner inner' after hole path rel, PathHole hole ∧ AnswerOf body before inner after hole ∧ Stands inner path ∧
        ownRelative path token serverRoot = some rel ∧ AnswerOf out before inner' after hole ∧ Stands inner' rel) ∧
    ∀ rel path, originPath rel = some path →
      percentDecode path = percentDecode rel ∧ 2 ≤ ((percentDecode rel).splitOn slash).length ∧
        ∀ segment ∈ (percentDecode rel).splitOn slash, segment ≠ [] ∧ segment ≠ [dot] ∧ segment ≠ [dot, dot] :=
  ⟨fun _ _ _ _ => ownRelative_spec, fun _ _ _ _ => rewriteGetFile_spec documented, fun _ _ => originPath_spec⟩

/-! ### An answer -/

def lowerDigit (n : UInt8) : UInt8 := if n < 10 then 48 + n else 87 + n

/-- A byte in a string literal. -/
def literalByte (b : UInt8) : Bytes :=
  if b = JsonText.quote || b = JsonText.backslash then [JsonText.backslash, b]
  else if b < 32 then [JsonText.backslash, JsonText.letterU, 48, 48, lowerDigit (b >>> 4), lowerDigit (b &&& 15)]
  else [b]

/-- The string literal of a text. -/
def literalOf (s : Str) : Bytes := s.flatMap literalByte

theorem control_char (n : Fin 32) :
    literalByte (.ofNat n) = [JsonText.backslash, JsonText.letterU, 48, 48, lowerDigit (.ofNat (n / 16)), lowerDigit (.ofNat (n % 16))] ∧
      JsonText.hexDigit (lowerDigit (.ofNat (n / 16))) = some (n / 16 : Nat) ∧
      JsonText.hexDigit (lowerDigit (.ofNat (n % 16))) = some (n % 16 : Nat) ∧
      (Char.ofNat n).toNat = ((0 * 16 + 0) * 16 + n / 16) * 16 + n % 16 ∧ String.utf8EncodeChar (Char.ofNat n) = [.ofNat n] := by
  revert n
  decide

theorem literalOf_stands (s : Str) : Chars (literalOf s) ∧ Stands (literalOf s) s := by
  induction s with
  | nil => exact ⟨.nil, .nil⟩
  | cons b s ih =>
    obtain ⟨chars, stands⟩ := ih
    rw [literalOf, List.flatMap_cons]
    by_cases special : b = JsonText.quote || b = JsonText.backslash
    · have escape : JsonText.escape b = some b := by
        rw [JsonText.escape, if_pos]
        rw [special, Bool.true_or]
      rw [literalByte, if_pos special]
      exact ⟨.escape escape chars, .escape escape stands⟩
    · by_cases control : b < 32
      · obtain ⟨literal, first, second, char, encoded⟩ := control_char ⟨b.toNat, control⟩
        rw [UInt8.ofNat_toNat] at literal encoded
        have hex := JsonText.Hex.mk (show JsonText.hexDigit 48 = some 0 from rfl) (show JsonText.hexDigit 48 = some 0 from rfl) first second
        have whole := Stands.unicode hex _ char stands
        rw [encoded] at whole
        rw [literal]
        exact ⟨.unicode hex chars, whole⟩
      · rw [literalByte, if_neg special, if_neg control]
        simp only [Bool.or_eq_true, decide_eq_true_eq, not_or] at special
        exact ⟨.plain (UInt8.not_lt.mp control) special.1 special.2 chars, .plain special.1 special.2 stands⟩

/-- `{"ok":true,"result":{"file_path":"/t/1:a/f"}}`. -/
def pathMember : JsonText.Member := ⟨⟨[], FILE_PATH, []⟩, ⟨[], quoted [47, 116, 47, 49, 58, 97, 47, 102], []⟩⟩
def okMember : JsonText.Member := ⟨⟨[], OK, []⟩, ⟨[], [116, 114, 117, 101], []⟩⟩
def resultMember : JsonText.Member := ⟨⟨[], RESULT, []⟩, ⟨[], JsonText.object [pathMember], []⟩⟩
def answerBody : Bytes := JsonText.object [okMember, resultMember]

/-- A reader of that answer. -/
def reader : Serde where
  answer body := if body = answerBody then
    some (true, some ⟨(JsonText.beforeMember [okMember] resultMember).length, (JsonText.object [pathMember]).length⟩) else none
  file text := if text = JsonText.object [pathMember] then
    some (some ⟨(JsonText.beforeMember [] pathMember).length, pathMember.value.value.length⟩) else none
  string text := if text = quoted [47, 116, 47, 49, 58, 97, 47, 102] then some [47, 116, 47, 49, 58, 97, 47, 102] else none
  toVec s := quoted (literalOf s)

theorem plain_stands {s : Str} (h : literalOf s = s) : Chars s ∧ Stands s s := by
  have stands := literalOf_stands s
  rwa [h] at stands

theorem pathMember_field : Field [FILE_PATH] FILE_PATH (JsonText.object [pathMember]) (JsonText.beforeMember [] pathMember)
    pathMember.value.value (JsonText.afterMember pathMember []) := by
  have key : Chars FILE_PATH ∧ Stands FILE_PATH FILE_PATH := plain_stands (by decide)
  have value : Chars [47, 116, 47, 49, 58, 97, 47, 102] ∧ Stands [47, 116, 47, 49, 58, 97, 47, 102] [47, 116, 47, 49, 58, 97, 47, 102] :=
    plain_stands (by decide)
  refine .member [] [] pathMember ?_ ?_ key.2 nofun
  · exact List.forall_mem_singleton.mpr ⟨⟨⟨nofun, nofun⟩, key.1⟩, ⟨nofun, nofun⟩⟩
  · exact List.forall_mem_singleton.mpr (.string value.1)

theorem resultMember_field : Field [OK, RESULT] RESULT answerBody (JsonText.beforeMember [okMember] resultMember)
    resultMember.value.value (JsonText.afterMember resultMember []) := by
  have ok : Chars OK ∧ Stands OK OK := plain_stands (by decide)
  have result : Chars RESULT ∧ Stands RESULT RESULT := plain_stands (by decide)
  refine .member [okMember] [] resultMember ?_ ?_ result.2 ?_
  · exact List.forall_mem_cons.mpr ⟨⟨⟨⟨nofun, nofun⟩, ok.1⟩, ⟨nofun, nofun⟩⟩,
      List.forall_mem_singleton.mpr ⟨⟨⟨nofun, nofun⟩, result.1⟩, ⟨nofun, nofun⟩⟩⟩
  · refine List.forall_mem_cons.mpr ⟨.word (by decide), List.forall_mem_singleton.mpr ?_⟩
    refine .object [pathMember] (List.forall_mem_singleton.mpr ?_) (List.forall_mem_singleton.mpr pathMember_field.value)
    exact ⟨⟨⟨nofun, nofun⟩, (plain_stands (by decide)).1⟩, ⟨nofun, nofun⟩⟩
  · exact List.forall_mem_singleton.mpr fun stands => nomatch stands

theorem reader_documented : reader.Documented where
  answer text ok slice h := by
    unfold reader at h
    dsimp only at h
    split at h
    · rename_i same
      cases h
      exact ⟨⟨[], answerBody, []⟩, _, _, _, ⟨nofun, nofun⟩, by rw [same]; exact (List.append_nil _).symm, resultMember_field,
        by rw [List.length_nil, Nat.zero_add]; rfl⟩
    · cases h
  file text slice _ h := by
    unfold reader at h
    dsimp only at h
    split at h
    · rename_i same
      cases h
      exact ⟨_, _, _, same ▸ pathMember_field, rfl⟩
    · cases h
  string text s _ h := by
    unfold reader at h
    dsimp only at h
    split at h
    · rename_i same
      cases h
      exact ⟨_, same, plain_stands (by decide)⟩
    · cases h
  toVec s := ⟨literalOf s, rfl, literalOf_stands s⟩

/-- `{"ok":true,"result":{"file_path":"f"}}`. -/
def rewrittenBody : Bytes :=
  JsonText.object [okMember, ⟨⟨[], RESULT, []⟩, ⟨[], JsonText.object [⟨⟨[], FILE_PATH, []⟩, ⟨[], quoted [102], []⟩⟩], []⟩⟩]

theorem files_own_answer : ∃ before inner inner' after hole path rel, PathHole hole ∧ AnswerOf answerBody before inner after hole ∧
    Stands inner path ∧ ownRelative path [49, 58, 97] (some [47, 116]) = some rel ∧ AnswerOf rewrittenBody before inner' after hole ∧
    Stands inner' rel :=
  (files_own reader_documented).2.1 answerBody [49, 58, 97] (some [47, 116]) rewrittenBody (by decide)

/-- `/t/1:a/f` is under the root `/t/`, which it does not begin with a separator after. -/
theorem ownRelative_trailing : ¬∀ path token root rel, ownRelative path token (some root) = some rel →
    ∃ sep dir rest, Occurs path token root sep dir rest ∧ rest ≠ [] ∧ rel = slashed sep rest := by
  intro all
  obtain ⟨sep, dir, rest, occurs, -⟩ := all [47, 116, 47, 49, 58, 97, 47, 102] [49, 58, 97] [47, 116, 47] [102] (by decide)
  have third := congrArg (·[3]?) occurs.split
  rcases occurs.separator with rfl | rfl <;> cases third

end Tgin.Gateway
