import Mathlib.Data.List.Induction
import Mathlib.Tactic.Common
import Tgin.Lib.Kmp
import Tgin.LocalFiles

/-! The multipart delimiter of `gateway/local_files/http_reader.rs`, searched for byte by byte. -/

namespace Tgin.LocalFiles

/-- The longest multipart boundary the server takes. -/
abbrev MAX_BOUNDARY_LEN : Nat := 70

/-- `\r\n--` and the longest boundary. -/
abbrev MAX_DELIMITER_LEN : Nat := MAX_BOUNDARY_LEN + 4

structure Delimiter where
  pattern : Bytes
  /-- For each beginning of `pattern`, the length of the longest shorter one that is also its end. -/
  fail : List Nat
  len : Nat
  /-- Bytes of `pattern` the input ends with. -/
  matched : Nat
  deriving DecidableEq, Repr

namespace Delimiter

/-- The inner loop of `new`, `fuel` being how often it may go round. -/
def newFall (pattern : Bytes) (fail : List Nat) (b : UInt8) : Nat → Nat → Option Nat
  | 0, _ => none
  | fuel + 1, k => do
    if k = 0 then some k
    else if (← pattern[k]?) = b then some k
    else newFall pattern fail b fuel (← fail[k - 1]?)

/-- The table's next entry: `k` is the one before it. -/
def newStep (pattern : Bytes) (table : List Nat × Nat) (i : Nat) : Option (List Nat × Nat) := do
  let (fail, k) := table
  let b ← pattern[i]?
  let k ← newFall pattern fail b (k + 1) k
  let k := if (← pattern[k]?) = b then k + 1 else k
  if i < fail.length then some (fail.set i (min k 255), k) else none

/-- `start` then `boundary`, at most `MAX_DELIMITER_LEN` bytes. -/
def new (start boundary : Bytes) : Option Delimiter := do
  let len := start.length + boundary.length
  if MAX_DELIMITER_LEN < len then none
  else
    let pattern := start ++ boundary ++ List.replicate (MAX_DELIMITER_LEN - len) 0
    let (fail, _) ← (List.range' 1 (len - 1)).foldlM (newStep pattern) (List.replicate MAX_DELIMITER_LEN 0, 0)
    some { pattern, fail, len, matched := 0 }

/-- The loop of `step`, `content` being what it has handed on. -/
def stepLoop (b : UInt8) : Nat → Delimiter → Bytes → Option (Delimiter × Bytes × Bool)
  | 0, _, _ => none
  | fuel + 1, d, content => do
    if (← d.pattern[d.matched]?) = b then
      let matched := d.matched + 1
      if matched = d.len then some ({ d with matched := 0 }, content, true)
      else some ({ d with matched }, content, false)
    else if d.matched = 0 then some (d, content ++ [b], false)
    else
      let kept ← d.fail[d.matched - 1]?
      if kept ≤ d.matched ∧ d.matched - kept ≤ d.pattern.length then
        stepLoop b fuel { d with matched := kept } (content ++ d.pattern.take (d.matched - kept))
      else none

/-- Feeds `b`: the bytes now known to be content, and whether `b` completed the delimiter. -/
def step (d : Delimiter) (b : UInt8) : Option (Delimiter × Bytes × Bool) := stepLoop b (d.matched + 1) d []

/-- How many leading bytes of `data` cannot begin the delimiter while nothing of it is matched. -/
def skippable (d : Delimiter) (data : Bytes) : Nat :=
  if 0 < d.matched then 0 else (data.findIdx? fun b => d.pattern[0]? = some b).getD data.length

/-! ### Its table -/

/-- It searches for `word`. -/
structure Searches (d : Delimiter) (word : Bytes) : Prop where
  pattern : word <+: d.pattern
  fail : ∀ {k : Nat}, 0 < k → k ≤ word.length → ∃ f, d.fail[k - 1]? = some f ∧ Kmp.Longest word (word.take k).tail f
  len : d.len = word.length
  matched : d.matched < word.length

/-- The entries of a table up to the first `n`. -/
def Table (word : Bytes) (fail : List Nat) (n : Nat) : Prop :=
  ∀ {k : Nat}, 0 < k → k ≤ n → ∃ f, fail[k - 1]? = some f ∧ Kmp.Longest word (word.take k).tail f

theorem prefix_getElem? {word pattern : Bytes} (h : word <+: pattern) {i : Nat} (hi : i < word.length) :
    pattern[i]? = word[i]? := by
  obtain ⟨tail, rfl⟩ := h
  exact List.getElem?_append_left hi

theorem newFall_spec {word pattern : Bytes} (hp : word <+: pattern) {fail : List Nat} {n : Nat} (table : Table word fail n)
    {t : Bytes} {b : UInt8} (fuel : Nat) : ∀ {k : Nat}, Kmp.Candidate word t b k → k ≤ n → k < word.length → k < fuel →
      ∃ k', newFall pattern fail b fuel k = some k' ∧ Kmp.Candidate word t b k' ∧ k' < word.length ∧
        (k' = 0 ∨ word[k']? = some b) := by
  induction fuel with
  | zero => exact fun _ _ _ h => absurd h (Nat.not_lt_zero _)
  | succ fuel ih =>
    intro k cand hn hk hf
    rw [newFall]
    by_cases zero : k = 0
    · subst zero
      exact ⟨0, rfl, cand, hk, .inl rfl⟩
    · rw [if_neg zero, prefix_getElem? hp hk, List.getElem?_eq_getElem hk]
      change ∃ k', (if word[k] = b then some k else _) = some k' ∧ _
      by_cases hb : word[k] = b
      · exact ⟨k, if_pos hb, cand, hk, .inr ((List.getElem?_eq_getElem hk).trans (congrArg some hb))⟩
      · obtain ⟨f, hfail, longest⟩ := table (Nat.pos_of_ne_zero zero) hn
        have lt := longest.lt (Nat.pos_of_ne_zero zero)
        have miss : word[k]? ≠ some b := by
          rw [List.getElem?_eq_getElem hk]
          exact fun h => hb (Option.some.inj h)
        obtain ⟨k', h, rest⟩ := ih (cand.fall miss longest) (by omega) (by omega) (by omega)
        refine ⟨k', ?_, rest⟩
        rw [if_neg hb, hfail]
        exact h

theorem newStep_spec {word pattern : Bytes} (hp : word <+: pattern) (max : word.length ≤ MAX_DELIMITER_LEN) {fail : List Nat}
    (length : fail.length = MAX_DELIMITER_LEN) {k i : Nat} (hi : 0 < i) (lt : i < word.length) (table : Table word fail i)
    (last : Kmp.Longest word (word.take i).tail k) :
    ∃ fail' k', newStep pattern (fail, k) i = some (fail', k') ∧ fail'.length = MAX_DELIMITER_LEN ∧ Table word fail' (i + 1) ∧
      Kmp.Longest word (word.take (i + 1)).tail k' := by
  have hk : k < i := last.lt hi
  have next : (word.take (i + 1)).tail = (word.take i).tail ++ [word[i]] := by
    rw [List.take_add_one, List.getElem?_eq_getElem lt, Option.toList_some, List.tail_append_of_ne_nil]
    intro nil
    rw [List.take_eq_nil_iff] at nil
    rcases nil with rfl | rfl
    · exact absurd hi (Nat.lt_irrefl 0)
    · exact absurd lt (Nat.not_lt_zero _)
  obtain ⟨k', fall, cand, hk', stop⟩ :=
    newFall_spec hp table (k + 1) (last.candidate word[i]) (Nat.le_of_lt hk) (Nat.lt_trans hk lt) (Nat.lt_succ_self k)
  obtain ⟨k'', hk'', longest⟩ : ∃ k'', (if word[k'] = word[i] then k' + 1 else k') = k'' ∧
      Kmp.Longest word (word.take (i + 1)).tail k'' := by
    rw [next]
    by_cases hb : word[k'] = word[i]
    · exact ⟨_, if_pos hb, cand.hit ((List.getElem?_eq_getElem hk').trans (congrArg some hb))⟩
    · rcases stop with rfl | stop
      · refine ⟨0, if_neg hb, cand.miss ?_⟩
        rw [List.getElem?_eq_getElem hk']
        exact fun h => hb (Option.some.inj h)
      · rw [List.getElem?_eq_getElem hk'] at stop
        exact absurd (Option.some.inj stop) hb
  have max : word.length ≤ 74 := max
  have small : min k'' 255 = k'' := by
    have := longest.lt (Nat.succ_pos i)
    exact Nat.min_eq_left (by omega)
  have room : i < fail.length := by
    have length : fail.length = 74 := length
    omega
  refine ⟨fail.set i k'', k'', ?_, (List.length_set ..).trans length, fun {j} pos le => ?_, longest⟩
  · rw [newStep, prefix_getElem? hp lt, List.getElem?_eq_getElem lt]
    simp only [Option.bind_eq_bind, Option.bind_some, fall, prefix_getElem? hp hk', List.getElem?_eq_getElem hk', hk'', small,
      if_pos room]
  · rcases Nat.lt_or_eq_of_le le with lt' | rfl
    · obtain ⟨f, hf, longest'⟩ := table pos (Nat.lt_succ_iff.mp lt')
      exact ⟨f, (List.getElem?_set_ne (by omega)).trans hf, longest'⟩
    · exact ⟨k'', List.getElem?_set_self room, longest⟩

theorem foldlM_newStep {word pattern : Bytes} (hp : word <+: pattern) (max : word.length ≤ MAX_DELIMITER_LEN) (n : Nat) :
    ∀ {i : Nat} {fail : List Nat} {k : Nat}, fail.length = MAX_DELIMITER_LEN → 0 < i → i + n ≤ word.length → Table word fail i →
      Kmp.Longest word (word.take i).tail k →
      ∃ fail' k', (List.range' i n).foldlM (newStep pattern) (fail, k) = some (fail', k') ∧ Table word fail' (i + n) := by
  induction n with
  | zero => exact fun _ _ _ table _ => ⟨_, _, rfl, table⟩
  | succ n ih =>
    intro i fail k length pos le table last
    obtain ⟨fail', k', step, length', table', last'⟩ := newStep_spec hp max length pos (by omega) table last
    obtain ⟨fail'', k'', rest, table''⟩ := ih length' (Nat.succ_pos i) (by omega) table' last'
    refine ⟨fail'', k'', ?_, ?_⟩
    · rw [List.range'_succ, List.foldlM_cons, step]
      exact rest
    · rwa [Nat.succ_add_eq_add_succ] at table''

/-- A new delimiter searches for `start` then `boundary`. -/
theorem new_searches {start boundary : Bytes} (pos : 0 < start.length + boundary.length)
    (max : start.length + boundary.length ≤ MAX_DELIMITER_LEN) :
    ∃ d, new start boundary = some d ∧ d.Searches (start ++ boundary) ∧ d.matched = 0 := by
  have length : (start ++ boundary).length = start.length + boundary.length := List.length_append
  have hp : start ++ boundary <+: start ++ boundary ++ List.replicate (MAX_DELIMITER_LEN - (start.length + boundary.length)) 0 :=
    List.prefix_append ..
  have first : Kmp.Longest (start ++ boundary) ((start ++ boundary).take 1).tail 0 := by
    have : ((start ++ boundary).take 1).tail = [] := by
      rw [← List.length_eq_zero_iff, List.length_tail, List.length_take]
      omega
    rw [this]
    exact Kmp.longest_nil _
  have table : Table (start ++ boundary) (List.replicate MAX_DELIMITER_LEN 0) 1 := by
    intro k pos le
    obtain rfl : k = 1 := Nat.le_antisymm le pos
    exact ⟨0, rfl, first⟩
  obtain ⟨fail, k, fold, table⟩ := foldlM_newStep hp (length ▸ max) (start.length + boundary.length - 1) List.length_replicate Nat.one_pos
    (by omega) table first
  refine ⟨{ pattern := _, fail, len := start.length + boundary.length, matched := 0 }, ?_, ⟨hp, ?_, length.symm, ?_⟩, rfl⟩
  · rw [new, if_neg (Nat.not_lt.mpr max)]
    dsimp only
    rw [fold]
    rfl
  · intro k pos le
    exact table pos (by omega)
  · rwa [length]

theorem new_spec {start boundary : Bytes} (pos : 0 < start.length) (max : start.length + boundary.length ≤ MAX_DELIMITER_LEN) :
    ∃ d, new start boundary = some d ∧ d.Searches (start ++ boundary) ∧ d.matched = 0 :=
  new_searches (Nat.add_pos_left pos _) max

/-! ### Its search -/

/-- `text` has been read since the delimiter was last found, of which `out` is known to be content. -/
structure Reads (d : Delimiter) (word text out : Bytes) : Prop where
  searches : d.Searches word
  longest : Kmp.Longest word text d.matched
  content : out ++ word.take d.matched = text

/-- What `b` does: it completes the delimiter, or is read after the rest. -/
def Stepped (word text out : Bytes) (b : UInt8) : Delimiter × Bytes × Bool → Prop
  | (d, content, true) => d.Searches word ∧ d.matched = 0 ∧ word <:+ text ++ [b] ∧ out ++ content ++ word = text ++ [b]
  | (d, content, false) => ¬word <:+ text ++ [b] ∧ d.Reads word (text ++ [b]) (out ++ content)

theorem stepLoop_spec {word text out : Bytes} (b : UInt8) (fuel : Nat) : ∀ {d : Delimiter} {content : Bytes}, d.Searches word →
    Kmp.Candidate word text b d.matched → out ++ content ++ word.take d.matched = text → d.matched < fuel →
      ∃ stepped, stepLoop b fuel d content = some stepped ∧ Stepped word text out b stepped := by
  induction fuel with
  | zero => exact fun _ _ _ h => absurd h (Nat.not_lt_zero _)
  | succ fuel ih =>
    intro d content hd cand split lt
    have hk := hd.matched
    have at' : d.pattern[d.matched]? = some word[d.matched] := (prefix_getElem? hd.pattern hk).trans (List.getElem?_eq_getElem hk)
    rw [stepLoop, at']
    simp only [Option.bind_eq_bind, Option.bind_some]
    by_cases hb : word[d.matched] = b
    · have ha : word[d.matched]? = some b := (List.getElem?_eq_getElem hk).trans (congrArg some hb)
      have longest := cand.hit ha
      have whole : out ++ content ++ word.take (d.matched + 1) = text ++ [b] := by
        rw [List.take_add_one, ha, ← List.append_assoc, split]
        rfl
      rw [if_pos hb]
      by_cases all : d.matched + 1 = d.len
      · rw [if_pos all]
        rw [hd.len] at all
        refine ⟨_, rfl, ⟨hd.pattern, hd.fail, hd.len, Nat.lt_of_le_of_lt (Nat.zero_le _) hk⟩, rfl, longest.eq_length_iff.mp all, ?_⟩
        rwa [all, List.take_length] at whole
      · rw [if_neg all]
        rw [hd.len] at all
        refine ⟨_, rfl, fun hs => all (longest.eq_length_iff.mpr hs), ?_⟩
        exact ⟨⟨hd.pattern, hd.fail, hd.len, Nat.lt_of_le_of_ne hk all⟩, longest, whole⟩
    · have ha : word[d.matched]? ≠ some b := fun h => hb (Option.some.inj ((List.getElem?_eq_getElem hk).symm.trans h))
      rw [if_neg hb]
      by_cases zero : d.matched = 0
      · rw [zero] at cand ha split
        have longest := cand.miss ha
        rw [if_pos zero]
        refine ⟨_, rfl, fun hs => ?_, hd, zero ▸ longest, ?_⟩
        · have := longest.eq_length_iff.mpr hs
          omega
        · rw [List.take_zero, List.append_nil] at split
          rw [zero, List.take_zero, List.append_nil, ← List.append_assoc, split]
      · obtain ⟨f, hfail, longest⟩ := hd.fail (Nat.pos_of_ne_zero zero) (Nat.le_of_lt hk)
        have lt' := longest.lt (Nat.pos_of_ne_zero zero)
        have bound : d.matched - f ≤ d.pattern.length :=
          Nat.le_trans (Nat.sub_le ..) (Nat.le_trans (Nat.le_of_lt hk) hd.pattern.length_le)
        have given : d.pattern.take (d.matched - f) = word.take (d.matched - f) := by
          obtain ⟨tail, htail⟩ := hd.pattern
          rw [← htail, List.take_append_of_le_length (Nat.le_trans (Nat.sub_le ..) (Nat.le_of_lt hk))]
        rw [if_neg zero, hfail]
        simp only [Option.bind_some]
        rw [if_pos ⟨Nat.le_of_lt lt', bound⟩]
        refine ih ⟨hd.pattern, hd.fail, hd.len, Nat.lt_trans lt' hk⟩ (cand.fall ha longest) ?_ (by dsimp only; omega)
        rw [given, ← List.append_assoc, List.append_assoc, ← longest.split (Nat.le_of_lt hk), split]

/-- Every byte is tried against the longest end of what was read that begins the delimiter, and against its borders. -/
theorem Reads.step {d : Delimiter} {word text out : Bytes} (h : d.Reads word text out) (b : UInt8) :
    ∃ stepped, d.step b = some stepped ∧ Stepped word text out b stepped := by
  refine stepLoop_spec b _ h.searches (h.longest.candidate b) ?_ (Nat.lt_succ_self _)
  rw [List.append_nil]
  exact h.content

/-- Nothing has been read. -/
theorem Searches.reads {d : Delimiter} {word : Bytes} (h : d.Searches word) (fresh : d.matched = 0) : d.Reads word [] [] := by
  refine ⟨h, fresh ▸ Kmp.longest_nil word, ?_⟩
  rw [fresh]
  rfl

section
variable {word text out : Bytes} {b : UInt8} {stepped : Delimiter × Bytes × Bool}

theorem Stepped.ended (h : Stepped word text out b stepped) (ended : stepped.2.2 = true) :
    stepped.1.Searches word ∧ stepped.1.matched = 0 ∧ word <:+ text ++ [b] ∧ out ++ stepped.2.1 ++ word = text ++ [b] := by
  obtain ⟨d, content, _⟩ := stepped
  cases ended
  exact h

theorem Stepped.goes_on (h : Stepped word text out b stepped) (ended : stepped.2.2 = false) :
    ¬word <:+ text ++ [b] ∧ stepped.1.Reads word (text ++ [b]) (out ++ stepped.2.1) := by
  obtain ⟨d, content, _⟩ := stepped
  cases ended
  exact h

theorem Stepped.searches (h : Stepped word text out b stepped) : stepped.1.Searches word := by
  cases ended : stepped.2.2 with
  | true => exact (h.ended ended).1
  | false => exact (h.goes_on ended).2.searches

end

theorem Searches.step {d : Delimiter} {word : Bytes} (h : d.Searches word) (b : UInt8) :
    ∃ stepped, d.step b = some stepped ∧ stepped.1.Searches word := by
  have reads : d.Reads word (word.take d.matched) [] := ⟨h, Kmp.longest_take (Nat.le_of_lt h.matched), rfl⟩
  obtain ⟨stepped, step, spec⟩ := reads.step b
  exact ⟨stepped, step, spec.searches⟩

/-- What cannot begin the delimiter is content at once. -/
theorem Searches.step_other {d : Delimiter} {word : Bytes} (h : d.Searches word) (fresh : d.matched = 0) {b : UInt8}
    (hb : d.pattern[0]? ≠ some b) : d.step b = some (d, [b], false) := by
  have pos : 0 < d.pattern.length := Nat.lt_of_lt_of_le (Nat.zero_lt_of_lt h.matched) h.pattern.length_le
  rw [List.getElem?_eq_getElem pos] at hb
  rw [Delimiter.step, fresh, stepLoop, fresh, List.getElem?_eq_getElem pos]
  simp only [Option.bind_eq_bind, Option.bind_some, if_neg fun hc => hb (congrArg some hc)]
  rfl

/-- Only the bytes matched change. -/
theorem stepLoop_matched {b : UInt8} (fuel : Nat) : ∀ {d : Delimiter} {content : Bytes} {stepped : Delimiter × Bytes × Bool},
    stepLoop b fuel d content = some stepped → ∃ n, stepped.1 = { d with matched := n } := by
  induction fuel with
  | zero => exact nofun
  | succ fuel ih =>
    intro d content stepped h
    rw [stepLoop] at h
    obtain ⟨p, -, h⟩ := Option.bind_eq_some_iff.mp h
    split at h
    · dsimp only at h
      split at h <;> cases h <;> exact ⟨_, rfl⟩
    · split at h
      · cases h
        exact ⟨d.matched, rfl⟩
      · obtain ⟨kept, -, h⟩ := Option.bind_eq_some_iff.mp h
        split at h
        · obtain ⟨n, heq⟩ := ih h
          exact ⟨n, heq⟩
        · cases h

theorem step_matched {d : Delimiter} {b : UInt8} {stepped : Delimiter × Bytes × Bool} (h : d.step b = some stepped) :
    ∃ n, stepped.1 = { d with matched := n } :=
  stepLoop_matched _ h

end Delimiter

/-! ### A delimiter whose table is right -/

structure Matcher where
  delimiter : Delimiter
  word : Bytes
  searches : delimiter.Searches word

namespace Matcher

/-- `Delimiter.new`. -/
def new (start boundary : Bytes) (pos : 0 < start.length) (max : start.length + boundary.length ≤ MAX_DELIMITER_LEN) : Matcher where
  delimiter := (Delimiter.new start boundary).get (by
    obtain ⟨d, h, -⟩ := Delimiter.new_spec pos max
    rw [h]
    rfl)
  word := start ++ boundary
  searches := by
    obtain ⟨d, h, searches, -⟩ := Delimiter.new_spec pos max
    simp only [h, Option.get_some]
    exact searches

/-- `Delimiter.step`. -/
def step (m : Matcher) (b : UInt8) : Matcher × Bytes × Bool :=
  have isSome : (m.delimiter.step b).isSome := by
    obtain ⟨stepped, h, -⟩ := m.searches.step b
    rw [h]
    rfl
  let stepped := (m.delimiter.step b).get isSome
  ({ delimiter := stepped.1
     word := m.word
     searches := by
      obtain ⟨stepped', h, searches⟩ := m.searches.step b
      simp only [stepped, h, Option.get_some]
      exact searches }, stepped.2)

/-- `Delimiter.skippable`. -/
def skippable (m : Matcher) (data : Bytes) : Nat := m.delimiter.skippable data

def Fresh (m : Matcher) : Prop := m.delimiter.matched = 0

/-- `text` has been read since the delimiter was last found, of which `out` is known to be content. -/
def Reads (m : Matcher) (text out : Bytes) : Prop := m.delimiter.Reads m.word text out

theorem new_fresh (start boundary : Bytes) (pos : 0 < start.length) (max : start.length + boundary.length ≤ MAX_DELIMITER_LEN) :
    (new start boundary pos max).Fresh := by
  obtain ⟨d, h, -, fresh⟩ := Delimiter.new_spec pos max
  simp only [Fresh, new, h, Option.get_some]
  exact fresh

theorem Fresh.reads {m : Matcher} (h : m.Fresh) : m.Reads [] [] := m.searches.reads h

theorem step_eq (m : Matcher) (b : UInt8) : m.delimiter.step b = some ((m.step b).1.delimiter, (m.step b).2) :=
  (Option.some_get _).symm

theorem step_word (m : Matcher) (b : UInt8) : (m.step b).1.word = m.word := rfl

section
variable {m : Matcher} {text out : Bytes}

theorem Reads.stepped (h : m.Reads text out) (b : UInt8) :
    Delimiter.Stepped m.word text out b ((m.step b).1.delimiter, (m.step b).2) := by
  obtain ⟨stepped, step, spec⟩ := Delimiter.Reads.step h b
  rwa [← Option.some.inj (step.symm.trans (m.step_eq b))]

/-- The delimiter is completed. -/
theorem Reads.ended (h : m.Reads text out) {b : UInt8} (ended : (m.step b).2.2 = true) :
    (m.step b).1.Fresh ∧ m.word <:+ text ++ [b] ∧ out ++ (m.step b).2.1 ++ m.word = text ++ [b] :=
  ((h.stepped b).ended ended).2

/-- It is not. -/
theorem Reads.goes_on (h : m.Reads text out) {b : UInt8} (ended : (m.step b).2.2 = false) :
    ¬m.word <:+ text ++ [b] ∧ (m.step b).1.Reads (text ++ [b]) (out ++ (m.step b).2.1) :=
  (h.stepped b).goes_on ended

theorem Reads.ended_iff (h : m.Reads text out) (b : UInt8) : (m.step b).2.2 = true ↔ m.word <:+ text ++ [b] := by
  cases he : (m.step b).2.2 with
  | true => exact ⟨fun _ => (h.ended he).2.1, fun _ => rfl⟩
  | false => exact ⟨nofun, fun hs => absurd hs (h.goes_on he).1⟩

end

/-- `step` for each byte of a text, and the content there is. -/
def bytes (m : Matcher) (text : Bytes) : Matcher × Bytes :=
  text.foldl (fun read b => ((read.1.step b).1, read.2 ++ (read.1.step b).2.1)) (m, [])

theorem bytes_concat (m : Matcher) (text : Bytes) (b : UInt8) :
    m.bytes (text ++ [b]) = (((m.bytes text).1.step b).1, (m.bytes text).2 ++ ((m.bytes text).1.step b).2.1) :=
  List.foldl_concat ..

theorem bytes_word (m : Matcher) (text : Bytes) : (m.bytes text).1.word = m.word := by
  induction text using List.reverseRecOn with
  | nil => rfl
  | append_singleton text b ih => rw [bytes_concat, step_word, ih]

/-- A text without the delimiter. -/
theorem Fresh.bytes_reads {m : Matcher} (h : m.Fresh) {text : Bytes} (absent : ¬m.word <:+: text) :
    (m.bytes text).1.Reads text (m.bytes text).2 := by
  induction text using List.reverseRecOn with
  | nil => exact h.reads
  | append_singleton text b ih =>
    rw [List.infix_concat_iff, not_or] at absent
    have reads := ih absent.2
    have ended : ((m.bytes text).1.step b).2.2 = false := by
      rw [← Bool.not_eq_true, reads.ended_iff, bytes_word]
      exact absent.1
    rw [bytes_concat]
    exact (reads.goes_on ended).2

/-- The delimiter is found where a text first ends with it, and what comes before it is its content. -/
theorem Fresh.bytes_ended {m : Matcher} (h : m.Fresh) {text : Bytes} {b : UInt8} (absent : ¬m.word <:+: text)
    (found : m.word <:+ text ++ [b]) :
    ((m.bytes text).1.step b).2.2 = true ∧ ((m.bytes text).1.step b).1.Fresh ∧
      (m.bytes text).2 ++ ((m.bytes text).1.step b).2.1 ++ m.word = text ++ [b] := by
  have reads := h.bytes_reads absent
  have ended : ((m.bytes text).1.step b).2.2 = true := by
    rw [reads.ended_iff, bytes_word]
    exact found
  have := reads.ended ended
  rw [bytes_word] at this
  exact ⟨ended, this.1, this.2.2⟩

theorem Fresh.bytes_goes_on {m : Matcher} (h : m.Fresh) {text : Bytes} {b : UInt8} (absent : ¬m.word <:+: text ++ [b]) :
    ((m.bytes text).1.step b).2.2 = false := by
  rw [List.infix_concat_iff, not_or] at absent
  rw [← Bool.not_eq_true, (h.bytes_reads absent.2).ended_iff, bytes_word]
  exact absent.1

theorem Fresh.step_other {m : Matcher} (h : m.Fresh) {b : UInt8} (hb : m.delimiter.pattern[0]? ≠ some b) : m.step b = (m, [b], false) := by
  obtain ⟨delimiter, word, searches⟩ := m
  have step : delimiter.step b = some (delimiter, [b], false) := searches.step_other h hb
  simp only [Matcher.step, step, Option.get_some]

/-- A byte that is passed over. -/
theorem step_skipped {m : Matcher} {data : Bytes} {b : UInt8} (h : 0 < m.skippable (b :: data)) :
    m.step b = (m, [b], false) ∧ m.skippable (b :: data) = m.skippable data + 1 := by
  unfold skippable Delimiter.skippable at h ⊢
  by_cases fresh : 0 < m.delimiter.matched
  · rw [if_pos fresh] at h
    exact absurd h (Nat.lt_irrefl 0)
  · rw [if_neg fresh, List.findIdx?_cons] at h
    by_cases begins : m.delimiter.pattern[0]? = some b
    · rw [if_pos (decide_eq_true begins)] at h
      exact absurd h (Nat.lt_irrefl 0)
    · have other : ¬decide (m.delimiter.pattern[0]? = some b) = true := by rwa [decide_eq_true_eq]
      refine ⟨Fresh.step_other (Nat.eq_zero_of_not_pos fresh) begins, ?_⟩
      rw [if_neg fresh, if_neg fresh, List.findIdx?_cons, if_neg other, List.length_cons]
      cases data.findIdx? fun b => decide (m.delimiter.pattern[0]? = some b) <;> rfl

end Matcher

end Tgin.LocalFiles
