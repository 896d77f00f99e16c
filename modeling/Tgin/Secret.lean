import Mathlib.Data.List.Infix
import Tgin.Lib.Runs
import Tgin.Lib.Utf8
import Tgin.Rules

/-! Log redaction, `tgin-runtime/src/secret.rs`: registered secrets are masked in text bound for logs, then what looks like a bot's token.

    The crates `aho-corasick` and `regex` are parameters. A slice that cuts a character is a panic, `none`. -/

namespace Tgin.Secret
open Rules
open Utf8 (Valid isBoundary slice)

/-- `#####`, in the place of every match. -/
def MASK : Str := [35, 35, 35, 35, 35]

/-- Registered secrets shorter than this are not masked. -/
def MIN_SECRET_LEN : Nat := 8

/-- Where a match starts and where it ends. -/
abbrev Span := Nat × Nat

inductive Cow where
  | borrowed (text : Str)
  | owned (text : Str)
  deriving DecidableEq, Repr

def Cow.text : Cow → Str
  | .borrowed text => text
  | .owned text => text

structure AhoCorasick where
  /-- Every match of the patterns, also those that overlap. -/
  findOverlappingIter : List Str → Str → List Span

/-- The expression of bot tokens. -/
structure TokenRe where
  isMatch : Str → Bool
  replaceAll : Str → Str → Cow

/-- The automaton of the secrets is the list of its patterns. -/
structure Redactor where
  secrets : Option (List Str)
  deriving DecidableEq, Repr

/-- Secrets shorter than 8 bytes are ignored. -/
def Redactor.new (secrets : List Str) : Redactor :=
  let patterns := secrets.filter fun s => MIN_SECRET_LEN ≤ s.length
  { secrets := if patterns = [] then none else some patterns }

/-! ### Masking -/

/-- What has been written, how much of the text it stands for, and the span that may still grow. -/
structure Merge where
  out : Str
  copied : Nat
  current : Span
  deriving DecidableEq, Repr

def Merge.next (s : Str) (m : Merge) (span : Span) : Option Merge :=
  if span.1 ≤ m.current.2 then some { m with current := (m.current.1, max m.current.2 span.2) }
  else do
    let gap ← slice s m.copied m.current.1
    some { out := m.out ++ gap ++ MASK, copied := m.current.2, current := span }

def Merge.finish (s : Str) (m : Merge) : Option Str := do
  let gap ← slice s m.copied m.current.1
  let rest ← slice s m.current.2 s.length
  some (m.out ++ gap ++ MASK ++ rest)

/-- The order of pairs. -/
def Span.le (a b : Span) : Bool := a.1 < b.1 || a.1 = b.1 && a.2 ≤ b.2

/-- `s` with the union of all (possibly overlapping) matches masked. -/
def maskSpans (s : Str) (ac : AhoCorasick) (patterns : List Str) : Option Cow :=
  match (ac.findOverlappingIter patterns s).mergeSort Span.le with
  | [] => some (.borrowed s)
  | first :: rest => do
    let m ← rest.foldlM (Merge.next s) { out := [], copied := 0, current := first }
    return .owned (← m.finish s)

namespace Redactor

variable (ac : AhoCorasick) (redactor : Redactor) (s : Str)

/-- `s` with the secrets masked. -/
def masked : Option Cow :=
  match redactor.secrets with
  | some patterns => maskSpans s ac patterns
  | none => some (.borrowed s)

/-- `s` with every match replaced by `#####`. -/
def redact (re : TokenRe) : Option Cow := do
  match ← redactor.masked ac s with
  | .borrowed b => return re.replaceAll b MASK
  | .owned o => if re.isMatch o then return .owned (re.replaceAll o MASK).text else return .owned o

end Redactor

/-! ### What is claimed -/

/-- Where a pattern stands in a text. -/
def Occurs (pattern s : Str) (span : Span) : Prop :=
  ∃ before after, s = before ++ pattern ++ after ∧ span = (before.length, before.length + pattern.length)

/-- What the automaton is documented to report. -/
def AhoCorasick.Documented (ac : AhoCorasick) : Prop :=
  ∀ patterns s span, span ∈ ac.findOverlappingIter patterns s ↔ ∃ pattern ∈ patterns, Occurs pattern s span

/-- Whether a byte is one of a secret that is long enough. -/
def covered (secrets : List Str) (s : Str) (n : Nat) : Bool :=
  secrets.any fun secret => MIN_SECRET_LEN ≤ secret.length &&
    (List.range (n + 1)).any fun start => n < start + secret.length && secret.isPrefixOf (s.drop start)

/-! ### Spans -/

section
variable {s secret : Str} {span : Span} {m : Merge} {n : Nat} {inside : Bool}

theorem Span.le_iff {a b : Span} : Span.le a b = true ↔ a.1 < b.1 ∨ a.1 = b.1 ∧ a.2 ≤ b.2 := by
  simp [Span.le]

theorem Span.le_fst {a b : Span} (h : Span.le a b = true) : a.1 ≤ b.1 :=
  (Span.le_iff.mp h).elim Nat.le_of_lt fun h => Nat.le_of_eq h.1

theorem sorted (spans : List Span) : (spans.mergeSort Span.le).Pairwise fun a b => a.1 ≤ b.1 := by
  refine (List.pairwise_mergeSort (fun a b c => ?_) (fun a b => ?_) spans).imp Span.le_fst
  · rw [Span.le_iff, Span.le_iff, Span.le_iff]
    omega
  · rw [Bool.or_eq_true, Span.le_iff, Span.le_iff]
    omega

/-- A span that can be cut out of the text. -/
structure Cut (s : Str) (span : Span) : Prop where
  lt : span.1 < span.2
  starts : isBoundary s span.1 = true
  ends : isBoundary s span.2 = true

theorem cut_of_occurs (valid : Valid s) (validSecret : Valid secret) (ne : secret ≠ []) (h : Occurs secret s span) : Cut s span := by
  obtain ⟨before, after, rfl, rfl⟩ := h
  obtain ⟨hb, ha⟩ := valid.around validSecret ne
  refine ⟨Nat.lt_add_of_pos_right (List.length_pos_iff.mpr ne), ?_, ?_⟩
  · rw [List.append_assoc]
    exact Utf8.isBoundary_append before (validSecret.append ha)
  · have ends := Utf8.isBoundary_append (before ++ secret) ha
    rwa [List.length_append] at ends

theorem slice_eq {start stop : Nat} (le : start ≤ stop) (hs : isBoundary s start = true) (he : isBoundary s stop = true) :
    slice s start stop = some ((s.take stop).drop start) := by
  rw [slice, if_pos]
  simp [le, hs, he]

theorem drop_eq (s : Str) {start stop : Nat} (le : start ≤ stop) : s.drop start = (s.take stop).drop start ++ s.drop stop := by
  have parts := (List.take_append_drop (stop - start) (s.drop start)).symm
  rwa [List.drop_drop, Nat.add_sub_cancel' le, ← List.drop_take] at parts

theorem length_cut (start : Nat) {stop : Nat} (h : stop ≤ s.length) : ((s.take stop).drop start).length = stop - start := by
  rw [List.length_drop, List.length_take, Nat.min_eq_left h]

/-- A span that may still grow, after a gap that is to be written. -/
structure Merge.Good (s : Str) (m : Merge) (inside : Bool) : Prop where
  le : m.copied ≤ m.current.1
  gap : m.copied < m.current.1 ∨ inside = false
  copied : isBoundary s m.copied = true
  current : Cut s m.current

/-- The gap and the current span, when every other span comes after them and a gap. -/
theorem masked_current {covered : Nat → Bool} (good : m.Good s inside) (gap : ∀ i, m.copied ≤ i → i < m.current.1 → covered i = false)
    (run : ∀ i, m.current.1 ≤ i → i < m.current.2 → covered i = true) :
    Runs.masked MASK covered m.copied inside (s.drop m.copied) =
      (s.take m.current.1).drop m.copied ++ (MASK ++ Runs.masked MASK covered m.current.2 true (s.drop m.current.2)) := by
  have lt := good.current.lt
  have stop := Utf8.le_of_isBoundary good.current.ends
  have start := Nat.le_of_lt (Nat.lt_of_lt_of_le lt stop)
  have gapLength := length_cut m.copied start
  have runLength := length_cut m.current.1 stop
  rw [drop_eq s good.le, Runs.masked_gap]
  · rw [gapLength, Nat.add_sub_cancel' good.le, drop_eq s (Nat.le_of_lt lt), Runs.masked_run,
      runLength, Nat.add_sub_cancel' (Nat.le_of_lt lt)]
    · rfl
    · rw [runLength, Nat.add_sub_cancel' (Nat.le_of_lt lt)]
      exact run
    · exact List.ne_nil_of_length_pos (by omega)
  · rw [gapLength, Nat.add_sub_cancel' good.le]
    exact gap
  · exact good.gap.imp_left fun wide => List.ne_nil_of_length_pos (by omega)

theorem finish_spec (good : m.Good s inside) :
    m.finish s = some (m.out ++ Runs.masked MASK (Runs.within [m.current]) m.copied inside (s.drop m.copied)) := by
  have stop := Utf8.le_of_isBoundary good.current.ends
  rw [masked_current good]
  · rw [Runs.masked_none, Merge.finish, slice_eq good.le good.copied good.current.starts,
      slice_eq stop good.current.ends (Utf8.isBoundary_length s), List.take_length]
    · simp
    · intro i hi
      rw [← Bool.not_eq_true, Runs.within_iff]
      simpa using fun _ => hi
  · intro i _ hi
    rw [← Bool.not_eq_true, Runs.within_iff]
    simpa using fun h => absurd hi (Nat.not_lt.mpr h)
  · intro i hi lt
    exact Runs.within_iff.mpr ⟨_, List.mem_cons_self, hi, lt⟩

/-- What the merging writes in the end, wherever it stands. -/
theorem merge_spec (rest : List Span) (good : m.Good s inside) (cut : ∀ span ∈ rest, Cut s span)
    (order : (m.current :: rest).Pairwise fun a b => a.1 ≤ b.1) :
    (rest.foldlM (Merge.next s) m).bind (Merge.finish s) =
      some (m.out ++ Runs.masked MASK (Runs.within (m.current :: rest)) m.copied inside (s.drop m.copied)) := by
  induction rest generalizing m inside with
  | nil => exact finish_spec good
  | cons span rest ih =>
    obtain ⟨first, order⟩ := List.pairwise_cons.mp order
    obtain ⟨second, order'⟩ := List.pairwise_cons.mp order
    have here := cut span List.mem_cons_self
    have others := fun other h => cut other (List.mem_cons_of_mem _ h)
    rw [List.foldlM_cons, Merge.next]
    split
    · -- The span begins within the current one or where it ends, which grows.
      rename_i touch
      have le := first span List.mem_cons_self
      have grown : Merge.Good s { m with current := (m.current.1, max m.current.2 span.2) } inside := by
        refine ⟨good.le, good.gap, good.copied, Nat.lt_of_lt_of_le good.current.lt (Nat.le_max_left ..), good.current.starts, ?_⟩
        rcases Nat.le_total m.current.2 span.2 with h | h
        · exact (Nat.max_eq_right h).symm ▸ here.ends
        · exact (Nat.max_eq_left h).symm ▸ good.current.ends
      have spec := ih grown others (List.pairwise_cons.mpr ⟨fun other h => first other (List.mem_cons_of_mem _ h), order'⟩)
      refine spec.trans (congrArg (fun text => some (m.out ++ text)) (Runs.masked_congr fun i _ => ?_))
      rw [Bool.eq_iff_iff, Runs.within_cons, Runs.within_cons, Runs.within_cons, ← or_assoc]
      exact or_congr_left (by dsimp only; omega)
    · -- It begins after a gap: the current one is done with.
      rename_i apart
      have gap := slice_eq good.le good.copied good.current.starts
      simp only [gap, Option.bind_eq_bind, Option.bind_some]
      have next : Merge.Good s
          { out := m.out ++ (s.take m.current.1).drop m.copied ++ MASK, copied := m.current.2, current := span } true :=
        ⟨Nat.le_of_not_le apart, .inl (Nat.lt_of_not_le apart), good.current.ends, here⟩
      rw [ih next others order, masked_current good]
      · have later : ∀ i, m.current.2 ≤ i → Runs.within (m.current :: span :: rest) i = Runs.within (span :: rest) i := by
          intro i hi
          rw [Bool.eq_iff_iff, Runs.within_cons]
          exact or_iff_right fun h => Nat.not_lt.mpr hi h.2
        rw [Runs.masked_congr later]
        simp
      · intro i _ hi
        rw [← Bool.not_eq_true, Runs.within_iff]
        rintro ⟨other, mem, le, -⟩
        rcases List.mem_cons.mp mem with rfl | mem
        · exact Nat.not_le.mpr hi le
        · exact Nat.not_le.mpr hi (Nat.le_trans (first other mem) le)
      · intro i hi lt
        exact Runs.within_iff.mpr ⟨_, List.mem_cons_self, hi, lt⟩

/-! ### Secrets -/

theorem occurs_iff {pattern : Str} {start : Nat} {stop : Nat} :
    Occurs pattern s (start, stop) ↔ start ≤ s.length ∧ stop = start + pattern.length ∧ pattern <+: s.drop start := by
  constructor
  · rintro ⟨before, after, rfl, eq⟩
    obtain ⟨rfl, rfl⟩ := Prod.mk.inj eq
    refine ⟨by simp, rfl, ?_⟩
    rw [List.append_assoc, List.drop_left]
    exact List.prefix_append ..
  · rintro ⟨le, rfl, after, eq⟩
    refine ⟨s.take start, after, ?_, ?_⟩
    · rw [List.append_assoc, eq, List.take_append_drop]
    · rw [List.length_take, Nat.min_eq_left le]

theorem covered_iff {secrets : List Str} : covered secrets s n = true ↔
    ∃ secret ∈ secrets, MIN_SECRET_LEN ≤ secret.length ∧ ∃ span, Occurs secret s span ∧ span.1 ≤ n ∧ n < span.2 := by
  simp only [covered, List.any_eq_true, Bool.and_eq_true, decide_eq_true_eq, List.isPrefixOf_iff_prefix, List.mem_range, Prod.exists,
    occurs_iff]
  refine exists_congr fun secret => and_congr_right fun _ => and_congr_right fun long => exists_congr fun start => ?_
  constructor
  · rintro ⟨le, lt, here⟩
    have pos : 0 < secret.length := Nat.lt_of_lt_of_le (by decide) long
    have fits := here.length_le
    rw [List.length_drop] at fits
    exact ⟨_, ⟨by omega, rfl, here⟩, Nat.le_of_lt_succ le, lt⟩
  · rintro ⟨_, ⟨-, rfl, here⟩, le, lt⟩
    exact ⟨Nat.lt_succ_of_le le, lt, here⟩

variable {ac : AhoCorasick} {secrets : List Str}

/-- The matches cover what the secrets do. -/
theorem within_spans (documented : ac.Documented) (secrets : List Str) (s : Str) (n : Nat) :
    Runs.within (ac.findOverlappingIter (secrets.filter fun s => MIN_SECRET_LEN ≤ s.length) s) n = covered secrets s n := by
  rw [Bool.eq_iff_iff, Runs.within_iff, covered_iff]
  constructor
  · rintro ⟨span, mem, inner⟩
    obtain ⟨secret, hs, occurs⟩ := (documented _ _ _).mp mem
    obtain ⟨hs, long⟩ := List.mem_filter.mp hs
    exact ⟨secret, hs, of_decide_eq_true long, span, occurs, inner⟩
  · rintro ⟨secret, hs, long, span, occurs, inner⟩
    exact ⟨span, (documented _ _ _).mpr ⟨secret, List.mem_filter.mpr ⟨hs, decide_eq_true long⟩, occurs⟩, inner⟩

theorem maskSpans_eq {patterns : List Str} (cut : ∀ span ∈ ac.findOverlappingIter patterns s, Cut s span) :
    (maskSpans s ac patterns).map Cow.text =
      some (Runs.masked MASK (Runs.within (ac.findOverlappingIter patterns s)) 0 false s) := by
  have same (n : Nat) : Runs.within (ac.findOverlappingIter patterns s) n =
      Runs.within ((ac.findOverlappingIter patterns s).mergeSort Span.le) n := by
    rw [Bool.eq_iff_iff, Runs.within_iff, Runs.within_iff]
    simp only [List.mem_mergeSort]
  rw [Runs.masked_congr fun n _ => same n]
  have order := sorted (ac.findOverlappingIter patterns s)
  have cut' : ∀ span ∈ (ac.findOverlappingIter patterns s).mergeSort Span.le, Cut s span := fun span h => cut span (List.mem_mergeSort.mp h)
  unfold maskSpans
  generalize (ac.findOverlappingIter patterns s).mergeSort Span.le = spans at order cut'
  cases spans with
  | nil => exact congrArg some (Runs.masked_none (fun _ _ => rfl) false s).symm
  | cons first rest =>
    have good : Merge.Good s { out := [], copied := 0, current := first } false :=
      ⟨Nat.zero_le _, .inr rfl, Utf8.isBoundary_zero s, cut' first List.mem_cons_self⟩
    have spec := merge_spec rest good (fun span h => cut' span (List.mem_cons_of_mem _ h)) order
    dsimp only
    rw [List.drop_zero, List.nil_append] at spec
    obtain ⟨m, merged, finished⟩ := Option.bind_eq_some_iff.mp spec
    rw [merged, Option.bind_eq_bind, Option.bind_some, finished]
    rfl

/-- Of a text all that is of a secret is masked, one mask for every run of it, and nothing else; no character is cut. -/
theorem masked_eq (documented : ac.Documented) (texts : ∀ secret ∈ secrets, Valid secret) (text : Valid s) :
    ((Redactor.new secrets).masked ac s).map Cow.text = some (Runs.masked MASK (covered secrets s) 0 false s) := by
  have spans := within_spans documented secrets s
  unfold Redactor.new Redactor.masked
  dsimp only
  split
  · rename_i patterns some
    split at some
    · cases some
    · cases some
      rw [maskSpans_eq, Runs.masked_congr fun n _ => spans n]
      intro span mem
      obtain ⟨secret, hs, occurs⟩ := (documented _ _ _).mp mem
      obtain ⟨hs, long⟩ := List.mem_filter.mp hs
      refine cut_of_occurs text (texts secret hs) (List.ne_nil_of_length_pos ?_) occurs
      exact Nat.lt_of_lt_of_le (by decide) (of_decide_eq_true long)
  · rename_i none
    split at none
    · rename_i empty
      rw [Runs.masked_none]
      · rfl
      · intro n _
        rw [← Bool.not_eq_true, covered_iff]
        rintro ⟨secret, hs, long, -⟩
        exact List.not_mem_nil (empty ▸ List.mem_filter.mpr ⟨hs, decide_eq_true long⟩)
    · cases none

end

/-! ### Copies that overlap -/

/-- An automaton that tries every pattern at every place. -/
def everywhere : AhoCorasick where
  findOverlappingIter patterns s := patterns.flatMap fun pattern =>
    (List.range (s.length + 1)).filterMap fun start => if pattern.isPrefixOf (s.drop start) then some (start, start + pattern.length)
      else none

theorem everywhere_documented : everywhere.Documented := by
  rintro patterns s ⟨start, stop⟩
  simp only [everywhere, List.mem_flatMap, List.mem_filterMap, List.mem_range, Option.ite_none_right_eq_some, List.isPrefixOf_iff_prefix,
    Option.some.injEq, Prod.mk.injEq, occurs_iff, Nat.lt_succ_iff]
  refine exists_congr fun pattern => and_congr_right fun _ => ?_
  constructor
  · rintro ⟨_, le, here, rfl, rfl⟩
    exact ⟨le, rfl, here⟩
  · rintro ⟨le, rfl, here⟩
    exact ⟨start, le, here, rfl, rfl⟩

/-- `abcabcab`, twice in `x abcabcabcab y`. -/
theorem masked_eq_copies :
    ((Redactor.new [[97, 98, 99, 97, 98, 99, 97, 98]]).masked everywhere
      [120, 32, 97, 98, 99, 97, 98, 99, 97, 98, 99, 97, 98, 32, 121]).map Cow.text = some [120, 32, 35, 35, 35, 35, 35, 32, 121] := by
  have texts : ∀ secret ∈ [([97, 98, 99, 97, 98, 99, 97, 98] : Str)], Valid secret :=
    List.forall_mem_singleton.mpr ⟨['a', 'b', 'c', 'a', 'b', 'c', 'a', 'b'], rfl⟩
  have text : Valid [120, 32, 97, 98, 99, 97, 98, 99, 97, 98, 99, 97, 98, 32, 121] :=
    ⟨['x', ' ', 'a', 'b', 'c', 'a', 'b', 'c', 'a', 'b', 'c', 'a', 'b', ' ', 'y'], rfl⟩
  refine (masked_eq everywhere_documented texts text).trans (congrArg some ?_)
  decide

end Tgin.Secret
