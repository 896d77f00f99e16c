import Tgin.LocalFiles.Scanner

/-! The body of a request on its way to a server, scanned as it streams, of `gateway/local_files.rs`: what is passed on never
    looks whole to the server before the scan has come out clean. -/

namespace Tgin.LocalFiles

inductive Frame where
  | data (data : Bytes)
  | trailers

/-- Why a body failed. -/
inductive Failure where
  | body
  /-- The request body was refused by the local file scan. -/
  | refused
  deriving DecidableEq

/-- What polling a body for its next frame gives. -/
inductive Polled where
  | pending
  | frame (frame : Frame)
  | error (failure : Failure)
  /-- The body is over. -/
  | over

inductive Scan where
  | scanning (scanner : Scanner)
  | clean
  | refused

structure ScanGuard where
  scan : Scan
  /-- Bytes still to come, when the body's length is known. -/
  remaining : Option UInt64
  /-- What has been sent to whoever waits for the verdict. -/
  verdict : Option Verdict

namespace ScanGuard

/-- `exact` is the length the body declares, if it does. -/
def new (exact : Option UInt64) (scanner : Scanner) : ScanGuard where
  scan := .scanning scanner
  remaining := exact
  verdict := none

def decide (guard : ScanGuard) (verdict : Verdict) : ScanGuard where
  scan := match verdict with
    | .clean => .clean
    | .refused _ => .refused
  remaining := guard.remaining
  verdict := guard.verdict.or (some verdict)

/-- `u64::saturating_sub` of a length. -/
def saturatingSub (remaining : UInt64) (len : Nat) : UInt64 := .ofNat (remaining.toNat - min len (2 ^ 64 - 1))

/-- What a poll of the body shows, and what would be passed on. -/
def examine (guard : ScanGuard) (scanner : Scanner) (polled : Polled) (endStream : Bool) :
    ScanGuard × Option Verdict × Polled :=
  match polled with
  | .frame (.data data) =>
    let (scanner, verdict) := scanner.feed data
    let remaining := guard.remaining.map (saturatingSub · data.length)
    let last := remaining = some 0 || endStream
    ({ guard with scan := .scanning scanner, remaining },
      verdict.or (if last then some scanner.finish else none), polled)
  | .frame .trailers => (guard, some scanner.finish, .over)
  | .over => (guard, some scanner.finish, polled)
  | .error _ | .pending => (guard, none, polled)

/-- Trailers are never announced: they end the body. -/
def dropTrailers : Polled → Polled
  | .frame .trailers => .over
  | polled => polled

/-- `polled` is what polling the body gives, and `endStream` whether the body says then that it is at its end. -/
def pollFrame (guard : ScanGuard) (polled : Polled) (endStream : Bool) : ScanGuard × Polled :=
  match guard.scan with
  | .clean => (guard, dropTrailers polled)
  | .refused => (guard, .error .refused)
  | .scanning scanner =>
    match guard.examine scanner polled endStream with
    | (guard, none, polled) => (guard, polled)
    | (guard, some .clean, polled) => (guard.decide .clean, polled)
    | (guard, some refused, _) => (guard.decide refused, .error .refused)

/-- Whether the guarded body says that it is at its end, where the body's own answer is `endStream`. -/
def isEndStream (guard : ScanGuard) (endStream : Bool) : Bool :=
  match guard.scan with
  | .clean => endStream
  | _ => false

/-! ### Runs -/

/-- The data in what polling a body gave. -/
def dataOf : Polled → Bytes
  | .frame (.data data) => data
  | _ => []

/-- A guarded body polled again and again; `polls` is what the body answers. What is passed on, and whether the guarded body
    then says that it is at its end. -/
def run (guard : ScanGuard) : List (Polled × Bool) → ScanGuard × List (Polled × Bool)
  | [] => (guard, [])
  | (polled, endStream) :: polls =>
    let (guard, passed) := guard.pollFrame polled endStream
    let (guard', rest) := guard.run polls
    (guard', (passed, guard.isEndStream endStream) :: rest)

/-- All the data in what polling gave. -/
def dataIn (polls : List (Polled × Bool)) : Bytes := (polls.map fun poll => dataOf poll.1).flatten

/-- What is passed on does not look whole: it has not ended and falls short of the length that was declared. An empty body
    falls short of nothing. -/
structure Unfinished (exact : Option UInt64) (passed : List (Polled × Bool)) : Prop where
  goes_on : ∀ poll ∈ passed, poll.1 ≠ .over ∧ poll.2 = false
  short : ∀ {n : UInt64}, exact = some n → 0 < n → (dataIn passed).length < n.toNat

/-- What is passed on of what there is. -/
def Guarded (exact : Option UInt64) (scan : Scan) (polls passed : List (Polled × Bool)) : Prop :=
  match scan with
  | .scanning _ => dataIn passed = dataIn polls ∧ Unfinished exact passed
  | .clean => dataIn passed = dataIn polls
  | .refused => dataIn passed <+: dataIn polls ∧
    ∃ before after, passed = before ++ (.error .refused, false) :: after ∧ Unfinished exact before ∧
      ∀ poll ∈ after, poll = (.error .refused, false)

theorem dataIn_cons (poll : Polled × Bool) (polls : List (Polled × Bool)) : dataIn (poll :: polls) = dataOf poll.1 ++ dataIn polls := by
  simp [dataIn]

theorem run_cons (guard : ScanGuard) (polled : Polled) (endStream : Bool) (polls : List (Polled × Bool)) :
    guard.run ((polled, endStream) :: polls) =
      (((guard.pollFrame polled endStream).1.run polls).1,
        ((guard.pollFrame polled endStream).2, (guard.pollFrame polled endStream).1.isEndStream endStream) ::
          ((guard.pollFrame polled endStream).1.run polls).2) := rfl

/-- A refused body fails for good. -/
theorem run_refused {guard : ScanGuard} (h : guard.scan = .refused) (polls : List (Polled × Bool)) :
    (guard.run polls).1.scan = .refused ∧ ∀ poll ∈ (guard.run polls).2, poll = (.error .refused, false) := by
  induction polls with
  | nil => exact ⟨h, nofun⟩
  | cons poll polls ih =>
    obtain ⟨polled, endStream⟩ := poll
    have stays : guard.pollFrame polled endStream = (guard, .error .refused) := by
      rw [pollFrame]
      simp only [h]
    have unended : guard.isEndStream endStream = false := by
      rw [isEndStream]
      simp only [h]
    rw [run_cons, stays]
    refine ⟨ih.1, fun poll hp => ?_⟩
    rcases List.mem_cons.mp hp with rfl | hp
    · rw [unended]
    · exact ih.2 poll hp

theorem dataOf_dropTrailers (polled : Polled) : dataOf (dropTrailers polled) = dataOf polled := by
  unfold dropTrailers
  split <;> rfl

/-- A body that has come out clean passes whole. -/
theorem run_clean {guard : ScanGuard} (h : guard.scan = .clean) (polls : List (Polled × Bool)) :
    (guard.run polls).1.scan = .clean ∧ dataIn (guard.run polls).2 = dataIn polls := by
  induction polls with
  | nil => exact ⟨h, rfl⟩
  | cons poll polls ih =>
    obtain ⟨polled, endStream⟩ := poll
    obtain ⟨passed, stays, data⟩ : ∃ passed, guard.pollFrame polled endStream = (guard, passed) ∧ dataOf passed = dataOf polled := by
      refine ⟨dropTrailers polled, ?_, dataOf_dropTrailers polled⟩
      rw [pollFrame]
      simp only [h]
    rw [run_cons, stays, dataIn_cons, dataIn_cons, data, ih.2]
    exact ⟨ih.1, rfl⟩

/-- What a poll does while the verdict is out. -/
inductive Steps (guard : ScanGuard) (polled : Polled) : ScanGuard × Polled → Prop
  /-- It is passed on and leaves something to come. -/
  | passed {guard' : ScanGuard} {scanner : Scanner} (scan : guard'.scan = .scanning scanner) (goes_on : polled ≠ .over)
      (left : ∀ {n : UInt64}, guard.remaining = some n → 0 < n →
        ∃ m, guard'.remaining = some m ∧ 0 < m ∧ n.toNat = m.toNat + (dataOf polled).length)
      (unknown : guard.remaining = none → guard'.remaining = none) : Steps guard polled (guard', polled)
  | clean {guard' : ScanGuard} {passed : Polled} (scan : guard'.scan = .clean) (data : dataOf passed = dataOf polled) :
    Steps guard polled (guard', passed)
  | refused {guard' : ScanGuard} (scan : guard'.scan = .refused) : Steps guard polled (guard', .error .refused)

theorem saturatingSub_left {remaining : UInt64} {len : Nat} (h : saturatingSub remaining len ≠ 0) :
    remaining.toNat = (saturatingSub remaining len).toNat + len := by
  have bound := remaining.toNat_lt
  have eq : (saturatingSub remaining len).toNat = remaining.toNat - min len (2 ^ 64 - 1) :=
    UInt64.toNat_ofNat_of_lt (Nat.lt_of_le_of_lt (Nat.sub_le ..) bound)
  have left : (saturatingSub remaining len).toNat ≠ 0 := fun zero => h (UInt64.toNat_inj.mp zero)
  omega

theorem pollFrame_steps {guard : ScanGuard} {scanner : Scanner} (h : guard.scan = .scanning scanner) (polled : Polled)
    (endStream : Bool) : Steps guard polled (guard.pollFrame polled endStream) := by
  rw [pollFrame]
  simp only [h]
  have decided (guard' : ScanGuard) (verdict : Verdict) (passed : Polled) (data : dataOf passed = dataOf polled) :
      Steps guard polled (match (guard', some verdict, passed) with
        | (guard, none, polled) => (guard, polled)
        | (guard, some .clean, polled) => (guard.decide .clean, polled)
        | (guard, some refused, _) => (guard.decide refused, .error .refused)) := by
    cases verdict with
    | clean => exact .clean rfl data
    | refused refusal => exact .refused rfl
  have waits (goes_on : polled ≠ .over) (none : dataOf polled = []) : Steps guard polled (guard, polled) := by
    refine .passed h goes_on (fun {n} hn pos => ⟨n, hn, pos, ?_⟩) id
    rw [none]
    rfl
  rcases polled with _ | (data | _) | failure | _
  · exact waits nofun rfl
  · rw [examine]
    generalize scanner.feed data = fed
    obtain ⟨scanner, verdict⟩ := fed
    dsimp only
    cases verdict with
    | some verdict => exact decided _ verdict _ rfl
    | none =>
      by_cases last : (guard.remaining.map (saturatingSub · data.length) = some 0 || endStream) = true
      · rw [if_pos last]
        exact decided _ scanner.finish _ rfl
      · rw [if_neg last]
        rw [Bool.or_eq_true, not_or, decide_eq_true_eq] at last
        refine .passed rfl nofun (fun {n} hn pos => ?_) ?_
        · have left : saturatingSub n data.length ≠ 0 := fun zero => last.1 (by rw [hn, Option.map_some, zero])
          refine ⟨saturatingSub n data.length, ?_, UInt64.pos_iff_ne_zero.mpr left, saturatingSub_left left⟩
          change guard.remaining.map (saturatingSub · data.length) = _
          rw [hn]
          rfl
        · intro unknown
          change guard.remaining.map (saturatingSub · data.length) = none
          rw [unknown]
          rfl
  · exact decided guard scanner.finish .over rfl
  · exact waits nofun rfl
  · exact decided guard scanner.finish .over rfl

/-- Every byte is passed on in order while the scan goes on, and until the scan is clean the body does not look whole. -/
theorem run_guards {guard : ScanGuard} {scanner : Scanner} (h : guard.scan = .scanning scanner) (polls : List (Polled × Bool)) :
    Guarded guard.remaining (guard.run polls).1.scan polls (guard.run polls).2 := by
  induction polls generalizing guard scanner with
  | nil =>
    have unfinished : Unfinished guard.remaining [] := ⟨nofun, fun {n} _ pos => UInt64.lt_iff_toNat_lt.mp pos⟩
    rw [show guard.run [] = (guard, []) from rfl, h]
    exact ⟨rfl, unfinished⟩
  | cons poll polls ih =>
    obtain ⟨polled, endStream⟩ := poll
    have steps := pollFrame_steps h polled endStream
    rw [run_cons]
    generalize guard.pollFrame polled endStream = next at steps
    cases steps with
    | @passed guard' scanner' scan goes_on left unknown =>
      have unended : guard'.isEndStream endStream = false := by
        rw [isEndStream]
        simp only [scan]
      have guarded := ih scan
      rw [unended]
      have unfinished {passed : List (Polled × Bool)} (h : Unfinished guard'.remaining passed) :
          Unfinished guard.remaining ((polled, false) :: passed) := by
        refine ⟨fun poll hp => ?_, fun {n} hn pos => ?_⟩
        · rcases List.mem_cons.mp hp with rfl | hp
          · exact ⟨goes_on, rfl⟩
          · exact h.goes_on poll hp
        · obtain ⟨m, hm, pos, sum⟩ := left hn pos
          have := h.short hm pos
          rw [dataIn_cons, List.length_append]
          change (dataOf polled).length + (dataIn passed).length < n.toNat
          omega
      generalize (guard'.run polls).1.scan = after at guarded
      cases after with
      | scanning _ =>
        refine ⟨?_, unfinished guarded.2⟩
        rw [dataIn_cons, dataIn_cons, guarded.1]
      | clean =>
        change dataIn (_ :: _) = dataIn (_ :: _)
        rw [dataIn_cons, dataIn_cons, guarded]
      | refused =>
        obtain ⟨begins, before, after, split, short, fails⟩ := guarded
        refine ⟨?_, (polled, false) :: before, after, congrArg (_ :: ·) split, unfinished short, fails⟩
        rw [dataIn_cons, dataIn_cons]
        exact (List.prefix_append_right_inj _).mpr begins
    | @clean guard' passed scan data =>
      obtain ⟨stays, whole⟩ := run_clean scan polls
      rw [stays]
      change dataIn (_ :: _) = dataIn (_ :: _)
      rw [dataIn_cons, dataIn_cons, data, whole]
    | @refused guard' scan =>
      obtain ⟨stays, fails⟩ := run_refused scan polls
      have unended : guard'.isEndStream endStream = false := by
        rw [isEndStream]
        simp only [scan]
      rw [stays, unended]
      refine ⟨?_, [], _, rfl, ⟨nofun, fun {n} _ pos => UInt64.lt_iff_toNat_lt.mp pos⟩, fails⟩
      have none : dataIn (guard'.run polls).2 = [] := by
        rw [dataIn, List.flatten_eq_nil_iff]
        intro data hd
        obtain ⟨poll, hp, rfl⟩ := List.mem_map.mp hd
        rw [fails poll hp]
        rfl
      rw [dataIn_cons, none]
      exact List.nil_prefix

end ScanGuard

end Tgin.LocalFiles
