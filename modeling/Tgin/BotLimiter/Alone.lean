import Tgin.BotLimiter.Quotas
import Tgin.Lib.Run
import Tgin.Limit.Alike

/-! A call that runs alone ends, and if it is refused, no quota shows that it ever ran: whatever requests follow are answered
    as if it had not been made (`refused_unseen`). -/

namespace Tgin.BotLimiter
open Limit

/-- Forgets the keys whose quota is back to a fresh key's at `now`. -/
def sweep (l : BotLimiter) (now : Instant) : BotLimiter :=
  { l with global := l.global.retainRecent now, chat := l.chat.retainRecent now, group := l.group.retainRecent now }

/-- The states that operations on single quotas, in any order, may bring a new limiter to. -/
inductive Reached : BotLimiter → Prop where
  | new {cfg : RateLimit} {chatHasher groupHasher : ChatKey → Nat} {l : BotLimiter}
    (h : new cfg chatHasher groupHasher = .ok l) : Reached l
  | book {l : BotLimiter} (h : Reached l) (now : Instant) (source maxDelay : Duration) :
    Reached { l with global := (l.global.acquire now source maxDelay).2 }
  | bookChat {l : BotLimiter} (h : Reached l) (key : ChatKey) (now : Instant) (maxDelay : Duration) :
    Reached { l with chat := (l.chat.acquire key now maxDelay).2 }
  | bookGroup {l : BotLimiter} (h : Reached l) (key : ChatKey) (now : Instant) (maxDelay : Duration) :
    Reached { l with group := (l.group.acquire key now maxDelay).2 }
  | unbook {l : BotLimiter} (h : Reached l) (booked : Booked) : Reached (l.unbook booked)
  | sweep {l : BotLimiter} (h : Reached l) (now : Instant) : Reached (l.sweep now)

/-! ### Calls alone -/

/-- What the call returned, if it has. -/
def Call.result (call : Call) : Option (Except Limited Admitted) :=
  match call.pc with
  | .returned result => some result
  | _ => none

/-- So many steps of a call, with no other between them. -/
def Call.run : Nat → Call → BotLimiter → Call × BotLimiter
  | 0, call, l => (call, l)
  | steps + 1, call, l => let (call, l, _) := call.step l; run steps call l

/-- How far the call is from its end: each pass starts later than the one before it. -/
def Call.rank (maxDelay : Duration) (call : Call) : Nat :=
  match call.pc with
  | .visit rest => (maxDelay - call.start) * 8 + 2 * rest.length + 5
  | .book _ rest => (maxDelay - call.start) * 8 + 2 * rest.length + 6
  | .undo rest _ => rest.length + 1
  | .returned _ => 0

/-- A call run to its end, which `acquire_returns` says it reaches. -/
def acquire (l : BotLimiter) (chat : Option ChatKey) (now : Instant) : Option (Except Limited Admitted) × BotLimiter :=
  let call := Call.new chat now
  let (call, l) := call.run (call.rank l.maxDelay) l
  (call.result, l)

/-- A request to the limiter, or to one of its quotas. -/
inductive Request where
  | acquire (chat : Option ChatKey) (now : Instant)
  | global (now : Instant) (source maxDelay : Duration)
  | chat (key : ChatKey) (now : Instant) (maxDelay : Duration)
  | group (key : ChatKey) (now : Instant) (maxDelay : Duration)
  | sweep (now : Instant)

inductive Answer where
  | acquire (result : Option (Except Limited Admitted))
  | global (result : Except Denied Booking)
  | keyed (result : Except Denied Duration)
  | swept

def Request.time : Request → Instant
  | .acquire _ now | .global now .. | .chat _ now _ | .group _ now _ | .sweep now => now

/-- What a request is answered. -/
def serve (r : Request) (l : BotLimiter) : Answer × BotLimiter :=
  match r with
  | .acquire chat now =>
    let (result, l) := l.acquire chat now
    (.acquire result, l)
  | .global now source maxDelay =>
    let (result, global) := l.global.acquire now source maxDelay
    (.global result, { l with global })
  | .chat key now maxDelay =>
    let (result, chat) := l.chat.acquire key now maxDelay
    (.keyed (result.map (·.delay)), { l with chat })
  | .group key now maxDelay =>
    let (result, group) := l.group.acquire key now maxDelay
    (.keyed (result.map (·.delay)), { l with group })
  | .sweep now => (.swept, l.sweep now)

/-! ### A call ends -/

/-- A call asks for nothing past the longest delay. -/
structure Call.Bounded (maxDelay : Duration) (call : Call) : Prop where
  start : call.start ≤ call.admitted.delay
  admitted : call.admitted.delay ≤ maxDelay

section
variable {call : Call} {l l' : BotLimiter} {maxDelay source : Duration} {now : Instant} {bucket : Bucket} {b : Booked}

theorem bookKeyed_le {limiter limiter' : KeyedLimiter ChatKey} {scope : Scope} {key : ChatKey} {hold : ChatKey → Admit → Hold}
    (hs : source ≤ maxDelay) (h : bookKeyed limiter scope key hold now source maxDelay = (.ok b, limiter')) :
    b.delay ≤ maxDelay ∧ ∃ admission, b.hold = hold key admission := by
  obtain ⟨-, admission, acquired, rfl⟩ := bookKeyed_ok h
  refine ⟨(Nat.min_le_left ..).trans ?_, admission, rfl⟩
  have le := Nat.add_le_add_left (KeyedLimiter.acquire_le acquired) source
  rwa [Nat.add_sub_cancel' hs] at le

theorem book_le (hs : source ≤ l.maxDelay) (h : l.book bucket now source = (.ok b, l')) :
    b.delay ≤ l.maxDelay ∧ b.hold.bucket = bucket := by
  cases bucket with
  | global =>
    unfold book at h
    dsimp only at h
    split at h
    · rename_i booking global acquired
      cases h
      exact ⟨SlotCalendar.acquire_le acquired, rfl⟩
    · cases h
  | chat key =>
    simp only [book, Prod.mk.injEq] at h
    obtain ⟨le, admission, hold⟩ := bookKeyed_le hs (Prod.ext h.1 rfl)
    exact ⟨le, by rw [hold]; rfl⟩
  | group key =>
    simp only [book, Prod.mk.injEq] at h
    obtain ⟨le, admission, hold⟩ := bookKeyed_le hs (Prod.ext h.1 rfl)
    exact ⟨le, by rw [hold]; rfl⟩

theorem book_maxDelay (l : BotLimiter) (bucket : Bucket) (now : Instant) (source : Duration) :
    (l.book bucket now source).2.maxDelay = l.maxDelay := by
  unfold book
  split
  · split
    · rfl
    · rfl
  · rfl
  · rfl

theorem unbook_maxDelay (l : BotLimiter) (b : Booked) : (l.unbook b).maxDelay = l.maxDelay := (same_unbook l b).maxDelay

theorem step_maxDelay (call : Call) (l : BotLimiter) : (call.step l).2.1.maxDelay = l.maxDelay := by
  unfold Call.step
  split
  · split
    · rfl
    · rfl
  · split
    · rfl
    · rfl
    · split
      · rfl
      · exact unbook_maxDelay ..
  · have same := book_maxDelay l ‹_› call.now call.start
    split
    · rename_i h
      rwa [h] at same
    · rename_i h
      rwa [h] at same
  · rfl
  · split
    · rfl
    · exact unbook_maxDelay ..
  · rfl

theorem Call.step_returned (returned : call.result ≠ none) : call.step l = (call, l, none) := by
  unfold result at returned
  unfold step
  split at returned
  · rename_i result hpc
    rw [hpc]
  · exact absurd rfl returned

theorem Call.Bounded.step (h : call.Bounded l.maxDelay) (running : call.result = none) :
    (call.step l).1.Bounded l.maxDelay ∧ (call.step l).1.rank l.maxDelay < call.rank l.maxDelay := by
  obtain ⟨start, admitted⟩ := h
  unfold Call.step Call.rank
  cases hpc : call.pc with
  | visit rest =>
    cases rest with
    | nil =>
      dsimp only
      split
      · exact ⟨⟨start, admitted⟩, Nat.succ_pos _⟩
      · rename_i late
        refine ⟨⟨Nat.le_refl _, admitted⟩, ?_⟩
        -- The next pass starts later.
        have later : call.start < call.admitted.delay := Nat.lt_of_le_of_ne start (Ne.symm late)
        have fewer : l.maxDelay - call.admitted.delay < l.maxDelay - call.start :=
          Nat.sub_lt_sub_left (later.trans_le admitted) later
        have less (a b : Nat) (h : a < b) : a * 8 + 2 * 3 + 5 < b * 8 + 2 * 0 + 5 := by omega
        exact less _ _ fewer
    | cons scope rest =>
      dsimp only
      simp only [List.length_cons]
      split
      · exact ⟨⟨start, admitted⟩, by dsimp only; omega⟩
      · exact ⟨⟨start, admitted⟩, by dsimp only; omega⟩
      · split
        · exact ⟨⟨start, admitted⟩, by dsimp only; omega⟩
        · exact ⟨⟨start, admitted⟩, by dsimp only; omega⟩
  | book bucket rest =>
    dsimp only
    split
    · rename_i b l' hb
      obtain ⟨grows, -, bounded⟩ := le_raise call.admitted bucket.scope b.delay
      exact ⟨⟨start.trans grows, bounded _ admitted (book_le (start.trans admitted) hb).1⟩, by dsimp only; omega⟩
    · refine ⟨⟨start, admitted⟩, ?_⟩
      change 3 + 1 < _
      omega
  | undo rest limited =>
    cases rest with
    | nil => exact ⟨⟨start, admitted⟩, Nat.succ_pos _⟩
    | cons scope rest =>
      dsimp only
      split
      · exact ⟨⟨start, admitted⟩, Nat.lt_succ_self _⟩
      · exact ⟨⟨start, admitted⟩, Nat.lt_succ_self _⟩
  | returned result =>
    rw [Call.result, hpc] at running
    cases running

theorem Call.Bounded.run_returns (h : call.Bounded l.maxDelay) {steps : Nat} (enough : call.rank l.maxDelay ≤ steps) :
    ((call.run steps l).1.result).isSome := by
  induction steps generalizing call l with
  | zero =>
    by_cases running : call.result = none
    · exact absurd ((h.step running).2.trans_le enough) (Nat.not_lt_zero _)
    · exact Option.isSome_iff_ne_none.mpr running
  | succ steps ih =>
    by_cases running : call.result = none
    · obtain ⟨bounded, less⟩ := h.step running
      rw [← step_maxDelay call l] at bounded less
      exact ih bounded (Nat.le_of_lt_succ (less.trans_le (by rwa [step_maxDelay])))
    · rw [Call.run, step_returned running]
      have ended : call.rank l.maxDelay = 0 := by
        unfold result at running
        split at running
        · rename_i hpc
          rw [rank, hpc]
        · exact absurd rfl running
      exact ih h (ended ▸ Nat.zero_le _)

/-- A call that runs alone returns. -/
theorem acquire_returns (l : BotLimiter) (chat : Option ChatKey) (now : Instant) : ((l.acquire chat now).1).isSome := by
  have bounded : (Call.new chat now).Bounded l.maxDelay := ⟨Nat.le_refl _, Nat.zero_le _⟩
  exact bounded.run_returns (Nat.le_refl _)

end

/-! ### What a call leaves -/

/-- The quotas of a scope answer alike from `time` on. -/
def AlikeAt (time : Instant) (l l' : BotLimiter) : Scope → Prop
  | .global => l.global.Alike time l'.global
  | .chat => l.chat.Alike l'.chat
  | .group => l.group.Alike l'.group

/-- The quotas of a scope are the same. -/
def SameAt (l l' : BotLimiter) : Scope → Prop
  | .global => l'.global = l.global
  | .chat => l'.chat = l.chat
  | .group => l'.group = l.group

def Sorted (l : BotLimiter) : Prop := l.global.state.slots.Pairwise (· ≤ ·)

section
variable {time now : Instant} {source : Duration} {l l' l'' : BotLimiter} {scope : Scope} {bucket : Bucket} {b : Booked}

theorem AlikeAt.refl (time : Instant) (l : BotLimiter) (scope : Scope) : AlikeAt time l l scope := by
  cases scope with
  | global => exact SlotCalendar.Alike.refl ..
  | chat => exact KeyedLimiter.Alike.refl ..
  | group => exact KeyedLimiter.Alike.refl ..

theorem AlikeAt.symm (h : AlikeAt time l l' scope) : AlikeAt time l' l scope := by
  cases scope with
  | global => exact SlotCalendar.Alike.symm h
  | chat => exact KeyedLimiter.Alike.symm h
  | group => exact KeyedLimiter.Alike.symm h

theorem AlikeAt.trans (h : AlikeAt time l l' scope) (h' : AlikeAt time l' l'' scope) : AlikeAt time l l'' scope := by
  cases scope with
  | global => exact SlotCalendar.Alike.trans h h'
  | chat => exact KeyedLimiter.Alike.trans h h'
  | group => exact KeyedLimiter.Alike.trans h h'

theorem AlikeAt.mono (h : AlikeAt time l l' scope) (hnow : time ≤ now) : AlikeAt now l l' scope := by
  cases scope with
  | global => exact SlotCalendar.Alike.mono h hnow
  | chat => exact h
  | group => exact h

theorem SameAt.alikeAt (h : SameAt l l' scope) (time : Instant) : AlikeAt time l l' scope := by
  cases scope with
  | global =>
    rw [AlikeAt, show l'.global = l.global from h]
    exact SlotCalendar.Alike.refl ..
  | chat =>
    rw [AlikeAt, show l'.chat = l.chat from h]
    exact KeyedLimiter.Alike.refl ..
  | group =>
    rw [AlikeAt, show l'.group = l.group from h]
    exact KeyedLimiter.Alike.refl ..

theorem SameAt.unbook (h : SameAt l l' b.hold.bucket.scope) : SameAt (l.unbook b) (l'.unbook b) b.hold.bucket.scope := by
  obtain ⟨hold, delay⟩ := b
  cases hold with
  | global booking => exact congrArg (·.cancel booking) (show l'.global = l.global from h)
  | chat key admission => exact congrArg (·.cancel key admission) (show l'.chat = l.chat from h)
  | group key admission => exact congrArg (·.cancel key admission) (show l'.group = l.group from h)

/-- The quotas of the other scopes stay. -/
theorem book_other (l : BotLimiter) (now : Instant) (source : Duration) (ne : scope ≠ bucket.scope) :
    SameAt l (l.book bucket now source).2 scope := by
  cases bucket with
  | global =>
    unfold book
    dsimp only
    cases scope with
    | global => exact absurd rfl ne
    | chat => split <;> rfl
    | group => split <;> rfl
  | chat key =>
    cases scope with
    | chat => exact absurd rfl ne
    | global => rfl
    | group => rfl
  | group key =>
    cases scope with
    | group => exact absurd rfl ne
    | global => rfl
    | chat => rfl

theorem unbook_other (l : BotLimiter) (ne : scope ≠ b.hold.bucket.scope) : SameAt l (l.unbook b) scope := by
  obtain ⟨hold, delay⟩ := b
  cases hold with
  | global booking =>
    cases scope with
    | global => exact absurd rfl ne
    | chat => rfl
    | group => rfl
  | chat key admission =>
    cases scope with
    | chat => exact absurd rfl ne
    | global => rfl
    | group => rfl
  | group key admission =>
    cases scope with
    | group => exact absurd rfl ne
    | global => rfl
    | chat => rfl

section
variable {limiter limiter' : KeyedLimiter ChatKey} {key : ChatKey} {maxDelay : Duration}

theorem bookKeyed_alike (h : limiter.Alike limiter') (scope : Scope) (hold : ChatKey → Admit → Hold) :
    (bookKeyed limiter' scope key hold now source maxDelay).1.map (·.delay) =
        (bookKeyed limiter scope key hold now source maxDelay).1.map (·.delay) ∧
      (bookKeyed limiter scope key hold now source maxDelay).2.Alike (bookKeyed limiter' scope key hold now source maxDelay).2 := by
  unfold bookKeyed
  cases Instant.checkedAdd now source with
  | none => exact ⟨rfl, h⟩
  | some start =>
    have answered := h.acquire key start (maxDelay - source)
    dsimp only
    revert answered
    rcases limiter.acquire key start (maxDelay - source) with ⟨result, m⟩
    rcases limiter'.acquire key start (maxDelay - source) with ⟨result', m'⟩
    rintro ⟨answer, alike⟩
    cases result with
    | error denied =>
      cases result' with
      | error denied' =>
        cases answer
        exact ⟨rfl, alike⟩
      | ok admission' => cases answer
    | ok admission =>
      cases result' with
      | error denied' => cases answer
      | ok admission' =>
        have delay : admission'.delay = admission.delay := Except.ok.inj answer
        exact ⟨congrArg (fun d => Except.ok (Duration.saturatingAdd source d)) delay, alike⟩

theorem bookKeyed_undo (h : limiter.Alike limiter') (scope : Scope) (hold : ChatKey → Admit → Hold) (key : ChatKey) (now : Instant)
    (source maxDelay : Duration) :
    match (bookKeyed limiter' scope key hold now source maxDelay).1 with
    | .error _ => limiter.Alike (bookKeyed limiter' scope key hold now source maxDelay).2
    | .ok b => ∃ admission, b.hold = hold key admission ∧
        limiter.Alike ((bookKeyed limiter' scope key hold now source maxDelay).2.cancel key admission) := by
  unfold bookKeyed
  cases Instant.checkedAdd now source with
  | none => exact h
  | some start =>
    have undone := h.undo key start (maxDelay - source)
    dsimp only
    revert undone
    rcases limiter'.acquire key start (maxDelay - source) with ⟨result, m⟩
    cases result with
    | error denied => exact id
    | ok admission => exact fun undone => ⟨admission, rfl, undone⟩

end

/-- It stays so when what is held of the quotas is let go. -/
theorem SameAt.elim (h : SameAt l l' scope) {held : Option Booked} (own : ∀ b ∈ held, b.hold.bucket.scope = scope)
    (time : Instant) : AlikeAt time (held.elim l l.unbook) (held.elim l' l'.unbook) scope := by
  cases held with
  | none => exact h.alikeAt time
  | some b =>
    obtain rfl := own b rfl
    exact h.unbook.alikeAt time

/-- A booking is answered alike. -/
theorem book_alike (h : AlikeAt time l l' bucket.scope) (hnow : time ≤ now) (same : l'.maxDelay = l.maxDelay) (source : Duration) :
    (l'.book bucket now source).1.map (·.delay) = (l.book bucket now source).1.map (·.delay) ∧
      AlikeAt now (l.book bucket now source).2 (l'.book bucket now source).2 bucket.scope := by
  unfold book
  rw [same]
  cases bucket with
  | global =>
    have answered := SlotCalendar.Alike.acquire h hnow source l.maxDelay
    dsimp only
    revert answered
    rcases l.global.acquire now source l.maxDelay with ⟨result, c⟩
    rcases l'.global.acquire now source l.maxDelay with ⟨result', c'⟩
    rintro ⟨answer, alike⟩
    obtain rfl : result' = result := answer
    cases result' with
    | error denied => exact ⟨rfl, alike⟩
    | ok booking => exact ⟨rfl, alike⟩
  | chat key => exact bookKeyed_alike h _ _
  | group key => exact bookKeyed_alike h _ _

/-- A booking that is refused, or cancelled at once, leaves the quota. -/
theorem undo_book (h : AlikeAt time l l' bucket.scope) (hnow : time ≤ now) (sorted : l'.Sorted) (source : Duration) :
    match (l'.book bucket now source).1 with
    | .error _ => AlikeAt now l (l'.book bucket now source).2 bucket.scope
    | .ok b => b.hold.bucket = bucket ∧ AlikeAt now l ((l'.book bucket now source).2.unbook b) bucket.scope := by
  unfold book
  cases bucket with
  | global =>
    have undone := SlotCalendar.Alike.undo h hnow sorted source l'.maxDelay
    dsimp only
    revert undone
    rcases l'.global.acquire now source l'.maxDelay with ⟨result, c⟩
    cases result with
    | error denied => exact id
    | ok booking => exact fun undone => ⟨rfl, undone⟩
  | chat key =>
    have undone := bookKeyed_undo h .chat .chat key now source l'.maxDelay
    dsimp only
    revert undone
    rcases bookKeyed l'.chat .chat key .chat now source l'.maxDelay with ⟨result, m⟩
    cases result with
    | error limited => exact id
    | ok b =>
      rintro ⟨admission, hold, undone⟩
      obtain ⟨_, delay⟩ := b
      obtain rfl := hold
      exact ⟨rfl, undone⟩
  | group key =>
    have undone := bookKeyed_undo h .group .group key now source l'.maxDelay
    dsimp only
    revert undone
    rcases bookKeyed l'.group .group key .group now source l'.maxDelay with ⟨result, m⟩
    cases result with
    | error limited => exact id
    | ok b =>
      rintro ⟨admission, hold, undone⟩
      obtain ⟨_, delay⟩ := b
      obtain rfl := hold
      exact ⟨rfl, undone⟩

theorem Sorted.book (h : l.Sorted) (bucket : Bucket) (now : Instant) (source : Duration) : (l.book bucket now source).2.Sorted := by
  cases bucket with
  | global =>
    have sorted := @SlotCalendar.sorted_acquire now source l.maxDelay l.global h
    unfold BotLimiter.book
    dsimp only
    split
    · rename_i acquired
      rwa [acquired] at sorted
    · rename_i acquired
      rwa [acquired] at sorted
  | chat key => exact h
  | group key => exact h

theorem Sorted.unbook (h : l.Sorted) (b : Booked) : (l.unbook b).Sorted := by
  obtain ⟨hold, delay⟩ := b
  cases hold with
  | global booking => exact SlotCalendar.sorted_cancel h booking
  | chat key admission => exact h
  | group key admission => exact h

theorem Reached.sorted (h : Reached l) : l.Sorted := by
  induction h with
  | new h =>
    rw [Sorted, (SlotCalendar.new_charged (new_eq_ok h).1).2.1]
    exact .nil
  | book h now source maxDelay ih => exact SlotCalendar.sorted_acquire ih
  | bookChat h key now maxDelay ih => exact ih
  | bookGroup h key now maxDelay ih => exact ih
  | unbook h booked ih => exact ih.unbook booked
  | sweep h now ih => exact SlotCalendar.sorted_fold _ ih now

/-- From `time` on the limiters answer alike. -/
structure Alike (time : Instant) (l l' : BotLimiter) : Prop where
  maxDelay : l'.maxDelay = l.maxDelay
  sorted : l.Sorted
  sorted' : l'.Sorted
  quotas : ∀ scope, AlikeAt time l l' scope

/-- A call is about to book only what it does not hold, and holds nothing of what it has undone. -/
def Call.Orderly (call : Call) : Prop :=
  match call.pc with
  | .book bucket _ => call.booked bucket.scope = none
  | .undo rest _ => ∀ scope ∉ rest, call.booked scope = none
  | .returned (.error _) => ∀ scope, call.booked scope = none
  | _ => True

/-- But for the bookings the call holds, the limiter answers as `origin` does. -/
structure Call.Beside (origin : BotLimiter) (call : Call) (l : BotLimiter) : Prop where
  maxDelay : l.maxDelay = origin.maxDelay
  sorted : l.Sorted
  held : ∀ scope, ∀ b ∈ call.booked scope, b.hold.bucket.scope = scope
  released : ∀ scope, AlikeAt call.now origin ((call.booked scope).elim l l.unbook) scope

theorem Call.Orderly.step {call : Call} (h : call.Orderly) (l : BotLimiter) : (call.step l).1.Orderly := by
  unfold Call.Orderly at h
  unfold Call.step
  cases hpc : call.pc with
  | visit rest =>
    cases rest with
    | nil =>
      dsimp only
      split
      · trivial
      · trivial
    | cons scope rest =>
      dsimp only
      split
      · trivial
      · rename_i bucket hbucket hfree
        obtain rfl := bucket_scope hbucket
        exact hfree
      · rename_i bucket early hbucket hearly
        obtain rfl := bucket_scope hbucket
        split
        · trivial
        · exact Function.update_self ..
  | book bucket rest =>
    dsimp only
    split
    · trivial
    · exact fun scope hs => absurd (List.mem_reverse.mpr (mem_scopes scope)) hs
  | undo rest limited =>
    rw [hpc] at h
    cases rest with
    | nil => exact fun scope => h scope List.not_mem_nil
    | cons scope rest =>
      have others (scope' : Scope) (hs : scope' ∉ rest) (ne : scope' ≠ scope) : call.booked scope' = none :=
        h scope' fun hm => hs ((List.mem_cons.mp hm).resolve_left ne)
      dsimp only
      split
      · rename_i hnone
        intro scope' hs
        rcases eq_or_ne scope' scope with rfl | ne
        · exact hnone
        · exact others scope' hs ne
      · intro scope' hs
        rcases eq_or_ne scope' scope with rfl | ne
        · exact Function.update_self ..
        · exact (Function.update_of_ne ne ..).trans (others scope' hs ne)
  | returned result =>
    rw [hpc] at h
    unfold Call.Orderly
    rw [hpc]
    exact h

theorem Call.Beside.free {origin : BotLimiter} {call : Call} (h : call.Beside origin l) (free : call.booked scope = none) :
    AlikeAt call.now origin l scope := by
  have released := h.released scope
  rwa [free] at released

theorem Call.Beside.taken {origin : BotLimiter} {call : Call} (h : call.Beside origin l) (taken : call.booked scope = some b) :
    AlikeAt call.now origin (l.unbook b) scope := by
  have released := h.released scope
  rwa [taken] at released

theorem Call.Beside.step {origin : BotLimiter} {call : Call} (h : call.Beside origin l) (orderly : call.Orderly) :
    (call.step l).1.Beside origin (call.step l).2.1 := by
  have effect := Call.step_effect (fun bucket rest hpc => by unfold Call.Orderly at orderly; rwa [hpc] at orderly) l
  have maxDelay := (step_maxDelay call l).trans h.maxDelay
  generalize call.step l = out at effect maxDelay
  cases effect with
  | quiet now booked =>
    refine ⟨maxDelay, h.sorted, ?_, ?_⟩
    · rw [booked]
      exact h.held
    · rw [booked, now]
      exact h.released
  | @refused call' l' bucket e now free booked book =>
    have undone := undo_book (h.free free) (Nat.le_refl _) h.sorted call.start
    have sorted := h.sorted.book bucket call.now call.start
    rw [book] at undone sorted
    refine ⟨maxDelay, sorted, ?_, fun scope => ?_⟩
    · rw [booked]
      exact h.held
    · rw [booked, now]
      rcases eq_or_ne scope bucket.scope with rfl | ne
      · rw [free]
        exact undone
      · have same := book_other l call.now call.start ne
        rw [book] at same
        exact (h.released scope).trans (same.elim (h.held scope) _)
  | @granted call' l' bucket b now free booked book =>
    have undone := undo_book (h.free free) (Nat.le_refl _) h.sorted call.start
    have sorted := h.sorted.book bucket call.now call.start
    rw [book] at undone sorted
    obtain ⟨own, undone⟩ := undone
    refine ⟨maxDelay, sorted, fun scope b' hb' => ?_, fun scope => ?_⟩
    · rw [booked] at hb'
      rcases eq_or_ne scope bucket.scope with rfl | ne
      · rw [Function.update_self] at hb'
        rw [← Option.some.inj hb', own]
      · rw [Function.update_of_ne ne] at hb'
        exact h.held scope b' hb'
    · rw [booked, now]
      rcases eq_or_ne scope bucket.scope with rfl | ne
      · rw [Function.update_self]
        exact undone
      · rw [Function.update_of_ne ne]
        have same := book_other l call.now call.start ne
        rw [book] at same
        exact (h.released scope).trans (same.elim (h.held scope) _)
  | @cancelled call' scope b now held booked =>
    have own := h.held scope b held
    refine ⟨maxDelay, h.sorted.unbook b, fun scope' b' hb' => ?_, fun scope' => ?_⟩
    · rw [booked] at hb'
      exact h.held scope' b' (of_mem_update_none hb').2
    · rw [booked, now]
      rcases eq_or_ne scope' scope with rfl | ne
      · rw [Function.update_self]
        exact h.taken held
      · rw [Function.update_of_ne ne]
        have same := unbook_other l (b := b) (own.symm ▸ ne)
        exact (h.released scope').trans (same.elim (h.held scope') _)

theorem step_now (call : Call) (l : BotLimiter) : (call.step l).1.now = call.now := by
  unfold Call.step
  split
  · split
    · rfl
    · rfl
  · split
    · rfl
    · rfl
    · split
      · rfl
      · rfl
  · split
    · rfl
    · rfl
  · rfl
  · split
    · rfl
    · rfl
  · rfl

theorem Call.Beside.run {origin : BotLimiter} {call : Call} (h : call.Beside origin l) (orderly : call.Orderly) (steps : Nat) :
    (call.run steps l).1.Orderly ∧ (call.run steps l).1.Beside origin (call.run steps l).2 := by
  induction steps generalizing call l with
  | zero => exact ⟨orderly, h⟩
  | succ steps ih => exact ih (h.step orderly) (orderly.step l)

/-- A call that has just come. -/
theorem Call.beside_new (sorted : l.Sorted) (chat : Option ChatKey) (now : Instant) : (Call.new chat now).Beside l l :=
  ⟨rfl, sorted, nofun, fun scope => .refl now l scope⟩

/-! ### Two calls in step -/

/-- Two calls that have gone alike, each beside a limiter, where the limiters answer alike. -/
structure Twins (origin origin' : BotLimiter) (call : Call) (l : BotLimiter) (call' : Call) (l' : BotLimiter) : Prop where
  beside : call.Beside origin l
  beside' : call'.Beside origin' l'
  orderly : call.Orderly
  orderly' : call'.Orderly
  base : ∀ scope, AlikeAt call.now origin origin' scope
  maxDelay : l'.maxDelay = l.maxDelay
  same : call' = { call with booked := call'.booked }
  delays : ∀ scope, (call'.booked scope).map (·.delay) = (call.booked scope).map (·.delay)
  alike : ∀ scope, AlikeAt call.now l l' scope

namespace Twins
variable {origin origin' : BotLimiter} {call call' : Call}

/-- What both hold of a scope, they let go alike. -/
theorem unbook (h : Twins origin origin' call l call' l') {b b' : Booked} (taken : call.booked scope = some b)
    (taken' : call'.booked scope = some b') (scope' : Scope) : AlikeAt call.now (l.unbook b) (l'.unbook b') scope' := by
  rcases eq_or_ne scope' scope with rfl | ne
  · have now : call'.now = call.now := by rw [h.same]
    exact (h.beside.taken taken).symm.trans ((h.base scope').trans (now ▸ h.beside'.taken taken'))
  · have same := unbook_other l (b := b) ((h.beside.held scope b taken).symm ▸ ne)
    have same' := unbook_other l' (b := b') ((h.beside'.held scope b' taken').symm ▸ ne)
    exact (same.alikeAt call.now).symm.trans ((h.alike scope').trans (same'.alikeAt call.now))

theorem book (h : Twins origin origin' call l call' l') (bucket : Bucket) (scope : Scope) :
    AlikeAt call.now (l.book bucket call.now call.start).2 (l'.book bucket call.now call.start).2 scope := by
  rcases eq_or_ne scope bucket.scope with rfl | ne
  · exact (book_alike (h.alike bucket.scope) (Nat.le_refl _) h.maxDelay call.start).2
  · have same := book_other l call.now call.start ne
    have same' := book_other l' call.now call.start ne
    exact (same.alikeAt call.now).symm.trans ((h.alike scope).trans (same'.alikeAt call.now))

theorem delays_update {booked booked' : Scope → Option Booked}
    (h : ∀ scope, (booked' scope).map (·.delay) = (booked scope).map (·.delay)) (scope : Scope) {b b' : Option Booked}
    (hb : b'.map (·.delay) = b.map (·.delay)) (scope' : Scope) :
    (Function.update booked' scope b' scope').map (·.delay) = (Function.update booked scope b scope').map (·.delay) := by
  rcases eq_or_ne scope' scope with rfl | ne
  · rw [Function.update_self, Function.update_self, hb]
  · rw [Function.update_of_ne ne, Function.update_of_ne ne, h]

theorem step_same (h : Twins origin origin' call l call' l') :
    (call'.step l').1 = { (call.step l).1 with booked := (call'.step l').1.booked } ∧
      (∀ scope, ((call'.step l').1.booked scope).map (·.delay) = ((call.step l).1.booked scope).map (·.delay)) ∧
      ∀ scope, AlikeAt call.now (call.step l).2.1 (call'.step l').2.1 scope := by
  have book := h.book
  have delays := h.delays
  have alike := h.alike
  obtain ⟨booked', rfl⟩ : ∃ booked', call' = { call with booked := booked' } := ⟨_, h.same⟩
  dsimp only at delays
  unfold Call.step
  cases hpc : call.pc with
  | visit rest =>
    cases rest with
    | nil =>
      dsimp only
      split
      · exact ⟨rfl, delays, alike⟩
      · exact ⟨rfl, delays, alike⟩
    | cons scope rest =>
      dsimp only
      have delay := delays scope
      cases BotLimiter.bucket call.chat scope with
      | none => exact ⟨rfl, delays, alike⟩
      | some bucket =>
        cases hb : call.booked scope with
        | none =>
          rw [hb] at delay
          rw [Option.map_eq_none_iff.mp delay]
          exact ⟨rfl, delays, alike⟩
        | some early =>
          rw [hb] at delay
          obtain ⟨early', hb', delay⟩ := Option.map_eq_some_iff.mp delay
          rw [hb']
          dsimp only
          rw [delay]
          split
          · exact ⟨rfl, delays, alike⟩
          · exact ⟨rfl, delays_update delays scope rfl, h.unbook hb hb'⟩
  | book bucket rest =>
    have answer := (book_alike (h.alike bucket.scope) (Nat.le_refl _) h.maxDelay call.start).1
    have alike := book bucket
    dsimp only
    revert answer alike
    rcases l.book bucket call.now call.start with ⟨result, m⟩
    rcases l'.book bucket call.now call.start with ⟨result', m'⟩
    intro answer alike
    cases result with
    | error limited =>
      cases result' with
      | error limited' =>
        cases answer
        exact ⟨rfl, delays, alike⟩
      | ok b' => cases answer
    | ok b =>
      cases result' with
      | error limited' => cases answer
      | ok b' =>
        have delay : b'.delay = b.delay := Except.ok.inj answer
        dsimp only
        rw [delay]
        exact ⟨rfl, delays_update delays bucket.scope (congrArg some delay), alike⟩
  | undo rest limited =>
    cases rest with
    | nil => exact ⟨rfl, delays, alike⟩
    | cons scope rest =>
      dsimp only
      have delay := delays scope
      cases hb : call.booked scope with
      | none =>
        rw [hb] at delay
        rw [Option.map_eq_none_iff.mp delay]
        exact ⟨rfl, delays, alike⟩
      | some b =>
        rw [hb] at delay
        obtain ⟨b', hb', -⟩ := Option.map_eq_some_iff.mp delay
        rw [hb']
        exact ⟨rfl, delays_update delays scope rfl, h.unbook hb hb'⟩
  | returned result =>
    dsimp only
    exact ⟨by rw [hpc], delays, alike⟩

theorem step (h : Twins origin origin' call l call' l') :
    Twins origin origin' (call.step l).1 (call.step l).2.1 (call'.step l').1 (call'.step l').2.1 := by
  obtain ⟨same, delays, alike⟩ := h.step_same
  have now := step_now call l
  refine ⟨h.beside.step h.orderly, h.beside'.step h.orderly', h.orderly.step l, h.orderly'.step l', now ▸ h.base, ?_, same,
    delays, now ▸ alike⟩
  rw [step_maxDelay, step_maxDelay, h.maxDelay]

theorem run (h : Twins origin origin' call l call' l') (steps : Nat) :
    Twins origin origin' (call.run steps l).1 (call.run steps l).2 (call'.run steps l').1 (call'.run steps l').2 := by
  induction steps generalizing call l call' l' with
  | zero => exact h
  | succ steps ih => exact ih h.step

end Twins

theorem run_now (call : Call) (steps : Nat) (l : BotLimiter) : (call.run steps l).1.now = call.now := by
  induction steps generalizing call l with
  | zero => rfl
  | succ steps ih => exact (ih _ _).trans (step_now call l)

/-- A refused call leaves the limiter answering as before it. -/
theorem refused_alike (sorted : l.Sorted) {chat : Option ChatKey} {limited : Limited}
    (refused : (l.acquire chat now).1 = some (.error limited)) : l.Alike now (l.acquire chat now).2 := by
  obtain ⟨orderly, beside⟩ := (Call.beside_new sorted chat now).run trivial ((Call.new chat now).rank l.maxDelay)
  have time := run_now (Call.new chat now) ((Call.new chat now).rank l.maxDelay) l
  unfold acquire at refused ⊢
  dsimp only at refused ⊢
  generalize (Call.new chat now).run ((Call.new chat now).rank l.maxDelay) l = out at *
  obtain ⟨call, l'⟩ := out
  have free (scope : Scope) : call.booked scope = none := by
    unfold Call.result at refused
    unfold Call.Orderly at orderly
    dsimp only at refused orderly
    split at refused
    · rename_i hpc
      rw [hpc, Option.some.inj refused] at orderly
      exact orderly scope
    · cases refused
  refine ⟨beside.maxDelay, sorted, beside.sorted, fun scope => ?_⟩
  have released := beside.free (free scope)
  rwa [time] at released

/-- A call is answered alike. -/
theorem Alike.acquire (h : Alike time l l') (hnow : time ≤ now) (chat : Option ChatKey) :
    (l'.acquire chat now).1 = (l.acquire chat now).1 ∧ Alike now (l.acquire chat now).2 (l'.acquire chat now).2 := by
  have start : Twins l l' (Call.new chat now) l (Call.new chat now) l' :=
    ⟨Call.beside_new h.sorted chat now, Call.beside_new h.sorted' chat now, trivial, trivial, fun scope => (h.quotas scope).mono hnow,
      h.maxDelay, rfl, fun _ => rfl, fun scope => (h.quotas scope).mono hnow⟩
  have ended := start.run ((Call.new chat now).rank l.maxDelay)
  have running := run_now (Call.new chat now) ((Call.new chat now).rank l.maxDelay) l
  unfold BotLimiter.acquire
  dsimp only
  rw [h.maxDelay]
  refine ⟨?_, ended.maxDelay, ended.beside.sorted, ended.beside'.sorted, fun scope => ?_⟩
  · rw [Call.result, Call.result, ended.same]
  · have alike := ended.alike scope
    rwa [running] at alike

theorem Alike.serve (h : Alike time l l') {r : Request} (hr : time ≤ r.time) :
    (serve r l').1 = (serve r l).1 ∧ Alike r.time (serve r l).2 (serve r l').2 := by
  cases r with
  | acquire chat now =>
    have answered := h.acquire (show time ≤ now from hr) chat
    unfold BotLimiter.serve
    dsimp only
    revert answered
    rcases l.acquire chat now with ⟨result, m⟩
    rcases l'.acquire chat now with ⟨result', m'⟩
    rintro ⟨answer, alike⟩
    exact ⟨congrArg Answer.acquire answer, alike⟩
  | global now source maxDelay =>
    obtain ⟨answer, alike⟩ := SlotCalendar.Alike.acquire (h.quotas .global) hr source maxDelay
    refine ⟨congrArg Answer.global answer, h.maxDelay, SlotCalendar.sorted_acquire h.sorted, SlotCalendar.sorted_acquire h.sorted',
      fun scope => ?_⟩
    cases scope with
    | global => exact alike
    | chat => exact h.quotas .chat
    | group => exact h.quotas .group
  | chat key now maxDelay =>
    obtain ⟨answer, alike⟩ := KeyedLimiter.Alike.acquire (h.quotas .chat) key now maxDelay
    refine ⟨congrArg Answer.keyed answer, h.maxDelay, h.sorted, h.sorted', fun scope => ?_⟩
    cases scope with
    | global => exact (h.quotas .global).mono hr
    | chat => exact alike
    | group => exact h.quotas .group
  | group key now maxDelay =>
    obtain ⟨answer, alike⟩ := KeyedLimiter.Alike.acquire (h.quotas .group) key now maxDelay
    refine ⟨congrArg Answer.keyed answer, h.maxDelay, h.sorted, h.sorted', fun scope => ?_⟩
    cases scope with
    | global => exact (h.quotas .global).mono hr
    | chat => exact h.quotas .chat
    | group => exact alike
  | sweep now =>
    refine ⟨rfl, h.maxDelay, SlotCalendar.sorted_fold _ h.sorted now, SlotCalendar.sorted_fold _ h.sorted' now, fun scope => ?_⟩
    cases scope with
    | global => exact SlotCalendar.Alike.retainRecent (h.quotas .global) hr
    | chat => exact KeyedLimiter.Alike.retainRecent (h.quotas .chat)
    | group => exact KeyedLimiter.Alike.retainRecent (h.quotas .group)

theorem Alike.run (h : Alike time l l') {rs : List Request} (ordered : (time :: rs.map (·.time)).Pairwise (· ≤ ·)) :
    (Run.run BotLimiter.serve rs l').1 = (Run.run BotLimiter.serve rs l).1 := by
  induction rs generalizing time l l' with
  | nil => rfl
  | cons r rs ih =>
    obtain ⟨later, ordered⟩ := List.pairwise_cons.mp ordered
    obtain ⟨same, next⟩ := h.serve (later r.time List.mem_cons_self)
    rw [Run.run_cons, Run.run_cons, same, ih next ordered]

/-- In every state of the quotas a call that runs alone returns, and if it is refused, it leaves each chat's and group's
    arrival time and the calendar's bookings as they were, and whatever requests follow at later times are answered as if
    it had not been made. -/
theorem refused_unseen (h : Reached l) (chat : Option ChatKey) (now : Instant) :
    ∃ result, (l.acquire chat now).1 = some result ∧ ∀ limited, result = .error limited →
      (∀ key, (l.acquire chat now).2.chat.arrival key = l.chat.arrival key) ∧
      (∀ key, (l.acquire chat now).2.group.arrival key = l.group.arrival key) ∧
      (l.acquire chat now).2.global.retainRecent now = l.global.retainRecent now ∧
      ∀ rs : List Request, (now :: rs.map (·.time)).Pairwise (· ≤ ·) →
        (Run.run serve rs (l.acquire chat now).2).1 = (Run.run serve rs l).1 := by
  obtain ⟨result, returned⟩ := Option.isSome_iff_exists.mp (acquire_returns l chat now)
  refine ⟨result, returned, ?_⟩
  rintro limited rfl
  have alike := refused_alike h.sorted returned
  have global : l.global.Alike now (l.acquire chat now).2.global := alike.quotas .global
  refine ⟨(alike.quotas .chat).arrival, (alike.quotas .group).arrival, ?_, fun rs ordered => alike.run ordered⟩
  rw [SlotCalendar.retainRecent, SlotCalendar.retainRecent, global.quota, global.folds now (Nat.le_refl _)]

/-- One request a second, and none waits. -/
def oneASecond : RateLimit where
  mode := .reject
  maxDelay := 0
  global := { count := ⟨1, Limit.one_nonZeroU32⟩, per := 10 ^ 9, burst := ⟨1, Limit.one_nonZeroU32⟩ }
  perChat := { count := ⟨1, Limit.one_nonZeroU32⟩, per := 10 ^ 9, burst := ⟨1, Limit.one_nonZeroU32⟩ }
  perGroup := { count := ⟨1, Limit.one_nonZeroU32⟩, per := 10 ^ 9, burst := ⟨1, Limit.one_nonZeroU32⟩ }

/-- The group has been booked, the chat has not: the second quota of the two is the one that refuses. -/
theorem refused_unseen_oneASecond : ∃ l, new oneASecond (fun _ => 0) (fun _ => 0) = .ok l ∧
    let l := { l with group := (l.group.acquire (.id (-7)) 0 0).2 }
    (l.acquire (some (.id (-7))) 0).1 = some (.error { scope := .group, retryAfter := 10 ^ 9 }) ∧
      ∀ rs : List Request, (0 :: rs.map (·.time)).Pairwise (· ≤ ·) →
        (Run.run serve rs (l.acquire (some (.id (-7))) 0).2).1 = (Run.run serve rs l).1 := by
  refine ⟨_, rfl, ?_⟩
  intro l
  have reached : Reached l := (@Reached.new oneASecond _ _ _ rfl).bookGroup (.id (-7)) 0 0
  obtain ⟨result, returned, unseen⟩ := refused_unseen reached (some (.id (-7))) 0
  have refused : (l.acquire (some (.id (-7))) 0).1 = some (.error { scope := .group, retryAfter := 10 ^ 9 }) := by decide +kernel
  exact ⟨refused, (unseen _ (Option.some.inj (returned.symm.trans refused))).2.2.2⟩

end

end Tgin.BotLimiter
