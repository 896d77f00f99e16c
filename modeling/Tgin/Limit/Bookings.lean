import Mathlib.Data.List.Nodup
import Mathlib.Logic.Function.Basic
import Tgin.Limit.Keyed

/-! The bookings of a keyed limiter by the names their callers know them by: which are granted, cancelled and in effect. A
    cancellation takes the newest of its key off (`Effect`), so that what lies under a booking are always those it was made
    after (`newest_run`). -/

namespace Tgin.Limit
open Gcra

namespace KeyedLimiter

/-- A call on a keyed limiter. What a request is granted is cancelled by the name the request gave it. -/
inductive Op (K : Type) where
  | acquire (name : Nat) (key : K) (now : Instant) (maxDelay : Duration)
  | cancel (name : Nat)
  | retainRecent (now : Instant)

namespace Op
variable {K : Type}

/-- The time of a request. -/
def asks : Op K → Option Instant
  | .acquire _ _ now _ => some now
  | .cancel _ | .retainRecent _ => none

def forgets : Op K → Option Instant
  | .retainRecent now => some now
  | .acquire .. | .cancel _ => none

def names : Op K → Option Nat
  | .acquire name .. => some name
  | .cancel _ | .retainRecent _ => none

end Op

variable {K : Type} {past : Instant}

/-- No request comes with a time before one at which keys were forgotten. -/
def InTime (ops : List (Op K)) : Prop := ops.Pairwise fun op op' => ∀ past ∈ op.forgets, ∀ now ∈ op'.asks, past ≤ now

instance (ops : List (Op K)) : Decidable (InTime ops) := inferInstanceAs (Decidable (List.Pairwise ..))

/-- The calls are asked no earlier than `past`, nor than those before them have forgotten. -/
def Late (past : Instant) (ops : List (Op K)) : Prop := InTime ops ∧ ∀ op ∈ ops, ∀ now ∈ op.asks, past ≤ now

theorem Late.step {op : Op K} {ops : List (Op K)} (h : Late past (op :: ops)) :
    (∀ now ∈ op.asks, past ≤ now) ∧ Late (max past (op.forgets.getD 0)) ops := by
  obtain ⟨inTime, late⟩ := h
  obtain ⟨after, inTime⟩ := List.pairwise_cons.mp inTime
  refine ⟨late op List.mem_cons_self, inTime, fun op' hop now hnow => max_le (late op' (List.mem_cons_of_mem _ hop) now hnow) ?_⟩
  cases forgets : op.forgets with
  | none => exact Nat.zero_le now
  | some forgotten => exact after op' hop forgotten forgets now hnow

end KeyedLimiter

open KeyedLimiter (Op InTime Late)

/-! ### The book of a key -/

/-- The bookings in effect of a key, the newest first: the name and the start of each. -/
abbrev Book := List (Nat × Instant)

namespace Book

/-- The theoretical arrival time after all bookings. -/
def arrival (quota : Quota) (book : Book) : Option Nat := tat quota.interval none (book.map (·.2)).reverse

/-- What a request is answered: the delay, or when to try again. -/
def ask (quota : Quota) (book : Book) (now : Instant) (maxDelay : Duration) : Except Denied Duration :=
  (quota.book ((book.arrival quota).map .ofNat) now maxDelay).map (·.2)

variable {K : Type} [DecidableEq K]

/-- Only a cancellation of the newest booking takes it off, and nothing is ever forgotten. -/
def step (quota : Quota) (key : K) (book : Book) (op : Op K) : Book :=
  match op with
  | .acquire name key' now maxDelay =>
    if key' = key then
      match book.ask quota now maxDelay with
      | .error _ => book
      | .ok delay => (name, now + delay) :: book
    else book
  | .cancel name => if book.head?.map (·.1) = some name then book.tail else book
  | .retainRecent _ => book

def answer (quota : Quota) (key : K) (book : Book) (op : Op K) : Option (Except Denied Duration) :=
  match op with
  | .acquire _ key' now maxDelay => if key' = key then some (book.ask quota now maxDelay) else none
  | .cancel _ | .retainRecent _ => none

def answers (quota : Quota) (key : K) : Book → List (Op K) → List (Except Denied Duration)
  | _, [] => []
  | book, op :: ops => (book.answer quota key op).toList ++ answers quota key (book.step quota key op) ops

end Book

/-! ### The limiter and its bookings -/

/-- A booking granted, with its name. -/
structure Pass (K : Type) where
  name : Nat
  key : K
  charge : Charge
  deriving DecidableEq, Repr

namespace Pass
variable {K : Type} {pass : Pass K} {rest passes : List (Pass K)}

/-- When some passes start, in the order they were granted. -/
def starts (passes : List (Pass K)) : List Instant := Limit.starts (passes.map (·.charge))

@[simp] theorem starts_append (ps qs : List (Pass K)) : starts (ps ++ qs) = starts qs ++ starts ps := by
  simp [starts, Limit.starts]

/-- A booking is no more in effect, or lies on those of its key that it was made after. -/
def Lies (pass : Pass K) (rest passes : List (Pass K)) : Prop :=
  pass ∉ passes ∨ ∃ above, pass ∉ above ∧ passes = above ++ pass :: rest

theorem Lies.cons {pass new : Pass K} {rest passes : List (Pass K)} (h : Lies pass rest passes) (ne : pass ≠ new) :
    Lies pass rest (new :: passes) := by
  rcases h with gone | ⟨above, clear, rfl⟩
  · exact .inl (List.not_mem_cons_of_ne_of_not_mem ne gone)
  · exact .inr ⟨new :: above, List.not_mem_cons_of_ne_of_not_mem ne clear, rfl⟩

theorem Lies.tail {pass : Pass K} {rest passes : List (Pass K)} (h : Lies pass rest passes) (once : pass ∉ rest) :
    Lies pass rest passes.tail := by
  rcases h with gone | ⟨above, clear, rfl⟩
  · exact .inl fun mem => gone (List.mem_of_mem_tail mem)
  · cases above with
    | nil => exact .inl once
    | cons _ above => exact .inr ⟨above, fun mem => clear (List.mem_cons_of_mem _ mem), rfl⟩

theorem Lies.head {pass : Pass K} {rest passes : List (Pass K)} (h : Lies pass rest passes) (newest : passes.head? = some pass) :
    passes = pass :: rest := by
  rcases h with gone | ⟨above, clear, rfl⟩
  · exact absurd (List.mem_of_head? newest) gone
  · cases above with
    | nil => rfl
    | cons _ above =>
      cases newest
      exact absurd List.mem_cons_self clear

end Pass

structure Bookings (K : Type) [Ord K] where
  limiter : KeyedLimiter K
  /-- The names given so far. -/
  names : List Nat
  granted : List (Pass K)
  cancelled : List Nat
  /-- Those of each key granted and not cancelled while they were its newest, the newest first. -/
  inEffect : K → List (Pass K)

namespace Bookings

section
variable {K : Type} [Ord K] {b : Bookings K}

def new (limiter : KeyedLimiter K) : Bookings K := { limiter, names := [], granted := [], cancelled := [], inEffect := fun _ => [] }

/-- The book of a key. -/
def book (b : Bookings K) (key : K) : Book := (b.inEffect key).map fun pass => (pass.name, pass.charge.start)

theorem book_arrival (b : Bookings K) (key : K) (quota : Quota) :
    (b.book key).arrival quota = tat quota.interval none (Pass.starts (b.inEffect key)) := by
  rw [Book.arrival, book, Pass.starts, Limit.starts, List.map_map, List.map_map]
  rfl

/-- The Pass.starts of a key's bookings granted and not cancelled. -/
def uncancelled [DecidableEq K] (b : Bookings K) (key : K) : List Instant :=
  (b.granted.filter fun pass => pass.key = key ∧ pass.name ∉ b.cancelled).map (·.charge.start)

/-- What is known of the passes alone. -/
structure Proper (b : Bookings K) : Prop where
  own : ∀ key, ∀ pass ∈ b.inEffect key, pass ∈ b.granted ∧ pass.key = key
  named : ∀ pass ∈ b.granted, pass.name ∈ b.names
  unique : (b.granted.map (·.name)).Nodup
  kept : ∀ pass ∈ b.granted, pass.name ∉ b.cancelled → pass ∈ b.inEffect pass.key

theorem latest_iff (proper : b.Proper) {pass : Pass K} (granted : pass ∈ b.granted) (key : K) :
    (b.book key).head?.map (·.1) = some pass.name ↔ key = pass.key ∧ (b.inEffect key).head? = some pass := by
  have head : (b.book key).head?.map (·.1) = (b.inEffect key).head?.map (·.name) := by
    rw [book, List.head?_map, Option.map_map]
    rfl
  rw [head]
  constructor
  · intro named
    obtain ⟨newest, found, same⟩ := Option.map_eq_some_iff.mp named
    obtain ⟨mem, own⟩ := proper.own key newest (List.mem_of_head? found)
    obtain rfl : newest = pass := List.inj_on_of_nodup_map proper.unique mem granted same
    exact ⟨own.symm, found⟩
  · rintro ⟨-, found⟩
    rw [found]
    rfl

/-- The calls give each name once, and none that was given before. -/
def Fresh (b : Bookings K) (ops : List (Op K)) : Prop :=
  (ops.filterMap Op.names).Nodup ∧ ∀ name ∈ ops.filterMap Op.names, name ∉ b.names

instance (b : Bookings K) (ops : List (Op K)) : Decidable (b.Fresh ops) := inferInstanceAs (Decidable (_ ∧ _))

end

variable {K : Type} [Ord K] [Std.TransOrd K]

/-- How many bookings a shard has made. -/
def made (b : Bookings K) (i : Nat) : Nat := b.granted.countP fun pass => i = b.limiter.shardOf pass.key

/-- No shard has made so many bookings that a stamp came twice. -/
def Few (b : Bookings K) : Prop := ∀ i, b.made i ≤ wordSize

variable [DecidableEq K]

/-- A name is given once, and a cancellation of a name that nothing was granted to is none. -/
def step (b : Bookings K) (op : Op K) : Bookings K :=
  match op with
  | .acquire name key now maxDelay =>
    if name ∈ b.names then b
    else
      match b.limiter.acquire key now maxDelay with
      | (.error _, limiter) => { b with limiter, names := name :: b.names }
      | (.ok admission, limiter) =>
        let pass : Pass K := { name, key, charge := { admission, start := now + admission.delay } }
        { b with
          limiter
          names := name :: b.names
          granted := pass :: b.granted
          inEffect := Function.update b.inEffect key (pass :: b.inEffect key) }
  | .cancel name =>
    match b.granted.find? (·.name = name) with
    | none => b
    | some pass =>
      { b with
        limiter := b.limiter.cancel pass.key pass.charge.admission
        cancelled := name :: b.cancelled
        inEffect :=
          if (b.inEffect pass.key).head? = some pass then Function.update b.inEffect pass.key (b.inEffect pass.key).tail
          else b.inEffect }
  | .retainRecent now => { b with limiter := b.limiter.retainRecent now }

def run (b : Bookings K) (ops : List (Op K)) : Bookings K := ops.foldl step b

/-- What a call is answered, if it is for `key`. -/
def answer (key : K) (b : Bookings K) (op : Op K) : Option (Except Denied Duration) :=
  match op with
  | .acquire name key' now maxDelay =>
    if key' = key ∧ name ∉ b.names then some ((b.limiter.acquire key' now maxDelay).1.map (·.delay)) else none
  | .cancel _ | .retainRecent _ => none

def answers (key : K) : Bookings K → List (Op K) → List (Except Denied Duration)
  | _, [] => []
  | b, op :: ops => (b.answer key op).toList ++ answers key (b.step op) ops

/-- The bookings after some calls on a new limiter. -/
def of (quota : Quota) (hasher : K → Nat) (ops : List (Op K)) : Bookings K := (new (.new quota hasher)).run ops

/-! ### What a call does -/

/-- The ways a call may change the bookings. -/
inductive Effect (b : Bookings K) : Op K → Bookings K → Prop where
  | quiet {op : Op K} {names : List Nat} (more : b.names ⊆ names) (own : ∀ n ∈ names, n ∈ b.names ∨ n ∈ op.names) :
    Effect b op { b with names }
  | granted {name : Nat} {key : K} {now : Instant} {maxDelay : Duration} {admission : Admit} {limiter : KeyedLimiter K}
    (fresh : name ∉ b.names) (acquired : b.limiter.acquire key now maxDelay = (.ok admission, limiter)) :
    Effect b (.acquire name key now maxDelay) { b with
      limiter
      names := name :: b.names
      granted := ⟨name, key, ⟨admission, now + admission.delay⟩⟩ :: b.granted
      inEffect := Function.update b.inEffect key (⟨name, key, ⟨admission, now + admission.delay⟩⟩ :: b.inEffect key) }
  | cancelled {pass : Pass K} (granted : pass ∈ b.granted) : Effect b (.cancel pass.name) { b with
      limiter := b.limiter.cancel pass.key pass.charge.admission
      cancelled := pass.name :: b.cancelled
      inEffect :=
        if (b.inEffect pass.key).head? = some pass then Function.update b.inEffect pass.key (b.inEffect pass.key).tail
        else b.inEffect }
  | forgot (now : Instant) : Effect b (.retainRecent now) { b with limiter := b.limiter.retainRecent now }

section
variable {b b' : Bookings K} {op : Op K}

theorem step_effect (b : Bookings K) (op : Op K) : b.Effect op (b.step op) := by
  cases op with
  | acquire name key now maxDelay =>
    unfold step
    dsimp only
    split
    · exact .quiet (List.Subset.refl _) fun n hn => .inl hn
    · rename_i fresh
      cases hr : b.limiter.acquire key now maxDelay with
      | mk result limiter =>
        cases result with
        | error denied =>
          obtain rfl := KeyedLimiter.acquire_error hr
          exact .quiet (List.subset_cons_self ..) fun n hn =>
            (List.mem_cons.mp hn).symm.imp_right fun same => congrArg some same.symm
        | ok admission => exact .granted fresh hr
  | cancel name =>
    unfold step
    dsimp only
    split
    · exact .quiet (List.Subset.refl _) fun n hn => .inl hn
    · rename_i pass found
      obtain rfl : pass.name = name := by simpa using List.find?_some found
      exact .cancelled (List.mem_of_find?_eq_some found)
  | retainRecent now => exact .forgot now

theorem Proper.effect (h : b.Proper) {op : Op K} {b' : Bookings K} (effect : b.Effect op b') : b'.Proper := by
  cases effect with
  | quiet more _ => exact ⟨h.own, fun pass hp => more (h.named pass hp), h.unique, h.kept⟩
  | @granted name key now maxDelay admission limiter fresh acquired =>
    refine ⟨fun key' pass hp => ?_, fun pass hp => ?_, ?_, fun pass hp live => ?_⟩
    all_goals dsimp only at *
    · rcases eq_or_ne key' key with rfl | ne
      · rw [Function.update_self] at hp
        rcases List.mem_cons.mp hp with rfl | hp
        · exact ⟨List.mem_cons_self, rfl⟩
        · exact (h.own key' pass hp).imp_left (List.mem_cons_of_mem _)
      · rw [Function.update_of_ne ne] at hp
        exact (h.own key' pass hp).imp_left (List.mem_cons_of_mem _)
    · rcases List.mem_cons.mp hp with rfl | hp
      · exact List.mem_cons_self
      · exact List.mem_cons_of_mem _ (h.named pass hp)
    · rw [List.map_cons]
      refine List.nodup_cons.mpr ⟨fun hp => fresh ?_, h.unique⟩
      obtain ⟨pass, hp, same⟩ := List.mem_map.mp hp
      exact (show pass.name = name from same) ▸ h.named pass hp
    · rcases List.mem_cons.mp hp with rfl | hp
      · rw [Function.update_self]
        exact List.mem_cons_self
      · have before := h.kept pass hp live
        rcases eq_or_ne pass.key key with same | ne
        · rw [same, Function.update_self]
          exact List.mem_cons_of_mem _ (same ▸ before)
        · rw [Function.update_of_ne ne]
          exact before
  | @cancelled pass granted =>
    refine ⟨fun key p hp => h.own key p ?_, h.named, h.unique, fun p hp live => ?_⟩
    all_goals dsimp only at *
    · split at hp
      · rcases eq_or_ne key pass.key with rfl | ne
        · rw [Function.update_self] at hp
          exact List.mem_of_mem_tail hp
        · rwa [Function.update_of_ne ne] at hp
      · exact hp
    · rw [List.mem_cons, not_or] at live
      obtain ⟨other, live⟩ := live
      have before := h.kept p hp live
      split
      · rename_i head
        rcases eq_or_ne p.key pass.key with same | ne
        · rw [same, Function.update_self]
          rw [same] at before
          cases hk : b.inEffect pass.key with
          | nil => simp [hk] at head
          | cons newest rest =>
            rw [hk] at before head
            cases head
            exact (List.mem_cons.mp before).resolve_left fun same => other (congrArg (·.name) same)
        · rw [Function.update_of_ne ne]
          exact before
      · exact before
  | forgot now => exact ⟨h.own, h.named, h.unique, h.kept⟩

theorem effect_same {op : Op K} {b' : Bookings K} (effect : b.Effect op b') :
    b'.limiter.quota = b.limiter.quota ∧ b'.limiter.shardOf = b.limiter.shardOf := by
  cases effect with
  | quiet _ _ => exact ⟨rfl, rfl⟩
  | granted fresh acquired =>
    unfold KeyedLimiter.acquire at acquired
    dsimp only at acquired
    split at acquired
    · cases acquired
    · cases acquired
      exact ⟨rfl, rfl⟩
  | @cancelled pass granted =>
    obtain ⟨quota, hasher⟩ := KeyedLimiter.cancel_same b.limiter pass.key pass.charge.admission
    refine ⟨quota, ?_⟩
    unfold KeyedLimiter.shardOf
    rw [hasher]
  | forgot now => exact ⟨rfl, rfl⟩

/-- Every grant counts as one booking of its shard. -/
theorem made_effect {op : Op K} {b' : Bookings K} (effect : b.Effect op b') (i : Nat) : b.made i ≤ b'.made i := by
  have shards := (effect_same effect).2
  cases effect with
  | granted fresh acquired =>
    simp only [made, shards]
    exact (List.sublist_cons_self ..).countP_le
  | _ =>
    simp only [made, shards]
    exact le_rfl

theorem effect_names {op : Op K} {b' : Bookings K} (effect : b.Effect op b') :
    ∀ name ∈ b'.names, name ∈ b.names ∨ name ∈ op.names := by
  cases effect with
  | quiet _ own => exact own
  | granted _ _ =>
    intro name hn
    exact (List.mem_cons.mp hn).symm.imp_right fun same => congrArg some same.symm
  | cancelled _ => exact fun name hn => .inl hn
  | forgot _ => exact fun name hn => .inl hn

theorem effect_more {op : Op K} {b' : Bookings K} (effect : b.Effect op b') : b.names ⊆ b'.names := by
  cases effect with
  | quiet more _ => exact more
  | granted _ _ => exact List.subset_cons_self ..
  | cancelled _ => exact List.Subset.refl _
  | forgot _ => exact List.Subset.refl _

theorem Fresh.step {op : Op K} {ops : List (Op K)} (h : b.Fresh (op :: ops)) :
    (∀ name ∈ op.names, name ∉ b.names) ∧ (b.step op).Fresh ops := by
  obtain ⟨nodup, fresh⟩ := h
  cases hop : op.names with
  | none =>
    rw [List.filterMap_cons_none hop] at nodup fresh
    refine ⟨nofun, nodup, fun name hn hm => fresh name hn ?_⟩
    refine (effect_names (step_effect b op) name hm).resolve_right ?_
    rw [hop]
    nofun
  | some name' =>
    rw [List.filterMap_cons_some hop] at nodup fresh
    obtain ⟨other, nodup⟩ := List.nodup_cons.mp nodup
    refine ⟨?_, nodup, fun name hn hm => fresh name (List.mem_cons_of_mem _ hn) ?_⟩
    · rintro name ⟨⟩
      exact fresh _ List.mem_cons_self
    · refine (effect_names (step_effect b op) name hm).resolve_right ?_
      rw [hop]
      rintro ⟨⟩
      exact other hn

theorem lies_effect {key : K} {pass : Pass K} {rest : List (Pass K)} (proper : b.Proper) (granted : pass ∈ b.granted)
    (once : pass ∉ rest) (h : Pass.Lies pass rest (b.inEffect key)) {op : Op K} {b' : Bookings K} (effect : b.Effect op b') :
    pass ∈ b'.granted ∧ Pass.Lies pass rest (b'.inEffect key) := by
  cases effect with
  | quiet _ _ => exact ⟨granted, h⟩
  | @granted name key' now maxDelay admission limiter fresh acquired =>
    refine ⟨List.mem_cons_of_mem _ granted, ?_⟩
    rcases eq_or_ne key key' with rfl | ne
    · simp only [Function.update_self]
      refine h.cons ?_
      rintro rfl
      exact fresh (proper.named _ granted)
    · simp only [Function.update_of_ne ne]
      exact h
  | @cancelled pass' granted' =>
    refine ⟨granted, ?_⟩
    dsimp only
    split
    · rcases eq_or_ne key pass'.key with rfl | ne
      · rw [Function.update_self]
        exact h.tail once
      · rw [Function.update_of_ne ne]
        exact h
    · exact h
  | forgot _ => exact ⟨granted, h⟩

/-! ### Runs -/

theorem Proper.run (h : b.Proper) (ops : List (Op K)) : (b.run ops).Proper := by
  induction ops generalizing b with
  | nil => exact h
  | cons op ops ih => exact ih (h.effect (step_effect b op))

theorem made_run (ops : List (Op K)) (i : Nat) : b.made i ≤ (b.run ops).made i := by
  induction ops generalizing b with
  | nil => exact le_rfl
  | cons op ops ih => exact (made_effect (step_effect b op) i).trans ih

theorem run_limiter (ops : List (Op K)) : (b.run ops).limiter.quota = b.limiter.quota := by
  induction ops generalizing b with
  | nil => rfl
  | cons op ops ih => exact ih.trans (effect_same (step_effect b op)).1

theorem names_run (ops : List (Op K)) : b.names ⊆ (b.run ops).names := by
  induction ops generalizing b with
  | nil => exact List.Subset.refl _
  | cons op ops ih => exact List.Subset.trans (effect_more (step_effect b op)) ih

/-- A name that is taken is granted nothing any more. -/
theorem granted_run {pass : Pass K} (taken : pass.name ∈ b.names) {ops : List (Op K)} (h : pass ∈ (b.run ops).granted) :
    pass ∈ b.granted := by
  induction ops generalizing b with
  | nil => exact h
  | cons op ops ih =>
    have effect := step_effect b op
    have before := ih (effect_more effect taken) h
    revert before effect
    generalize b.step op = b'
    intro effect before
    cases effect with
    | quiet _ _ => exact before
    | granted fresh _ =>
      refine (List.mem_cons.mp before).resolve_left ?_
      rintro rfl
      exact fresh taken
    | cancelled _ => exact before
    | forgot _ => exact before

theorem lies_run {key : K} {pass : Pass K} {rest : List (Pass K)} (proper : b.Proper) (granted : pass ∈ b.granted)
    (once : pass ∉ rest) (h : Pass.Lies pass rest (b.inEffect key)) (ops : List (Op K)) :
    Pass.Lies pass rest ((b.run ops).inEffect key) := by
  induction ops generalizing b with
  | nil => exact h
  | cons op ops ih =>
    have effect := step_effect b op
    obtain ⟨granted, h⟩ := lies_effect proper granted once h effect
    exact ih (proper.effect effect) granted h

/-- Under the newest booking of a key lie those it was made after. -/
theorem newest_run (proper : b.Proper) {name : Nat} {key : K} {now : Instant} {maxDelay : Duration} (fresh : name ∉ b.names)
    {ops : List (Op K)} {pass : Pass K} (own : pass.name = name)
    (newest : ((b.run (.acquire name key now maxDelay :: ops)).inEffect key).head? = some pass) :
    (b.run (.acquire name key now maxDelay :: ops)).inEffect key = pass :: b.inEffect key := by
  have unknown : pass ∉ b.granted := fun granted => fresh (own ▸ proper.named pass granted)
  have effect := step_effect b (.acquire name key now maxDelay)
  have proper' := proper.effect effect
  -- It was this request that was granted the booking.
  have taken : pass.name ∈ (b.step (.acquire name key now maxDelay)).names := by
    rw [own]
    unfold step
    dsimp only
    rw [if_neg fresh]
    split
    · exact List.mem_cons_self
    · exact List.mem_cons_self
  have final : pass ∈ (b.run (.acquire name key now maxDelay :: ops)).granted :=
    ((proper.run _).own key pass (List.mem_of_head? newest)).1
  have granted := granted_run taken final
  change (((b.step (.acquire name key now maxDelay)).run ops).inEffect key).head? = some pass at newest
  change ((b.step (.acquire name key now maxDelay)).run ops).inEffect key = _
  revert effect proper' taken granted newest
  generalize b.step (.acquire name key now maxDelay) = b'
  intro effect proper' taken granted newest
  cases effect with
  | quiet _ _ => exact absurd granted unknown
  | granted _ _ =>
    obtain rfl := (List.mem_cons.mp granted).resolve_right unknown
    have once : _ ∉ b.inEffect key := fun mem => unknown (proper.own key _ mem).1
    refine (lies_run proper' granted once (.inr ⟨[], nofun, ?_⟩) ops).head newest
    exact Function.update_self ..

end

end Bookings

end Tgin.Limit
