import Mathlib.Data.List.Chain
import Tgin.Lib.Ordered
import Tgin.Supervisor

/-! The life of a supervised task, whatever is called and in whichever order its steps come: its states follow `Next`, the name
    lists the latest instance, and every other one is on its way to its end (`run_lifecycle`). -/

namespace Tgin.Supervisor
open Std (ExtTreeMap)

/-! ### The property -/

/-- Which state a task may publish after which. -/
inductive Next : TaskState → TaskState → Prop where
  | start : Next .starting .running
  | fail (retryAt : Instant) (error : String) : Next .running (.backoff retryAt error)
  | retry (retryAt : Instant) (error : String) : Next (.backoff retryAt error) .running
  | fatal (reason : String) : Next .running (.failed reason)
  | stop {state : TaskState} (h : state.ended = false) : Next state .stopped

/-- What a task has published, up to the state it shows, is a life. -/
structure Life (inst : Instance) : Prop where
  first : inst.published.head? = some .starting
  last : inst.published.getLast? = some inst.state
  chain : inst.published.IsChain Next

/-- A step of a task. -/
def polls (id : Nat) : Action → Bool
  | .poll id' .. => id' = id
  | _ => false

/-! ### One task -/

/-- A task shows the state its step left. -/
def Shows (inst : Instance) : Prop :=
  match inst.pc with
  | .starting => inst.state = .starting
  | .attempt => inst.state = .running
  | .waiting retryAt => ∃ error, inst.state = .backoff retryAt error
  | .returning _ => True
  | .joined _ => inst.state.ended

/-- How many steps of a cancelled task are left, at most. -/
def rank (inst : Instance) : Nat :=
  match inst.pc with
  | .starting => 3
  | .attempt | .waiting _ => 2
  | .returning _ => 1
  | .joined _ => 0

/-- What an action does to one instance. -/
inductive Moves (inst : Instance) : Instance → Prop where
  | same : Moves inst inst
  | cancel : Moves inst { inst with cancelled := true }
  | abort : Moves inst { inst with aborted := true }
  | poll (cancelled : Bool) (now : Instant) (drawn : Nat) (outcome : Outcome) : Moves inst (inst.poll cancelled now drawn outcome)
  | dropAborted : Moves inst inst.dropAborted

section
variable {inst inst' : Instance}

theorem Life.set (h : Life inst) {state : TaskState} (next : Next inst.state state) : Life (inst.set state) := by
  refine ⟨?_, List.getLast?_concat, List.isChain_append.mpr ⟨h.chain, .singleton _, ?_⟩⟩
  · rw [Instance.set, List.head?_append, h.first, Option.some_or]
  · intro last hlast new hnew
    rw [h.last] at hlast
    obtain rfl := Option.some.inj hlast
    obtain rfl := Option.some.inj hnew
    exact next

theorem retry_life (h : Life inst) (running : inst.state = .running) (now : Instant) (drawn : Nat) (error : String) :
    Life (inst.retry now drawn error) ∧ Shows (inst.retry now drawn error) := by
  unfold Instance.retry
  dsimp only
  split
  · exact ⟨⟨h.first, h.last, h.chain⟩, trivial⟩
  · rename_i retryAt _
    have set := h.set (running ▸ Next.fail retryAt error)
    exact ⟨⟨set.first, set.last, set.chain⟩, error, rfl⟩

theorem attempt_life (h : Life inst) (next : Next inst.state .running) (now : Instant) :
    Life (inst.attempt now) ∧ Shows (inst.attempt now) := by
  have set := h.set next
  exact ⟨⟨set.first, set.last, set.chain⟩, rfl⟩

theorem poll_life (h : Life inst) (shows : Shows inst) (cancelled : Bool) (now : Instant) (drawn : Nat) (outcome : Outcome) :
    Life (inst.poll cancelled now drawn outcome) ∧ Shows (inst.poll cancelled now drawn outcome) := by
  have same := shows
  have stays (pc : Pc) : Life { inst with pc } := ⟨h.first, h.last, h.chain⟩
  unfold Shows at shows
  unfold Instance.poll
  cases hpc : inst.pc with
  | starting =>
    rw [hpc] at shows
    exact attempt_life h (shows ▸ .start) now
  | attempt =>
    rw [hpc] at shows
    dsimp only
    split
    · exact ⟨stays _, trivial⟩
    · split
      · exact ⟨h, same⟩
      · exact ⟨stays _, trivial⟩
      · rename_i reason
        have set := h.set (shows ▸ Next.fatal reason)
        exact ⟨⟨set.first, set.last, set.chain⟩, trivial⟩
      · exact retry_life h shows ..
      · exact retry_life h shows ..
      · exact ⟨stays _, trivial⟩
  | waiting retryAt =>
    rw [hpc] at shows
    obtain ⟨error, waits⟩ := shows
    dsimp only
    split
    · exact ⟨stays _, trivial⟩
    · split
      · exact ⟨h, same⟩
      · exact attempt_life h (waits ▸ .retry retryAt error) now
  | returning join =>
    dsimp only
    unfold Instance.dropState
    split
    · rename_i ended
      exact ⟨stays _, ended⟩
    · rename_i running
      have set := h.set (Next.stop (Bool.eq_false_iff.mpr running))
      exact ⟨⟨set.first, set.last, set.chain⟩, rfl⟩
  | joined join => exact ⟨h, same⟩

theorem Moves.life (h : Life inst) (shows : Shows inst) (moves : Moves inst inst') : Life inst' ∧ Shows inst' := by
  cases moves with
  | same => exact ⟨h, shows⟩
  | cancel => exact ⟨⟨h.first, h.last, h.chain⟩, shows⟩
  | abort => exact ⟨⟨h.first, h.last, h.chain⟩, shows⟩
  | poll cancelled now drawn outcome => exact poll_life h shows cancelled now drawn outcome
  | dropAborted =>
    unfold Instance.dropAborted
    split
    · split
      · exact ⟨⟨h.first, h.last, h.chain⟩, trivial⟩
      · exact ⟨h, shows⟩
    · split
      · exact ⟨⟨h.first, h.last, h.chain⟩, trivial⟩
      · exact ⟨h, shows⟩
    · split
      · exact ⟨⟨h.first, h.last, h.chain⟩, trivial⟩
      · exact ⟨h, shows⟩
    · exact ⟨h, shows⟩
    · exact ⟨h, shows⟩

/-- A task that has ended publishes nothing more. -/
theorem Moves.ended (shows : Shows inst) (ended : inst.state.ended) (moves : Moves inst inst') :
    inst'.state = inst.state ∧ inst'.published = inst.published := by
  have left : (∃ join, inst.pc = .returning join) ∨ ∃ join, inst.pc = .joined join := by
    unfold Shows at shows
    split at shows
    · rw [shows] at ended
      cases ended
    · rw [shows] at ended
      cases ended
    · obtain ⟨error, waits⟩ := shows
      rw [waits] at ended
      cases ended
    · exact .inl ⟨_, ‹_›⟩
    · exact .inr ⟨_, ‹_›⟩
  cases moves with
  | same => exact ⟨rfl, rfl⟩
  | cancel => exact ⟨rfl, rfl⟩
  | abort => exact ⟨rfl, rfl⟩
  | poll cancelled now drawn outcome =>
    rcases left with ⟨join, hpc⟩ | ⟨join, hpc⟩
    · unfold Instance.poll Instance.dropState
      rw [hpc, if_pos ended]
      exact ⟨rfl, rfl⟩
    · unfold Instance.poll
      rw [hpc]
      exact ⟨rfl, rfl⟩
  | dropAborted =>
    rcases left with ⟨join, hpc⟩ | ⟨join, hpc⟩
    · rw [Instance.dropAborted, hpc]
      exact ⟨rfl, rfl⟩
    · rw [Instance.dropAborted, hpc]
      exact ⟨rfl, rfl⟩

/-- What no step changes of an instance, and what it only adds to. -/
structure Kept (inst inst' : Instance) : Prop where
  name : inst'.name = inst.name
  parent : inst'.parent = inst.parent
  cancelled : inst.cancelled → inst'.cancelled
  rank : rank inst' ≤ rank inst

theorem retry_kept (hpc : inst.pc = .attempt) (now : Instant) (drawn : Nat) (error : String) :
    Kept inst (inst.retry now drawn error) := by
  have two : rank inst = 2 := by rw [rank, hpc]
  unfold Instance.retry
  dsimp only
  split
  · exact ⟨rfl, rfl, id, two ▸ Nat.le_succ 1⟩
  · exact ⟨rfl, rfl, id, two ▸ Nat.le_refl 2⟩

theorem poll_kept (inst : Instance) (cancelled : Bool) (now : Instant) (drawn : Nat) (outcome : Outcome) :
    Kept inst (inst.poll cancelled now drawn outcome) := by
  have returning (join : Join) (le : 1 ≤ rank inst) : Kept inst { inst with pc := .returning join } := ⟨rfl, rfl, id, le⟩
  unfold Instance.poll
  cases hpc : inst.pc with
  | starting => exact ⟨rfl, rfl, id, by rw [rank, rank, hpc]; exact Nat.le_succ 2⟩
  | attempt =>
    have two : rank inst = 2 := by rw [rank, hpc]
    dsimp only
    split
    · exact returning _ (two ▸ Nat.le_succ 1)
    · split
      · exact ⟨rfl, rfl, id, Nat.le_refl _⟩
      · exact returning _ (two ▸ Nat.le_succ 1)
      · exact ⟨rfl, rfl, id, two ▸ Nat.le_succ 1⟩
      · exact retry_kept hpc ..
      · exact retry_kept hpc ..
      · exact returning _ (two ▸ Nat.le_succ 1)
  | waiting retryAt =>
    have two : rank inst = 2 := by rw [rank, hpc]
    dsimp only
    split
    · exact returning _ (two ▸ Nat.le_succ 1)
    · split
      · exact ⟨rfl, rfl, id, Nat.le_refl _⟩
      · exact ⟨rfl, rfl, id, two ▸ Nat.le_refl 2⟩
  | returning join =>
    dsimp only
    unfold Instance.dropState
    split
    · exact ⟨rfl, rfl, id, Nat.zero_le _⟩
    · exact ⟨rfl, rfl, id, Nat.zero_le _⟩
  | joined join => exact ⟨rfl, rfl, id, Nat.le_refl _⟩

theorem Moves.kept (moves : Moves inst inst') : Kept inst inst' := by
  cases moves with
  | same => exact ⟨rfl, rfl, id, Nat.le_refl _⟩
  | cancel => exact ⟨rfl, rfl, fun _ => rfl, Nat.le_refl _⟩
  | abort => exact ⟨rfl, rfl, id, Nat.le_refl _⟩
  | poll cancelled now drawn outcome => exact poll_kept ..
  | dropAborted =>
    have dropped (le : 1 ≤ rank inst) :
        Kept inst (if inst.aborted then { inst with pc := .returning .aborted } else inst) := by
      split
      · exact ⟨rfl, rfl, id, le⟩
      · exact ⟨rfl, rfl, id, Nat.le_refl _⟩
    unfold Instance.dropAborted
    cases hpc : inst.pc with
    | starting => exact dropped (by rw [rank, hpc]; exact Nat.succ_le_succ (Nat.zero_le 2))
    | attempt => exact dropped (by rw [rank, hpc]; exact Nat.le_succ 1)
    | waiting retryAt => exact dropped (by rw [rank, hpc]; exact Nat.le_succ 1)
    | returning join => exact ⟨rfl, rfl, id, Nat.le_refl _⟩
    | joined join => exact ⟨rfl, rfl, id, Nat.le_refl _⟩

/-- A cancelled task comes closer to its end each time it is polled. -/
theorem rank_poll (inst : Instance) (now : Instant) (drawn : Nat) (outcome : Outcome) :
    rank (inst.poll true now drawn outcome) ≤ rank inst - 1 := by
  unfold Instance.poll
  cases hpc : inst.pc with
  | starting => rw [show rank inst = 3 by rw [rank, hpc]]; exact Nat.le_refl 2
  | attempt => rw [show rank inst = 2 by rw [rank, hpc]]; exact Nat.le_refl 1
  | waiting retryAt => rw [show rank inst = 2 by rw [rank, hpc]]; exact Nat.le_refl 1
  | returning join =>
    dsimp only
    exact Nat.zero_le _
  | joined join => rw [show rank inst = 0 by rw [rank, hpc]]

theorem Shows.ended (shows : Shows inst) (none : rank inst = 0) : inst.state.ended := by
  unfold Shows at shows
  rw [rank] at none
  cases hpc : inst.pc with
  | joined join =>
    rw [hpc] at shows
    exact shows
  | starting => rw [hpc] at none; cases none
  | attempt => rw [hpc] at none; cases none
  | waiting retryAt => rw [hpc] at none; cases none
  | returning join => rw [hpc] at none; cases none

end

/-! ### Every instance moves -/

section
variable {s : Supervisor} {id : Nat} {inst : Instance}

theorem modify_moves {f : Instance → Instance} (moves : ∀ inst, Moves inst (f inst)) {l : List Instance} (id' : Nat)
    (h : l[id]? = some inst) : ∃ inst', (l.modify id' f)[id]? = some inst' ∧ Moves inst inst' := by
  rw [List.getElem?_modify, h]
  refine ⟨_, rfl, ?_⟩
  dsimp only
  split
  · exact moves inst
  · exact .same

theorem step_instance (action : Action) (h : s.instances[id]? = some inst) :
    ∃ inst', (s.step action).instances[id]? = some inst' ∧ Moves inst inst' := by
  cases action with
  | spawn name backoff cancel =>
    unfold step spawn
    dsimp only
    split
    · rename_i previous _
      obtain ⟨inst', found, moves⟩ := modify_moves (fun _ => .cancel) previous h
      exact ⟨inst', List.getElem?_append_left (List.getElem?_eq_some_iff.mp found).1 ▸ found, moves⟩
    · exact ⟨inst, List.getElem?_append_left (List.getElem?_eq_some_iff.mp h).1 ▸ h, .same⟩
  | cancel token => exact ⟨inst, h, .same⟩
  | remove name =>
    unfold step remove
    dsimp only
    split
    · exact ⟨inst, h, .same⟩
    · exact ⟨inst, h, .same⟩
  | shutdown => exact ⟨inst, h, .same⟩
  | abortAll call =>
    unfold step
    dsimp only
    split
    · exact ⟨inst, h, .same⟩
    · rename_i tasks _
      rw [List.getElem?_mapIdx, h]
      refine ⟨_, rfl, ?_⟩
      split
      · exact .abort
      · exact .same
  | poll id' now drawn outcome => exact modify_moves (fun _ => .poll ..) id' h
  | dropAborted id' => exact modify_moves (fun _ => .dropAborted) id' h

theorem step_length (action : Action) (other : ∀ name backoff cancel, action ≠ .spawn name backoff cancel) :
    (s.step action).instances.length = s.instances.length := by
  cases action with
  | spawn name backoff cancel => exact absurd rfl (other name backoff cancel)
  | cancel token => rfl
  | remove name =>
    unfold step remove
    dsimp only
    split
    · rfl
    · rfl
  | shutdown => rfl
  | abortAll call =>
    unfold step
    dsimp only
    split
    · rfl
    · exact List.length_mapIdx
  | poll id' now drawn outcome => exact List.length_modify ..
  | dropAborted id' => exact List.length_modify ..

theorem spawn_length (name : String) (backoff : Backoff) (cancel : Nat) :
    (s.spawn name backoff cancel).instances.length = s.instances.length + 1 := by
  unfold spawn
  dsimp only
  split
  · rw [List.length_append, List.length_modify]
    rfl
  · exact List.length_append

theorem spawn_last (s : Supervisor) (name : String) (backoff : Backoff) (cancel : Nat) :
    (s.spawn name backoff cancel).instances[s.instances.length]? = some (.new name cancel backoff) := by
  unfold spawn
  dsimp only
  split
  · rw [List.getElem?_append_right (by rw [List.length_modify]), List.length_modify, Nat.sub_self]
    rfl
  · rw [List.getElem?_append_right (Nat.le_refl _), Nat.sub_self]
    rfl

theorem spawn_previous {name : String} (backoff : Backoff) (cancel : Nat) (h : s.entries[name]? = some id) :
    (s.spawn name backoff cancel).instances =
      s.instances.modify id (fun inst => { inst with cancelled := true }) ++ [.new name cancel backoff] := by
  unfold spawn
  rw [h]

/-- An instance that a step adds is new, and the latest. -/
theorem step_back (action : Action) (h' : (s.step action).instances[id]? = some inst) :
    (∃ old, s.instances[id]? = some old ∧ Moves old inst) ∨
      ∃ name backoff cancel, action = .spawn name backoff cancel ∧ id = s.instances.length ∧ inst = .new name cancel backoff := by
  cases h : s.instances[id]? with
  | some old =>
    obtain ⟨inst', found, moves⟩ := step_instance action h
    obtain rfl := Option.some.inj (found.symm.trans h')
    exact .inl ⟨old, rfl, moves⟩
  | none =>
    have outside := List.getElem?_eq_none_iff.mp h
    have inside := (List.getElem?_eq_some_iff.mp h').1
    by_cases other : ∀ name backoff cancel, action ≠ .spawn name backoff cancel
    · rw [step_length action other] at inside
      exact absurd inside (Nat.not_lt.mpr outside)
    · push Not at other
      obtain ⟨name, backoff, cancel, rfl⟩ := other
      have inside : id < (s.spawn name backoff cancel).instances.length := inside
      rw [spawn_length] at inside
      obtain rfl : id = s.instances.length := by omega
      exact .inr ⟨name, backoff, cancel, rfl, rfl, Option.some.inj (h'.symm.trans (spawn_last s name backoff cancel))⟩

theorem step_cancelled (action : Action) {token : Nat} (h : token ∈ s.cancelled) : token ∈ (s.step action).cancelled := by
  cases action with
  | cancel token' => exact List.mem_cons_of_mem _ h
  | remove name =>
    unfold step remove
    dsimp only
    split
    · exact h
    · exact h
  | abortAll call =>
    unfold step
    dsimp only
    split
    · exact h
    · exact h
  | spawn name backoff cancel => exact h
  | shutdown => exact h
  | poll id now drawn outcome => exact h
  | dropAborted id => exact h

theorem isCancelled_step (action : Action) {inst' : Instance} (kept : Kept inst inst') (h : s.isCancelled inst) :
    (s.step action).isCancelled inst' := by
  unfold isCancelled at h ⊢
  rw [Bool.or_eq_true, decide_eq_true_iff] at h ⊢
  rw [kept.parent]
  exact h.imp kept.cancelled (step_cancelled action)

/-! ### What is listed -/

theorem remove_entries (s : Supervisor) (name : String) :
    (s.remove name).entries = s.entries ∨ (s.remove name).entries = s.entries.erase name ∧
      ∃ id inst, s.entries[name]? = some id ∧ s.instances[id]? = some inst ∧ inst.state.ended := by
  unfold remove
  split
  · rename_i ended
    rw [Option.any_eq_true] at ended
    obtain ⟨inst, found, ended⟩ := ended
    obtain ⟨id, listed, here⟩ := Option.bind_eq_some_iff.mp found
    exact .inr ⟨rfl, id, inst, listed, here, ended⟩
  · exact .inl rfl

/-- Only a `spawn` lists an instance, the one it adds. -/
theorem entries_back (action : Action) {name : String} (h : (s.step action).entries[name]? = some id) :
    (∃ backoff cancel, action = .spawn name backoff cancel ∧ id = s.instances.length) ∨
      s.entries[name]? = some id ∧ ∀ backoff cancel, action ≠ .spawn name backoff cancel := by
  cases action with
  | spawn name' backoff cancel =>
    have inserted : (s.entries.insert name' s.instances.length)[name]? = some id := h
    rcases eq_or_ne name name' with rfl | ne
    · rw [ExtTreeMap.getElem?_insert_self] at inserted
      exact .inl ⟨backoff, cancel, rfl, (Option.some.inj inserted).symm⟩
    · rw [Ordered.getElem?_insert_of_ne ne] at inserted
      refine .inr ⟨inserted, ?_⟩
      rintro _ _ ⟨⟩
      exact ne rfl
  | remove name' =>
    refine .inr ⟨?_, nofun⟩
    have listed : (s.remove name').entries[name]? = some id := h
    rcases remove_entries s name' with same | ⟨erased, -⟩
    · rwa [same] at listed
    · rw [erased] at listed
      rcases eq_or_ne name name' with rfl | ne
      · rw [ExtTreeMap.getElem?_erase_self] at listed
        cases listed
      · rwa [Ordered.getElem?_erase_of_ne ne] at listed
  | abortAll call =>
    refine .inr ⟨?_, nofun⟩
    unfold step at h
    dsimp only at h
    split at h
    · exact h
    · exact h
  | cancel token => exact .inr ⟨h, nofun⟩
  | shutdown => exact .inr ⟨h, nofun⟩
  | poll id' now drawn outcome => exact .inr ⟨h, nofun⟩
  | dropAborted id' => exact .inr ⟨h, nofun⟩

/-- It stays listed until it has ended and is removed, or its name is spawned again and it is cancelled. -/
theorem entries_step (action : Action) {name : String} (h : s.entries[name]? = some id) :
    (s.step action).entries[name]? = some id ∨
      (action = .remove name ∧ ∃ inst, s.instances[id]? = some inst ∧ inst.state.ended) ∨
      ∃ backoff cancel, action = .spawn name backoff cancel ∧
        ∀ inst, (s.step action).instances[id]? = some inst → inst.cancelled ∨ id = s.instances.length := by
  cases action with
  | spawn name' backoff cancel =>
    rcases eq_or_ne name name' with rfl | ne
    · refine .inr (.inr ⟨backoff, cancel, rfl, fun inst found => ?_⟩)
      change (s.spawn name backoff cancel).instances[id]? = some inst at found
      rw [spawn_previous backoff cancel h, List.getElem?_append, List.length_modify] at found
      split at found
      · rw [List.getElem?_modify, Option.map_eq_map] at found
        obtain ⟨old, -, rfl⟩ := Option.map_eq_some_iff.mp found
        simp
      · have := (List.getElem?_eq_some_iff.mp found).1
        simp only [List.length_singleton] at this
        exact .inr (by omega)
    · exact .inl ((Ordered.getElem?_insert_of_ne ne _).trans h)
  | remove name' =>
    rcases remove_entries s name' with same | ⟨erased, id', inst, listed, found, ended⟩
    · exact .inl (same ▸ h)
    · rcases eq_or_ne name name' with rfl | ne
      · obtain rfl := Option.some.inj (listed.symm.trans h)
        exact .inr (.inl ⟨rfl, inst, found, ended⟩)
      · refine .inl ?_
        change (s.remove name').entries[name]? = some id
        rw [erased, Ordered.getElem?_erase_of_ne ne, h]
  | abortAll call =>
    refine .inl ?_
    unfold step
    dsimp only
    split
    · exact h
    · exact h
  | cancel token => exact .inl h
  | shutdown => exact .inl h
  | poll id' now drawn outcome => exact .inl h
  | dropAborted id' => exact .inl h

/-! ### The invariant -/

structure Invariant (s : Supervisor) : Prop where
  life : ∀ (id : Nat) inst, s.instances[id]? = some inst → Life inst ∧ Shows inst
  latest : ∀ (name : String) (id : Nat), s.entries[name]? = some id → ∃ inst, s.instances[id]? = some inst ∧ inst.name = name ∧
    ∀ (id' : Nat) inst', s.instances[id']? = some inst' → inst'.name = name → id' ≤ id
  others : ∀ (id : Nat) inst, s.instances[id]? = some inst → s.entries[inst.name]? = some id ∨ inst.cancelled ∨ inst.state.ended

theorem life_new (name : String) (parent : Nat) (backoff : Backoff) : Life (.new name parent backoff) ∧ Shows (.new name parent backoff) :=
  ⟨⟨rfl, rfl, .singleton _⟩, rfl⟩

theorem invariant_new : new.Invariant := by
  refine ⟨nofun, fun name id listed => ?_, nofun⟩
  rw [new, ExtTreeMap.getElem?_empty] at listed
  cases listed

theorem Invariant.step (h : s.Invariant) (action : Action) : (s.step action).Invariant := by
  refine ⟨fun id inst found => ?_, fun name id listed => ?_, fun id inst found => ?_⟩
  · rcases step_back action found with ⟨old, hold, moves⟩ | ⟨name, backoff, cancel, -, -, rfl⟩
    · exact moves.life (h.life id old hold).1 (h.life id old hold).2
    · exact life_new ..
  · rcases entries_back action listed with ⟨backoff, cancel, rfl, rfl⟩ | ⟨listed, other⟩
    · refine ⟨_, spawn_last s name backoff cancel, rfl, fun id' inst' found _ => ?_⟩
      have inside : id' < (s.spawn name backoff cancel).instances.length := (List.getElem?_eq_some_iff.mp found).1
      rw [spawn_length] at inside
      exact Nat.le_of_lt_succ inside
    · obtain ⟨inst, found, named, latest⟩ := h.latest name id listed
      obtain ⟨inst', found', moves⟩ := step_instance action found
      refine ⟨inst', found', moves.kept.name.trans named, fun id' other' hother same => ?_⟩
      rcases step_back action hother with ⟨old, hold, moves'⟩ | ⟨name', backoff, cancel, rfl, -, rfl⟩
      · exact latest id' old hold (moves'.kept.name.symm.trans same)
      · exact absurd (congrArg (Action.spawn · backoff cancel) same) (other backoff cancel)
  · rcases step_back action found with ⟨old, hold, moves⟩ | ⟨name, backoff, cancel, rfl, rfl, rfl⟩
    · have kept := moves.kept
      rw [kept.name]
      rcases h.others id old hold with listed | cancelled | ended
      · rcases entries_step action listed with still | ⟨-, inst', found', ended⟩ | ⟨backoff, cancel, rfl, cancelled⟩
        · exact .inl still
        · obtain rfl := Option.some.inj (found'.symm.trans hold)
          exact .inr (.inr ((moves.ended (h.life id inst' hold).2 ended).1 ▸ ended))
        · exact .inr (.inl ((cancelled inst found).resolve_right (Nat.ne_of_lt (List.getElem?_eq_some_iff.mp hold).1)))
      · exact .inr (.inl (kept.cancelled cancelled))
      · exact .inr (.inr ((moves.ended (h.life id old hold).2 ended).1 ▸ ended))
    · exact .inl ExtTreeMap.getElem?_insert_self

theorem Invariant.run (h : s.Invariant) (actions : List Action) : (s.run actions).Invariant := by
  induction actions generalizing s with
  | nil => exact h
  | cons action actions ih => exact ih (h.step action)

/-- What has ended stays as it ended. -/
theorem Invariant.ended_run (h : s.Invariant) (found : s.instances[id]? = some inst) (ended : inst.state.ended) (more : List Action) :
    ∃ inst', (s.run more).instances[id]? = some inst' ∧ inst'.state = inst.state ∧ inst'.published = inst.published := by
  induction more generalizing s inst with
  | nil => exact ⟨inst, found, rfl, rfl⟩
  | cons action more ih =>
    obtain ⟨inst', found', moves⟩ := step_instance action found
    obtain ⟨state, published⟩ := moves.ended (h.life id inst found).2 ended
    obtain ⟨last, flast, lstate, lpublished⟩ := ih (h.step action) found' (state ▸ ended)
    exact ⟨last, flast, lstate.trans state, lpublished.trans published⟩

/-- What is cancelled ends when it has been polled often enough. -/
theorem Invariant.cancelled_run (h : s.Invariant) (found : s.instances[id]? = some inst) (cancelled : s.isCancelled inst)
    {more : List Action} (polled : rank inst ≤ more.countP (polls id)) :
    ∃ inst', (s.run more).instances[id]? = some inst' ∧ inst'.state.ended := by
  induction more generalizing s inst with
  | nil => exact ⟨inst, found, (h.life id inst found).2.ended (Nat.le_zero.mp polled)⟩
  | cons action more ih =>
    obtain ⟨inst', found', moves⟩ := step_instance action found
    refine ih (h.step action) found' (isCancelled_step action moves.kept cancelled) ?_
    rw [List.countP_cons] at polled
    split at polled
    · rename_i polls
      cases action with
      | poll id' now drawn outcome =>
        obtain rfl := of_decide_eq_true polls
        have here : (s.step (.poll id' now drawn outcome)).instances[id']? = some (inst.poll (s.isCancelled inst) now drawn outcome) := by
          unfold Supervisor.step
          dsimp only
          rw [List.getElem?_modify_eq, found]
          rfl
        obtain rfl := Option.some.inj (here.symm.trans found')
        have closer := rank_poll inst now drawn outcome
        rw [cancelled]
        omega
      | spawn name backoff cancel => cases polls
      | cancel token => cases polls
      | remove name => cases polls
      | shutdown => cases polls
      | abortAll call => cases polls
      | dropAborted id' => cases polls
    · exact moves.kept.rank.trans polled

end

end Tgin.Supervisor
