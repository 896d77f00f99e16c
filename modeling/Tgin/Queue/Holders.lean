import Tgin.Queue.Conservation

/-! Who holds an update. Once leased to a holder, an update stays with it until it leaves the queue or its lease is
    ended: by the holder's own release or by an expiry. -/

namespace Tgin.Queue

variable {T : Type}

/-- The call may end the lease of `x` without taking `x` out. -/
def Op.endsLease (op : Op T) (x : Nat × Entry T) : Prop :=
  match op with
  | .releaseSeq _ seq => x.1 = seq
  | .expire now => ∃ holding ∈ x.2.lease, ∃ deadline ∈ holding.deadline, deadline ≤ now
  | _ => False

/-- `y` is what a call left of `x`. -/
structure LeftOf (op : Op T) (x y : Nat × Entry T) : Prop where
  seq : x.1 = y.1
  holder : ∀ holder, x.2.heldBy holder → y.2.heldBy holder ∨ op.endsLease x

theorem LeftOf.refl (op : Op T) (x : Nat × Entry T) : LeftOf op x x := ⟨rfl, fun _ h => .inl h⟩

theorem leftOf_release {op : Op T} (p : Nat × Entry T → Bool) {x : Nat × Entry T} (h : p x → op.endsLease x) :
    LeftOf op x (x.1, if p x then { x.2 with lease := none } else x.2) := by
  refine ⟨rfl, fun holder held => ?_⟩
  by_cases hp : p x
  · exact .inr (h hp)
  · rw [if_neg hp]
    exact .inl held

/-- No call invents an entry under a seq given out before, and only the expiry and the holder's release end a lease. -/
theorem Model.step_leftOf {m : Model T} (nodup : (m.entries.map (·.1)).Nodup) (op : Op T) :
    ∀ y ∈ (Model.step op m).2.entries, y.1 < m.nextSeq → ∃ x ∈ m.entries, LeftOf op x y := by
  have same {entries : List (Nat × Entry T)} (sub : entries.Sublist m.entries) :
      ∀ y ∈ entries, y.1 < m.nextSeq → ∃ x ∈ m.entries, LeftOf op x y := fun y hy _ => ⟨y, sub.subset hy, .refl op y⟩
  have mapped {f : Nat × Entry T → Entry T} (h : ∀ x ∈ m.entries, LeftOf op x (x.1, f x)) :
      ∀ y ∈ m.entries.map fun x => (x.1, f x), y.1 < m.nextSeq → ∃ x ∈ m.entries, LeftOf op x y := by
    intro y hy _
    obtain ⟨x, hx, rfl⟩ := List.mem_map.mp hy
    exact ⟨x, hx, h x hx⟩
  cases op with
  | tryReserve size => exact same (tryReserve_sublist size m).1
  | commit i item key ackId =>
    simp only [Model.step]
    split
    · exact same (List.Sublist.refl _)
    · intro y hy old
      rcases List.mem_append.mp hy with hy | hy
      · exact ⟨y, hy, .refl _ y⟩
      · rw [List.mem_singleton.mp hy] at old
        exact absurd old (Nat.lt_irrefl _)
  | dropPermit i =>
    simp only [Model.step]
    split <;> exact same (List.Sublist.refl _)
  | lease holder max now =>
    refine mapped fun x hx => ⟨rfl, fun other held => .inl ?_⟩
    have untaken : x.1 ∉ ((m.entries.filter m.ready).take max).map (·.1) := by
      intro taken
      obtain ⟨z, hz, seq⟩ := List.mem_map.mp taken
      obtain ⟨hz, ready⟩ := List.mem_filter.mp (List.mem_of_mem_take hz)
      obtain rfl : z = x := List.inj_on_of_nodup_map nodup hz hx seq
      have free := (Bool.and_eq_true_iff.mp ready).1
      rw [Option.isNone_iff_eq_none] at free
      simp [Entry.heldBy, free] at held
    rw [if_neg untaken]
    exact held
  | held holder minAckId now =>
    refine mapped fun x hx => ⟨rfl, fun other held => .inl ?_⟩
    split
    · rename_i renewed
      obtain ⟨holding, hl, rfl⟩ := heldBy_iff.mp (Bool.and_eq_true_iff.mp renewed).1
      obtain ⟨holding', hl', rfl⟩ := heldBy_iff.mp held
      simp [Entry.heldBy, Option.some.inj (hl.symm.trans hl')]
    · exact held
  | releaseSeq holder seq =>
    refine mapped fun x _ => leftOf_release (fun x => x.1 = seq && x.2.heldBy holder) fun ends => ?_
    exact (decide_eq_true_iff (p := x.1 = seq)).mp (Bool.and_eq_true_iff.mp ends).1
  | expire now =>
    refine mapped fun x _ => leftOf_release (fun x => (x.2.lease.bind (·.deadline)).any (· ≤ now)) fun ends => ?_
    obtain ⟨deadline, hd, due⟩ := (Option.any_eq_true _ _).mp ends
    obtain ⟨holding, hl, hd⟩ := Option.bind_eq_some_iff.mp hd
    exact ⟨holding, hl, deadline, hd, of_decide_eq_true due⟩
  | ackBelow holder ackId => exact same List.filter_sublist
  | ackAll holder => exact same List.filter_sublist
  | ackSeq holder seq => exact same List.filter_sublist
  | purge => exact same List.filter_sublist
  | purgeWhere pred => exact same List.filter_sublist
  | drainAll => exact same List.filter_sublist
  | _ => exact same (List.Sublist.refl _)

theorem Model.step_nextSeq {m : Model T} (nodup : (m.entries.map (·.1)).Nodup) (op : Op T) :
    m.nextSeq ≤ (Model.step op m).2.nextSeq := by
  have lengths := congrArg List.length (Model.step_conserves nodup op).seqs
  rw [List.length_append, List.length_range, List.length_range] at lengths
  exact lengths ▸ Nat.le_add_right _ _

end Tgin.Queue
