import Mathlib.Data.List.AList

/-! Filling a map from another: a loop over the entries of one that inserts those it keeps, and what the map then holds at each key. -/

namespace Merge
variable {α β : Type} [DecidableEq α]

/-- A map. -/
abbrev Map (α β : Type) := AList fun _ : α => β

/-- Inserts the entries that are kept; `keep` is also told what the map holds at the key. -/
def fill (keep : α → β → Option β → Bool) (entries : List (Sigma fun _ : α => β)) (map : Map α β) : Map α β :=
  entries.foldl (fun map entry => if keep entry.1 entry.2 (map.lookup entry.1) then map.insert entry.1 entry.2 else map) map

/-- Inserts one value at many keys. -/
def insertAll (keys : List α) (value : β) (map : Map α β) : Map α β := keys.foldl (fun map key => map.insert key value) map

variable {keep : α → β → Option β → Bool} {entries : List (Sigma fun _ : α => β)} {map : Map α β} {key : α}

theorem lookup_fill_of_notMem (absent : key ∉ entries.keys) : (fill keep entries map).lookup key = map.lookup key := by
  induction entries generalizing map with
  | nil => rfl
  | cons entry entries ih =>
    rw [List.keys_cons, List.mem_cons, not_or] at absent
    rw [fill, List.foldl_cons]
    refine (ih absent.2).trans ?_
    split
    · exact AList.lookup_insert_ne absent.1
    · rfl

/-- Each key has what was kept for it, or what it had. -/
theorem lookup_fill (nodup : entries.NodupKeys) : (fill keep entries map).lookup key =
    (((entries.dlookup key).filter fun value => keep key value (map.lookup key)).or (map.lookup key)) := by
  induction entries generalizing map with
  | nil => rfl
  | cons entry entries ih =>
    rw [List.nodupKeys_cons] at nodup
    rw [fill, List.foldl_cons]
    obtain ⟨key', value⟩ := entry
    by_cases same : key = key'
    · subst same
      rw [List.dlookup_cons_eq]
      refine (lookup_fill_of_notMem nodup.1).trans ?_
      dsimp only
      by_cases kept : keep key value (map.lookup key) = true
      · rw [if_pos kept, AList.lookup_insert, Option.filter_some, if_pos kept]
        rfl
      · rw [if_neg kept, Option.filter_some, if_neg kept]
        rfl
    · rw [List.dlookup_cons_ne _ _ same]
      have apart : (if keep key' value (map.lookup key') then map.insert key' value else map).lookup key = map.lookup key := by
        split
        · exact AList.lookup_insert_ne same
        · rfl
      refine (ih nodup.2).trans ?_
      rw [apart]

theorem lookup_insertAll {keys : List α} {value : β} :
    (insertAll keys value map).lookup key = if key ∈ keys then some value else map.lookup key := by
  induction keys generalizing map with
  | nil => rfl
  | cons key' keys ih =>
    rw [insertAll, List.foldl_cons]
    refine ih.trans ?_
    by_cases later : key ∈ keys
    · rw [if_pos later, if_pos (List.mem_cons_of_mem _ later)]
    · rw [if_neg later]
      by_cases same : key = key'
      · subst same
        rw [AList.lookup_insert, if_pos List.mem_cons_self]
      · rw [AList.lookup_insert_ne same, if_neg (by simp [same, later])]

end Merge
