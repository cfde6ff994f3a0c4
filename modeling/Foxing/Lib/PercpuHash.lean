import Mathlib.Data.Finset.Card
import Mathlib.Logic.Function.Basic
import Mathlib.Tactic.Common

/-!
# Bounded hash maps with one slot for each processor

The processors share one table of keys, and every key holds a slot for each of
them. A lookup and an update touch the slot of the processor they run on. A new
key starts with zero in the slots of all other processors, a table that is full
refuses new keys, and deleting a key deletes the slots of every processor.
-/

structure PercpuHash (K C V : Type*) where
  keys : Finset K
  /-- The slots; those of keys that are absent mean nothing. -/
  slots : K → C → V

namespace PercpuHash
variable {K C V : Type*}

def empty [Zero V] : PercpuHash K C V := ⟨∅, fun _ _ => 0⟩

variable [DecidableEq K]

def lookup (m : PercpuHash K C V) (c : C) (k : K) : Option V :=
  if k ∈ m.keys then some (m.slots k c) else none

def delete (m : PercpuHash K C V) (k : K) : PercpuHash K C V :=
  { m with keys := m.keys.erase k }

variable [DecidableEq C]

/-- Assignment through the pointer that a lookup has returned. -/
def store (m : PercpuHash K C V) (c : C) (k : K) (v : V) : PercpuHash K C V :=
  { m with slots := Function.update m.slots k (Function.update (m.slots k) c v) }

def update [Zero V] (maxEntries : ℕ) (m : PercpuHash K C V) (c : C) (k : K) (v : V) :
    PercpuHash K C V :=
  if k ∈ m.keys then m.store c k v
  else if m.keys.card < maxEntries then
    ⟨insert k m.keys, Function.update m.slots k (Function.update (fun _ => 0) c v)⟩
  else m

omit [DecidableEq C] in
theorem lookup_eq_some_iff (m : PercpuHash K C V) (c : C) (k : K) (v : V) :
    m.lookup c k = some v ↔ k ∈ m.keys ∧ m.slots k c = v := by
  simp [lookup]

omit [DecidableEq C] in
theorem lookup_eq_none_iff (m : PercpuHash K C V) (c : C) (k : K) :
    m.lookup c k = none ↔ k ∉ m.keys := by
  simp [lookup]

omit [DecidableEq C] in
@[simp] theorem lookup_empty [Zero V] (c : C) (k : K) :
    (empty : PercpuHash K C V).lookup c k = none := rfl

omit [DecidableEq C] in
/-- A deleted key is gone for every processor. -/
theorem lookup_delete (m : PercpuHash K C V) (k : K) (c : C) (k' : K) :
    (m.delete k).lookup c k' = if k' = k then none else m.lookup c k' := by
  by_cases hk : k' = k
  · simp [lookup, delete, hk]
  · simp [lookup, delete, hk]

@[simp] theorem keys_store (m : PercpuHash K C V) (c : C) (k : K) (v : V) :
    (m.store c k v).keys = m.keys := rfl

theorem slots_store (m : PercpuHash K C V) (c : C) (k : K) (v : V) (k' : K) (c' : C) :
    (m.store c k v).slots k' c' = if k' = k ∧ c' = c then v else m.slots k' c' := by
  by_cases hk : k' = k
  · subst hk
    by_cases hc : c' = c
    · subst hc
      simp [store]
    · simp [store, hc]
  · simp [store, hk]

/-- Storing changes the slot it names, if the key is there, and no other. -/
theorem lookup_store (m : PercpuHash K C V) {c : C} {k : K} (v : V) {u : V}
    (h : m.lookup c k = some u) (c' : C) (k' : K) :
    (m.store c k v).lookup c' k' = if k' = k ∧ c' = c then some v else m.lookup c' k' := by
  have hk := ((m.lookup_eq_some_iff c k u).mp h).1
  by_cases hkc : k' = k ∧ c' = c
  · simp [lookup, slots_store, hkc, hk]
  · simp [lookup, slots_store, hkc]

theorem update_of_lookup_none [Zero V] (maxEntries : ℕ) (m : PercpuHash K C V) {c : C} {k : K}
    (v : V) (h : m.lookup c k = none) :
    m.update maxEntries c k v = if m.keys.card < maxEntries then
      ⟨insert k m.keys, Function.update m.slots k (Function.update (fun _ => 0) c v)⟩ else m := by
  rw [update, if_neg ((m.lookup_eq_none_iff c k).mp h)]

/-- A new key brings zero to the other processors. -/
theorem lookup_update_new [Zero V] {maxEntries : ℕ} (m : PercpuHash K C V) {c : C} {k : K} (v : V)
    (h : m.lookup c k = none) (hroom : m.keys.card < maxEntries) (c' : C) (k' : K) :
    (m.update maxEntries c k v).lookup c' k' =
      if k' = k then some (if c' = c then v else 0) else m.lookup c' k' := by
  rw [update_of_lookup_none _ m v h, if_pos hroom]
  by_cases hk : k' = k
  · subst hk
    by_cases hc : c' = c
    · simp [lookup, hc]
    · simp [lookup, hc]
  · simp [lookup, hk]

/-- A full table is left as it is. -/
theorem update_full [Zero V] {maxEntries : ℕ} (m : PercpuHash K C V) {c : C} {k : K} (v : V)
    (h : m.lookup c k = none) (hfull : ¬ m.keys.card < maxEntries) :
    m.update maxEntries c k v = m := by
  rw [update_of_lookup_none _ m v h, if_neg hfull]

end PercpuHash
