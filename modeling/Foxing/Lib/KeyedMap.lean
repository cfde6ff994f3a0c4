import Mathlib.Data.List.Perm.Basic
import Mathlib.Data.List.Sort
import Mathlib.Tactic.Common

/-!
# Ordered maps whose values determine their keys

A map from keys to values in which every value is stored under its own key is
kept as the list of its values in strictly ascending key order. The order is a
field of the structure, so the least value comes first, two values with one key
are equal, and every operation returns a sorted map by construction. Ordinary
maps are the case of pairs keyed by their first component.
-/

structure KeyedMap {K V : Type*} [LinearOrder K] (key : V → K) where
  values : List V
  sorted : values.Pairwise (fun a b => key a < key b)

namespace KeyedMap
variable {K V : Type*} [LinearOrder K] {key : V → K}

def empty : KeyedMap key := ⟨[], .nil⟩

def isEmpty (m : KeyedMap key) : Bool := m.values.isEmpty

def length (m : KeyedMap key) : ℕ := m.values.length

/-- The value with the least key. -/
def first (m : KeyedMap key) : Option V := m.values.head?

def get (m : KeyedMap key) (k : K) : Option V := m.values.find? (fun v => key v = k)

def contains (m : KeyedMap key) (k : K) : Bool := (m.get k).isSome

/-- The values with keys in `[lo, hi)`, in key order. -/
def range (m : KeyedMap key) (lo hi : K) : List V :=
  m.values.filter (fun v => lo ≤ key v ∧ key v < hi)

def erase (m : KeyedMap key) (k : K) : KeyedMap key :=
  ⟨m.values.filter (fun v => key v ≠ k), m.sorted.filter _⟩

/-- Insertion under the value's own key; a value already there is replaced. -/
def insert (m : KeyedMap key) (v : V) : KeyedMap key where
  values := m.values.filter (fun w => key w < key v) ++
    v :: m.values.filter (fun w => key v < key w)
  sorted := by
    rw [List.pairwise_append, List.pairwise_cons]
    refine ⟨m.sorted.filter _, ⟨?_, m.sorted.filter _⟩, ?_⟩
    · intro w hw
      simpa using (List.mem_filter.mp hw).2
    · intro u hu w hw
      have huv : key u < key v := by simpa using (List.mem_filter.mp hu).2
      rcases List.mem_cons.mp hw with rfl | hw
      · exact huv
      · exact huv.trans (by simpa using (List.mem_filter.mp hw).2)

@[simp] theorem values_empty : (empty : KeyedMap key).values = [] := rfl

theorem isEmpty_iff (m : KeyedMap key) : m.isEmpty = true ↔ m.values = [] := by
  simp [isEmpty]

/-- A key is stored once. -/
theorem eq_of_key_eq (m : KeyedMap key) {v w : V} (hv : v ∈ m.values) (hw : w ∈ m.values)
    (h : key v = key w) : v = w :=
  List.inj_on_of_nodup_map (List.Pairwise.map key (fun _ _ hlt => ne_of_lt hlt) m.sorted) hv hw h

theorem get_eq_some_iff (m : KeyedMap key) (k : K) (v : V) :
    m.get k = some v ↔ v ∈ m.values ∧ key v = k := by
  constructor
  · intro h
    exact ⟨List.mem_of_find?_eq_some h, by simpa using List.find?_some h⟩
  · rintro ⟨hv, rfl⟩
    cases hf : m.get (key v) with
    | none => simpa using List.find?_eq_none.mp hf v hv
    | some w =>
      have hk : key w = key v := by simpa using List.find?_some hf
      rw [m.eq_of_key_eq (List.mem_of_find?_eq_some hf) hv hk]

theorem get_eq_none_iff (m : KeyedMap key) (k : K) :
    m.get k = none ↔ ∀ v ∈ m.values, key v ≠ k := by
  simp [get]

theorem mem_insert (m : KeyedMap key) (v w : V) :
    w ∈ (m.insert v).values ↔ w = v ∨ (w ∈ m.values ∧ key w ≠ key v) := by
  simp only [insert, List.mem_append, List.mem_cons, List.mem_filter, decide_eq_true_eq]
  constructor
  · rintro (⟨hw, hlt⟩ | rfl | ⟨hw, hlt⟩)
    · exact .inr ⟨hw, ne_of_lt hlt⟩
    · exact .inl rfl
    · exact .inr ⟨hw, ne_of_gt hlt⟩
  · rintro (rfl | ⟨hw, hne⟩)
    · exact .inr (.inl rfl)
    · rcases lt_or_gt_of_ne hne with hlt | hgt
      · exact .inl ⟨hw, hlt⟩
      · exact .inr (.inr ⟨hw, hgt⟩)

theorem erase_of_get_none (m : KeyedMap key) {k : K} (h : m.get k = none) :
    (m.erase k).values = m.values := by
  rw [erase, List.filter_eq_self]
  intro v hv
  simpa using (m.get_eq_none_iff k).mp h v hv

/-- Erasing a key that is present removes exactly its value. -/
theorem values_erase_perm (m : KeyedMap key) {k : K} {v : V} (h : m.get k = some v) :
    m.values.Perm (v :: (m.erase k).values) := by
  obtain ⟨hv, rfl⟩ := (m.get_eq_some_iff k v).mp h
  obtain ⟨s, t, hst⟩ := List.append_of_mem hv
  have hs := m.sorted
  rw [hst, List.pairwise_append, List.pairwise_cons] at hs
  obtain ⟨-, ⟨ht, -⟩, hs⟩ := hs
  have hks : s.filter (fun w => decide (key w ≠ key v)) = s := by
    rw [List.filter_eq_self]
    intro w hw
    simpa using ne_of_lt (hs w hw v (List.mem_cons_self ..))
  have hkt : t.filter (fun w => decide (key w ≠ key v)) = t := by
    rw [List.filter_eq_self]
    intro w hw
    simpa using ne_of_gt (ht w hw)
  have he : (m.erase (key v)).values = s ++ t := by
    simp only [erase, hst, List.filter_append, List.filter_cons, hks, hkt]
    simp
  rw [hst, he]
  exact List.perm_middle

/-- Insertion adds the value to what is left once its key has been erased. -/
theorem values_insert_perm (m : KeyedMap key) (v : V) :
    (m.insert v).values.Perm (v :: (m.erase (key v)).values) := by
  have hsplit : (m.erase (key v)).values.Perm
      (m.values.filter (fun w => key w < key v) ++ m.values.filter (fun w => key v < key w)) := by
    refine (List.filter_append_perm (fun w => decide (key w < key v)) _).symm.trans ?_
    simp only [erase, List.filter_filter]
    apply List.Perm.append
    · refine List.Perm.of_eq (List.filter_congr fun w _ => ?_)
      by_cases hlt : key w < key v
      · simp [hlt, ne_of_lt hlt]
      · simp [hlt]
    · refine List.Perm.of_eq (List.filter_congr fun w _ => ?_)
      rcases lt_trichotomy (key w) (key v) with hlt | heq | hgt
      · simp [hlt, hlt.le]
      · simp [heq]
      · simp [hgt, hgt.le, ne_of_gt hgt]
  exact List.perm_middle.trans (hsplit.symm.cons v)

theorem values_insert_perm_of_get_none (m : KeyedMap key) {v : V}
    (h : m.get (key v) = none) : (m.insert v).values.Perm (v :: m.values) := by
  rw [← m.erase_of_get_none h]
  exact m.values_insert_perm v

theorem first_eq_none_iff (m : KeyedMap key) : m.first = none ↔ m.values = [] := by
  simp [first]

theorem first_mem (m : KeyedMap key) {v : V} (h : m.first = some v) : v ∈ m.values :=
  List.mem_of_head? h

theorem first_le (m : KeyedMap key) {v w : V} (h : m.first = some v) (hw : w ∈ m.values) :
    key v ≤ key w := by
  obtain ⟨t, ht⟩ := List.head?_eq_some_iff.mp h
  have hs := m.sorted
  rw [ht, List.pairwise_cons] at hs
  rw [ht] at hw
  rcases List.mem_cons.mp hw with rfl | hw
  · exact le_rfl
  · exact (hs.1 w hw).le

/-- Nothing is found below the least key. -/
theorem range_eq_nil (m : KeyedMap key) {lo hi : K} (h : ∀ v ∈ m.values, hi ≤ key v) :
    m.range lo hi = [] := by
  rw [range, List.filter_eq_nil_iff]
  intro v hv
  simp [h v hv]

end KeyedMap
