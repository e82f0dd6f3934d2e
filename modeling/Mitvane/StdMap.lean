import Mathlib.Data.Finmap

/-! Associative containers with the interface of the C++ standard maps. The order
of iteration is not part of the model: no operation below observes it. -/
set_option autoImplicit false

abbrev StdMap (K V : Type) := Finmap (fun _ : K => V)

namespace StdMap
variable {K V : Type} [DecidableEq K]

def size (m : StdMap K V) : Nat := m.keys.card

/-- `m[k]` on a mutable map: a missing key is inserted with the value-initialised
`fallback`, so the map after the access is part of the result. -/
def subscript (m : StdMap K V) (k : K) (fallback : V) : V × StdMap K V :=
  match m.lookup k with
  | some v => (v,m)
  | none => (fallback,m.insert k fallback)

theorem subscript_of_lookup {m : StdMap K V} {k : K} {v : V} (h : m.lookup k = some v)
    (fallback : V) : subscript m k fallback = (v,m) := by
  simp [subscript,h]

theorem subscript_fst (m : StdMap K V) (k : K) (fallback : V) :
    (subscript m k fallback).1 = (m.lookup k).getD fallback := by
  cases h : m.lookup k <;> simp [subscript,h]

theorem lookup_subscript (m : StdMap K V) (k j : K) (fallback : V) :
    (subscript m k fallback).2.lookup j =
      if j = k then some ((m.lookup k).getD fallback) else m.lookup j := by
  cases h : m.lookup k with
  | some v =>
    by_cases hj : j = k
    · subst j; simp [subscript,h]
    · simp [subscript,h,hj]
  | none =>
    by_cases hj : j = k
    · subst j; simp [subscript,h]
    · simp [subscript,h,hj,Finmap.lookup_insert_of_ne]

theorem lookup_insert_eq (m : StdMap K V) (k j : K) (v : V) :
    (m.insert k v).lookup j = if j = k then some v else m.lookup j := by
  by_cases hj : j = k
  · subst j; simp
  · simp [hj,Finmap.lookup_insert_of_ne]

theorem keys_filter_subset (m : StdMap K V) (S : Finset K) :
    S.filter (· ∈ m) ⊆ m.keys := by
  intro k hk
  exact Finmap.mem_keys.mpr (Finset.mem_filter.mp hk).2

theorem card_filter_le_size (m : StdMap K V) (S : Finset K) :
    (S.filter (· ∈ m)).card ≤ size m :=
  Finset.card_le_card (keys_filter_subset m S)

theorem card_filter_eq_size_iff (m : StdMap K V) (S : Finset K) :
    (S.filter (· ∈ m)).card = size m ↔ ∀ k ∈ m, k ∈ S := by
  constructor
  · intro h k hk
    have heq := Finset.eq_of_subset_of_card_le (keys_filter_subset m S) (le_of_eq h.symm)
    have hmem : k ∈ S.filter (· ∈ m) := by rw [heq]; exact Finmap.mem_keys.mpr hk
    exact (Finset.mem_filter.mp hmem).1
  · intro h
    have heq : S.filter (· ∈ m) = m.keys := by
      apply Finset.Subset.antisymm (keys_filter_subset m S)
      intro k hk
      have hm := Finmap.mem_keys.mp hk
      exact Finset.mem_filter.mpr ⟨h k hm,hm⟩
    rw [heq]; rfl

end StdMap
