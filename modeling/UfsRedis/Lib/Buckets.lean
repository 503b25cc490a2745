import Mathlib.Data.Finmap

/-!
# Buckets of entries

A hash table keeps its entries in a list of buckets. The order of the buckets and of the entries
in a bucket does not matter for the finite map that the table holds.
-/

namespace Lib

open Finmap

section

variable {α : Type*} {t : List (List α)} {i : Nat} {c : List α}

/-- A table is one of its buckets and a rest, and a new content of the bucket keeps the rest. -/
theorem exists_flatten_set (h : t[i]? = some c) :
    ∃ rest, t.flatten.Perm (c ++ rest) ∧ ∀ c', (t.set i c').flatten.Perm (c' ++ rest) := by
  induction t generalizing i with
  | nil => simp at h
  | cons b t ih =>
    obtain _ | i := i
    · obtain rfl : b = c := by simpa using h
      exact ⟨t.flatten, .refl _, fun c' => .refl _⟩
    obtain ⟨rest, hc, hset⟩ := ih (by simpa using h)
    -- `b` stays in front of the others, so it has to be moved behind the changed bucket.
    refine ⟨b ++ rest, ?_, fun c' => ?_⟩
    · exact (hc.append_left b).trans (List.perm_append_comm_assoc b c rest)
    · exact ((hset c').append_left b).trans (List.perm_append_comm_assoc b c' rest)

theorem mem_flatten_iff_getElem? {a} :
    a ∈ t.flatten ↔ ∃ (i : Nat) (c : List α), t[i]? = some c ∧ a ∈ c := by
  rw [List.mem_flatten]
  constructor
  · rintro ⟨c, hc, ha⟩
    obtain ⟨i, hi⟩ := List.mem_iff_getElem?.1 hc
    exact ⟨i, c, hi, ha⟩
  rintro ⟨i, c, hi, ha⟩
  exact ⟨c, List.mem_of_getElem? hi, ha⟩

theorem lt_length_of_flatten_ne_nil {r : Nat} (h : t.flatten ≠ [])
    (low : ∀ i < r, t[i]? = some []) : r < t.length := by
  obtain ⟨a, ha⟩ := List.exists_mem_of_ne_nil _ h
  obtain ⟨i, c, hi, hac⟩ := mem_flatten_iff_getElem?.1 ha
  by_contra hr
  have hil : i < t.length := (List.getElem?_eq_some_iff.1 hi).1
  have := low i (by omega)
  rw [hi, Option.some.injEq] at this
  simp [this] at hac

end

variable {α : Type*} [DecidableEq α] {β : α → Type*} {m : Finmap β} {a : α} {b b' : β a}
  {s : Multiset (Sigma β)}

section

variable (h : m.entries = ⟨a, b⟩ ::ₘ s)
include h

theorem exists_finmap_of_entries_cons :
    ∃ m₀ : Finmap β, m₀.entries = s ∧ a ∉ m₀ ∧ m = m₀.insert a b := by
  have hnd := m.nodupKeys
  rw [h] at hnd
  have hkeys := Multiset.nodup_keys.2 hnd
  rw [Multiset.keys, Multiset.map_cons, Multiset.nodup_cons] at hkeys
  let m₀ : Finmap β := ⟨s, Multiset.nodup_keys.1 hkeys.2⟩
  have ha : a ∉ m₀ := hkeys.1
  refine ⟨m₀, rfl, ha, Finmap.ext ?_⟩
  rw [entries_insert_of_notMem ha]
  exact h

theorem entries_erase : (m.erase a).entries = s := by
  obtain ⟨m0, rfl, ha, rfl⟩ := exists_finmap_of_entries_cons h
  congr 1
  apply ext_lookup
  intro x
  by_cases hx : x = a
  · subst hx
    rw [lookup_erase, lookup_eq_none.2 ha]
  · rw [lookup_erase_ne hx, lookup_insert_of_ne _ hx]

theorem entries_insert : (m.insert a b').entries = ⟨a, b'⟩ ::ₘ s := by
  obtain ⟨m0, rfl, ha, rfl⟩ := exists_finmap_of_entries_cons h
  rw [insert_insert, entries_insert_of_notMem ha]

end

omit [DecidableEq α] in
theorem card_keys (m : Finmap β) : m.keys.card = m.entries.card := by
  show (m.entries.keys).card = _
  rw [Multiset.keys, Multiset.card_map]

end Lib
