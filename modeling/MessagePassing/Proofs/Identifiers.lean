import Mathlib.Data.List.Basic
import MessagePassing.Graph.Cluster
import MessagePassing.IdSource

/-!
# Reading back identifiers

Identifiers are strings in which numbers are set off by underscores. A stem may itself have
underscores and digits, so that the identifiers of the stems `a` and `a_1` look alike. But a written
number has no underscore, so the last underscore of a numbered name is the one before its number,
and an identifier that ends in several numbers can be cut at its underscores.

Results:
* `numbered_inj`: a numbered name tells its stem and its number.
* `IdSource.nodup_names`: a source never hands out one name twice.
* `Cluster.id_injective`: the identifier of a cluster tells the cluster.
* **`identifiers_distinct`**: both together.
-/

namespace MessagePassing

/-! ## Written numbers -/

theorem underscore_notMem_toString (n : ℕ) : '_' ∉ (toString n).toList := by
  intro h
  rw [Nat.toString_eq_repr, Nat.toList_repr] at h
  have := Nat.isDigit_of_mem_toDigits (by decide) (by decide) h
  contradiction

/-- What follows the last of a separator is told by the whole. -/
theorem append_cons_inj_of_notMem {α : Type} {a : α} {l l' m m' : List α} (hm : a ∉ m)
    (hm' : a ∉ m') (h : l ++ a :: m = l' ++ a :: m') : l = l' ∧ m = m' := by
  obtain ⟨k, hl, hk⟩ | ⟨k, hl, hk⟩ := List.append_eq_append_iff.mp h
  · cases k with
    | nil => exact ⟨by simpa using hl.symm, (List.cons.inj hk).2⟩
    | cons b k => exact absurd (by simp [(List.cons.inj hk).2]) hm
  · cases k with
    | nil => exact ⟨by simpa using hl, (List.cons.inj hk).2.symm⟩
    | cons b k => exact absurd (by simp [(List.cons.inj hk).2]) hm'

theorem toList_append_underscore (s t : String) :
    (s ++ "_" ++ t).toList = s.toList ++ '_' :: t.toList := by
  simp

/-- **A numbered name tells its stem and its number.** -/
theorem numbered_inj {a b : String} {m n : ℕ} (h : s!"{a}_{m}" = s!"{b}_{n}") :
    a = b ∧ m = n := by
  replace h : a ++ "_" ++ toString m = b ++ "_" ++ toString n := h
  have hlist := congrArg String.toList h
  rw [toList_append_underscore, toList_append_underscore] at hlist
  obtain ⟨hs, hn⟩ := append_cons_inj_of_notMem (underscore_notMem_toString m)
    (underscore_notMem_toString n) hlist
  exact ⟨String.toList_inj.mp hs, toString_injective (String.toList_inj.mp hn)⟩

/-! ## Names of a source -/

namespace IdSource

/-- The last number that was handed out for a stem. -/
def count (s : IdSource) (stem : String) : ℕ := (s.counters.get? stem).getD 0

/-- The names that a source hands out for a list of stems, one after the other. -/
def names (s : IdSource) : List String → List String
  | [] => []
  | stem :: stems => (s.next stem).1 :: (s.next stem).2.names stems

variable (s : IdSource) (stem : String)

theorem next_fst : (s.next stem).1 = s!"{stem}_{s.count stem + 1}" := rfl

theorem count_next (stem' : String) :
    (s.next stem).2.count stem' = if stem = stem' then s.count stem + 1 else s.count stem' := by
  unfold count next
  rw [Table.get?_insert]
  split <;> rfl

/-- The counters only grow. -/
theorem count_le_count_next (stem' : String) : s.count stem' ≤ (s.next stem).2.count stem' := by
  rw [count_next]
  split
  next h => exact h ▸ Nat.le_succ _
  next => exact Nat.le_refl _

/-- A source hands out numbers above its counters. -/
theorem exists_of_mem_names {stems : List String} {name : String} (h : name ∈ s.names stems) :
    ∃ stem ∈ stems, ∃ n, s.count stem < n ∧ name = s!"{stem}_{n}" := by
  induction stems generalizing s with
  | nil => exact absurd h List.not_mem_nil
  | cons first stems ih =>
    rcases List.mem_cons.mp h with rfl | h
    · exact ⟨first, List.mem_cons_self, _, Nat.lt_succ_self _, s.next_fst first⟩
    · obtain ⟨stem, hmem, n, hn, hname⟩ := ih _ h
      exact ⟨stem, List.mem_cons_of_mem _ hmem, n,
        Nat.lt_of_le_of_lt (s.count_le_count_next first stem) hn, hname⟩

/-- **A source never hands out one name twice**, whatever it has counted before. -/
theorem nodup_names (stems : List String) : (s.names stems).Nodup := by
  induction stems generalizing s with
  | nil => exact List.nodup_nil
  | cons first stems ih =>
    refine List.nodup_cons.mpr ⟨fun h => ?_, ih _⟩
    obtain ⟨stem, -, n, hn, hname⟩ := exists_of_mem_names _ h
    obtain ⟨rfl, rfl⟩ := numbered_inj ((s.next_fst first).symm.trans hname)
    rw [count_next, if_pos rfl] at hn
    exact Nat.lt_irrefl _ hn

end IdSource

/-! ## Identifiers of clusters -/

theorem toString_toList_injective : Function.Injective fun n : ℕ => (toString n).toList :=
  fun _ _ h => toString_injective (String.toList_inj.mp h)

/-- Numbers that are set off by underscores. -/
def joined (l : List ℕ) : String := "_".intercalate (l.map toString)

/-- Cutting at the underscores gives the numbers, -/
theorem splitOn_joined {l : List ℕ} (hl : l ≠ []) :
    (joined l).toList.splitOn '_' = l.map fun n => (toString n).toList := by
  have hsep : "_".toList = ['_'] := rfl
  rw [joined, String.toList_intercalate, hsep, List.map_map]
  refine List.splitOn_intercalate '_' ?_ (by simpa using hl)
  rintro _ hm
  obtain ⟨n, -, rfl⟩ := List.mem_map.mp hm
  exact underscore_notMem_toString n

/-- and no number is empty, as the single piece of nothing is. -/
theorem splitOn_joined_ne {l : List ℕ} (hl : l ≠ []) :
    (joined l).toList.splitOn '_' ≠ (joined []).toList.splitOn '_' := by
  have hnil : (joined []).toList.splitOn '_' = [[]] := List.splitOn_nil '_'
  rw [hnil, splitOn_joined hl]
  intro h
  obtain ⟨n, -, hn⟩ := List.mem_map.mp (h ▸ List.mem_singleton_self [])
  rw [Nat.toString_eq_repr, Nat.toList_repr] at hn
  exact Nat.toDigits_ne_nil hn

theorem joined_injective : Function.Injective joined := by
  intro l l' h
  have hcut := congrArg (fun s : String => s.toList.splitOn '_') h
  by_cases hl : l = [] <;> by_cases hl' : l' = []
  · rw [hl, hl']
  · exact absurd (hl ▸ hcut).symm (splitOn_joined_ne hl')
  · exact absurd (hl' ▸ hcut) (splitOn_joined_ne hl)
  · simp only [splitOn_joined hl, splitOn_joined hl'] at hcut
    exact List.map_injective_iff.mpr toString_toList_injective hcut

theorem Cluster.id_eq (c : Cluster) :
    c.id = "cluster_" ++ (toString c.node ++ "_" ++ joined c.edges) := by
  simp only [id, joined, String.append_assoc]
  rfl

/-- **The identifier of a cluster tells the cluster**, even where it has no edges. -/
theorem Cluster.id_injective : Function.Injective Cluster.id := by
  rintro ⟨n, l⟩ ⟨n', l'⟩ h
  rw [id_eq, id_eq, String.append_right_inj] at h
  -- the node is what stands before the first underscore
  have hnode : n = n' := by
    have hcut := congrArg (fun s : String => s.toList.splitOn '_') h
    simp only [toList_append_underscore] at hcut
    rw [List.splitOn_append_cons_self_of_not_mem (underscore_notMem_toString n),
      List.splitOn_append_cons_self_of_not_mem (underscore_notMem_toString n')] at hcut
    exact toString_toList_injective (List.cons.inj hcut).1
  subst hnode
  exact congrArg _ (joined_injective ((String.append_right_inj _).mp h))

/-- **Identifiers never collide.** All names that a source hands out for any list of stems, which
may have underscores and digits, are different, and so are the identifiers of different clusters. -/
theorem identifiers_distinct :
    (∀ (s : IdSource) (stems : List String), (s.names stems).Nodup) ∧
      Function.Injective Cluster.id :=
  ⟨IdSource.nodup_names, Cluster.id_injective⟩

/-- Stems that look like numbered names of one another. -/
example : IdSource.names {} ["a", "a_1", "a", "a_1", "a_1_1"] =
    ["a_1", "a_1_1", "a_2", "a_1_2", "a_1_1_1"] := by decide

end MessagePassing
