import MessagePassing.Ascending

/-!
# Tables in insertion order

A `Table` is a finite map whose keys keep the order in which they first appeared. Rebinding a key
leaves it in its place. Registries, bindings and stores of the library are tables, because their
listings follow that order.

Results:
* `get?_insert`: an insertion is seen at its own key and nowhere else.
* `insert_insert`: of two insertions at a key the later one counts.
* `get?_filterKeys`: the keys that are kept keep their values.
* `keys_insert`, `values_insert_of_free`: a new key goes to the end, and a known one changes no key.
* `mem_keys_iff`: the keys are those that are bound.
* `get?_ofList`: the table of a list that binds each key once has just these bindings.
* `toList_ofList`: it lists them in the same order.
* `get?_ofList_flatMap`: of the items that enter something under a key, the last one counts.
* `insert_ofKeys`: an insertion changes a table of given keys at one of them.
* `mem_overwritten`: which bindings a list of others replaces.
-/

namespace MessagePassing

/-- A finite map in the order of first insertion. -/
structure Table (α β : Type) where
  /-- The bindings, oldest key first. -/
  toList : List (α × β)
deriving DecidableEq

namespace Table

variable {α β : Type}

instance : EmptyCollection (Table α β) := ⟨⟨[]⟩⟩

instance : Inhabited (Table α β) := ⟨∅⟩

/-- The keys, oldest first. -/
def keys (t : Table α β) : List α :=
  t.toList.map Prod.fst

/-- The values, in the order of their keys. -/
def values (t : Table α β) : List β :=
  t.toList.map Prod.snd

/-- The number of keys. -/
def size (t : Table α β) : Nat :=
  t.toList.length

/-- The bindings whose key satisfies `p`. -/
def filterKeys (p : α → Bool) (t : Table α β) : Table α β :=
  ⟨t.toList.filter fun b => p b.1⟩

variable [DecidableEq α]

/-- The value bound to `k` in a list of bindings. -/
def find? (k : α) : List (α × β) → Option β
  | [] => none
  | b :: l => if b.1 = k then some b.2 else find? k l

/-- The value bound to `k`. -/
def get? (t : Table α β) (k : α) : Option β :=
  find? k t.toList

/-- Whether `k` is bound. -/
def contains (t : Table α β) (k : α) : Bool :=
  (t.get? k).isSome

/-- Binds `k` to `v` in a list of bindings: in place if `k` occurs, at the end otherwise. -/
def bind (k : α) (v : β) : List (α × β) → List (α × β)
  | [] => [(k, v)]
  | b :: l => if b.1 = k then (k, v) :: l else b :: bind k v l

/-- Binds `k` to `v`. -/
def insert (t : Table α β) (k : α) (v : β) : Table α β :=
  ⟨bind k v t.toList⟩

/-- The table of a list of bindings, later ones overriding earlier ones in place. -/
def ofList (l : List (α × β)) : Table α β :=
  l.foldl (fun t b => t.insert b.1 b.2) ∅

/-- The bindings in ascending order of their keys. -/
def ascending [LT α] [DecidableLT α] (t : Table α β) : List (α × β) :=
  (Ascending.ofList t.keys).filterMap fun k => (t.get? k).map (k, ·)

/-! ## Look-up and keys -/

@[simp] theorem get?_empty (k : α) : (∅ : Table α β).get? k = none := rfl

theorem find?_bind (k k' : α) (v : β) (l : List (α × β)) :
    find? k' (bind k v l) = if k = k' then some v else find? k' l := by
  induction l with
  | nil => by_cases h : k = k' <;> simp [bind, find?, h]
  | cons b l ih =>
    unfold bind
    by_cases hb : b.1 = k
    · by_cases h : k = k' <;> simp [hb, find?, h]
    · rw [if_neg hb, find?, find?, ih]
      by_cases h : b.1 = k'
      · have hk : ¬ k = k' := fun e => hb (h.trans e.symm)
        simp [h, hk]
      · simp [h]

@[simp] theorem get?_insert (t : Table α β) (k k' : α) (v : β) :
    (t.insert k v).get? k' = if k = k' then some v else t.get? k' :=
  find?_bind k k' v t.toList

theorem bind_bind (k : α) (v w : β) (l : List (α × β)) : bind k v (bind k w l) = bind k v l := by
  induction l with
  | nil => simp [bind]
  | cons b l ih =>
    by_cases h : b.1 = k
    · simp [bind, h]
    · simp [bind, h, ih]

@[simp] theorem insert_insert (t : Table α β) (k : α) (v w : β) :
    (t.insert k w).insert k v = t.insert k v := by
  unfold insert
  rw [bind_bind]

/-- A key that is listed is bound. -/
theorem isSome_find? {l : List (α × β)} {b : α × β} (h : b ∈ l) : (find? b.1 l).isSome := by
  induction l with
  | nil => exact absurd h List.not_mem_nil
  | cons x l ih =>
    rw [find?]
    split
    · rfl
    · rename_i hx
      exact ih ((List.mem_cons.mp h).resolve_left fun hbx => hx (congrArg Prod.fst hbx).symm)

theorem mem_of_find? {l : List (α × β)} {k : α} {v : β} (h : find? k l = some v) : (k, v) ∈ l := by
  induction l with
  | nil => contradiction
  | cons x l ih =>
    rw [find?] at h
    split at h
    · rename_i hx
      rw [← hx, ← Option.some.inj h]
      exact List.mem_cons_self
    · exact List.mem_cons_of_mem _ (ih h)

theorem find?_filter (p : α → Bool) (k : α) (l : List (α × β)) :
    find? k (l.filter fun b => p b.1) = if p k then find? k l else none := by
  induction l with
  | nil => simp [find?]
  | cons b l ih =>
    rw [List.filter_cons]
    by_cases hk : b.1 = k
    · subst hk
      split
      · simp [find?]
      · rw [ih]
        simp_all
    · split
      · rw [find?, find?, if_neg hk, if_neg hk, ih]
      · rw [find?, if_neg hk, ih]

@[simp] theorem get?_filterKeys (t : Table α β) (p : α → Bool) (k : α) :
    (t.filterKeys p).get? k = if p k then t.get? k else none :=
  find?_filter p k t.toList

theorem map_fst_bind (k : α) (v : β) (l : List (α × β)) :
    (bind k v l).map Prod.fst =
      if k ∈ l.map Prod.fst then l.map Prod.fst else l.map Prod.fst ++ [k] := by
  induction l with
  | nil => simp [bind]
  | cons b l ih =>
    unfold bind
    by_cases hb : b.1 = k
    · simp [hb]
    · have hk : ¬ k = b.1 := fun e => hb e.symm
      simp only [hb, if_false, List.map_cons, ih, List.mem_cons, hk, false_or]
      split <;> simp

theorem keys_insert (t : Table α β) (k : α) (v : β) :
    (t.insert k v).keys = if k ∈ t.keys then t.keys else t.keys ++ [k] :=
  map_fst_bind k v t.toList

theorem nodup_keys_insert {t : Table α β} {k : α} {v : β} (h : t.keys.Nodup) :
    (t.insert k v).keys.Nodup := by
  rw [keys_insert]
  split
  · exact h
  · rename_i hk
    refine List.nodup_append.mpr ⟨h, by simp, fun a ha b hb => ?_⟩
    rintro rfl
    exact hk (List.mem_singleton.mp hb ▸ ha)

theorem mem_keys_iff {t : Table α β} {k : α} : k ∈ t.keys ↔ ∃ v, t.get? k = some v := by
  constructor
  · intro hk
    obtain ⟨b, hb, rfl⟩ := List.mem_map.mp hk
    exact Option.isSome_iff_exists.mp (isSome_find? hb)
  · rintro ⟨v, hv⟩
    exact List.mem_map.mpr ⟨(k, v), mem_of_find? hv, rfl⟩

/-! ## Values -/

theorem find?_of_mem {l : List (α × β)} {b : α × β} (h : (l.map Prod.fst).Nodup) (hb : b ∈ l) :
    find? b.1 l = some b.2 := by
  induction l with
  | nil => exact absurd hb List.not_mem_nil
  | cons c l ih =>
    obtain ⟨hc, hl⟩ := List.nodup_cons.mp h
    rw [find?]
    rcases List.mem_cons.mp hb with rfl | hb
    · exact if_pos rfl
    · have hne : c.1 ≠ b.1 := fun hcb => hc (hcb ▸ List.mem_map_of_mem hb)
      rw [if_neg hne]
      exact ih hl hb

/-- Where no key is listed twice, a listed value is bound. -/
theorem exists_get?_of_mem_values {t : Table α β} {v : β} (h : t.keys.Nodup) (hv : v ∈ t.values) :
    ∃ k, t.get? k = some v := by
  obtain ⟨b, hb, rfl⟩ := List.mem_map.mp hv
  exact ⟨b.1, find?_of_mem h hb⟩

theorem bind_of_not_mem {l : List (α × β)} {k : α} {v : β} (h : k ∉ l.map Prod.fst) :
    bind k v l = l ++ [(k, v)] := by
  induction l with
  | nil => rfl
  | cons b l ih =>
    rw [List.map_cons, List.mem_cons, not_or] at h
    rw [bind, if_neg (Ne.symm h.1), ih h.2]
    rfl

/-- A value under a new key is listed last. -/
theorem values_insert_of_free {t : Table α β} {k : α} {v : β} (h : t.get? k = none) :
    (t.insert k v).values = t.values ++ [v] := by
  have hk : k ∉ t.keys := fun hk => by
    obtain ⟨w, hw⟩ := mem_keys_iff.mp hk
    rw [h] at hw
    contradiction
  change (bind k v t.toList).map Prod.snd = _
  rw [bind_of_not_mem hk, List.map_append]
  rfl

/-! ## Tables of lists -/

theorem mem_or_of_get?_foldl_insert {l : List (α × β)} {t : Table α β} {k : α} {v : β}
    (h : (l.foldl (fun t b => t.insert b.1 b.2) t).get? k = some v) :
    (k, v) ∈ l ∨ t.get? k = some v := by
  induction l generalizing t with
  | nil => exact Or.inr h
  | cons b l ih =>
    rcases ih h with h | h
    · exact Or.inl (List.mem_cons_of_mem _ h)
    · rw [get?_insert] at h
      split at h
      · rename_i hk
        refine Or.inl (List.mem_cons.mpr (Or.inl ?_))
        rw [← hk, ← Option.some.inj h]
      · exact Or.inr h

theorem isSome_get?_foldl_insert {l : List (α × β)} {t : Table α β} {k : α}
    (h : k ∈ l.map Prod.fst ∨ (t.get? k).isSome) :
    ((l.foldl (fun t b => t.insert b.1 b.2) t).get? k).isSome := by
  induction l generalizing t with
  | nil => exact h.resolve_left List.not_mem_nil
  | cons b l ih =>
    refine ih ?_
    rw [List.map_cons, List.mem_cons, or_assoc] at h
    rw [get?_insert]
    rcases h with rfl | h | h
    · exact Or.inr (by rw [if_pos rfl]; rfl)
    · exact Or.inl h
    · refine Or.inr ?_
      split
      · rfl
      · exact h

theorem get?_foldl_insert {l : List (α × β)} (h : ∀ x ∈ l, ∀ y ∈ l, x.1 = y.1 → x = y)
    (t : Table α β) (k : α) (v : β) :
    (l.foldl (fun t b => t.insert b.1 b.2) t).get? k = some v ↔
      (k, v) ∈ l ∨ (∀ x ∈ l, x.1 ≠ k) ∧ t.get? k = some v := by
  induction l generalizing t with
  | nil => simp
  | cons b l ih =>
    obtain ⟨hb, hl⟩ := List.forall_mem_cons.mp h
    rw [List.foldl_cons, ih fun x hx y hy => hl x hx y (List.mem_cons_of_mem _ hy), get?_insert]
    by_cases hk : b.1 = k
    · subst hk
      rw [if_pos rfl, Option.some.injEq]
      constructor
      · rintro (h | ⟨-, rfl⟩)
        · exact Or.inl (List.mem_cons_of_mem _ h)
        · exact Or.inl List.mem_cons_self
      · rintro (h | ⟨h, -⟩)
        · rcases List.mem_cons.mp h with h | h
          · -- the key may be bound again, to the same value
            by_cases hfresh : ∀ x ∈ l, x.1 ≠ b.1
            · exact Or.inr ⟨hfresh, (congrArg Prod.snd h).symm⟩
            · simp only [Classical.not_forall, Decidable.not_not] at hfresh
              obtain ⟨x, hx, hxb⟩ := hfresh
              refine Or.inl ?_
              rw [h, hb x (List.mem_cons_of_mem _ hx) hxb.symm]
              exact hx
          · exact Or.inl h
        · exact absurd rfl (h b List.mem_cons_self)
    · rw [if_neg hk, List.mem_cons, List.forall_mem_cons]
      have hne : (k, v) ≠ b := fun h => hk (congrArg Prod.fst h).symm
      simp [hne, hk]

/-- A list that binds each key once gives a table with just these bindings. -/
theorem get?_ofList {l : List (α × β)} (h : ∀ x ∈ l, ∀ y ∈ l, x.1 = y.1 → x = y) (k : α) (v : β) :
    (ofList l).get? k = some v ↔ (k, v) ∈ l := by
  unfold ofList
  rw [get?_foldl_insert h]
  simp

/-- A list of different keys gives a table that lists them in the same order. -/
theorem toList_ofList {l : List (α × β)} (h : (l.map Prod.fst).Nodup) : (ofList l).toList = l := by
  have hfold : ∀ (l : List (α × β)) (t : Table α β), ((t.toList ++ l).map Prod.fst).Nodup →
      (l.foldl (fun t b => t.insert b.1 b.2) t).toList = t.toList ++ l := by
    intro l
    induction l with
    | nil => exact fun t _ => (List.append_nil _).symm
    | cons b l ih =>
      intro t ht
      have hb : (t.insert b.1 b.2).toList = t.toList ++ [b] := by
        refine bind_of_not_mem fun hmem => ?_
        rw [List.map_append, List.nodup_append] at ht
        exact ht.2.2 b.1 hmem b.1 List.mem_cons_self rfl
      rw [List.foldl_cons, ih, hb, List.append_assoc]
      · rfl
      · rw [hb, List.append_assoc]
        exact ht
  exact hfold l ∅ h

theorem nodup_keys_ofList (l : List (α × β)) : (ofList l).keys.Nodup :=
  List.foldlRecOn (motive := fun t : Table α β => t.keys.Nodup) l _ List.nodup_nil
    fun _ h _ _ => nodup_keys_insert h

theorem ofList_append (l l' : List (α × β)) :
    ofList (l ++ l') = l'.foldl (fun t b => t.insert b.1 b.2) (ofList l) :=
  List.foldl_append

/-- What is entered under several keys is found there. -/
theorem get?_foldl_insert_same (keys : List α) (v : β) (t : Table α β) (k : α) :
    ((keys.map (·, v)).foldl (fun t b => t.insert b.1 b.2) t).get? k =
      if k ∈ keys then some v else t.get? k := by
  induction keys generalizing t with
  | nil => rfl
  | cons k' keys ih =>
    rw [List.map_cons, List.foldl_cons, ih, get?_insert]
    by_cases hk : k ∈ keys
    · rw [if_pos hk, if_pos (List.mem_cons_of_mem _ hk)]
    · simp [hk, eq_comm]

theorem get?_foldl_flatMap {γ : Type} (l : List γ) (keys : γ → List α) (val : γ → β)
    (t : Table α β) (k : α) :
    ((l.flatMap fun x => (keys x).map (·, val x)).foldl (fun t b => t.insert b.1 b.2) t).get? k =
      (((l.filter fun x => k ∈ keys x).getLast?).map val).or (t.get? k) := by
  induction l generalizing t with
  | nil => rfl
  | cons x l ih =>
    rw [List.flatMap_cons, List.foldl_append, ih, get?_foldl_insert_same, List.filter_cons]
    by_cases hk : k ∈ keys x
    · rw [if_pos hk, if_pos (decide_eq_true hk), List.getLast?_cons]
      cases (l.filter fun x => k ∈ keys x).getLast? <;> rfl
    · rw [if_neg hk, if_neg (mt of_decide_eq_true hk)]

/-- **Of the items that enter something under a key, the last one counts.** -/
theorem get?_ofList_flatMap {γ : Type} (l : List γ) (keys : γ → List α) (val : γ → β) (k : α) :
    (ofList (l.flatMap fun x => (keys x).map (·, val x))).get? k =
      ((l.filter fun x => k ∈ keys x).getLast?).map val := by
  unfold ofList
  rw [get?_foldl_flatMap, get?_empty, Option.or_none]

/-! ## Tables with given keys -/

section Keys

variable {keys : List α} {f : α → β} {k : α}

/-- The table that binds given keys to the values of a function. -/
def ofKeys (keys : List α) (f : α → β) : Table α β :=
  ⟨keys.map fun k => (k, f k)⟩

theorem get?_ofKeys : (ofKeys keys f).get? k = if k ∈ keys then some (f k) else none := by
  unfold get? ofKeys
  induction keys with
  | nil => rfl
  | cons a keys ih =>
    rw [List.map_cons, find?, ih]
    by_cases ha : a = k
    · simp [ha]
    · simp [ha, Ne.symm ha]

omit [DecidableEq α] in
theorem values_ofKeys : (ofKeys keys f).values = keys.map f := by
  unfold values ofKeys
  rw [List.map_map]
  rfl

/-- An insertion changes the function at one key, which goes to the end if it is new. -/
theorem insert_ofKeys {g : α → β} (h : keys.Nodup) (hg : ∀ a, a ≠ k → g a = f a) :
    (ofKeys keys f).insert k (g k) = ofKeys (if k ∈ keys then keys else keys ++ [k]) g := by
  unfold insert ofKeys
  refine congrArg Table.mk ?_
  induction keys with
  | nil => rfl
  | cons a keys ih =>
    obtain ⟨ha, hkeys⟩ := List.nodup_cons.mp h
    rw [List.map_cons, bind]
    by_cases hak : a = k
    · subst hak
      have hsame : keys.map (fun b => (b, f b)) = keys.map fun b => (b, g b) :=
        List.map_congr_left fun b hb => by rw [hg b fun hba => ha (hba ▸ hb)]
      simp [hsame]
    · rw [if_neg hak, ih hkeys, ← hg a hak]
      by_cases hk : k ∈ keys <;> simp [hk, Ne.symm hak]

end Keys

/-! ## Bindings that are overwritten -/

section Overwriting

variable [DecidableEq β] {t : Table α β} {l : List (α × β)} {b : α × β} {v : β}

/-- The bindings of a list that, put into a table one after the other, replace another value, with
the value that they replace. -/
def overwritten (t : Table α β) : List (α × β) → List ((α × β) × β)
  | [] => []
  | b :: l => ((t.get? b.1).filter (· ≠ b.2)).toList.map (b, ·) ++ overwritten (t.insert b.1 b.2) l

theorem overwritten_cons (t : Table α β) (b : α × β) (l : List (α × β)) :
    t.overwritten (b :: l) = ((t.get? b.1).filter (· ≠ b.2)).toList.map (b, ·) ++
      (t.insert b.1 b.2).overwritten l := rfl

/-- If the list has one value for each key, only what was there before is replaced. -/
theorem mem_overwritten (h : ∀ a ∈ l, ∀ b ∈ l, a.1 = b.1 → a = b) :
    (b, v) ∈ t.overwritten l ↔ b ∈ l ∧ t.get? b.1 = some v ∧ v ≠ b.2 := by
  induction l generalizing t with
  | nil => simp [overwritten]
  | cons c l ih =>
    have hc : ∀ a ∈ l, c.1 = a.1 → c = a := fun a ha =>
      h c List.mem_cons_self a (List.mem_cons_of_mem _ ha)
    have hl := ih (t := t.insert c.1 c.2) fun a ha b hb =>
      h a (List.mem_cons_of_mem _ ha) b (List.mem_cons_of_mem _ hb)
    have hhead : (b, v) ∈ ((t.get? c.1).filter (· ≠ c.2)).toList.map (c, ·) ↔
        b = c ∧ t.get? c.1 = some v ∧ v ≠ c.2 := by
      simp only [List.mem_map, Option.mem_toList, Option.filter_eq_some_iff, decide_eq_true_eq,
        Prod.mk.injEq]
      constructor
      · rintro ⟨w, hw, rfl, rfl⟩
        exact ⟨rfl, hw⟩
      · rintro ⟨rfl, hv⟩
        exact ⟨v, hv, rfl, rfl⟩
    rw [overwritten_cons, List.mem_append, hhead, hl, get?_insert, List.mem_cons]
    constructor
    · rintro (⟨rfl, hget⟩ | ⟨hb, hget, hne⟩)
      · exact ⟨Or.inl rfl, hget⟩
      · split at hget
        · rename_i hk
          obtain rfl := hc b hb hk
          exact absurd (Option.some.inj hget).symm hne
        · exact ⟨Or.inr hb, hget, hne⟩
    · rintro ⟨rfl | hb, hget, hne⟩
      · exact Or.inl ⟨rfl, hget, hne⟩
      · by_cases hk : c.1 = b.1
        · obtain rfl := hc b hb hk
          exact Or.inl ⟨rfl, hget, hne⟩
        · exact Or.inr ⟨hb, by rwa [if_neg hk], hne⟩

end Overwriting

end Table

end MessagePassing
