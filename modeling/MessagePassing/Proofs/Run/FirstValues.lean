import MessagePassing.Proofs.Run.Commutation
import MessagePassing.Proofs.Run.Initialization

/-!
# What giving first values does

A first value goes to the place of a marginal, and to those edges of its variable that carry no
value of its type. Whether it can be given depends on the graph and on the type only, never on what
the memory holds.

Results:
* `vagueOf_type?`: the flat value of the type of a flat value is that value again.
* `keeps_initMarginal_cell`: a first value goes nowhere else.
-/

namespace MessagePassing

open Attempt (Keeps)

namespace Memory

variable {e : EdgeId} {t : TypeTerm} {v : Value} {m n : Memory}

@[simp] theorem cell_putEdgeMarginal {s : Slot} :
    (putEdgeMarginal v m e).cell s = if s = .edge e then some (.value v) else m.cell s := by
  have h := cell_foldl_putEdgeMarginal (m := m) (s := s) (v := v) (l := [e])
  simpa using h

theorem edgeMarginal_of_cell (h : m.cell (.edge e) = n.cell (.edge e)) :
    m.edgeMarginal e = n.edgeMarginal e := by
  unfold edgeMarginal
  rw [map_value_injective h]

/-- An edge that carries a value of some type has it in its place. -/
theorem cell_of_type? (h : (m.edgeMarginal e).type? = some t) :
    m.cell (.edge e) = some (.value (m.edgeMarginal e)) := by
  change Option.map Cell.value (m.edgeMarginals.get? e) = _
  unfold edgeMarginal at h ⊢
  cases he : m.edgeMarginals.get? e with
  | none => rw [he] at h; contradiction
  | some v => rfl

end Memory

/-! ## Flat values -/

namespace TypeTerm

theorem dims_ofDims (family : String) (dims : List Int) : (ofDims family dims).dims = dims := by
  change (dims.map num).filterMap num? = dims
  rw [List.filterMap_map]
  exact List.filterMap_some

end TypeTerm

theorem vagueBelow_type? {o : Options} {whole t t' : TypeTerm} {v : Value}
    (h : Value.vagueBelow o whole t = .ok v) (ht' : v.type? = some t') (whole' : TypeTerm) :
    Value.vagueBelow o whole' t' = .ok v := by
  fun_induction Value.vagueBelow o whole t generalizing v t' whole' with
  | case1 _ _ ih => exact ih h ht' whole'
  | case2 _ _ _ ih => exact ih h ht' whole'
  | case4 _ e n hn ih =>
    -- the first of the factors tells the type of all of them
    obtain ⟨u, hu, rfl⟩ := map_eq_ok.mp h
    obtain ⟨k, hk⟩ : ∃ k, n.toNat = k + 1 := ⟨n.toNat - 1, by omega⟩
    rw [hk, List.replicate_succ] at ht'
    obtain ⟨t'', ht'', rfl⟩ := Option.map_eq_some_iff.mp ht'
    unfold Value.vagueBelow
    rw [if_neg (by omega), ih hu ht'' t'', List.length_replicate, hk]
    rfl
  | case6 _ family params =>
    obtain ⟨table, htable, rfl⟩ := map_eq_ok.mp h
    obtain rfl := Option.some.inj ht'
    change Value.vague o family (TypeTerm.ofDims family _).dims = _
    rw [TypeTerm.dims_ofDims]
    exact h
  | _ => contradiction

/-- **The flat value of the type of a flat value is that value.** -/
theorem vagueOf_type? {o : Options} {t t' : TypeTerm} {v : Value} (h : Value.vagueOf o t = .ok v)
    (ht' : v.type? = some t') : Value.vagueOf o t' = .ok v :=
  vagueBelow_type? h ht' t'

/-! ## Where first values go -/

section Frame

variable {p : Program} {s : Slot} {c : Option Cell}

theorem keeps_ensureMarginal_cell {g : Graph} {e : EdgeId} (t : TypeTerm) (v : Value)
    (hs : s ≠ .edge e) :
    Keeps (fun m => m.cell s = c) (Memory.ensureMarginal g e t (.ok v)) := by
  intro m hm
  unfold Attempt.outcome
  rw [Memory.ensureMarginal_eq]
  cases g.allow e t with
  | error f => exact hm
  | ok _ =>
    dsimp only
    split
    · rename_i h
      split at h
      · cases h
        exact hm
      · cases h
        rw [Memory.cell_putEdgeMarginal, if_neg hs, hm]
    · rename_i h
      split at h <;> contradiction

/-- A first value goes to the places of its target only. -/
theorem keeps_initMarginal_cell {e : MarginalEntry} (hs : s ∉ e.target.slots p.graph) :
    Keeps (fun m => m.cell s = c) (p.initMarginal e) := by
  unfold Program.initMarginal
  split
  · exact Keeps.throw _
  · refine Keeps.bind (Keeps.liftM _) fun v => Keeps.bind (Keeps.modify fun m hm => ?_) fun _ => ?_
    · rw [Memory.cell_putMarginal, if_neg fun h => hs (Or.inl h), hm]
    · split
      · rename_i x hx
        exact Keeps.forM fun i hi => Keeps.bind (keeps_ensureMarginal_cell _ _ fun h =>
          hs (Or.inr ⟨x, hx, i, hi, h⟩)) fun _ => Keeps.pure _
      · exact Keeps.pure _

end Frame

end MessagePassing
