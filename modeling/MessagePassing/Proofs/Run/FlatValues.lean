import MessagePassing.Proofs.Run.FlatSeeds

/-!
# The types of flat values

A flat value is made from a type by going down its layers, and the type of a value is read off its
first factors. Where the type is a distribution of numbers for dimensions, or a number of factors of
such a type, the two are inverse to each other: what is made for a type has just this type, with all
its layers. So an edge that is given a flat value once is not given another one.

Messages and approximations around the type get lost. With one of them around it, an edge would be
given the value again every time.

* `TypeTerm.Definite` is said of types of this kind.
* `FlatSeed.Accepts`, `Value.Accepted`: the dimensions of which a seed makes parameters, and a
  family has a flat value.
* `Value.Fits`: the value has all layers of a type, and each of them has all its factors.

Results:
* `Value.exists_vague_iff`: when a family has a flat value.
* `Value.Fits.type?_eq`: a value with all layers of a type has the type, if none of them is empty.
* `Memory.ensureMarginal_eq_ok`: when an edge keeps its value and when it takes another one.
* `Memory.ensureMarginal_ensured`: an edge that was given a value of a type is given no other.
* **`TypeTerm.flat_of_definite`**: what the flat value of a type is, and when there is one.
-/

namespace MessagePassing

theorem exists_map_iff {α β : Type} {x : Except Failure α} {f : α → β} :
    (∃ b, x.map f = .ok b) ↔ ∃ a, x = .ok a := by
  cases x with
  | error e => exact ⟨nofun, nofun⟩
  | ok a => exact ⟨fun _ => ⟨a, rfl⟩, fun _ => ⟨f a, rfl⟩⟩

/-! ## Flat values of families -/

variable {o : Options} {family : String} {dims : List Int}

namespace FlatSeed

/-- A seed makes the parameters of a flat value of the dimensions. -/
inductive Accepts (o : Options) : FlatSeed → List Int → Prop
  /-- There are arrays of the dimensions. -/
  | pair {first second : String × (Settings → Number)} {dims : List Int} {shape : List Nat}
      (h : Tensor.sizes o.memory dims = .ok shape) : Accepts o (.pair first second) dims
  /-- There is a square array of the only dimension, and the scale is a number in double
  precision. -/
  | square {n : Int} {shape square : List Nat} {scale : Float}
      (h : Tensor.sizes o.memory [n] = .ok shape)
      (hsquare : Tensor.sizes o.memory [n, n] = .ok square)
      (hscale : o.huge.inDouble = .ok scale) : Accepts o .square [n]
  /-- The only dimension is a number in double precision by which one can divide. -/
  | shares {n : Int} {shape : List Nat} {count : Float} (hn : n ≠ 0)
      (hcount : (Number.whole n).inDouble = .ok count)
      (h : Tensor.sizes o.memory [n] = .ok shape) : Accepts o .shares [n]
  /-- The function of the seed answers. -/
  | computed {f : Settings → List Int → Except Failure (Table String Param)} {hf}
      {dims : List Int} {params : Table String Param} (h : f o.toSettings dims = .ok params) :
      Accepts o (.computed f hf) dims

theorem oneDimension_eq_ok {n : Int} : oneDimension family dims = .ok n ↔ dims = [n] := by
  unfold oneDimension
  split
  · simp
  · rename_i hdims
    exact ⟨nofun, fun h => absurd h (hdims n)⟩

/-- A seed makes parameters just of the dimensions that it accepts. -/
theorem exists_params_iff {seed : FlatSeed} :
    (∃ params, seed.params o family dims = .ok params) ↔ seed.Accepts o dims := by
  constructor
  · rintro ⟨params, h⟩
    cases seed with
    | pair first second =>
      obtain ⟨shape, hshape, -⟩ := map_eq_ok.mp h
      exact .pair hshape
    | square =>
      obtain ⟨n, hn, h⟩ := bind_eq_ok.mp h
      obtain ⟨shape, hshape, h⟩ := bind_eq_ok.mp h
      obtain ⟨square, hsquare, h⟩ := bind_eq_ok.mp h
      obtain ⟨scale, hscale, -⟩ := bind_eq_ok.mp h
      rw [oneDimension_eq_ok.mp hn]
      exact .square hshape hsquare hscale
    | shares =>
      obtain ⟨n, hn, h⟩ := bind_eq_ok.mp h
      obtain ⟨hzero, h⟩ := guard_eq_ok.mp h
      obtain ⟨count, hcount, h⟩ := bind_eq_ok.mp h
      obtain ⟨shape, hshape, -⟩ := bind_eq_ok.mp h
      rw [oneDimension_eq_ok.mp hn]
      exact .shares hzero hcount hshape
    | computed f hf => exact .computed h
  · intro h
    cases h with
    | @pair _ _ _ shape h => exact ⟨_, map_eq_ok.mpr ⟨shape, h, rfl⟩⟩
    | @square n shape square scale h hsquare hscale =>
      exact ⟨_, bind_eq_ok.mpr ⟨n, rfl, bind_eq_ok.mpr ⟨shape, h, bind_eq_ok.mpr ⟨square, hsquare,
        bind_eq_ok.mpr ⟨scale, hscale, rfl⟩⟩⟩⟩⟩
    | @shares n shape count hn hcount h =>
      exact ⟨_, bind_eq_ok.mpr ⟨n, rfl, guard_eq_ok.mpr ⟨hn, bind_eq_ok.mpr ⟨count, hcount,
        bind_eq_ok.mpr ⟨shape, h, rfl⟩⟩⟩⟩⟩
    | computed h => exact ⟨_, h⟩

end FlatSeed

namespace Value

/-- A family has a flat value of the dimensions: its seed accepts them, if it has one. Any other
family is only marked. -/
def Accepted (o : Options) (family : String) (dims : List Int) : Prop :=
  ∀ seed, o.families.get? family = some seed → seed.Accepts o dims

/-- **A family has a flat value just of the dimensions that it accepts.** -/
theorem exists_vague_iff : (∃ v, vague o family dims = .ok v) ↔ Accepted o family dims := by
  unfold vague vagueParams Accepted
  rw [exists_map_iff]
  cases o.families.get? family with
  | none => exact iff_of_true ⟨_, rfl⟩ nofun
  | some seed =>
    dsimp only
    rw [FlatSeed.exists_params_iff]
    exact ⟨fun h _ hseed => Option.some.inj hseed ▸ h, fun h => h seed rfl⟩

end Value

/-! ## Types of numbers -/

namespace TypeTerm

/-- The type is a distribution with numbers for dimensions, or a number of factors of such a
type. -/
inductive Definite : TypeTerm → Prop
  | dist (family : String) (dims : List Int) : Definite (.ofDims family dims)
  | partitioned {t : TypeTerm} (h : Definite t) (n : Int) : Definite (.partitioned t (.num n))

/-- All numbers of factors are positive, and the family of the distribution has a flat value of its
dimensions. -/
def Seedable (o : Options) : TypeTerm → Prop
  | .dist family params => Value.Accepted o family (TypeTerm.dist family params).dims
  | .partitioned e (.num n) => 0 < n ∧ Seedable o e
  | _ => False

theorem seedable_ofDims {o : Options} {family : String} {dims : List Int} :
    (ofDims family dims).Seedable o ↔ Value.Accepted o family dims := by
  change Value.Accepted o family (ofDims family dims).dims ↔ _
  rw [dims_ofDims]

end TypeTerm

namespace Value

/-- The value has all layers of a type, and each layer has as many factors as the type says. -/
inductive Fits : TypeTerm → Value → Prop
  | dist (family : String) (dims : List Int) (params : Table String Param) :
      Fits (.ofDims family dims) (.dist family dims params)
  | parts {t : TypeTerm} {factors : List Value} (h : ∀ v ∈ factors, Fits t v) :
      Fits (.partitioned t (.num factors.length)) (.parts factors)

variable {o : Options} {whole t : TypeTerm} {v : Value}

/-- **A value with all layers of a type has the type**, if none of them is empty. -/
theorem Fits.type?_eq (h : Fits t v) (ht : t.Seedable o) : v.type? = some t := by
  induction h with
  | dist => rfl
  | @parts t factors _ ih =>
    obtain ⟨hpos, ht⟩ : 0 < (factors.length : Int) ∧ t.Seedable o := ht
    cases factors with
    | nil => contradiction
    | cons v factors =>
      rw [type?, ih v List.mem_cons_self ht]
      rfl

theorem vagueBelow_payload : vagueBelow o whole t = vagueBelow o whole t.payload := by
  fun_induction TypeTerm.payload t with
  | case1 _ ih => exact ih
  | case2 _ _ ih => exact ih
  | case3 => rfl

theorem vagueBelow_ofDims {family : String} {dims : List Int} :
    vagueBelow o whole (.ofDims family dims) = vague o family dims := by
  change vague o family (TypeTerm.ofDims family dims).dims = _
  rw [TypeTerm.dims_ofDims]

end Value

namespace TypeTerm.Definite

variable {o : Options} {whole t : TypeTerm} {v : Value}

/-- **There is a flat value of the type just if all numbers of factors are positive and the family
has one of the dimensions.** -/
theorem exists_vagueBelow_iff (h : t.Definite) :
    (∃ v, Value.vagueBelow o whole t = .ok v) ↔ t.Seedable o := by
  induction h generalizing whole with
  | dist => rw [Value.vagueBelow_ofDims, Value.exists_vague_iff, seedable_ofDims]
  | @partitioned e _ n ih =>
    rw [Value.vagueBelow]
    change _ ↔ 0 < n ∧ e.Seedable o
    split
    · rename_i hn
      constructor
      · rintro ⟨_, hv⟩
        contradiction
      · exact fun h => absurd h.1 (Int.not_lt.mpr hn)
    · rename_i hn
      rw [exists_map_iff, ih, and_iff_right (Int.not_le.mp hn)]

/-- **The flat value has all layers of the type**, with all their factors. -/
theorem fits_of_vagueBelow (h : t.Definite) (hv : Value.vagueBelow o whole t = .ok v) :
    Value.Fits t v := by
  induction h generalizing whole v with
  | dist family dims =>
    rw [Value.vagueBelow_ofDims] at hv
    obtain ⟨params, -, rfl⟩ := map_eq_ok.mp hv
    exact .dist family dims params
  | @partitioned e _ n ih =>
    rw [Value.vagueBelow] at hv
    split at hv
    · contradiction
    · rename_i hn
      obtain ⟨u, hu, rfl⟩ := map_eq_ok.mp hv
      obtain ⟨k, rfl⟩ := Int.eq_ofNat_of_zero_le (Int.le_of_not_le hn)
      have hall : ∀ w ∈ List.replicate k u, Value.Fits e w := fun w hw =>
        List.eq_of_mem_replicate hw ▸ ih hu
      simpa only [List.length_replicate, Int.toNat_natCast] using Value.Fits.parts hall

end TypeTerm.Definite

/-! ## Edges that are given flat values -/

namespace Memory

variable {g : Graph} {e : EdgeId} {t : TypeTerm} {m m' : Memory} {make : Except Failure Value}
  {made : Bool}

@[simp] theorem edgeMarginal_putEdgeMarginal (v : Value) (m : Memory) (e : EdgeId) :
    (putEdgeMarginal v m e).edgeMarginal e = v := by
  simp [edgeMarginal, putEdgeMarginal]

/-- An edge that admits the type keeps a value that has it, and takes one that is made otherwise. -/
theorem ensureMarginal_eq_ok : ensureMarginal g e t make m = .ok made m' ↔ g.allow e t = .ok () ∧
    ((m.edgeMarginal e).type? = some t ∧ made = false ∧ m' = m ∨
      (m.edgeMarginal e).type? ≠ some t ∧
        ∃ v, make = .ok v ∧ made = true ∧ m' = putEdgeMarginal v m e) := by
  rw [ensureMarginal_make]
  cases g.allow e t with
  | error f => simp
  | ok _ =>
    by_cases htype : (m.edgeMarginal e).type? = some t
    · simp [htype, eq_comm]
    · cases make <;> simp [htype, eq_comm]

/-- An edge that is given a value of a type carries one, and is given no other. -/
theorem ensureMarginal_ensured (hmake : ∀ v, make = .ok v → v.type? = some t)
    (h : ensureMarginal g e t make m = .ok made m') :
    (m'.edgeMarginal e).type? = some t ∧ ensureMarginal g e t make m' = .ok false m' := by
  obtain ⟨hallow, hcases⟩ := ensureMarginal_eq_ok.mp h
  have htype : (m'.edgeMarginal e).type? = some t := by
    rcases hcases with ⟨htype, -, rfl⟩ | ⟨-, v, hv, -, rfl⟩
    · exact htype
    · rw [edgeMarginal_putEdgeMarginal]
      exact hmake v hv
  exact ⟨htype, ensureMarginal_eq_ok.mpr ⟨hallow, .inl ⟨htype, rfl, rfl⟩⟩⟩

/-- An edge that admits the type is given a value if there is one. -/
theorem exists_ensureMarginal (hallow : g.allow e t = .ok ()) {v : Value} (hmake : make = .ok v)
    (m : Memory) : ∃ made m', ensureMarginal g e t make m = .ok made m' := by
  by_cases htype : (m.edgeMarginal e).type? = some t
  · exact ⟨_, _, ensureMarginal_eq_ok.mpr ⟨hallow, .inl ⟨htype, rfl, rfl⟩⟩⟩
  · exact ⟨_, _, ensureMarginal_eq_ok.mpr ⟨hallow, .inr ⟨htype, v, hmake, rfl, rfl⟩⟩⟩

/-- An edge that is given no value stays as it is. -/
theorem ensureMarginal_refused {f : Failure} (h : ensureMarginal g e t make m = .error f m') :
    m' = m := by
  rw [ensureMarginal_make] at h
  cases hallow : g.allow e t with
  | error f =>
    rw [hallow] at h
    cases h
    rfl
  | ok _ =>
    rw [hallow] at h
    dsimp only at h
    split at h
    · contradiction
    · cases make with
      | error f =>
        cases h
        rfl
      | ok v => contradiction

end Memory

/-- What the flat value of a type is, and when there is one. -/
structure TypeTerm.Flat (o : Options) (t : TypeTerm) : Prop where
  /-- There is one just if below the messages and approximations around the type all numbers of
  factors are positive, and the family of the distribution has one of the dimensions. -/
  exists_iff : (∃ v, Value.vagueOf o t = .ok v) ↔ t.payload.Seedable o
  /-- It has all layers, and each of them has all its factors. -/
  fits : ∀ v, Value.vagueOf o t = .ok v → Value.Fits t.payload v
  /-- Its type is the one below the messages and approximations. -/
  type : ∀ v, Value.vagueOf o t = .ok v → v.type? = some t.payload
  /-- If there are none, an edge that admits the type is given a flat value if there is one, -/
  ensures : t.payload = t → t.Seedable o → ∀ {g : Graph} {e : EdgeId}, g.allow e t = .ok () →
    ∀ m, ∃ made m', Memory.ensureMarginal g e t (Value.vagueOf o t) m = .ok made m'
  /-- and for an edge that carries one, none is made again. -/
  ensured : t.payload = t → ∀ {g : Graph} {e : EdgeId} {m m' : Memory} {made : Bool},
    Memory.ensureMarginal g e t (Value.vagueOf o t) m = .ok made m' →
      (m'.edgeMarginal e).type? = some t ∧
        Memory.ensureMarginal g e t (Value.vagueOf o t) m' = .ok false m'
  /-- Where an edge is given none, nothing changes. -/
  refused : ∀ {g : Graph} {e : EdgeId} {m m' : Memory} {f : Failure},
    Memory.ensureMarginal g e t (Value.vagueOf o t) m = .error f m' → m' = m

/-- **The flat value of a type of numbers has just this type.** It is made for an edge once. -/
theorem TypeTerm.flat_of_definite {t : TypeTerm} (h : t.payload.Definite) (o : Options) :
    t.Flat o := by
  have hflat : Value.vagueOf o t = Value.vagueBelow o t t.payload := Value.vagueBelow_payload
  have hexists : (∃ v, Value.vagueOf o t = .ok v) ↔ t.payload.Seedable o :=
    hflat ▸ h.exists_vagueBelow_iff
  have hfits : ∀ v, Value.vagueOf o t = .ok v → Value.Fits t.payload v := fun v hv =>
    h.fits_of_vagueBelow (hflat ▸ hv)
  have htype : ∀ v, Value.vagueOf o t = .ok v → v.type? = some t.payload := fun v hv =>
    (hfits v hv).type?_eq (hexists.mp ⟨v, hv⟩)
  refine ⟨hexists, hfits, htype, ?ensures, ?ensured, Memory.ensureMarginal_refused⟩
  case ensures =>
    intro hpayload hseedable g e hallow m
    obtain ⟨v, hv⟩ := hexists.mpr (hpayload.symm ▸ hseedable)
    exact Memory.exists_ensureMarginal hallow hv m
  case ensured =>
    intro hpayload g e m m' made hensure
    exact Memory.ensureMarginal_ensured (fun v hv => (htype v hv).trans (congrArg some hpayload))
      hensure

/-- Three factors of two factors each. -/
def nestedPairs : TypeTerm :=
  .partitioned (.partitioned (.ofDims "Gaussian" [2]) (.num 2)) (.num 3)

theorem definite_nestedPairs : nestedPairs.Definite :=
  .partitioned (.partitioned (.dist _ _) _) _

theorem seedable_nestedPairs : nestedPairs.Seedable Posterior.wholeOptions := by
  have hsizes : Tensor.sizes Posterior.wholeOptions.memory [2] = .ok [2] := by cbv
  refine ⟨by decide, by decide, fun seed hseed => ?_⟩
  cases hseed
  exact .pair hsizes

/-- An edge is given six Gaussians once. -/
theorem flat_nestedPairs : nestedPairs.payload.Definite ∧
    Posterior.twinGraph.allow 0 nestedPairs = .ok () ∧ ∃ v made m,
      Value.vagueOf Posterior.wholeOptions nestedPairs = .ok v ∧ Value.Fits nestedPairs v ∧
      v.type? = some nestedPairs ∧
      Memory.ensureMarginal Posterior.twinGraph 0 nestedPairs (.ok v) ∅ = .ok made m ∧
      Memory.ensureMarginal Posterior.twinGraph 0 nestedPairs (.ok v) m = .ok false m := by
  have hallow : Posterior.twinGraph.allow 0 nestedPairs = .ok () := by cbv
  have h := TypeTerm.flat_of_definite (t := nestedPairs) definite_nestedPairs Posterior.wholeOptions
  obtain ⟨v, hv⟩ := h.exists_iff.mpr seedable_nestedPairs
  obtain ⟨made, m, hm⟩ := h.ensures rfl seedable_nestedPairs hallow ∅
  obtain ⟨-, hagain⟩ := h.ensured rfl hm
  rw [hv] at hm hagain
  exact ⟨definite_nestedPairs, hallow, v, made, m, hv, h.fits v hv, h.type v hv, hm, hagain⟩

end MessagePassing
