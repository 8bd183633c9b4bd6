import MessagePassing.Text.Quoted

/-!
# Type terms

A type term describes what a message or a marginal is: a family of distributions with parameters, a
message that carries one, several independent factors of one kind, or an approximation by a method.
Numbers and names are terms too, because they occur as parameters, and a variable may stand for
either. The same terms serve as patterns, with variables and the wildcard `any`.

* `payload` strips messages and approximations, `family` and `dims` read the innermost distribution.
* `peel?` splits off one layer of independent factors, below a message if there is one.
* `isGround` tells whether a term is free of variables and wildcards.

Results:
* Terms have decidable equality, by recursion on both terms (`same_iff_eq`).
* `size_of_peel?`: peeling a layer makes a term smaller.

Specification: section 8 (`TypeDesc`), and section 9 of the appendix (patterns over tagged
variants).
-/

namespace MessagePassing

/-- A type description, or a parameter of one. -/
inductive TypeTerm where
  /-- The absence of a value, as at the place that an update computes. -/
  | void
  /-- The wildcard. -/
  | any
  /-- A variable of a pattern. -/
  | var (name : String)
  /-- A family of distributions with its parameters. -/
  | dist (family : String) (params : List TypeTerm)
  /-- A message that carries a payload. -/
  | message (payload : TypeTerm)
  /-- Independent factors of one kind, with their number. -/
  | partitioned (element count : TypeTerm)
  /-- An approximation of a target by a named method. -/
  | approx (target : TypeTerm) (method : String)
  /-- A number as a parameter. -/
  | num (value : Int)
  /-- A name as a parameter. -/
  | text (value : String)
deriving Inhabited

namespace TypeTerm

/-! ## Equality -/

mutual

/-- Structural equality, by recursion on both terms. -/
def same : TypeTerm → TypeTerm → Bool
  | void, void => true
  | any, any => true
  | var a, var b => a == b
  | dist f ps, dist g qs => f == g && sameAll ps qs
  | message p, message q => same p q
  | partitioned e k, partitioned e' k' => same e e' && same k k'
  | approx t m, approx t' m' => same t t' && m == m'
  | num a, num b => a == b
  | text a, text b => a == b
  | _, _ => false

/-- Structural equality of parameter lists. -/
def sameAll : List TypeTerm → List TypeTerm → Bool
  | [], [] => true
  | p :: ps, q :: qs => same p q && sameAll ps qs
  | _, _ => false

end

mutual

theorem eq_of_same : ∀ {s t : TypeTerm}, same s t = true → s = t
  | void, t, h => by cases t <;> simp_all [same]
  | any, t, h => by cases t <;> simp_all [same]
  | var _, t, h => by cases t <;> simp_all [same]
  | dist f ps, t, h => by
    cases t <;> simp only [same, Bool.and_eq_true, Bool.false_eq_true, beq_iff_eq] at h
    rw [h.1, eq_of_sameAll h.2]
  | message p, t, h => by
    cases t <;> simp only [same, Bool.false_eq_true] at h
    rw [eq_of_same h]
  | partitioned e k, t, h => by
    cases t <;> simp only [same, Bool.and_eq_true, Bool.false_eq_true] at h
    rw [eq_of_same h.1, eq_of_same h.2]
  | approx u m, t, h => by
    cases t <;> simp only [same, Bool.and_eq_true, Bool.false_eq_true, beq_iff_eq] at h
    rw [eq_of_same h.1, h.2]
  | num _, t, h => by cases t <;> simp_all [same]
  | text _, t, h => by cases t <;> simp_all [same]

theorem eq_of_sameAll : ∀ {ps qs : List TypeTerm}, sameAll ps qs = true → ps = qs
  | [], [], _ => rfl
  | [], _ :: _, h => by simp [sameAll] at h
  | _ :: _, [], h => by simp [sameAll] at h
  | p :: ps, q :: qs, h => by
    simp only [sameAll, Bool.and_eq_true] at h
    rw [eq_of_same h.1, eq_of_sameAll h.2]

end

mutual

theorem same_self : ∀ t : TypeTerm, same t t = true
  | void | any => by simp [same]
  | var _ | num _ | text _ => by simp [same]
  | dist f ps => by simp [same, sameAll_self ps]
  | message p => by simp [same, same_self p]
  | partitioned e k => by simp [same, same_self e, same_self k]
  | approx t m => by simp [same, same_self t]

theorem sameAll_self : ∀ ps : List TypeTerm, sameAll ps ps = true
  | [] => by simp [sameAll]
  | p :: ps => by simp [sameAll, same_self p, sameAll_self ps]

end

theorem same_iff_eq {s t : TypeTerm} : same s t = true ↔ s = t :=
  ⟨eq_of_same, fun h => h ▸ same_self s⟩

instance : DecidableEq TypeTerm := fun s t => decidable_of_iff (same s t = true) same_iff_eq

/-! ## Parts of a term -/

/-- The term below all messages and approximations. -/
def payload : TypeTerm → TypeTerm
  | message t => t.payload
  | approx t _ => t.payload
  | t => t

/-- The name of the innermost family, through factors as well. -/
def family : TypeTerm → String
  | message t => t.family
  | approx t _ => t.family
  | partitioned e _ => e.family
  | dist f _ => f
  | var n => n
  | _ => ""

/-- The number that a term is, if it is one. -/
def num? : TypeTerm → Option Int
  | num n => some n
  | _ => none

/-- The numeric parameters of the innermost family, read as its dimensions. -/
def dims : TypeTerm → List Int
  | message t => t.dims
  | approx t _ => t.dims
  | partitioned e _ => e.dims
  | dist _ ps => ps.filterMap num?
  | _ => []

/-- The number of factors, if the payload consists of factors. -/
def count? (t : TypeTerm) : Option TypeTerm :=
  match t.payload with
  | partitioned _ k => some k
  | _ => none

/-- Whether the payload consists of independent factors. -/
def isPartitioned (t : TypeTerm) : Bool :=
  t.count?.isSome

/-- A distribution whose parameters are numbers. -/
def ofDims (family : String) (dims : List Int) : TypeTerm :=
  dist family (dims.map num)

mutual

/-- Whether no variable and no wildcard occurs. -/
def isGround : TypeTerm → Bool
  | void => true
  | any => false
  | var _ => false
  | dist _ ps => allGround ps
  | message t => t.isGround
  | partitioned e k => e.isGround && k.isGround
  | approx t _ => t.isGround
  | num _ => true
  | text _ => true

/-- Whether no variable and no wildcard occurs in a list of parameters. -/
def allGround : List TypeTerm → Bool
  | [] => true
  | p :: ps => p.isGround && allGround ps

end

/-! ## Layers of factors -/

/-- The kind of one factor and the number of factors, for a term made of factors or a message of
one. An approximation of factors is no such term. -/
def peel? : TypeTerm → Option (TypeTerm × TypeTerm)
  | message (partitioned e k) => some (message e, k)
  | partitioned e k => some (e, k)
  | _ => none

mutual

/-- The number of constructors of a term. -/
def size : TypeTerm → Nat
  | dist _ ps => sizeAll ps + 1
  | message t => t.size + 1
  | partitioned e k => e.size + k.size + 1
  | approx t _ => t.size + 1
  | _ => 1

/-- The number of constructors of a list of parameters. -/
def sizeAll : List TypeTerm → Nat
  | [] => 0
  | p :: ps => p.size + sizeAll ps

end

/-- A layer of factors counts. -/
theorem size_of_peel? {t e k : TypeTerm} (h : t.peel? = some (e, k)) : e.size < t.size := by
  unfold peel? at h
  split at h
  · cases h
    simp only [size]
    omega
  · cases h
    simp only [size]
    omega
  · contradiction

/-! ## Written form -/

mutual

/-- The written form of a type: a family with its parameters between braces, a variable between
angle brackets, a parameter name between quotation marks. -/
def render : TypeTerm → String
  | void => "Void"
  | any => "Any"
  | var n => "<" ++ n ++ ">"
  | message t => "Message\x7b" ++ t.render ++ "\x7d"
  | partitioned e k => "Partitioned\x7b" ++ e.render ++ "," ++ k.render ++ "\x7d"
  | approx t m => "Approximation\x7b" ++ t.render ++ "," ++ m ++ "\x7d"
  | dist f [] => f
  | dist f (p :: ps) => f ++ "\x7b" ++ p.render ++ renderRest ps ++ "\x7d"
  | num n => toString n
  | text s => Text.quoted s

/-- The written form of the parameters after the first, each after a comma. -/
def renderRest : List TypeTerm → String
  | [] => ""
  | p :: ps => "," ++ p.render ++ renderRest ps

end

end TypeTerm

end MessagePassing
