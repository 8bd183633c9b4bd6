import MessagePassing.Table
import MessagePassing.TypeTerm.Basic

/-!
# Matching a pattern against a term

A pattern matches a term when its variables can be bound so that the two agree; `any` agrees with
everything and binds nothing. A variable binds to whatever stands in its place, a type or a
parameter, and every further occurrence has to meet the same term. Matching goes one way: the term
may hold variables of its own, which are constants here.

* `TypeTerm.matchWith` extends given bindings, or fails.
* `TypeTerm.substitute` replaces bound variables once; unbound ones stay.

Specification: sections 4.5 and 8 (inbound patterns and their unification).
-/

namespace MessagePassing

/-- What the variables of a pattern stand for. -/
abbrev Bindings := Table String TypeTerm

namespace TypeTerm

mutual

/-- Extends the bindings so that the pattern agrees with the term. -/
def matchWith : TypeTerm → TypeTerm → Bindings → Option Bindings
  | any, _, b => some b
  | var n, t, b =>
    match b.get? n with
    | some u => if u = t then some b else none
    | none => some (b.insert n t)
  | void, void, b => some b
  | dist f ps, dist g qs, b => if f = g then matchAll ps qs b else none
  | message p, message t, b => matchWith p t b
  | partitioned p k, partitioned t l, b => (matchWith p t b).bind (matchWith k l)
  | approx p m, approx t n, b => if m = n then matchWith p t b else none
  | num m, num n, b => if m = n then some b else none
  | text r, text s, b => if r = s then some b else none
  | _, _, _ => none

/-- Extends the bindings so that the patterns agree with the terms one by one; fails when their
numbers differ. -/
def matchAll : List TypeTerm → List TypeTerm → Bindings → Option Bindings
  | [], [], b => some b
  | p :: ps, t :: ts, b => (matchWith p t b).bind (matchAll ps ts)
  | _, _, _ => none

end

/-- Whether a pattern agrees with a term under some bindings. -/
def admits (p t : TypeTerm) : Bool :=
  (p.matchWith t ∅).isSome

mutual

/-- Replaces each bound variable by what it stands for, once. -/
def substitute (b : Bindings) : TypeTerm → TypeTerm
  | var n => (b.get? n).getD (var n)
  | dist f ps => dist f (substituteAll b ps)
  | message t => message (t.substitute b)
  | partitioned e k => partitioned (e.substitute b) (k.substitute b)
  | approx t m => approx (t.substitute b) m
  | void => void
  | any => any
  | num n => num n
  | text s => text s

/-- Replaces the bound variables of a list of parameters. -/
def substituteAll (b : Bindings) : List TypeTerm → List TypeTerm
  | [] => []
  | p :: ps => p.substitute b :: substituteAll b ps

end

end TypeTerm

end MessagePassing
