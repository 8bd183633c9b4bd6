import MessagePassing.Proofs.Assembly.Ownership
import MessagePassing.Proofs.Run.Assignment

/-!
# What is assumed of messages

An entry is resolved from the types of the messages that it reads. The type of a message is known if
its entry comes earlier. Around a circle some messages are read before they are computed, and for
these the type that is declared for their edge is assumed. Nothing compares the two afterwards.

Results:
* `messageType_eq_ok`: the type of a message, as it is known or assumed.
* **`Posterior.inboundType_iff_of_assemble`**: an assembled entry was resolved for the type that a
  message is computed with if the message comes earlier, and else for the declared type. So the two
  agree just when the declaration does.
* `Posterior.not_computed_ring`: a circle of messages that were assumed to be of another type than
  they are computed with.
-/

namespace MessagePassing

/-- The type that is assumed for the message of an interface as long as it is not known. -/
def Graph.assumed? (g : Graph) (i : InterfaceId) : Option TypeTerm :=
  (g.edgeAt? i).bind g.groundType?

/-- The entry was resolved for a message of this type at this place of its arguments. -/
def ScheduleEntry.Expects (e : ScheduleEntry) (k : Nat) (t : TypeTerm) : Prop :=
  e.inboundTypes[k]? = some (.message t)

/-! ## The type of a message -/

section Types

variable {g : Graph} {known : Table InterfaceId TypeTerm} {i : InterfaceId} {t : TypeTerm}

/-- The type of a message is the known one, or the assumed one if there is none. -/
theorem messageType_eq_ok : Posterior.messageType g known i = .ok t ↔
    known.get? i = some t ∨ known.get? i = none ∧ g.assumed? i = some t := by
  unfold Posterior.messageType Graph.assumed? Graph.edgeAt
  cases hk : known.get? i with
  | some u => simp
  | none =>
    cases he : g.edgeAt? i with
    | none => simp [bind, Except.bind]
    | some f =>
      cases ht : g.groundType? f with
      | some u => simp [bind, Except.bind, pure, Except.pure, ht]
      | none =>
        unfold Graph.label
        cases g.label? i <;> simp [bind, Except.bind, throw, throwThe, MonadExceptOf.throw, ht]

variable {s : Surroundings} {e : ScheduleEntry} {k : Nat}

/-- A message that a resolved entry reads has a type, and the entry was resolved for it. -/
theorem ScheduleEntry.Resolved.exists_expects (h : e.Resolved s known)
    (hk : e.inbounds[k]? = some (.message i)) :
    ∃ t, Posterior.messageType s.graph known i = .ok t ∧ e.Expects k t := by
  cases h with
  | observed _ _ hinbounds _ =>
    rw [hinbounds, List.getElem?_singleton] at hk
    split at hk <;> simp at hk
  | rule _ _ _ htypes _ _ _ _ =>
    have hall := mapM_eq_ok.mp htypes
    obtain ⟨hlt, hi⟩ := List.getElem?_eq_some_iff.mp hk
    have hlt' : k < e.inboundTypes.length := hall.length_eq ▸ hlt
    have hat := hall.get hlt hlt'
    rw [List.get_eq_getElem, hi] at hat
    obtain ⟨t, ht, hmessage⟩ := map_eq_ok.mp hat
    exact ⟨t, ht, List.getElem?_eq_some_iff.mpr ⟨hlt', hmessage.symm⟩⟩

end Types

/-! ## Assembled blocks -/

namespace Block

variable {b : Block} {g : Graph} {c : Catalogue} {sites : List InterfaceId}
  {pre post : List ScheduleEntry} {e : ScheduleEntry} {i : InterfaceId} {k : Nat}

/-- A message that an assembled entry reads is computed in the block, and the entry was resolved for
the type that it is computed with or assumed to have. -/
theorem Assembled.exists_expects (h : b.Assembled g c) (hb : b.Planned g sites) (hg : g.Coherent)
    (hsplit : b.schedule = pre ++ e :: post) (hk : e.inbounds[k]? = some (.message i)) :
    ∃ f ∈ b.schedule, f.interface = i ∧ ∃ t u, f.outbound = some t ∧ e.Expects k u ∧
      (i ∈ pre.map (·.interface) → u = t) ∧
      (i ∉ pre.map (·.interface) → i ∈ b.loopBreakers ∧ g.assumed? i = some u) := by
  have he : e ∈ b.schedule := by simp [hsplit]
  have hread : i ∈ messagesOf e.inbounds := mem_messagesOf.mpr (List.mem_of_getElem? hk)
  obtain ⟨f, hf, rfl⟩ := List.mem_map.mp (h.mem_order_of_read hb hg he hread)
  obtain ⟨t, ht⟩ := h.exists_outbound hf
  obtain ⟨p, hentries⟩ := h.entries
  obtain ⟨u, hu, hexpects⟩ := (hentries pre e post hsplit).exists_expects hk
  have hnodup : (b.schedule.map (·.interface)).Nodup := hb.nodup_order
  refine ⟨f, hf, rfl, t, u, ht, hexpects, fun hpre => ?_, fun hpre =>
    ⟨h.mem_loopBreakers_of_read hb hg hsplit hread hpre, ?_⟩⟩
  · -- the entry before is that of the message, since no message is scheduled twice
    obtain ⟨f', hf', hff'⟩ := List.mem_map.mp hpre
    obtain rfl := List.inj_on_of_nodup_map hnodup (by simp [hsplit, hf']) hf hff'
    rw [hsplit, List.map_append, List.nodup_append] at hnodup
    have hknown := get?_messageTypes hnodup.1 hf' ht
    rcases messageType_eq_ok.mp hu with hu | ⟨hu, -⟩
    · exact Option.some.inj (hu.symm.trans hknown)
    · rw [hknown] at hu
      contradiction
  · rcases messageType_eq_ok.mp hu with hu | ⟨-, hu⟩
    · rw [get?_messageTypes_of_notMem hpre] at hu
      contradiction
    · exact hu

end Block

namespace Posterior

variable {g : Graph} {c : Catalogue} {p q : Posterior} {id : String}

/-- **What an assembled entry was resolved for.** A message that an entry reads is computed by an
entry of the same block. If that comes earlier, the type of the message is the one that it is
computed with. Else the message has a seed, and its type is the one that is declared for its edge,
so that it agrees with the one of the message just when the declaration does. -/
theorem inboundType_iff_of_assemble (hg : g.Built) (hp : Built g p)
    (h : assemble g c id p = .ok () q) :
    ∃ b, q.blocks.get? id = some b ∧ ∀ pre e post, b.schedule = pre ++ e :: post →
      ∀ k i, e.inbounds[k]? = some (.message i) →
        ∃ f ∈ b.schedule, f.interface = i ∧ ∃ t u, f.outbound = some t ∧ e.Expects k u ∧
          (i ∉ pre.map (·.interface) → b.Seeded i ∧ g.assumed? i = some u) ∧
          (u = t ↔ i ∈ pre.map (·.interface) ∨ g.assumed? i = some t) := by
  obtain ⟨b, hb, hassembled⟩ := assembled_of_assemble (hp.madeFor.mono fun _ _ => trivial) h
  have hq : Built g q := Attempt.outcome_snd_of_ok h ▸ Built.assemble hp c id
  refine ⟨b, hb, fun pre e post hsplit k i hk => ?_⟩
  rcases (hq.laid id b hb).2.schedule with hnil | ⟨sites, hplanned⟩
  · rw [hnil] at hsplit
    simp at hsplit
  · obtain ⟨f, hf, hi, t, u, ht, hexpects, hearlier, hlater⟩ :=
      hassembled.exists_expects hplanned hg.coherent hsplit hk
    refine ⟨f, hf, hi, t, u, ht, hexpects, fun hpre =>
      ⟨hassembled.seeded i (hlater hpre).1, (hlater hpre).2⟩, fun hut => ?_, fun hor => ?_⟩
    · by_cases hpre : i ∈ pre.map (·.interface)
      · exact Or.inl hpre
      · exact Or.inr (hut ▸ (hlater hpre).2)
    · by_cases hpre : i ∈ pre.map (·.interface)
      · exact hearlier hpre
      · exact Option.some.inj ((hlater hpre).2.symm.trans (hor.resolve_left hpre))

/-- The posterior with a block for the circle, which is scheduled and tabulated. -/
def ringLaidOut : Posterior :=
  ((layOut ringGraph [] ["a"]).outcome ringPosterior).2

theorem built_ringGraph : ringGraph.Built :=
  .connect (.connect (.addNode (.addNode .empty _) _) _ _ _ _) _ _ _ _

theorem built_ringLaidOut : Built ringGraph ringLaidOut :=
  keeps_layOut [] ["a"] _ (.addBlock (.fresh _) _ _)

/-- Around a circle of Gaussians that are declared as such, every entry was resolved for what it
gets. -/
theorem inboundType_ring : ringGraph.Built ∧ Built ringGraph ringLaidOut ∧ ∃ q b,
    assemble ringGraph ringCatalogue "a" ringLaidOut = .ok () q ∧
    q.blocks.get? "a" = some b ∧ ∀ pre e post, b.schedule = pre ++ e :: post →
      ∀ k i, e.inbounds[k]? = some (.message i) →
        ∃ f ∈ b.schedule, f.interface = i ∧ ∃ t, f.outbound = some t ∧ e.Expects k t := by
  have hassemble := Attempt.eq_ok_of_outcome (s := ringLaidOut) (a := ())
    (x := assemble ringGraph ringCatalogue "a") (by cbv)
  obtain ⟨b, hb, hentries⟩ :=
    inboundType_iff_of_assemble built_ringGraph built_ringLaidOut hassemble
  have hdeclared : (((assemble ringGraph ringCatalogue "a").outcome ringLaidOut).2.blocks.get?
      "a").map (·.schedule.all fun f => ringGraph.assumed? f.interface = f.outbound) =
      some true := by cbv
  rw [hb, Option.map_some, Option.some.injEq, List.all_eq_true] at hdeclared
  refine ⟨built_ringGraph, built_ringLaidOut, _, b, hassemble, hb,
    fun pre e post hsplit k i hk => ?_⟩
  obtain ⟨f, hf, rfl, t, u, ht, hexpects, -, hiff⟩ := hentries pre e post hsplit k i hk
  obtain rfl := hiff.mpr (Or.inr ((of_decide_eq_true (hdeclared f hf)).trans ht))
  exact ⟨f, hf, rfl, u, ht, hexpects⟩

/-- A rule for the other message of a function that answers a Gamma, whatever arrives. -/
def gammaRule (position : Int) : Rule where
  key := ⟨"equality", .sumProduct, some position⟩
  inbounds := [.any, .any]
  outbound := .pattern (.dist "Gamma" [])
  procedure := some fun _ => .ok (.dist "Gamma" [] ∅)

/-- Rules that answer a Gamma, while the product of two messages is a Gaussian. -/
def gammaCatalogue : Catalogue :=
  ⟨[gammaRule 0, gammaRule 1, ringRule "product" .product none]⟩

/-- **A message may be assumed to be of another type than it is computed with.** The messages of the
circle are declared to be Gaussians and computed as Gammas, and those that are read before they are
computed have been taken for Gaussians. -/
theorem not_computed_ring : ∃ q b pre e post k i f, ringGraph.Built ∧
    Built ringGraph ringLaidOut ∧
    assemble ringGraph gammaCatalogue "a" ringLaidOut = .ok () q ∧
    q.blocks.get? "a" = some b ∧ b.schedule = pre ++ e :: post ∧
    e.inbounds[k]? = some (.message i) ∧ f ∈ b.schedule ∧ f.interface = i ∧
    f.outbound = some (.dist "Gamma" []) ∧ e.Expects k (.dist "Gaussian" []) ∧
    ¬ e.Expects k (.dist "Gamma" []) := by
  have hassemble := Attempt.eq_ok_of_outcome (s := ringLaidOut) (a := ())
    (x := assemble ringGraph gammaCatalogue "a") (by cbv)
  have hentries : (((assemble ringGraph gammaCatalogue "a").outcome ringLaidOut).2.blocks.get?
      "a").map (·.schedule.map fun e => (e.interface, e.inbounds, e.inboundTypes, e.outbound)) =
      some
        [(3, [.message 0, .nothing], [.message (.dist "Gaussian" []), .void],
            some (.dist "Gamma" [])),
          (0, [.nothing, .message 3], [.void, .message (.dist "Gamma" [])],
            some (.dist "Gamma" [])),
          (1, [.message 2, .nothing], [.message (.dist "Gaussian" []), .void],
            some (.dist "Gamma" [])),
          (2, [.nothing, .message 1], [.void, .message (.dist "Gamma" [])],
            some (.dist "Gamma" []))] := by cbv
  obtain ⟨b, hb, hschedule⟩ := Option.map_eq_some_iff.mp hentries
  -- the first entry reads the message of the second
  obtain ⟨e, l, hl, he, hrest⟩ := List.map_eq_cons_iff.mp hschedule
  obtain ⟨f, post, rfl, hf, -⟩ := List.map_eq_cons_iff.mp hrest
  simp only [Prod.mk.injEq] at he hf
  obtain ⟨-, hinbounds, htypes, -⟩ := he
  obtain ⟨hi, -, -, hout⟩ := hf
  refine ⟨_, b, [], e, f :: post, 0, 0, f, built_ringGraph, built_ringLaidOut, hassemble, hb, hl,
    ?_, by simp [hl], hi, hout, ?_, ?_⟩
  · rw [hinbounds, List.getElem?_cons_zero]
  · rw [ScheduleEntry.Expects, htypes, List.getElem?_cons_zero]
  · rw [ScheduleEntry.Expects, htypes, List.getElem?_cons_zero]
    decide

end Posterior

end MessagePassing
