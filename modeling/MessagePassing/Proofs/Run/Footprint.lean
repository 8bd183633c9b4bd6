import Mathlib.Data.Set.Lattice
import Mathlib.Order.CompletePartialOrder
import MessagePassing.Proofs.Run.Pass
import MessagePassing.Proofs.Run.Trace

/-!
# What an operation touches

The memory of a run consists of places that hold a message, a marginal, the phase of a seed or the
marginal of an edge. An operation is confined if what it does depends on some places only, and if it
changes some places only. Updates are confined, and so is what is made up of them.

Results:
* `cell_send`, `cell_putPhase`, `cell_putMarginal`, `cell_foldl_putEdgeMarginal`: what every place
  holds after a change.
* `Confined.bind`, `Confined.forM`: sequences of confined operations are confined.
* **`Action.confined`**: every update is confined to its reads and writes.
* **`Confined.comm`**: confined operations that do not get in each other's way may be swapped.
-/

namespace MessagePassing

/-- A place of the memory. -/
inductive Slot where
  /-- The message that an interface sends. -/
  | message (i : InterfaceId)
  /-- How far the seed of an interface of a block has come. -/
  | phase (block : String) (i : InterfaceId)
  /-- The marginal of a target. -/
  | marginal (t : Target)
  /-- The marginal that an edge carries. -/
  | edge (e : EdgeId)
deriving DecidableEq

/-- What a place holds. -/
inductive Cell where
  /-- A message or a marginal. -/
  | value (v : Value)
  /-- The phase of a seed. -/
  | phase (p : Phase)

theorem map_value_injective : Function.Injective (Option.map Cell.value) :=
  Option.map_injective fun _ _ h => by cases h; rfl

namespace Memory

/-- What the memory holds in a place, if anything. -/
def cell (m : Memory) : Slot → Option Cell
  | .message i => (m.messages.get? i).map .value
  | .phase id i => (m.phases.get? (id, i)).map .phase
  | .marginal t => (m.marginals.get? t).map .value
  | .edge e => (m.edgeMarginals.get? e).map .value

variable {m m' : Memory} {s : Slot} {i : InterfaceId} {id : String} {v : Value} {t : Target}

@[simp] theorem cell_send :
    (m.send i v).cell s = if s = .message i then some (.value v) else m.cell s := by
  cases s with
  | message j =>
    simp only [cell, send, Table.get?_insert, Slot.message.injEq, eq_comm (a := j)]
    split <;> rfl
  | _ => simp [cell, send]

@[simp] theorem cell_putPhase {p : Phase} :
    (m.putPhase id i p).cell s = if s = .phase id i then some (.phase p) else m.cell s := by
  cases s with
  | phase k j =>
    simp only [cell, putPhase, Table.get?_insert, Slot.phase.injEq, Prod.mk.injEq,
      eq_comm (a := k), eq_comm (a := j)]
    split <;> rfl
  | _ => simp [cell, putPhase]

@[simp] theorem cell_putMarginal :
    (m.putMarginal t v).cell s = if s = .marginal t then some (.value v) else m.cell s := by
  cases s with
  | marginal u =>
    simp only [cell, putMarginal, Table.get?_insert, Slot.marginal.injEq, eq_comm (a := u)]
    split <;> rfl
  | _ => simp [cell, putMarginal]

@[simp] theorem cell_foldl_putEdgeMarginal {l : List EdgeId} :
    (l.foldl (putEdgeMarginal v) m).cell s =
      if ∃ e ∈ l, s = .edge e then some (.value v) else m.cell s := by
  induction l generalizing m with
  | nil => simp
  | cons e l ih =>
    have hput : (putEdgeMarginal v m e).cell s =
        if s = .edge e then some (.value v) else m.cell s := by
      cases s with
      | edge f =>
        simp only [cell, putEdgeMarginal, Table.get?_insert, Slot.edge.injEq, eq_comm (a := f)]
        split <;> rfl
      | _ => simp [cell, putEdgeMarginal]
    rw [List.foldl_cons, ih, hput]
    by_cases he : s = .edge e
    · simp [he]
    · simp [he]

theorem message_of_cell (h : m.cell (.message i) = m'.cell (.message i)) :
    m.message i = m'.message i := by
  unfold message
  rw [map_value_injective h]

theorem phase_of_cell (h : m.cell (.phase id i) = m'.cell (.phase id i)) :
    m.phase id i = m'.phase id i := by
  unfold phase
  rw [Option.map_injective (fun _ _ h => by cases h; rfl) h]

end Memory

/-! ## What is read -/

/-- The place that a source is read from, if it is not fixed. -/
def Source.slot? : Source → Option Slot
  | .message i => some (.message i)
  | .marginal t => some (.marginal t)
  | _ => none

/-- The places that a list of sources is read from. -/
def slotsOf (l : List Source) : Set Slot :=
  {s | ∃ x ∈ l, x.slot? = some s}

theorem mem_slotsOf {l : List Source} {s : Slot} (h : s ∈ slotsOf l) :
    (∃ i ∈ messagesOf l, s = .message i) ∨ ∃ t, .marginal t ∈ l ∧ s = .marginal t := by
  obtain ⟨x, hx, hs⟩ := h
  cases x <;> cases hs
  · exact Or.inl ⟨_, mem_messagesOf.mpr hx, rfl⟩
  · exact Or.inr ⟨_, hx, rfl⟩

section Reading

variable {m m' : Memory} {g : Graph}

theorem valueOf_congr {s : Source} (h : ∀ x, s.slot? = some x → m.cell x = m'.cell x) :
    m.valueOf g s = m'.valueOf g s := by
  cases s with
  | nothing => rfl
  | constant n => rfl
  | message i => exact congrArg Except.ok (Memory.message_of_cell (h _ rfl))
  | marginal t =>
    have ht : m.marginals.get? t = m'.marginals.get? t := map_value_injective (h _ rfl)
    unfold Memory.valueOf
    dsimp only
    rw [ht]

theorem mapM_valueOf_congr {l : List Source} (h : ∀ x ∈ slotsOf l, m.cell x = m'.cell x) :
    l.mapM (m.valueOf g) = l.mapM (m'.valueOf g) := by
  induction l with
  | nil => rfl
  | cons s l ih =>
    have hs : m.valueOf g s = m'.valueOf g s :=
      valueOf_congr fun x hx => h x ⟨s, List.mem_cons_self, hx⟩
    have hl := ih fun x ⟨s, hs, hx⟩ => h x ⟨s, List.mem_cons_of_mem _ hs, hx⟩
    rw [List.mapM_cons, List.mapM_cons, hs, hl]

/-- What an entry computes is told by the places that it reads. -/
theorem entryValue_congr {e : ScheduleEntry}
    (h : ∀ x ∈ slotsOf e.inbounds, m.cell x = m'.cell x) :
    m.entryValue g e = m'.entryValue g e := by
  unfold Memory.entryValue
  rw [mapM_valueOf_congr h]

theorem message_congr {l : List Source} {i : InterfaceId}
    (h : ∀ x ∈ slotsOf l, m.cell x = m'.cell x) (hi : .message i ∈ l) :
    m.message i = m'.message i :=
  Memory.message_of_cell (h _ ⟨_, hi, rfl⟩)

/-- What a marginal is computed as is told by the places that it reads. -/
theorem marginalValue_congr {e : MarginalEntry}
    (h : ∀ x ∈ slotsOf e.inbounds, m.cell x = m'.cell x) :
    m.marginalValue g e = m'.marginalValue g e := by
  unfold Memory.marginalValue
  split
  · rename_i i _ hi
    rw [message_congr h (by rw [hi]; exact List.mem_cons_self)]
  · rename_i i j _ hij
    rw [message_congr h (by rw [hij]; exact List.mem_cons_self),
      message_congr h (by rw [hij]; exact List.mem_cons_of_mem _ List.mem_cons_self)]
  · rw [mapM_valueOf_congr h]
  · rfl
  · rfl

end Reading

/-! ## Confined operations -/

/-- An operation, as long as it succeeds, depends on some places only and changes some places
only. -/
structure Confined (reads writes : Set Slot) (x : Attempt Memory Unit) : Prop where
  /-- Other places are left alone. -/
  frame : ∀ {m m' : Memory}, x m = .ok () m' → ∀ s ∉ writes, m'.cell s = m.cell s
  /-- Memories that agree on what is read are treated alike. -/
  congr : ∀ {m n m' : Memory}, x m = .ok () m' → (∀ s ∈ reads, m.cell s = n.cell s) →
    ∃ n', x n = .ok () n' ∧ ∀ s, m.cell s = n.cell s → m'.cell s = n'.cell s

namespace Confined

variable {r w r' w' : Set Slot} {x y : Attempt Memory Unit}

theorem mono (h : Confined r w x) (hr : r ⊆ r') (hw : w ⊆ w') : Confined r' w' x where
  frame hx s hs := h.frame hx s fun hs' => hs (hw hs')
  congr hx hs := h.congr hx fun s hs' => hs s (hr hs')

theorem pure : Confined r w (pure ()) where
  frame h s _ := by
    obtain ⟨-, rfl⟩ := Attempt.pure_eq_ok.mp h
    rfl
  congr {_ n _} h _ := by
    obtain ⟨-, rfl⟩ := Attempt.pure_eq_ok.mp h
    exact ⟨n, rfl, fun _ hs => hs⟩

theorem bind (hx : Confined r w x) (hy : Confined r w y) : Confined r w (x >>= fun _ => y) where
  frame h s hs := by
    obtain ⟨_, u, hu, h⟩ := Attempt.bind_eq_ok.mp h
    exact (hy.frame h s hs).trans (hx.frame hu s hs)
  congr h hs := by
    obtain ⟨_, u, hu, h⟩ := Attempt.bind_eq_ok.mp h
    obtain ⟨u', hu', hsame⟩ := hx.congr hu hs
    obtain ⟨n', hn', hsame'⟩ := hy.congr h fun s hr => hsame s (hs s hr)
    exact ⟨n', Attempt.bind_eq_ok.mpr ⟨_, _, hu', hn'⟩, fun s h => hsame' s (hsame s h)⟩

theorem forM {α : Type} {f : α → Attempt Memory Unit} {l : List α}
    (h : ∀ a ∈ l, Confined r w (f a)) : Confined r w (l.forM f) := by
  induction l with
  | nil => exact pure
  | cons a l ih =>
    exact bind (h a List.mem_cons_self) (ih fun b hb => h b (List.mem_cons_of_mem _ hb))

/-- **Operations that do not get in each other's way may be swapped**: neither reads or changes what
the other changes. -/
theorem comm (hx : Confined r w x) (hy : Confined r' w' y) (hrw : Disjoint r w')
    (hwr : Disjoint w r') (hww : Disjoint w w') {m m' : Memory}
    (h : (x >>= fun _ => y) m = .ok () m') :
    ∃ m'', (y >>= fun _ => x) m = .ok () m'' ∧ ∀ s, m'.cell s = m''.cell s := by
  obtain ⟨_, u, hu, hm'⟩ := Attempt.bind_eq_ok.mp h
  -- the second operation finds what it reads as it is at the start
  obtain ⟨v, hv, hvm'⟩ := hy.congr hm' (n := m) fun s hs =>
    hx.frame hu s (Set.disjoint_right.mp hwr hs)
  obtain ⟨m'', hm'', hum''⟩ := hx.congr hu (n := v) fun s hs =>
    (hy.frame hv s (Set.disjoint_left.mp hrw hs)).symm
  refine ⟨m'', Attempt.bind_eq_ok.mpr ⟨_, _, hv, hm''⟩, fun s => ?_⟩
  by_cases hs : s ∈ w
  · have hs' : s ∉ w' := Set.disjoint_left.mp hww hs
    calc m'.cell s = u.cell s := hy.frame hm' s hs'
      _ = m''.cell s := hum'' s (hy.frame hv s hs').symm
  · calc m'.cell s = v.cell s := hvm' s (hx.frame hu s hs)
      _ = m''.cell s := (hx.frame hm'' s hs).symm

end Confined

/-! ## Updates are confined -/

/-- The places of the marginal of a target: its own and those of the edges of a variable. -/
def Target.slots (g : Graph) (t : Target) : Set Slot :=
  {s | s = .marginal t ∨ ∃ x, t = .variable x ∧ ∃ e ∈ g.edgesOf x, s = .edge e}

namespace Action

/-- The places that an update reads. -/
def readSlots : Action → Set Slot
  | lay id e => {.phase id e.interface}
  | replay id e => slotsOf e.inbounds ∪ {.phase id e.interface}
  | publish _ e => slotsOf e.inbounds

/-- The places that an update may change. -/
def writeSlots (g : Graph) : Action → Set Slot
  | lay id e | replay id e => {.message e.interface, .phase id e.interface}
  | publish _ e => e.target.slots g

variable {g : Graph} {o : Options} {id : String}

theorem confined_lay (e : ScheduleEntry) :
    Confined (lay id e).readSlots ((lay id e).writeSlots g) (Block.laySeed o id e) where
  frame h s hs := by
    have hs : s ≠ .message e.interface ∧ s ≠ .phase id e.interface := by
      simpa [writeSlots] using hs
    rcases Block.laySeed_eq_ok.mp h with ⟨-, rfl⟩ | ⟨_, v, -, -, -, rfl⟩
    · rfl
    · simp [hs]
  congr {m n m'} h hs := by
    have hphase : m.phase id e.interface = n.phase id e.interface :=
      Memory.phase_of_cell (hs _ rfl)
    rcases Block.laySeed_eq_ok.mp h with ⟨hskip, rfl⟩ | ⟨d, v, hd, hp, hv, rfl⟩
    · exact ⟨n, Block.laySeed_eq_ok.mpr (Or.inl ⟨hphase ▸ hskip, rfl⟩), fun _ hs => hs⟩
    · refine ⟨_, Block.laySeed_eq_ok.mpr (Or.inr ⟨d, v, hd, hphase ▸ hp, hv, rfl⟩),
        fun s hs => ?_⟩
      simp [hs]

/-- Laying seeds changes the messages and the phases of these entries only. -/
theorem confined_forM_lay (l : List ScheduleEntry) : Confined Set.univ
    {s | ∃ e ∈ l, s = .message e.interface ∨ s = .phase id e.interface}
    (l.forM (Block.laySeed o id)) :=
  Confined.forM fun e he => (confined_lay (g := ∅) e).mono (Set.subset_univ _)
    fun _ hs => ⟨e, he, hs⟩

/-- What every place holds after a message is computed. -/
theorem cell_of_replay {e : ScheduleEntry} {m m' : Memory} (h : Block.replay g id e m = .ok () m') :
    ∃ v, m.entryValue g e = .ok v ∧ m'.cell (.message e.interface) = some (.value v) ∧
      ∀ s ∉ (replay id e).writeSlots g, m'.cell s = m.cell s := by
  have hne : ∀ s ∉ (replay id e).writeSlots g,
      s ≠ .message e.interface ∧ s ≠ .phase id e.interface := fun s hs => by
    simpa [writeSlots] using hs
  obtain ⟨v, hv, ⟨-, rfl⟩ | ⟨-, p, -, rfl⟩⟩ := Block.replay_eq_ok.mp h
  · exact ⟨v, hv, by simp, fun s hs => by simp [hne s hs]⟩
  · exact ⟨v, hv, by simp, fun s hs => by simp [hne s hs]⟩

theorem confined_replay (e : ScheduleEntry) :
    Confined (replay id e).readSlots ((replay id e).writeSlots g) (Block.replay g id e) where
  frame h := by
    obtain ⟨v, -, -, hframe⟩ := cell_of_replay h
    exact hframe
  congr {m n m'} h hs := by
    have hphase : m.phase id e.interface = n.phase id e.interface :=
      Memory.phase_of_cell (hs _ (Or.inr rfl))
    have hvalue : m.entryValue g e = n.entryValue g e :=
      entryValue_congr fun x hx => hs x (Or.inl hx)
    obtain ⟨v, hv, ⟨hseed, rfl⟩ | ⟨hseed, p, hp, rfl⟩⟩ := Block.replay_eq_ok.mp h
    · refine ⟨_, Block.replay_eq_ok.mpr ⟨v, hvalue ▸ hv, Or.inl ⟨hseed, rfl⟩⟩, fun s hs => ?_⟩
      simp [hs]
    · refine ⟨_, Block.replay_eq_ok.mpr
        ⟨v, hvalue ▸ hv, Or.inr ⟨hseed, p, hphase ▸ hp, rfl⟩⟩, fun s hs => ?_⟩
      simp [hs]

/-- What every place holds after a marginal is published. -/
theorem cell_of_publish {e : MarginalEntry} {m m' : Memory} (h : Block.publish g e m = .ok () m') :
    ∃ v, m.marginalValue g e = .ok v ∧ ∀ s, (s ∈ e.target.slots g → m'.cell s = some (.value v)) ∧
      (s ∉ e.target.slots g → m'.cell s = m.cell s) := by
  obtain ⟨v, hv, rfl⟩ := Block.publish_eq_ok.mp h
  refine ⟨v, hv, fun s => ?_⟩
  generalize e.target = t
  unfold Target.slots
  rcases t with x | c
  · by_cases he : ∃ e ∈ g.edgesOf x, s = .edge e
    · simp [he]
    · by_cases hs : s = .marginal (.variable x) <;> simp [he, hs]
  · by_cases hs : s = .marginal (.cluster c) <;> simp [hs]

theorem confined_publish (e : MarginalEntry) :
    Confined (publish id e).readSlots ((publish id e).writeSlots g) (Block.publish g e) where
  frame h s hs := by
    obtain ⟨v, -, hcell⟩ := cell_of_publish h
    exact (hcell s).2 hs
  congr {m n m'} h hs := by
    obtain ⟨v, hv, hcell⟩ := cell_of_publish h
    have hvalue : m.marginalValue g e = n.marginalValue g e := marginalValue_congr hs
    have hn := Block.publish_eq_ok.mpr ⟨v, hvalue ▸ hv, rfl⟩
    obtain ⟨v', hv', hcell'⟩ := cell_of_publish hn
    cases hv'.symm.trans (hvalue ▸ hv)
    refine ⟨_, hn, fun s hs => ?_⟩
    by_cases hw : s ∈ e.target.slots g
    · rw [(hcell s).1 hw, (hcell' s).1 hw]
    · rw [(hcell s).2 hw, (hcell' s).2 hw, hs]

/-- **Every update is confined to what it reads and writes.** -/
theorem confined (a : Action) : Confined a.readSlots (a.writeSlots g) (a.run g o) := by
  cases a with
  | lay id e => exact confined_lay e
  | replay id e => exact confined_replay e
  | publish id e => exact confined_publish e

end Action

end MessagePassing
