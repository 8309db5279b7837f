import VectorMachine.Proofs.CallDiscipline
import VectorMachine.Proofs.Stages
import VectorMachine.Proofs.Store.Sharing

/-!
# What an instruction leaves alone

An instruction that writes its first operand keeps all containers with other roots and all elements
that the root of this operand does not show.  Only an element view and a new link let containers
with different roots share a buffer that they did not share before, and only a new link makes an
alias.  Every other instruction changes no container at all.
-/

namespace VectorMachine
set_option autoImplicit false

/-- Whether an operation makes its first operand an alias. -/
def Opcode.Links (op : Opcode) : Prop := op = .refer ∨ op = .referPop

/-- Which containers come to show what the source of an operation on `d` shows: those with the root
of `d` for an element view, and those whose chains come past `d` for a link. -/
def Opcode.Adopts (op : Opcode) (s : Store) (d c : CellId) : Prop :=
  op = .referElement ∧ s.root c = s.root d ∨ op.Links ∧ s.Visits c d

namespace Store

variable {s t : Store} {d : CellId} {source source' adopts adopts' : CellId → Prop} {links : Prop}

theorem Frame.mono (h : s.Frame d source links adopts t) (hsource : ∀ a, source a → source' a)
    (hadopts : ∀ c, adopts c → adopts' c) : s.Frame d source' links adopts' t := by
  refine ⟨h.settled, h.element_eq, fun hq => ?_, fun hne hce => ?_⟩
  · exact (h.links_to hq).imp_right fun ⟨hl, hc, a, ha, hqa⟩ => ⟨hl, hc, a, hsource a ha, hqa⟩
  · refine (h.shares hne hce).imp_right fun ⟨a, ha, hs⟩ => ⟨a, hsource a ha, ?_⟩
    exact hs.imp (fun hs => ⟨hadopts _ hs.1, hs.2⟩) fun hs => ⟨hadopts _ hs.1, hs.2⟩

end Store

namespace Machine

variable {m m' : Machine} {x : Instruction} {ops : List CellId} {env : Environment} {pc next : Int}
  {s t : Store}

/-- The container that a link or an element view takes what it shows from. -/
def Source (m : Machine) (x : Instruction) (a : CellId) : Prop :=
  if x.opcode = .referPop then m.memory.stack.back? = some a
  else ∃ y, x.operands[1]? = some y ∧ Fetched m y a

/-- Among fetched cells, the source is the second one or the top of the stack. -/
def SourceCell (m : Machine) (x : Instruction) (ops : List CellId) (a : CellId) : Prop :=
  if x.opcode = .referPop then m.memory.stack.back? = some a else ops[1]? = some a

/-- An instruction on the cells `ops` frames the change of a store. -/
def Framed (m : Machine) (x : Instruction) (ops : List CellId) (t : Store) : Prop :=
  ∃ d, ops[0]? = some d ∧
    m.store.Frame d (m.SourceCell x ops) x.opcode.Links (x.opcode.Adopts m.store d) t

theorem sourceCell_second {a : CellId} (hop : x.opcode ≠ .referPop) (ha : ops[1]? = some a) :
    m.SourceCell x ops a := by
  rw [SourceCell, if_neg hop]
  exact ha

theorem onStore_ok {f : Store → Except Failure Store} {u : Unit} :
    onStore f m = .ok u m' ↔ ∃ t, f m.store = .ok t ∧ { m with world.store := t } = m' := by
  unfold onStore store
  cases f m.world.store <;> simp

theorem onDestination_ok {f : CellId → Store → Except Failure Store} {u : Unit}
    (h : onDestination ops f m = .ok u m') :
    ∃ d, ops[0]? = some d ∧ f d m.store = .ok m'.store := by
  cases ops with
  | nil => cases h
  | cons d ops =>
    obtain ⟨t, ht, rfl⟩ := onStore_ok.mp h
    exact ⟨d, rfl, ht⟩

theorem framed_change {f : Store → Except Failure Store} (hs : m.store.Sound)
    (hlt : ∀ c ∈ ops, c < m.store.cells.size) (hf : change? x ops = some f)
    (h : f m.store = .ok t) : m.Framed x ops t := by
  have hr : m.store.Rooted := ⟨hs.grounded, hs.buffer_lt⟩
  unfold change? at hf
  split at hf
  all_goals cases hf
  all_goals
    rename_i hop
    refine ⟨_, rfl, ?_⟩
  case h_1 => exact (hs.refilled_receive (Store.gives_arithmeticResult _) h).frame hr
  case h_2 => exact (hs.refilled_receive (Store.gives_compareResult _) h).frame hr
  case h_3 => exact (hs.refilled_receive (hs.gives_connectResult _) h).frame hr
  case h_4 => exact (hs.refilled_receive hs.gives_negateResult h).frame hr
  case h_5 => exact (hs.refilled_receive hs.gives_complementResult h).frame hr
  case h_6 => exact (Store.refilled_allocate h).frame hr
  case h_7 => exact (Store.refilled_allocateLike h).frame hr
  case h_8 =>
    cases h
    exact Store.frame_free hr (hlt _ (by simp))
  case h_9 => exact (hs.refilled_receive (hs.gives_moveResult _) h).frame hr
  case h_10 => exact (hs.refilled_receive (hs.gives_castResult _) h).frame hr
  case h_11 => exact (hs.refilled_receive (Store.gives_fillResult _) h).frame hr
  case h_12 =>
    cases h
    have hl : x.opcode.Links := .inl hop
    exact (Store.frame_link hr (hlt _ (by simp)) hl (sourceCell_second (by simp [hop]) rfl)).mono
      (fun _ => id) fun c hc => .inr ⟨hl, hc⟩
  case h_13 => exact (hs.refilled_receive (hs.gives_elementResult _) h).frame hr
  case h_14 =>
    obtain ⟨i, -, hi⟩ := Store.bind_eq_ok.mp h
    exact (Store.frame_setElementView hr (sourceCell_second (by simp [hop]) rfl)
      (Store.mapError_eq_ok.mp hi)).mono (fun _ => id) fun c hc => .inl ⟨hop, hc⟩

theorem framed_control (hs : m.store.Sound) (hlt : ∀ c ∈ ops, c < m.store.cells.size)
    (hw : x.opcode.writes = true) (hcall : x.opcode ≠ .callExternal)
    (h : control env pc x ops m = .ok next m') : m.Framed x ops m'.store := by
  have hr : m.store.Rooted := ⟨hs.grounded, hs.buffer_lt⟩
  unfold control at h
  cases hop : x.opcode
  all_goals simp only [hop] at h hw hcall
  case allocTop =>
    obtain ⟨like, m₁, hpeek, h⟩ := bind_ok.mp h
    obtain ⟨_, m₂, hdst, h⟩ := bind_ok.mp h
    cases h
    have hstore : m₁ = m := by
      unfold peek consult at hpeek
      split at hpeek <;> cases hpeek
      rfl
    obtain ⟨d, hd, ht⟩ := onDestination_ok hdst
    rw [hstore] at ht
    exact ⟨d, hd, (Store.refilled_allocateLike ht).frame hr⟩
  case movePop =>
    obtain ⟨top, m₁, hpop, h⟩ := bind_ok.mp h
    obtain ⟨_, m₂, hdst, h⟩ := bind_ok.mp h
    cases h
    obtain ⟨d, hd, ht⟩ := onDestination_ok hdst
    rw [(pop_ok hpop).2] at ht
    exact ⟨d, hd, (hs.refilled_receive (hs.gives_moveResult _) ht).frame hr⟩
  case referPop =>
    obtain ⟨top, m₁, hpop, h⟩ := bind_ok.mp h
    obtain ⟨_, m₂, hdst, h⟩ := bind_ok.mp h
    cases h
    obtain ⟨d, hd, ht⟩ := onDestination_ok hdst
    obtain ⟨htop, hstore⟩ := pop_ok hpop
    rw [hstore] at ht
    have hl : x.opcode.Links := .inr hop
    have ha : m.SourceCell x ops top := by
      rw [SourceCell, if_pos hop]
      exact htop
    refine ⟨d, hd, Except.ok.inj ht ▸ ?_⟩
    exact (Store.frame_link hr (hlt d (List.mem_of_getElem? hd)) hl ha).mono (fun _ => id)
      fun c hc => .inr ⟨hl, hc⟩
  case callExternal => exact absurd rfl hcall
  case nop | label | allocType | pop | jump | call | ret | endParameters | endFunction | finish |
      unknown => cases hw
  -- no other operation that writes is left to the control of the machine
  all_goals cases h

theorem framed_execute (hs : m.store.Sound) (hlt : ∀ c ∈ ops, c < m.store.cells.size)
    (hw : x.opcode.writes = true) (hcall : x.opcode ≠ .callExternal)
    (h : execute env pc x ops m = .ok next m') : m.Framed x ops m'.store := by
  unfold execute at h
  cases hf : change? x ops with
  | none =>
    rw [hf] at h
    exact framed_control hs hlt hw hcall h
  | some f =>
    rw [hf] at h
    obtain ⟨_, m₁, ht, h⟩ := bind_ok.mp h
    cases h
    obtain ⟨t, hchange, rfl⟩ := onStore_ok.mp ht
    exact framed_change hs hlt hf hchange

section

variable {k : Nat} {d : CellId} {source adopts : CellId → Prop} {links : Prop}

/-- New void cells have no part in a frame. -/
theorem frame_of_grown (hs : m.store.Sound)
    (h : (m.grown k).store.Frame d source links adopts t) :
    m.store.Frame d source links adopts t := by
  have hcell : ∀ c, (m.grown k).store.cell c = m.store.cell c := fun _ => Store.cell_freshMany k
  have hroot : ∀ c, (m.grown k).store.root c = m.store.root c := root_grown hs k
  have hshares : ∀ c e, (m.grown k).store.Shares c e ↔ m.store.Shares c e := fun c e => by
    simp only [Store.Shares, rootCell_grown hs]
  refine ⟨fun {c} hc => ?_, fun {b i} hb hn => h.element_eq hb fun hcov => ?_, fun hq => ?_,
    fun hne hce => ?_⟩
  · have hsettled := h.settled (c := c) (by rwa [hroot, hroot])
    have halike := alike_grown hs k c
    exact ⟨hsettled.target_eq.trans (by rw [hcell]), hsettled.root_eq.trans (hroot c),
      hsettled.type_eq.trans halike.type_eq, hsettled.lengths_eq.trans halike.lengths_eq,
      hsettled.size_eq.trans halike.size_eq, hsettled.offset_eq.trans halike.offset_eq⟩
  · obtain ⟨hbuffer, hle, hlt⟩ := hcov
    rw [hroot, hcell] at hbuffer hle hlt
    exact hn ⟨hbuffer, hle, hlt⟩
  · simpa only [hcell, hroot] using h.links_to hq
  · simpa only [hshares] using h.shares (by simpa only [hroot] using hne) hce

theorem adopts_grown (hs : m.store.Sound) {op : Opcode} {c : CellId} :
    op.Adopts (m.grown k).store d c ↔ op.Adopts m.store d c := by
  have hlinks : (m.grown k).store.Links = m.store.Links := by
    funext a b
    exact congrArg (fun x : Cell => x.target = some b) (Store.cell_freshMany k)
  simp only [Opcode.Adopts, root_grown hs, Store.Visits, hlinks]

end

/-- A step that writes its first operand frames the change of the store. -/
theorem framed_step (hs : m.store.Sound) (ha : m.Addressable)
    (hx : instructionAt? env.program pc = some x) (hw : x.opcode.writes = true)
    (hcall : x.opcode ≠ .callExternal) (h : step env pc m = .ok next m') :
    ∃ y d, x.operands[0]? = some y ∧ Fetched m y d ∧
      m.store.Frame d (m.Source x) x.opcode.Links (x.opcode.Adopts m.store d) m'.store := by
  obtain ⟨k, ops, -, hops, he⟩ := (step_eq_ok ha hx).mp h
  have hsound : (m.grown k).store.Sound := (Store.Touches.freshMany Store.region_true k).sound hs
  obtain ⟨d, hd, hframe⟩ := framed_execute hsound hops.lt hw hcall he
  obtain ⟨y, hy, hfetched, -⟩ := hops.at hd
  refine ⟨y, d, hy, hfetched, (frame_of_grown hs hframe).mono (fun a hsource => ?_)
    fun c => (adopts_grown hs).mp⟩
  unfold SourceCell at hsource
  unfold Source
  split at hsource
  · rename_i hop
    rw [if_pos hop]
    exact hsource
  · rename_i hop
    obtain ⟨z, hz, hfetched, -⟩ := hops.at hsource
    rw [if_neg hop]
    exact ⟨z, hz, hfetched⟩

/-- A step that does not write its first operand makes new containers and changes no other. -/
theorem touches_new_step (hs : m.Within fun _ => True) (ha : m.Addressable)
    (hx : instructionAt? env.program pc = some x) (hw : x.opcode.writes = false) :
    Store.Touches (m.store.cells.size ≤ ·) m.store (finalState (step env pc m)).store := by
  have hop : ∀ {op : Opcode}, op.writes = true → x.opcode ≠ op := by
    rintro op hop rfl
    rw [hw] at hop
    cases hop
  refine Store.Alters.touches Store.Grant.within_stores Store.region_new
    (alters_step ha fun z k ops hz hops => ?_)
  obtain rfl := Option.some.inj (hx.symm.trans hz)
  refine ⟨⟨Store.region_true, fun c hc => ⟨trivial, ?_⟩⟩, hops.lt, False.elim, fun c hc => ?_,
    fun hst => ?_, fun h => absurd h (hop rfl), fun h => absurd h (hop rfl),
    fun h => absurd h (hop rfl), fun h => absurd h (hop rfl), fun h => absurd h (hop rfl)⟩
  · rw [size_grown]
    exact Nat.lt_add_right k (hs.stack c hc).2
  · rw [size_grown] at hc
    omega
  · -- what is stored into is written
    exfalso
    cases hop : x.opcode <;> simp [hop, Opcode.stores, Opcode.writes] at hst hw

end Machine

namespace Launch

open Machine (Fetched instructionAt? step)

variable {l : Launch} {m m' : Machine} {pc next : Int} {x : Instruction}

/-- Every instruction but a call of host code that succeeds, at every stage of a run, leaves the
tables of the memory as they are.  If it does not write its first operand, then all containers and
all buffers are as before.  If it does, and `d` is the container of this operand, then it keeps
the link, the root, the type, the lengths, the size and the offset of all containers with another
root, and all elements that the root of `d` does not show; a link that is new leads from `d` to the
root of the source of a link; and containers that have different roots, before or after, share a
buffer only if they did before or if one of them adopts what the source shows and the other one has
shared it with the source. -/
theorem frame_of_step (hl : l.Hosted) (h : Reached l false (.interpreting m))
    (hx : instructionAt? l.program pc = some x) (hcall : x.opcode ≠ .callExternal)
    (hstep : step l.environment pc m = .ok next m') :
    (m'.memory.globals = m.memory.globals ∧ m'.memory.locals = m.memory.locals ∧
      m'.memory.registers = m.memory.registers ∧ m'.memory.constants = m.memory.constants) ∧
    (x.opcode.writes = false → (∀ c < m.store.cells.size, m'.store.cell c = m.store.cell c) ∧
      ∀ b < m.store.buffers.size, m'.store.buffers[b]? = m.store.buffers[b]?) ∧
    (x.opcode.writes = true → ∃ y d, x.operands[0]? = some y ∧ Fetched m y d ∧
      m.store.Frame d (m.Source x) x.opcode.Links (x.opcode.Adopts m.store d) m'.store) := by
  have hkept : l.Sustained m := sustained_of_reached hl h
  have hp := hkept.pools
  have hmoves := hkept.moves_step hl pc
  have hm' : finalState (step l.environment pc m) = m' := by rw [hstep]; rfl
  rw [hm'] at hmoves
  refine ⟨⟨hmoves.globals, hmoves.locals, hmoves.registers, hmoves.constants⟩, fun hw => ?_,
    fun hw => Machine.framed_step hp.sound hp.addressable hx hw hcall hstep⟩
  have hwithin : m.Within fun _ => True :=
    ⟨Store.region_true, fun c hc => ⟨trivial, (hp.within.stack c hc).2⟩⟩
  have hx' : instructionAt? l.environment.program pc = some x := hx
  have ht := Machine.touches_new_step hwithin hp.addressable hx' hw
  rw [hm'] at ht
  refine ⟨fun c hc => ht.cell_eq (Nat.not_le.mpr hc), fun b hb => ht.buffer_eq hb fun c hc => ?_⟩
  rw [Store.cell_of_le hc]
  simp

/-- Makes a view of the first element of a new array, links a third local to the array, and stores
into the view. -/
def viewsElement : Program where
  code := #[
    { opcode := .alloc, types := [.int], operands := [⟨.locals, 0⟩, ⟨.constants, 0⟩] },
    { opcode := .referElement, types := [.int],
      operands := [⟨.locals, 1⟩, ⟨.locals, 0⟩, ⟨.constants, 1⟩] },
    { opcode := .refer, types := [.void], operands := [⟨.locals, 2⟩, ⟨.locals, 0⟩] },
    { opcode := .move, types := [.int], operands := [⟨.locals, 1⟩, ⟨.constants, 2⟩] },
    { opcode := .finish, types := [.void] }]
  constants := ⟨[("~int:5", 2), ("~int:0", 1), ("~int:2", 0)]⟩
  extent := { locals := 2, constants := 2 }

theorem hosted_viewsElement : (Launch.on viewsElement none {} #[]).Hosted := by
  have hasm : (Assembler.assemble
      "ALLOC int L0 ~int:2; REFELM int L1 L0 ~int:0; REF void L2 L0; MOV int L1 ~int:5; END void;"
      {}).toOption = some viewsElement := by decide +kernel
  exact hosted_on hasm (by decide +kernel) nofun

/-- The store into the view leaves the other element of the array as it is, and the third local with
the shape of the array. -/
theorem frame_of_step_viewsElement :
    let l := Launch.on viewsElement none {} #[]
    l.Hosted ∧ ∃ m m', Reached l false (.interpreting m) ∧ step l.environment 3 m = .ok 4 m' ∧
      Store.Settled m.store m'.store 2 ∧ m'.store.element? 3 1 = m.store.element? 3 1 := by
  intro l
  have hl : l.Hosted := hosted_viewsElement
  have hs : l.Starts l.machine := ⟨hl, .interpret .allocated, rfl⟩
  have hrun : (Machine.visit l.environment l.machine 3).map (fun x => (x.1,
      [x.2.store.root 1, x.2.store.root 2, x.2.store.buffers.size, (x.2.store.cell 1).offset],
      (x.2.store.cell 1).size, x.2.memory.cell? ⟨.locals, 1⟩)) =
      some (3, [1, 0, 4, 0], 1, some 1) := by decide +kernel
  have hnext : (Machine.visit l.environment l.machine 4).map (·.1) = some 4 := by decide +kernel
  simp only [Option.map_eq_some_iff, Prod.mk.injEq, List.cons.injEq, and_true,
    Prod.exists] at hrun hnext
  obtain ⟨_, m, hvisit, rfl, ⟨hview, halias, hbuffers, hoffset⟩, hsize, hcell⟩ := hrun
  obtain ⟨_, m', hvisit', rfl⟩ := hnext
  obtain ⟨pc, z, n, he, hstep⟩ := Machine.visit_succ hvisit'
  have hmove : Machine.Executes l.environment l.machine 3 3 viewsElement.code[3] m := ⟨hvisit, rfl⟩
  obtain ⟨rfl, rfl, rfl⟩ := he.unique hmove
  refine ⟨hl, m, m', hs.reached_visit hvisit, hstep, ?_⟩
  obtain ⟨y, d, hy, hd, hframe⟩ :=
    (frame_of_step hl (hs.reached_visit hvisit) he.fetched nofun hstep).2.2 rfl
  obtain rfl : y = ⟨.locals, 1⟩ := (Option.some.inj hy).symm
  obtain rfl : d = 1 := Option.some.inj (hd.symm.trans hcell)
  have hbuffer : 3 < m.store.buffers.size := by
    rw [hbuffers]
    decide
  refine ⟨hframe.settled (by rw [hview, halias]; decide), hframe.element_eq hbuffer fun hcov => ?_⟩
  have hlt := hcov.lt_end
  rw [hview, hoffset, hsize] at hlt
  omega

/-- The link at the third step makes the third local share a buffer with the view, though their
roots differ before and after. -/
theorem link_shares_viewsElement :
    let l := Launch.on viewsElement none {} #[]
    l.Hosted ∧ ∃ m m' x, Reached l false (.interpreting m) ∧ instructionAt? l.program 2 = some x ∧
      x.opcode = .refer ∧ step l.environment 2 m = .ok 3 m' ∧
      m.store.root 2 ≠ m.store.root 1 ∧ m'.store.root 2 ≠ m'.store.root 1 ∧
      ¬ m.store.Shares 2 1 ∧ m'.store.Shares 2 1 := by
  intro l
  have hl : l.Hosted := hosted_viewsElement
  have hs : l.Starts l.machine := ⟨hl, .interpret .allocated, rfl⟩
  have hshown : [2, 3].map (fun k => (Machine.visit l.environment l.machine k).map fun x => (x.1,
      [x.2.store.root 1, x.2.store.root 2],
      [(x.2.store.rootCell 1).buffer, (x.2.store.rootCell 2).buffer])) =
      [some (2, [1, 2], [some 3, none]), some (3, [1, 0], [some 3, some 3])] := by decide +kernel
  simp only [List.map_cons, List.map_nil, List.cons.injEq, and_true, Option.map_eq_some_iff,
    Prod.mk.injEq, Prod.exists] at hshown
  obtain ⟨⟨_, m, hvisit, rfl, ⟨hview, halias⟩, -, hvoid⟩,
    _, m', hvisit', rfl, ⟨hview', halias'⟩, hbuffer, hbuffer'⟩ := hshown
  obtain ⟨pc, z, n, he, hstep⟩ := Machine.visit_succ hvisit'
  have hlink : Machine.Executes l.environment l.machine 2 2 viewsElement.code[2] m := ⟨hvisit, rfl⟩
  obtain ⟨rfl, rfl, rfl⟩ := he.unique hlink
  refine ⟨hl, m, m', _, hs.reached_visit hvisit, he.fetched, rfl, hstep, ?_, ?_, ?_,
    3, hbuffer', hbuffer⟩
  · rw [hview, halias]
    decide
  · rw [hview', halias']
    decide
  · rintro ⟨b, hb, -⟩
    rw [hvoid] at hb
    cases hb

end Launch

end VectorMachine
