import VectorMachine.Engine
import VectorMachine.Proofs.Machine.Reach

/-!
# Code of the host

Functions, hooks and write backs of a table touch only containers that the host knows, containers
that they are handed, and what these show.  So do the calls that an engine makes of them.
-/

namespace VectorMachine
set_option autoImplicit false

open Store (Touches)

namespace Binding

variable {known C : CellId → Prop} {α β ε : Type} {t : Table} {G : Array CellId}

/-- Host code touches only containers that it knows, those that it is handed, and what these show. -/
def HostAction.Reaches (f : HostAction) (known : CellId → Prop) (handed : List CellId) : Prop :=
  ∀ (C : CellId → Prop) (w : World), (∀ c, known c → C c) → w.store.Region C →
    (∀ c ∈ handed, C c ∧ c < w.store.cells.size) →
      Touches C w.store (finalState (f w)).store

/-- All code of a table touches only containers that it knows or is handed. -/
structure Table.Reaches (t : Table) (known : CellId → Prop) : Prop where
  calls : ∀ f ∈ t.funcs, ∀ call, f.call = some call → ∀ args result,
    (call args result).Reaches known (result :: args)
  hooks : ∀ x ∈ t.hooks, ∀ f, x.2.activate = some f ∨ x.2.deactivate = some f →
    f.Reaches known []
  writeBacks : ∀ v ∈ t.vars, ∀ f, v.writeBack = some f → (f v.cell).Reaches known [v.cell]

/-- Functions that touch only containers that they know or are handed stay in a region. -/
theorem Table.staysIn_link (hC : ∀ c, known c → C c)
    (h : ∀ f ∈ t.funcs, ∀ call, f.call = some call → ∀ args result,
      (call args result).Reaches known (result :: args)) : t.link.StaysIn C := by
  intro w index args result hw hcs
  unfold Table.link
  by_cases hi : index < 0
  · simp only [hi, if_true]
    exact .refl hw
  · simp only [hi, if_false]
    cases hf : t.funcs[index.toNat]? with
    | none => exact .refl hw
    | some f =>
      cases hcall : f.call with
      | none =>
        simp only [hcall]
        exact .refl hw
      | some call =>
        simp only [hcall]
        exact h f (Array.mem_of_getElem? hf) call hcall args result C w hC hw hcs

theorem Table.Reaches.link (h : t.Reaches known) (hC : ∀ c, known c → C c) :
    t.link.StaysIn C :=
  Table.staysIn_link hC h.calls

/-- A computation on the world touches only the region `C`, where the cells `G` lie. -/
def Touching (C : CellId → Prop) (G : Array CellId) (f : EStateM ε World α) : Prop :=
  ∀ w : World, w.store.Region C → (∀ c ∈ G, C c ∧ c < w.store.cells.size) →
    Touches C w.store (finalState (f w)).store

theorem Touching.bind {f : EStateM ε World α} {k : α → EStateM ε World β} (hf : Touching C G f)
    (hk : ∀ a, Touching C G (k a)) : Touching C G (f >>= k) := by
  intro w hw hG
  have h := hf w hw hG
  simp only [Bind.bind, EStateM.bind]
  cases hr : f w with
  | ok a w' =>
    rw [hr] at h
    exact h.trans (hk a w' (h.region hw) fun c hc =>
      ⟨(hG c hc).1, Nat.lt_of_lt_of_le (hG c hc).2 h.cells_le⟩)
  | error e w' =>
    rw [hr] at h
    exact h

theorem Touching.pure (a : α) : Touching C G (Pure.pure a : EStateM ε World α) :=
  fun _ hw _ => .refl hw

theorem HostAction.Reaches.touching {f : HostAction} {handed : List CellId}
    (h : f.Reaches known handed) (hC : ∀ c, known c → C c) (hG : ∀ c ∈ handed, c ∈ G) :
    Touching C G f := fun w hw hcs =>
  h C w hC hw fun c hc => hcs c (hG c hc)

theorem Touching.within {f : HostAction} (h : Touching C G f) (wrap : CallError → Error) :
    Touching C G (f.within wrap) := by
  intro w hw hG
  have hf := h w hw hG
  unfold HostAction.within
  rcases hr : f w with ⟨_, w'⟩ | ⟨_ | _, w'⟩
  all_goals
    rw [hr] at hf
    exact hf

variable {hs : List (String × Hooks)}

theorem touching_activationHooks (hC : ∀ c, known c → C c)
    (h : ∀ x ∈ hs, ∀ f, x.2.activate = some f → f.Reaches known []) :
    Touching C G (Table.activationHooks hs) := by
  induction hs with
  | nil => exact .pure _
  | cons x hs ih =>
    obtain ⟨name, hk⟩ := x
    have hrest := ih fun y hy => h y (by simp [hy])
    unfold Table.activationHooks
    cases hf : hk.activate with
    | none => exact hrest
    | some f =>
      have hx := (h (name, hk) (by simp) f hf).touching (G := G) hC (by simp)
      exact (hx.within _).bind fun _ => hrest

theorem touching_deactivationHooks (hC : ∀ c, known c → C c)
    (h : ∀ x ∈ hs, ∀ f, x.2.deactivate = some f → f.Reaches known []) :
    Touching C G (Table.deactivationHooks hs) := by
  induction hs with
  | nil => exact .pure _
  | cons x hs ih =>
    obtain ⟨name, hk⟩ := x
    have hrest := ih fun y hy => h y (by simp [hy])
    unfold Table.deactivationHooks
    refine Touching.bind ?_ fun _ => hrest.bind fun _ => .pure _
    cases hf : hk.deactivate with
    | none => exact .pure _
    | some f =>
      intro w hw hG
      have hx := (h (name, hk) (by simp) f hf).touching (G := G) hC (by simp) w hw hG
      rcases hr : f w with ⟨_, w'⟩ | ⟨_ | _, w'⟩
      all_goals
        simp only [hr] at hx ⊢
        exact hx

theorem touching_writeBackAll {vs : List Variable} (hC : ∀ c, known c → C c)
    (hG : ∀ v ∈ vs, v.cell ∈ G)
    (h : ∀ v ∈ vs, ∀ f, v.writeBack = some f → (f v.cell).Reaches known [v.cell]) :
    Touching C G (Table.writeBackAll vs) := by
  induction vs with
  | nil => exact .pure _
  | cons v vs ih =>
    have hrest := ih (fun u hu => hG u (by simp [hu])) fun u hu => h u (by simp [hu])
    unfold Table.writeBackAll
    cases hf : v.writeBack with
    | none => exact hrest
    | some f =>
      have hv := (h v (by simp) f hf).touching (G := G) hC (by simpa using hG v (by simp))
      dsimp only
      split
      · exact (hv.within _).bind fun _ => hrest
      · exact hrest

theorem Table.Reaches.activate (h : t.Reaches known) (hC : ∀ c, known c → C c) :
    Touching C G t.activate :=
  (touching_activationHooks hC fun x hx f hf => h.hooks x hx f (.inl hf)).bind fun _ => .pure _

theorem Table.Reaches.deactivate (h : t.Reaches known) (hC : ∀ c, known c → C c) :
    Touching C G t.deactivate := by
  refine (touching_deactivationHooks hC fun x hx f hf => h.hooks x hx f (.inr hf)).bind
    fun failures => ?_
  cases failures with
  | nil => exact .pure _
  | cons x xs => exact fun w hw _ => .refl hw

theorem Table.Reaches.writeBack (h : t.Reaches known) (hC : ∀ c, known c → C c) :
    Touching C t.globals t.writeBack := by
  refine touching_writeBackAll hC (fun v hv => ?_) fun v hv => h.writeBacks v (by simpa using hv)
  simp only [Table.globals, Array.mem_map]
  exact ⟨v, by simpa using hv, rfl⟩

/-! ### Bindings that stay -/

/-- Tables with the same names at the same addresses. -/
structure Table.SameNames (t t' : Table) : Prop where
  varIndex : t'.varIndex = t.varIndex
  funcIndex : t'.funcIndex = t.funcIndex
  version_eq : t'.version = t.version

theorem Table.SameNames.symbols_eq {t' : Table} (h : t.SameNames t') : t'.symbols = t.symbols := by
  simp only [Table.symbols, Table.variableIndex?, Table.functionIndex?, h.varIndex, h.funcIndex]

theorem Table.SameNames.mark {t' : Table} (h : t.SameNames t') (active : Bool) :
    t.SameNames { t' with active := active } :=
  ⟨h.varIndex, h.funcIndex, h.version_eq⟩

theorem Table.sameNames_set {t' : Table} {name : String} {c : CellId} (h : t.set name c = .ok t') :
    t.SameNames t' := by
  unfold Table.set at h
  split at h
  · cases h
  · cases h
    exact ⟨rfl, rfl, rfl⟩

end Binding

end VectorMachine
