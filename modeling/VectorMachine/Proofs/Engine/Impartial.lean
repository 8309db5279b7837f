import VectorMachine.Proofs.Engine.Hosts
import VectorMachine.Proofs.Machine.Parallel
import VectorMachine.Proofs.Traces

/-!
# Impartial code of the host

The containers of the host are those below a number; they have the same identities in all worlds.
Impartial code of the host does the same in two worlds in which these containers show the same,
however the other containers are numbered there.
-/

namespace VectorMachine
set_option autoImplicit false

open Store (Pairing Matches)

variable {base : Nat} {R R' : Pairing} {w w' : World}

/-- Two worlds with the same journal in which paired containers show the same, those of the host
paired with themselves. -/
structure World.Mates (base : Nat) (R : Pairing) (w w' : World) : Prop where
  store : Matches False R w.store w'.store
  journal : w.journal = w'.journal
  host : ∀ c < base, R c c

/-- Two worlds in which at least the containers that `R` pairs show the same. -/
def World.Mated (base : Nat) (R : Pairing) (w w' : World) : Prop :=
  ∃ R' : Pairing, R.Below R' ∧ World.Mates base R' w w'

theorem World.Mates.mated (h : World.Mates base R w w') : World.Mated base R w w' :=
  ⟨R, fun _ _ => id, h⟩

theorem World.Mated.mono (hle : R.Below R') (h : World.Mated base R' w w') :
    World.Mated base R w w' := by
  obtain ⟨R₁, hle₁, h₁⟩ := h
  exact ⟨R₁, fun c c' hc => hle₁ c c' (hle c c' hc), h₁⟩

namespace Binding

variable {t t' : Table} {hs : List (String × Hooks)} {vs : List Variable}
  {known known' : CellId → Prop}

/-- Code that does the same in worlds in which the containers of the host show the same. -/
def HostAction.Impartial (base : Nat) (f : HostAction) : Prop :=
  ∀ R : Pairing, Blind (World.Mated base R) f

/-- Code of the host that touches only its own containers and those that it is handed. -/
structure HostAction.Fair (base : Nat) (f : HostAction) (handed : List CellId) : Prop where
  reaches : f.Reaches (· < base) handed
  impartial : f.Impartial base

structure Hooks.Fair (base : Nat) (h : Hooks) : Prop where
  activate : ∀ f, h.activate = some f → f.Fair base []
  deactivate : ∀ f, h.deactivate = some f → f.Fair base []

structure Variable.Fair (base : Nat) (v : Variable) : Prop where
  bound : v.cell < base
  writeBack : ∀ f, v.writeBack = some f → ∀ c < base, (f c).Fair base [c]
  hooks : v.hooks.Fair base

/-- A function of the host is determined by its arguments and touches only these and its result. -/
structure Function.Fair (base : Nat) (f : Function) : Prop where
  confined : ∀ call, f.call = some call → ∀ args result,
    (call args result).Reaches (fun _ => False) (result :: args)
  respects : ∀ call, f.call = some call → ∀ (deep : Prop) (R : Pairing) (w w' : World)
    (args args' : List CellId) (result result' : CellId), Matches deep R w.store w'.store →
      w.journal = w'.journal → List.Forall₂ R args args' → R result result' →
        SameCall deep R (call args result w) (call args' result' w')
  hooks : f.hooks.Fair base

structure Table.Fair (base : Nat) (t : Table) : Prop where
  vars : ∀ v ∈ t.vars, v.Fair base
  funcs : ∀ f ∈ t.funcs, f.Fair base

/-! ### What fair bindings touch -/

theorem HostAction.Reaches.mono {f : HostAction} {handed : List CellId}
    (h : f.Reaches known handed) (hk : ∀ c, known c → known' c) : f.Reaches known' handed := by
  intro C w hC
  exact h C w fun c hc => hC c (hk c hc)

theorem Table.Fair.bound (h : t.Fair base) : ∀ c ∈ t.globals, c < base := by
  intro c hc
  obtain ⟨v, hv, rfl⟩ := Array.mem_map.mp hc
  exact (h.vars v hv).bound

theorem Table.Fair.hooks (h : t.Fair base) : ∀ x ∈ t.hooks, x.2.Fair base := by
  intro x hx
  rcases List.mem_append.mp hx with hx | hx
  · obtain ⟨v, hv, rfl⟩ := List.mem_map.mp hx
    exact (h.vars v (by simpa using hv)).hooks
  · obtain ⟨f, hf, rfl⟩ := List.mem_map.mp hx
    exact (h.funcs f (by simpa using hf)).hooks

theorem Table.Fair.reaches (h : t.Fair base) (hk : ∀ c < base, known c) : t.Reaches known := by
  refine ⟨fun f hf call hcall args result => ?_, fun x hx f hf => ?_, fun v hv f hf => ?_⟩
  · exact ((h.funcs f hf).confined call hcall args result).mono fun _ => False.elim
  · rcases hf with hf | hf
    · exact ((h.hooks x hx).activate f hf).reaches.mono hk
    · exact ((h.hooks x hx).deactivate f hf).reaches.mono hk
  · exact ((h.vars v hv).writeBack f hf _ (h.vars v hv).bound).reaches.mono hk

theorem Table.Fair.confined (h : t.Fair base) : t.link.Confined := by
  intro C
  exact Table.staysIn_link (fun _ (hc : False) => hc.elim) fun f hf => (h.funcs f hf).confined

theorem Table.Fair.respects (h : t.Fair base) (deep : Prop) : t.link.Respects deep := by
  intro R w w' index args args' result result' hs hj hargs hresult
  have hthrow : ∀ e : CallStop, SameCall deep R ((throw e : HostAction) w)
      ((throw e : HostAction) w') := fun e => ⟨rfl, R, fun _ _ => id, hs, hj⟩
  unfold Table.link
  cases hf : (if index < 0 then none else t.funcs[index.toNat]?) with
  | none => exact hthrow _
  | some f =>
    have hmem : f ∈ t.funcs := by
      split at hf
      · cases hf
      · exact Array.mem_of_getElem? hf
    cases hcall : f.call with
    | none =>
      simp only [hcall]
      exact hthrow _
    | some call =>
      simp only [hcall]
      exact (h.funcs f hmem).respects call hcall deep R w w' args args' result result' hs hj hargs
        hresult

/-! ### What fair bindings do in two worlds -/

theorem HostAction.Impartial.within {f : HostAction} (h : f.Impartial base)
    (wrap : CallError → Error) : Blind (World.Mated base R) (f.within wrap) := by
  intro w w' hw
  have hf := h R w w' hw
  unfold HostAction.within
  generalize f w = r, f w' = r' at hf ⊢
  cases hf with
  | ok hw => exact .ok hw
  | @error e _ _ hw => cases e <;> exact .error hw

theorem blind_activationHooks (h : ∀ x ∈ hs, x.2.Fair base) :
    Blind (World.Mated base R) (Table.activationHooks hs) := by
  induction hs with
  | nil => exact fun _ _ hw => .ok hw
  | cons x hs ih =>
    obtain ⟨name, hk⟩ := x
    have hrest := ih fun y hy => h y (by simp [hy])
    unfold Table.activationHooks
    cases hf : hk.activate with
    | none => exact hrest
    | some f =>
      have hx := ((h (name, hk) (by simp)).activate f hf).impartial
      exact (hx.within _).bind fun _ => hrest

theorem blind_deactivationHooks (h : ∀ x ∈ hs, x.2.Fair base) :
    Blind (World.Mated base R) (Table.deactivationHooks hs) := by
  induction hs with
  | nil => exact fun _ _ hw => .ok hw
  | cons x hs ih =>
    obtain ⟨name, hk⟩ := x
    have hrest := ih fun y hy => h y (by simp [hy])
    unfold Table.deactivationHooks
    refine Couples.bind (Q := World.Mated base R) ?_ fun _ =>
      hrest.bind fun _ _ _ hw => .ok hw
    cases hf : hk.deactivate with
    | none => exact fun _ _ hw => .ok hw
    | some f =>
      intro w w' hw
      have hx := ((h (name, hk) (by simp)).deactivate f hf).impartial R w w' hw
      dsimp only
      generalize f w = r, f w' = r' at hx ⊢
      cases hx with
      | ok hw => exact .ok hw
      | @error e _ _ hw =>
        cases e with
        | error e => exact .ok hw
        | abort a => exact .error hw

theorem blind_writeBackAll (h : ∀ v ∈ vs, v.Fair base) :
    Blind (World.Mated base R) (Table.writeBackAll vs) := by
  induction vs with
  | nil => exact fun _ _ hw => .ok hw
  | cons v vs ih =>
    have hrest := ih fun u hu => h u (by simp [hu])
    unfold Table.writeBackAll
    cases hf : v.writeBack with
    | none => exact hrest
    | some f =>
      have hv := h v (by simp)
      dsimp only
      split
      · exact (((hv.writeBack f hf _ hv.bound).impartial).within _).bind fun _ => hrest
      · exact hrest

theorem Table.Fair.blind_activate (h : t.Fair base) : Blind (World.Mated base R) t.activate :=
  (blind_activationHooks h.hooks).bind fun _ _ _ hw => .ok hw

theorem Table.Fair.blind_deactivate (h : t.Fair base) :
    Blind (World.Mated base R) t.deactivate := by
  refine (blind_deactivationHooks h.hooks).bind fun failures => ?_
  cases failures with
  | nil => exact fun _ _ hw => .ok hw
  | cons x xs => exact fun _ _ hw => .error hw

theorem Table.Fair.blind_writeBack (h : t.Fair base) : Blind (World.Mated base R) t.writeBack :=
  blind_writeBackAll fun v hv => h.vars v (by simpa using hv)

/-! ### Bindings that stay fair -/

theorem Table.Fair.mark (h : t.Fair base) (active : Bool) :
    Table.Fair base { t with active := active } :=
  ⟨h.vars, h.funcs⟩

theorem Table.Fair.addVariable {v : Variable} {i : Nat} (h : t.Fair base) (hv : v.Fair base)
    (ht : t.addVariable v = .ok (i, t')) : t'.Fair base := by
  unfold Table.addVariable at ht
  split at ht
  · cases ht
  · cases ht
    refine ⟨fun u hu => ?_, h.funcs⟩
    rcases Array.mem_push.mp hu with hu | rfl
    · exact h.vars u hu
    · exact hv

theorem Table.Fair.addFunction {f : Function} {i : Nat} (h : t.Fair base) (hf : f.Fair base)
    (ht : t.addFunction f = .ok (i, t')) : t'.Fair base := by
  unfold Table.addFunction at ht
  split at ht
  · cases ht
  · cases ht
    refine ⟨h.vars, fun g hg => ?_⟩
    rcases Array.mem_push.mp hg with hg | rfl
    · exact h.funcs g hg
    · exact hf

theorem Table.Fair.set {name : String} {c : CellId} (h : t.Fair base) (hc : c < base)
    (ht : t.set name c = .ok t') : t'.Fair base := by
  unfold Table.set at ht
  split at ht
  · cases ht
  · cases ht
    refine ⟨fun v hv => ?_, h.funcs⟩
    obtain ⟨j, hj⟩ := Array.getElem?_of_mem hv
    rw [Array.getElem?_modify] at hj
    split at hj
    · obtain ⟨v', hv', rfl⟩ := Option.map_eq_some_iff.mp hj
      have hv' := h.vars v' (Array.mem_of_getElem? hv')
      exact ⟨hc, hv'.writeBack, hv'.hooks⟩
    · exact h.vars v (Array.mem_of_getElem? hj)

end Binding

end VectorMachine
