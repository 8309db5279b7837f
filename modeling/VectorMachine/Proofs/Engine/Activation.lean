import VectorMachine.Proofs.Engine.History
import VectorMachine.Proofs.Journals

/-!
# Hooks around a run

An engine that activates its bindings itself brackets every run: all activation hooks are called, then
the program runs, then every deactivation hook is called once, however the run ended.  What is not
bracketed is an activation that fails half way: the hooks before the one that fails have been called,
and no deactivation hook is.

The calls are observed from outside, by bindings whose hooks note their own calls in the journal.
-/

namespace VectorMachine
set_option autoImplicit false

namespace Binding

/-- A call of a hook of the i-th binding, variables counting first. -/
inductive HookCall where
  /-- The activation hook succeeded. -/
  | activated (i : Nat)
  /-- The activation hook failed. -/
  | refused (i : Nat)
  /-- The deactivation hook was called, with whatever outcome. -/
  | deactivated (i : Nat)
  deriving DecidableEq, Repr

/-- Lines of the journal that tell of calls of hooks. -/
structure Marks where
  line : HookCall → String
  call? : String → Option HookCall
  call?_line : ∀ x, call? (line x) = some x

variable {M : Marks} {t : Table} {w : World} {hs : List (String × Hooks)} {k : Nat}

/-- The calls that a journal tells of. -/
def Marks.calls (M : Marks) (journal : Array String) : List HookCall :=
  journal.toList.filterMap M.call?

theorem Marks.calls_push_line (journal : Array String) (x : HookCall) :
    M.calls (journal.push (M.line x)) = M.calls journal ++ [x] := by
  simp [calls, M.call?_line]

/-- Host code that notes its own call. -/
def HostAction.noting (f : HostAction) (success failure : String) : HostAction := fun w =>
  match f w with
  | .ok _ w => .ok () { w with journal := w.journal.push success }
  | .error x w => .error x { w with journal := w.journal.push failure }

def Hooks.recorded (h : Hooks) (M : Marks) (i : Nat) : Hooks where
  activate := h.activate.map (·.noting (M.line (.activated i)) (M.line (.refused i)))
  deactivate := h.deactivate.map (·.noting (M.line (.deactivated i)) (M.line (.deactivated i)))

/-- The bindings with hooks that note their calls. -/
def Table.recorded (t : Table) (M : Marks) : Table :=
  { t with
    vars := t.vars.mapIdx fun i v => { v with hooks := v.hooks.recorded M i }
    funcs := t.funcs.mapIdx fun i f => { f with hooks := f.hooks.recorded M (t.vars.size + i) } }

/-- Host code neither writes nor drops lines that tell of calls of hooks. -/
def HostAction.Leaves (f : HostAction) (M : Marks) : Prop :=
  ∀ w, M.calls (finalState (f w)).journal = M.calls w.journal

/-- What is called during a run leaves those lines alone. -/
structure Table.RunLeaves (t : Table) (M : Marks) : Prop where
  calls : ∀ f ∈ t.funcs, ∀ call, f.call = some call → ∀ args result, (call args result).Leaves M
  writeBacks : ∀ v ∈ t.vars, ∀ f, v.writeBack = some f → (f v.cell).Leaves M

/-- All host code of a table leaves those lines alone. -/
structure Table.Leaves (t : Table) (M : Marks) : Prop extends t.RunLeaves M where
  hooks : ∀ x ∈ t.hooks, ∀ f, x.2.activate = some f ∨ x.2.deactivate = some f → f.Leaves M

theorem Table.RunLeaves.recorded (h : t.RunLeaves M) (active : Bool) :
    ({ t.recorded M with active := active } : Table).RunLeaves M := by
  constructor
  · intro f hf call hcall
    obtain ⟨i, hi, rfl⟩ := Array.mem_mapIdx.mp hf
    exact h.calls _ (Array.getElem_mem hi) call hcall
  · intro v hv f hf
    obtain ⟨i, hi, rfl⟩ := Array.mem_mapIdx.mp hv
    exact h.writeBacks _ (Array.getElem_mem hi) f hf

/-! ### Calls of hooks -/

def recordedFrom (M : Marks) (k : Nat) (hs : List (String × Hooks)) : List (String × Hooks) :=
  hs.mapIdx fun i x => (x.1, x.2.recorded M (k + i))

theorem recordedFrom_cons (x : String × Hooks) :
    recordedFrom M k (x :: hs) = (x.1, x.2.recorded M k) :: recordedFrom M (k + 1) hs := by
  simp [recordedFrom, List.mapIdx_cons, Nat.add_assoc, Nat.add_comm 1]

theorem Table.hooks_recorded (t : Table) (M : Marks) :
    (t.recorded M).hooks = recordedFrom M 0 t.hooks := by
  simp only [Table.hooks, Table.recorded, recordedFrom, List.mapIdx_append, Array.toList_mapIdx]
  congr 1
  · apply List.ext_getElem?
    simp [Function.comp_def]
  · apply List.ext_getElem?
    simp [Function.comp_def, Nat.add_comm]

theorem Table.journal_deactivate (t : Table) (w : World) : (finalState (t.deactivate w)).journal =
    (finalState (Table.deactivationHooks t.hooks w)).journal := by
  simp only [Table.deactivate, bind, EStateM.bind]
  cases Table.deactivationHooks t.hooks w with
  | ok failures w => cases failures <;> rfl
  | error s w => rfl

/-- The calls of all hooks of one kind. -/
def allCalls (hook : Hooks → Option HostAction) (call : Nat → HookCall) :
    Nat → List (String × Hooks) → List HookCall
  | _, [] => []
  | k, x :: hs => (if (hook x.2).isSome then [call k] else []) ++ allCalls hook call (k + 1) hs

/-- The activation hooks before the one that fails, or all of them, have been called in order. -/
theorem calls_activationHooks (h : ∀ x ∈ hs, ∀ f, x.2.activate = some f → f.Leaves M) (w : World) :
    (∃ w', Table.activationHooks (recordedFrom M k hs) w = .ok () w' ∧
      M.calls w'.journal = M.calls w.journal ++ allCalls (·.activate) .activated k hs) ∨
    ∃ s w', Table.activationHooks (recordedFrom M k hs) w = .error s w' ∧ ∃ n < hs.length,
      M.calls w'.journal =
        M.calls w.journal ++ allCalls (·.activate) .activated k (hs.take n) ++ [.refused (k + n)] := by
  induction hs generalizing k w with
  | nil => exact .inl ⟨w, rfl, by simp [allCalls]⟩
  | cons x hs ih =>
    have hrest := ih (k := k + 1) fun y hy => h y (by simp [hy])
    rw [recordedFrom_cons]
    unfold Table.activationHooks
    cases hf : x.2.activate with
    | none =>
      have hnone : (x.2.recorded M k).activate = none := by simp [Hooks.recorded, hf]
      simp only [hnone]
      rcases hrest w with ⟨w', hw, hcalls⟩ | ⟨s, w', hw, n, hn, hcalls⟩
      · refine .inl ⟨w', hw, ?_⟩
        simp [allCalls, hf, hcalls]
      · refine .inr ⟨s, w', hw, n + 1, by simpa using hn, ?_⟩
        simp [allCalls, hf, hcalls, Nat.add_assoc, Nat.add_comm 1]
    | some f =>
      have hleaves := h x (by simp) f hf w
      have hsome : (x.2.recorded M k).activate =
          some (f.noting (M.line (.activated k)) (M.line (.refused k))) := by
        simp [Hooks.recorded, hf]
      simp only [hsome, bind, EStateM.bind, HostAction.within, HostAction.noting]
      cases hr : f w with
      | ok u w₁ =>
        rw [hr] at hleaves
        change M.calls w₁.journal = _ at hleaves
        simp only
        rcases hrest { w₁ with journal := w₁.journal.push (M.line (.activated k)) } with
          ⟨w', hw, hcalls⟩ | ⟨s, w', hw, n, hn, hcalls⟩
        · refine .inl ⟨w', hw, ?_⟩
          simp [allCalls, hf, hcalls, Marks.calls_push_line, hleaves]
        · refine .inr ⟨s, w', hw, n + 1, by simpa using hn, ?_⟩
          simp [allCalls, hf, hcalls, Marks.calls_push_line, hleaves, Nat.add_assoc,
            Nat.add_comm 1]
      | error e w₁ =>
        rw [hr] at hleaves
        change M.calls w₁.journal = _ at hleaves
        refine .inr ?_
        cases e with
        | error e =>
          refine ⟨_, _, rfl, 0, by simp, ?_⟩
          simp [allCalls, Marks.calls_push_line, hleaves]
        | abort a =>
          refine ⟨_, _, rfl, 0, by simp, ?_⟩
          simp [allCalls, Marks.calls_push_line, hleaves]

/-- Host code that gives up instead of failing. -/
def HostAction.Aborts (f : HostAction) : Prop := ∃ w a w', f w = .error (.abort a) w'

/-- The deactivation hooks up to one that aborts, or all of them, have been called in order. -/
theorem calls_deactivationHooks (h : ∀ x ∈ hs, ∀ f, x.2.deactivate = some f → f.Leaves M)
    (w : World) : ∃ n,
      M.calls (finalState (Table.deactivationHooks (recordedFrom M k hs) w)).journal =
        M.calls w.journal ++ allCalls (·.deactivate) .deactivated k (hs.take n) ∧
      (hs.length ≤ n ∨ ∃ i < n, ∃ x f, hs[i]? = some x ∧ x.2.deactivate = some f ∧ f.Aborts) := by
  induction hs generalizing k w with
  | nil => exact ⟨0, by simp [allCalls, Table.deactivationHooks, recordedFrom]; rfl, .inl (by simp)⟩
  | cons x hs ih =>
    have hrest := ih (k := k + 1) fun y hy => h y (by simp [hy])
    -- the hooks that come after the first one start in `w₁`
    have hlater : ∀ w₁ failed, M.calls w₁.journal = M.calls w.journal ++
        allCalls (·.deactivate) .deactivated k [x] → ∃ n,
        M.calls (finalState ((do return failed ++ (← Table.deactivationHooks
          (recordedFrom M (k + 1) hs)) : EStateM Stop World _) w₁)).journal =
          M.calls w.journal ++ allCalls (·.deactivate) .deactivated k ((x :: hs).take n) ∧
        ((x :: hs).length ≤ n ∨ ∃ i < n, ∃ y f, (x :: hs)[i]? = some y ∧
          y.2.deactivate = some f ∧ f.Aborts) := by
      intro w₁ failed hw₁
      obtain ⟨n, hn, hstop⟩ := hrest w₁
      refine ⟨n + 1, ?_, ?_⟩
      · rw [hw₁] at hn
        simp only [bind, EStateM.bind]
        simp only [allCalls, List.append_nil] at hn
        cases hr : Table.deactivationHooks (recordedFrom M (k + 1) hs) w₁ with
        | ok fs w₂ =>
          rw [hr] at hn
          simpa [allCalls, finalState, pure, EStateM.pure] using hn
        | error e w₂ =>
          rw [hr] at hn
          simpa [allCalls] using hn
      · rcases hstop with hall | ⟨i, hi, y, f, hy⟩
        · exact .inl (by simpa using hall)
        · exact .inr ⟨i + 1, by omega, y, f, by simpa using hy⟩
    rw [recordedFrom_cons]
    unfold Table.deactivationHooks
    cases hf : x.2.deactivate with
    | none =>
      have hnone : (x.2.recorded M k).deactivate = none := by simp [Hooks.recorded, hf]
      simp only [hnone]
      exact hlater w [] (by simp [allCalls, hf])
    | some f =>
      have hleaves := h x (by simp) f hf w
      have hsome : (x.2.recorded M k).deactivate =
          some (f.noting (M.line (.deactivated k)) (M.line (.deactivated k))) := by
        simp [Hooks.recorded, hf]
      simp only [hsome]
      have hnoted : ∀ w₁, finalState (f w) = w₁ →
          M.calls (w₁.journal.push (M.line (.deactivated k))) = M.calls w.journal ++
            allCalls (·.deactivate) .deactivated k [x] := by
        rintro w₁ rfl
        simp [Marks.calls_push_line, hleaves, allCalls, hf]
      simp only [bind, EStateM.bind, HostAction.noting]
      rcases hr : f w with ⟨u, w₁⟩ | ⟨e | a, w₁⟩
      · exact hlater _ [] (hnoted w₁ (by rw [hr]; rfl))
      · exact hlater _ [(x.1, e)] (hnoted w₁ (by rw [hr]; rfl))
      · refine ⟨1, ?_, .inr ⟨0, by simp, x, f, by simp, hf, w, a, w₁, hr⟩⟩
        simpa [finalState] using hnoted w₁ (by rw [hr]; rfl)

theorem mem_allCalls {hook : Hooks → Option HostAction} {call : Nat → HookCall} {x : HookCall} :
    x ∈ allCalls hook call k hs ↔ ∃ i y, hs[i]? = some y ∧ (hook y.2).isSome ∧ x = call (k + i) := by
  induction hs generalizing k with
  | nil => simp [allCalls]
  | cons y hs ih =>
    rw [allCalls, List.mem_append, ih]
    constructor
    · rintro (hx | ⟨i, z, hz, hs, rfl⟩)
      · split at hx
        · rename_i hy
          exact ⟨0, y, rfl, hy, by simpa using hx⟩
        · cases hx
      · exact ⟨i + 1, z, hz, hs, by rw [Nat.add_assoc, Nat.add_comm 1]⟩
    · rintro ⟨i, z, hz, hs, rfl⟩
      cases i with
      | zero =>
        cases hz
        exact .inl (by simp [hs])
      | succ i => exact .inr ⟨i, z, hz, hs, by rw [Nat.add_assoc, Nat.add_comm 1]⟩

theorem nodup_allCalls {hook : Hooks → Option HostAction} {call : Nat → HookCall}
    (hcall : Function.Injective call) : (allCalls hook call k hs).Nodup := by
  induction hs generalizing k with
  | nil => exact List.nodup_nil
  | cons y hs ih =>
    refine List.nodup_append.mpr ⟨by split <;> simp, ih, fun a ha b hb hab => ?_⟩
    obtain ⟨i, z, -, -, rfl⟩ := mem_allCalls.mp hb
    split at ha
    · have hk := hcall ((List.mem_singleton.mp ha).symm.trans hab)
      omega
    · cases ha

theorem count_allCalls {hook : Hooks → Option HostAction} {call : Nat → HookCall} {i : Nat}
    {x : String × Hooks} (hcall : Function.Injective call) (hx : hs[i]? = some x)
    (hhook : (hook x.2).isSome) : (allCalls hook call 0 hs).count (call i) = 1 :=
  List.count_eq_one_of_mem (nodup_allCalls hcall)
    (mem_allCalls.mpr ⟨i, x, hx, hhook, by rw [Nat.zero_add]⟩)

theorem count_allCalls_of_ne {hook : Hooks → Option HostAction} {call : Nat → HookCall}
    {x : HookCall} (hx : ∀ i, x ≠ call i) : (allCalls hook call k hs).count x = 0 := by
  refine List.count_eq_zero.mpr fun hmem => ?_
  obtain ⟨i, -, -, -, h⟩ := mem_allCalls.mp hmem
  exact hx _ h

end Binding

namespace Engine

open Binding (Table Marks HookCall HostAction allCalls)

variable {M : Marks} {t : Table} {L : List HookCall} {e : Engine}

/-- The bindings are `t`, and the journal tells of the calls `L`. -/
structure Observes (M : Marks) (t : Table) (L : List HookCall) (e : Engine) : Prop where
  table : e.table = t
  calls : M.calls e.world.journal = L

theorem preserves_of_eq {α : Type} {x : Action α} (h : ∀ e, (finalState (x e)).table = e.table ∧
    (finalState (x e)).world.journal = e.world.journal) : Preserves (Observes M t L) x :=
  fun e he => ⟨(h e).1.trans he.table, by rw [(h e).2, he.calls]⟩

theorem observes_load (src : String) : Preserves (Observes M t L) (load src) := by
  refine preserves_of_eq fun e => ?_
  cases hk : e.lookup src with
  | some k =>
    rw [load_of_some hk]
    exact ⟨rfl, rfl⟩
  | none =>
    rw [load_of_none hk]
    rcases build_cases src e with ⟨x, sinks, hx⟩ | ⟨p, m, s, sinks, -, -, hx⟩ <;> rw [hx] <;>
      exact ⟨rfl, rfl⟩

theorem keeps_link (h : t.RunLeaves M) : t.link.Keeps fun j => M.calls j = L := by
  intro index args result w hw
  unfold Table.link
  by_cases hi : index < 0
  · simp only [hi, if_true]
    exact hw
  · simp only [hi, if_false]
    cases hf : t.funcs[index.toNat]? with
    | none => exact hw
    | some f =>
      cases hcall : f.call with
      | none =>
        simp only [hcall]
        exact hw
      | some call =>
        simp only [hcall]
        exact (h.calls f (Array.mem_of_getElem? hf) call hcall args result w).trans hw

theorem observes_process (h : t.RunLeaves M) (p : Program) (m : Memory) (patience : Patience) :
    Preserves (Observes M t L) (process p m patience) := by
  intro e he
  have hlink : ∀ link, (⟨p, some e.table.link⟩ : Environment).linker = some link →
      link.Keeps fun j => M.calls j = L := by
    rintro link hl
    cases hl
    exact he.table ▸ keeps_link h
  have hrun := Processor.noted_process hlink e.processor patience e.world m e.trace he.calls
  unfold process
  simp only
  split <;> exact ⟨he.table, hrun⟩

theorem invariant_writeBackAll {vs : List Binding.Variable}
    (h : ∀ v ∈ vs, ∀ f, v.writeBack = some f → (f v.cell).Leaves M) :
    Invariant (fun w : World => M.calls w.journal = L) (Table.writeBackAll vs) := by
  induction vs with
  | nil => exact .pure _
  | cons v vs ih =>
    have hrest := ih fun u hu => h u (by simp [hu])
    unfold Table.writeBackAll
    cases hf : v.writeBack with
    | none => exact hrest
    | some f =>
      dsimp only
      split
      · refine Invariant.bind (fun w hw => ?_) fun _ => hrest
        have hcalls := h v (by simp) f hf w
        unfold HostAction.within
        rcases hr : f v.cell w with ⟨_, w'⟩ | ⟨_ | _, w'⟩
        all_goals
          rw [hr] at hcalls
          exact hcalls.trans hw
      · exact hrest

theorem observes_writeBack (h : t.RunLeaves M) :
    Preserves (Observes M t L) (do onWorld (← get).table.writeBack) := by
  intro e he
  have hw : M.calls (finalState (e.table.writeBack e.world)).journal = L :=
    invariant_writeBackAll (fun v hv => h.writeBacks v (by simpa [he.table] using hv)) _ he.calls
  change Observes M t L (finalState (onWorld e.table.writeBack e))
  unfold onWorld
  cases hb : e.table.writeBack e.world with
  | ok u w =>
    rw [hb] at hw
    exact ⟨he.table, hw⟩
  | error s w =>
    rw [hb] at hw
    exact ⟨he.table, hw⟩

/-- Loading and running a source calls no hook. -/
theorem observes_perform (h : t.RunLeaves M) (src : String) (patience : Patience) :
    Preserves (Observes M t L) (perform src patience) := by
  rw [perform_eq]
  refine (observes_load src).bind fun x => ?_
  unfold finish
  refine (preserves_of_eq fun e => ⟨rfl, rfl⟩).bind fun _ => Preserves.get.bind fun _ => ?_
  refine (preserves_of_eq fun e => ⟨rfl, rfl⟩).bind fun _ => ?_
  refine (observes_process h _ _ patience).bind fun m => Preserves.get.bind fun _ => ?_
  refine (preserves_of_eq fun e => ⟨rfl, rfl⟩).bind fun _ => ?_
  refine (observes_writeBack h).bind fun _ => ?_
  split
  · exact .pure _
  · refine Preserves.bind (preserves_of_eq fun e => ?_) fun _ => .pure _
    unfold cellAt
    split <;> exact ⟨rfl, rfl⟩

/-- The calls of an activation, which leaves the bindings active if no hook fails. -/
theorem activate_recorded (ht : e.table = t.recorded M) (h : t.Leaves M) :
    (∃ e₁, activate e = .ok () e₁ ∧ Observes M { t.recorded M with active := true }
      (M.calls e.world.journal ++ allCalls (·.activate) .activated 0 t.hooks) e₁) ∨
    ∃ x e₁, activate e = .error x e₁ ∧ ∃ n, Observes M (t.recorded M) (M.calls e.world.journal ++
      (allCalls (·.activate) .activated 0 (t.hooks.take n) ++ [.refused n])) e₁ := by
  have hactivate : e.table.activate = (do
      Table.activationHooks (Binding.recordedFrom M 0 t.hooks)
      return { t.recorded M with active := true }) := by
    rw [ht, ← Table.hooks_recorded]
    rfl
  rw [activate_eq, hactivate]
  simp only [bind, EStateM.bind]
  rcases Binding.calls_activationHooks (k := 0) (fun x hx f hf => h.hooks x hx f (.inl hf)) e.world
    with ⟨w, hw, hcalls⟩ | ⟨s, w, hw, n, -, hcalls⟩
  · rw [hw]
    exact .inl ⟨_, rfl, rfl, hcalls⟩
  · rw [hw]
    exact .inr ⟨_, _, rfl, n, ht, by simpa using hcalls⟩

/-- The calls of a deactivation, which always leaves the bindings inactive. -/
theorem deactivate_recorded {active : Bool}
    (he : Observes M { t.recorded M with active := active } L e) (h : t.Leaves M) :
    (finalState (deactivate e)).table.active = false ∧ ∃ n,
      M.calls (finalState (deactivate e)).world.journal =
        L ++ allCalls (·.deactivate) .deactivated 0 (t.hooks.take n) ∧
      (t.hooks.length ≤ n ∨ ∃ i < n, ∃ x f, t.hooks[i]? = some x ∧ x.2.deactivate = some f ∧
        f.Aborts) := by
  obtain ⟨n, hcalls, hstop⟩ := Binding.calls_deactivationHooks (k := 0)
    (fun x hx f hf => h.hooks x hx f (.inr hf)) e.world
  have hhooks : e.table.inactive.hooks = Binding.recordedFrom M 0 t.hooks := by
    rw [he.table, ← Table.hooks_recorded]
    rfl
  rw [he.calls, ← hhooks, ← Table.journal_deactivate] at hcalls
  rw [deactivate_eq]
  cases hr : e.table.inactive.deactivate e.world with
  | ok u w =>
    rw [hr] at hcalls
    exact ⟨rfl, n, hcalls, hstop⟩
  | error s w =>
    rw [hr] at hcalls
    exact ⟨rfl, n, hcalls, hstop⟩

section

variable {α : Type} {f : Action α} {e₁ : Engine}
  (hdo : (e.options.autoActivate && !e.table.active) = true)
include hdo

theorem opened_eq_activate : opened e = activate e := by
  unfold opened
  exact if_pos hdo

theorem withBindings_of_activate_ok (h : activate e = .ok () e₁) :
    withBindings f e = thenDeactivate f e₁ := by
  rw [withBindings_eq, opened_eq_activate hdo, h]
  exact if_pos hdo

theorem withBindings_of_activate_error {x : Error} (h : activate e = .error x e₁) :
    withBindings f e = .error x e₁ := by
  rw [withBindings_eq, opened_eq_activate hdo, h]

end

/-- What a run leaves is what its computation with open bindings leaves, but for what is kept. -/
theorem finalState_exec (h : e.Admits) (src : String) (patience : Patience) :
    (finalState (exec src patience e)).table =
        (finalState (withBindings (perform src patience) e)).table ∧
      (finalState (exec src patience e)).world =
        (finalState (withBindings (perform src patience) e)).world := by
  rw [exec_of_admits h]
  cases withBindings (perform src patience) e <;> exact ⟨rfl, rfl⟩

/-- An engine that activates its bindings itself runs a source with bindings that are not active.
Afterwards they are inactive again.  If an activation hook failed, the activation hooks before it have
been called, no deactivation hook has been, and the run fails.  If none failed, every activation hook
and every deactivation hook has been called exactly once, the latter up to the first that aborts. -/
theorem hooks_paired (ht : e.table = t.recorded M) (hleaves : t.Leaves M)
    (hauto : e.options.autoActivate = true) (hinactive : t.active = false) (src : String)
    (patience : Patience) :
    let e' := finalState (exec src patience e)
    e'.table.active = false ∧ ∃ L,
      M.calls e'.world.journal = M.calls e.world.journal ++ L ∧
      (∀ j, .refused j ∈ L → (∀ i, .deactivated i ∉ L) ∧
        (∀ i < j, ∀ x, t.hooks[i]? = some x → x.2.activate.isSome → .activated i ∈ L) ∧
        ∃ x e', exec src patience e = .error x e') ∧
      ((∀ j, .refused j ∉ L) → ∀ i x, t.hooks[i]? = some x →
        (x.2.activate.isSome → L.count (.activated i) = 1) ∧
        (x.2.deactivate.isSome → (∀ j < i, ∀ y f, t.hooks[j]? = some y →
          y.2.deactivate = some f → ¬ f.Aborts) → L.count (.deactivated i) = 1)) := by
  have hadmits : e.Admits := .inl hauto
  have hdo : (e.options.autoActivate && !e.table.active) = true := by
    simp [hauto, ht, Table.recorded, hinactive]
  obtain ⟨htable, hworld⟩ := finalState_exec hadmits src patience
  simp only
  rw [htable, hworld]
  rcases activate_recorded ht hleaves with ⟨e₁, h₁, hobs⟩ | ⟨x, e₁, h₁, n, hobs⟩
  · rw [withBindings_of_activate_ok hdo h₁, finalState_thenDeactivate]
    have hrun := observes_perform (hleaves.toRunLeaves.recorded true) src patience e₁ hobs
    obtain ⟨hoff, n, hcalls, hstop⟩ := deactivate_recorded hrun hleaves
    refine ⟨hoff, _, by rw [hcalls, List.append_assoc], fun j hj => ?_, fun _ i x hx => ⟨fun ha => ?_,
      fun hd hsafe => ?_⟩⟩
    · -- neither activations nor deactivations of all bindings are refusals
      rcases List.mem_append.mp hj with hj | hj
      all_goals
        obtain ⟨_, _, -, -, hj⟩ := Binding.mem_allCalls.mp hj
        cases hj
    · rw [List.count_append, Binding.count_allCalls (fun _ _ => HookCall.activated.inj) hx ha,
        Binding.count_allCalls_of_ne fun _ => HookCall.noConfusion]
    · -- the hook of `x` comes before the first one that aborts, or is that one
      have hlt : i < n := by
        rcases hstop with hall | ⟨j, hj, y, f, hy, hf, hab⟩
        · exact Nat.lt_of_lt_of_le (List.getElem?_eq_some_iff.mp hx).1 hall
        · exact Nat.lt_of_not_le fun hle => hsafe j (Nat.lt_of_lt_of_le hj hle) y f hy hf hab
      rw [List.count_append, Binding.count_allCalls_of_ne (fun _ => HookCall.noConfusion),
        Binding.count_allCalls (fun _ _ => HookCall.deactivated.inj)
          ((List.getElem?_take_of_lt hlt).trans hx) hd]
  · have hwith := withBindings_of_activate_error (f := perform src patience) hdo h₁
    have hexec : ∃ x e', exec src patience e = .error x e' := by
      rw [exec_of_admits hadmits, hwith]
      exact ⟨_, _, rfl⟩
    rw [hwith]
    refine ⟨?_, _, hobs.calls, fun j hj => ⟨fun i hi => ?_, fun i hi x hx ha => ?_, hexec⟩,
      fun hno => ?_⟩
    · change e₁.table.active = false
      rw [hobs.table]
      exact hinactive
    · rcases List.mem_append.mp hi with hi | hi
      · obtain ⟨_, _, -, -, hi⟩ := Binding.mem_allCalls.mp hi
        cases hi
      · cases List.mem_singleton.mp hi
    · have hjn : j = n := by
        rcases List.mem_append.mp hj with hj | hj
        · obtain ⟨_, _, -, -, hj⟩ := Binding.mem_allCalls.mp hj
          cases hj
        · exact HookCall.refused.inj (List.mem_singleton.mp hj)
      refine List.mem_append_left _ (Binding.mem_allCalls.mpr ⟨i, x, ?_, ha, by rw [Nat.zero_add]⟩)
      exact (List.getElem?_take_of_lt (hjn ▸ hi)).trans hx
    · exact absurd (by simp) (hno n)

/-- A sign for the kind of call and one stroke for every binding before it. -/
def tallies : Marks where
  line
    | .activated i => String.ofList ('+' :: List.replicate i '|')
    | .refused i => String.ofList ('!' :: List.replicate i '|')
    | .deactivated i => String.ofList ('-' :: List.replicate i '|')
  call? s :=
    match s.toList with
    | '+' :: strokes => some (.activated strokes.length)
    | '!' :: strokes => some (.refused strokes.length)
    | '-' :: strokes => some (.deactivated strokes.length)
    | _ => none
  call?_line x := by cases x <;> simp

/-- Two variables; activating the second one runs `f`. -/
def twoVariables (f : HostAction) : Table where
  vars := #[{ name := "x", cell := 0,
              hooks := { activate := some (.note "open"), deactivate := some (.note "close") } },
            { name := "y", cell := 1, hooks := { activate := some f } }]
  varIndex := [("y", 1), ("x", 0)]
  version := 2

theorem leaves_note {line : String} (h : M.call? line = none) : (HostAction.note line).Leaves M := by
  intro w
  change M.calls (w.journal.push line) = _
  simp [Marks.calls, h]

theorem leaves_twoVariables {f : HostAction} (hf : f.Leaves tallies) :
    (twoVariables f).Leaves tallies := by
  refine ⟨⟨by simp [twoVariables], by simp [twoVariables]⟩, ?_⟩
  simp only [twoVariables, Table.hooks, List.map_cons, List.map_nil, List.append_nil, List.mem_cons,
    List.not_mem_nil, or_false]
  rintro x (rfl | rfl) g (hg | hg) <;> cases hg
  · exact leaves_note (by decide +kernel)
  · exact leaves_note (by decide +kernel)
  · exact hf

/-- An engine with two variables, activating the second of which runs `f`. -/
def withTwoVariables (f : HostAction) : Engine := { table := (twoVariables f).recorded tallies }

/-- What the journal tells after a run of the empty program. -/
def callsOf (f : HostAction) : List HookCall :=
  tallies.calls
    (finalState (exec "END void;" { polls := 64 } (withTwoVariables f))).world.journal

/-- If the second variable cannot be activated, the first is not deactivated; else it is, once. -/
theorem hooks_paired_twoVariables :
    callsOf (throw (.error (.failed "refused"))) = [.activated 0, .refused 1] ∧
    (∃ x e', exec "END void;" { polls := 64 }
      (withTwoVariables (throw (.error (.failed "refused")))) = .error x e') ∧
    (callsOf (.note "open")).count (.deactivated 0) = 1 := by
  have hrefusing : callsOf (throw (.error (.failed "refused"))) = [.activated 0, .refused 1] := by
    decide +kernel
  have hopening : callsOf (.note "open") = [.activated 0, .activated 1, .deactivated 0] := by
    decide +kernel
  refine ⟨hrefusing, ?_, ?_⟩
  · obtain ⟨-, L, hL, hrefused, -⟩ := hooks_paired (M := tallies)
      (e := withTwoVariables (throw (.error (.failed "refused")))) rfl
      (leaves_twoVariables fun _ => rfl) rfl rfl "END void;" { polls := 64 }
    have hLeq : L = [.activated 0, .refused 1] := hL.symm.trans hrefusing
    exact (hrefused 1 (by simp [hLeq])).2.2
  · obtain ⟨-, L, hL, -, hpaired⟩ := hooks_paired (M := tallies)
      (e := withTwoVariables (.note "open")) rfl
      (leaves_twoVariables (leaves_note (by decide +kernel))) rfl rfl "END void;" { polls := 64 }
    have hLeq : L = [.activated 0, .activated 1, .deactivated 0] := hL.symm.trans hopening
    have hcount := (hpaired (by simp [hLeq]) 0 _ rfl).2 rfl (by simp)
    rwa [hopening, ← hLeq]

end Engine

end VectorMachine
