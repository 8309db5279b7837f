import VectorMachine.Binding
import VectorMachine.Proofs.Program.Labels

/-!
# Bindings keep their addresses

A table keeps its bindings in two lists and their numbers by name beside them.  Whatever it is asked
for, the numbers stay in step with the lists, and a name that has a number keeps it.  So what was
assembled against the table at some time still finds the same bindings in it later.
-/

namespace VectorMachine.Binding
set_option autoImplicit false

open Assembler (Statement ComesTo statements assemble)

/-- What a host may ask of a table. -/
inductive Request where
  | addVariable (v : Variable)
  | addFunction (f : Function)
  | set (name : String) (c : CellId)

namespace Table

/-- What a request gives, the number of a new binding if it adds one, and the table after it.  A
request that fails leaves the table as it was. -/
def serve (t : Table) : Request → Except Error (Option Nat) × Table
  | .addVariable v =>
    match t.addVariable v with
    | .ok (i, t') => (.ok (some i), t')
    | .error e => (.error e, t)
  | .addFunction f =>
    match t.addFunction f with
    | .ok (i, t') => (.ok (some i), t')
    | .error e => (.error e, t)
  | .set name c =>
    match t.set name c with
    | .ok t' => (.ok none, t')
    | .error e => (.error e, t)

/-- What each of some requests gives, and the table after all of them. -/
def serveAll (t : Table) : List Request → List (Except Error (Option Nat)) × Table
  | [] => ([], t)
  | r :: rs => ((t.serve r).1 :: ((t.serve r).2.serveAll rs).1, ((t.serve r).2.serveAll rs).2)

end Table

/-! ### What requests ask for -/

def Request.addedVariable? : Request → Option Variable
  | .addVariable v => some v
  | _ => none

def Request.addedFunction? : Request → Option Function
  | .addFunction f => some f
  | _ => none

/-- The names of the variables that requests ask for, each where it occurs first. -/
def variableNames (rs : List Request) : List String :=
  ((rs.filterMap Request.addedVariable?).map (·.name)).eraseDups

/-- The names of the functions that requests ask for, each where it occurs first. -/
def functionNames (rs : List Request) : List String :=
  ((rs.filterMap Request.addedFunction?).map (·.name)).eraseDups

/-- The cell of a variable after a request, if `c?` is the one before it. -/
def Request.rebind (name : String) (c? : Option CellId) : Request → Option CellId
  | .addVariable v => if v.name = name then some (c?.getD v.cell) else c?
  | .set n c => if n = name then c?.map fun _ => c else c?
  | .addFunction _ => c?

/-- The cell that is set for a variable: the one that it was added with or the last one that it was
bound to since. -/
def currentCell (rs : List Request) (name : String) : Option CellId :=
  rs.foldl (Request.rebind name) none

/-- The first function of a name that requests ask for. -/
def firstFunction (rs : List Request) (name : String) : Option Function :=
  (rs.filterMap Request.addedFunction?).find? (·.name = name)

/-- What a request gives after others: a duplicate is refused, as is a variable that is not there. -/
def expected (before : List Request) : Request → Except Error (Option Nat)
  | .addVariable v =>
    if v.name ∈ variableNames before then .error (.duplicateVariable v.name)
    else .ok (some (variableNames before).length)
  | .addFunction f =>
    if f.name ∈ functionNames before then .error (.duplicateFunction f.name)
    else .ok (some (functionNames before).length)
  | .set name _ => if name ∈ variableNames before then .ok none else .error (.noVariable name)

variable {rs more before after : List Request} {r : Request} {t : Table} {name : String} {n : Nat}
  {names xs : List String} {index index' : List (String × Nat)}

theorem eraseDups_concat (xs : List String) (x : String) :
    (xs ++ [x]).eraseDups = if x ∈ xs then xs.eraseDups else xs.eraseDups ++ [x] := by
  rw [List.eraseDups_append]
  by_cases hx : x ∈ xs
  · simp [hx, List.removeAll]
  · simp [hx, List.removeAll, List.eraseDups_cons]

theorem variableNames_concat (rs : List Request) (r : Request) : variableNames (rs ++ [r]) =
    match r.addedVariable? with
    | some v => if v.name ∈ variableNames rs then variableNames rs else variableNames rs ++ [v.name]
    | none => variableNames rs := by
  cases hr : r.addedVariable? with
  | none => simp [variableNames, List.filterMap_append, hr]
  | some v =>
    simp only [variableNames, List.filterMap_append, List.filterMap_cons, hr, List.filterMap_nil,
      List.map_append, List.map_cons, List.map_nil, eraseDups_concat, List.mem_eraseDups]

theorem functionNames_concat (rs : List Request) (r : Request) : functionNames (rs ++ [r]) =
    match r.addedFunction? with
    | some f => if f.name ∈ functionNames rs then functionNames rs else functionNames rs ++ [f.name]
    | none => functionNames rs := by
  cases hr : r.addedFunction? with
  | none => simp [functionNames, List.filterMap_append, hr]
  | some f =>
    simp only [functionNames, List.filterMap_append, List.filterMap_cons, hr, List.filterMap_nil,
      List.map_append, List.map_cons, List.map_nil, eraseDups_concat, List.mem_eraseDups]

theorem currentCell_concat (rs : List Request) (r : Request) (name : String) :
    currentCell (rs ++ [r]) name = r.rebind name (currentCell rs name) := by
  simp [currentCell]

/-! ### Numbers of names -/

/-- An index gives every name of a list its position. -/
def Indexes (index : List (String × Nat)) (names : List String) : Prop :=
  ∀ name n, index.lookup name = some n ↔ names[n]? = some name

theorem Indexes.mem_iff (h : Indexes index names) :
    name ∈ names ↔ ∃ n, index.lookup name = some n := by
  simp only [h name, List.mem_iff_getElem?]

theorem Indexes.lookup_eq_none (h : Indexes index names) (hn : name ∉ names) :
    index.lookup name = none := by
  cases hl : index.lookup name with
  | none => rfl
  | some n => exact absurd (h.mem_iff.mpr ⟨n, hl⟩) hn

theorem Indexes.symbolicate_of_mem (h : Indexes index names) (hn : name ∈ names) :
    Table.symbolicate index name n = none := by
  obtain ⟨m, hm⟩ := h.mem_iff.mp hn
  simp [Table.symbolicate, hm]

/-- Another name gets the next position. -/
theorem Indexes.symbolicate (h : Indexes index names) (hn : name ∉ names) :
    ∃ index', Table.symbolicate index name names.length = some index' ∧
      Indexes index' (names ++ [name]) := by
  refine ⟨(name, names.length) :: index, ?_, fun m k => ?_⟩
  · simp [Table.symbolicate, h.lookup_eq_none hn]
  rw [List.lookup_cons]
  by_cases hm : m = name
  · subst hm
    simp only [beq_self_eq_true, Option.some.injEq]
    constructor
    · rintro rfl
      exact List.getElem?_concat_length
    · intro hk
      obtain ⟨hlt, hget⟩ := List.getElem?_eq_some_iff.mp hk
      rw [List.length_append, List.length_singleton] at hlt
      by_contra hne
      rw [List.getElem_append_left (by omega)] at hget
      exact hn (hget ▸ List.getElem_mem _)
  · rw [beq_eq_false_iff_ne.mpr hm]
    simp only [h m k]
    constructor
    · intro hk
      rw [List.getElem?_append_left (List.getElem?_eq_some_iff.mp hk).1]
      exact hk
    · intro hk
      obtain ⟨hlt, hget⟩ := List.getElem?_eq_some_iff.mp hk
      by_cases hlt' : k < names.length
      · rwa [List.getElem?_append_left hlt'] at hk
      · rw [List.getElem_append_right (by omega)] at hget
        simp only [List.getElem_singleton] at hget
        exact absurd hget.symm hm

/-! ### What a table records of requests -/

/-- The table after some requests. -/
structure Records (rs : List Request) (t : Table) : Prop where
  vars : t.vars.toList.map (·.name) = variableNames rs
  varIndex : Indexes t.varIndex (variableNames rs)
  funcs : t.funcs.toList.map (·.name) = functionNames rs
  funcIndex : Indexes t.funcIndex (functionNames rs)
  version : t.version = t.vars.size + t.funcs.size
  cells : ∀ v ∈ t.vars, currentCell rs v.name = some v.cell
  unbound : ∀ name, name ∉ variableNames rs → currentCell rs name = none
  functions : ∀ f ∈ t.funcs, firstFunction rs f.name = some f

theorem records_empty : Records [] {} :=
  ⟨rfl, by simp [Indexes, variableNames], rfl, by simp [Indexes, functionNames], rfl, by simp,
    by simp [currentCell], by simp⟩

theorem Records.name_mem (h : Records rs t) {v : Variable} (hv : v ∈ t.vars) :
    v.name ∈ variableNames rs := by
  rw [← h.vars]
  exact List.mem_map_of_mem (Array.mem_toList_iff.mpr hv)

theorem Records.size_vars (h : Records rs t) : t.vars.size = (variableNames rs).length := by
  rw [← h.vars]
  simp

theorem Records.size_funcs (h : Records rs t) : t.funcs.size = (functionNames rs).length := by
  rw [← h.funcs]
  simp

theorem Records.currentCell_of_mem (h : Records rs t) (hn : name ∈ variableNames rs) :
    ∃ c, currentCell rs name = some c := by
  rw [← h.vars] at hn
  obtain ⟨v, hv, rfl⟩ := List.mem_map.mp hn
  exact ⟨v.cell, h.cells v (Array.mem_toList_iff.mp hv)⟩

/-- A function that was asked for first stays the first. -/
theorem Records.firstFunction_concat (h : Records rs t) (r : Request) {f : Function}
    (hf : f ∈ t.funcs) : firstFunction (rs ++ [r]) f.name = some f := by
  have hfirst := h.functions f hf
  simp only [firstFunction, List.filterMap_append, List.find?_append] at hfirst ⊢
  rw [hfirst]
  rfl

/-- A request that adds no name and rebinds none leaves what is recorded. -/
theorem Records.concat (h : Records rs t) (hvars : variableNames (rs ++ [r]) = variableNames rs)
    (hfuncs : functionNames (rs ++ [r]) = functionNames rs)
    (hcell : ∀ name, r.rebind name (currentCell rs name) = currentCell rs name) :
    Records (rs ++ [r]) t where
  vars := hvars ▸ h.vars
  varIndex := hvars ▸ h.varIndex
  funcs := hfuncs ▸ h.funcs
  funcIndex := hfuncs ▸ h.funcIndex
  version := h.version
  cells v hv := by rw [currentCell_concat, hcell, h.cells v hv]
  unbound name hname := by rw [currentCell_concat, hcell, h.unbound name (hvars ▸ hname)]
  functions _ := h.firstFunction_concat r

theorem firstFunction_eq_none (h : name ∉ functionNames rs) : firstFunction rs name = none := by
  refine List.find?_eq_none.mpr fun f hf hname => h ?_
  rw [functionNames, List.mem_eraseDups]
  exact List.mem_map.mpr ⟨f, hf, by simpa using hname⟩

theorem Records.addVariable (h : Records rs t) (v : Variable) :
    Records (rs ++ [.addVariable v]) (t.serve (.addVariable v)).2 ∧
      (t.serve (.addVariable v)).1 = expected rs (.addVariable v) := by
  have hfuncs : functionNames (rs ++ [.addVariable v]) = functionNames rs :=
    functionNames_concat rs _
  have hvars := variableNames_concat rs (.addVariable v)
  simp only [Request.addedVariable?] at hvars
  by_cases hv : v.name ∈ variableNames rs
  · -- a duplicate
    rw [if_pos hv] at hvars
    have hserve : t.serve (.addVariable v) = (.error (.duplicateVariable v.name), t) := by
      simp only [Table.serve, Table.addVariable, h.varIndex.symbolicate_of_mem hv]
    rw [hserve]
    refine ⟨h.concat hvars hfuncs fun name => ?_, by simp [expected, hv]⟩
    by_cases hname : v.name = name
    · obtain ⟨c, hc⟩ := h.currentCell_of_mem (hname ▸ hv)
      simp [Request.rebind, hc]
    · simp [Request.rebind, hname]
  · rw [if_neg hv] at hvars
    obtain ⟨index', hindex, hnew⟩ := h.varIndex.symbolicate hv
    have hserve : t.serve (.addVariable v) = (.ok (some t.vars.size),
        { t with vars := t.vars.push v, varIndex := index', version := t.version + 1 }) := by
      simp only [Table.serve, Table.addVariable, h.size_vars, hindex]
    rw [hserve]
    refine ⟨⟨?_, hvars ▸ hnew, hfuncs ▸ h.funcs, hfuncs ▸ h.funcIndex, ?_, fun w hw => ?_,
      fun name hname => ?_, fun _ => h.firstFunction_concat _⟩,
      by simp [expected, hv, h.size_vars]⟩
    · rw [hvars, ← h.vars]
      simp
    · simp only [Array.size_push, h.version]
      omega
    · rw [currentCell_concat]
      rcases Array.mem_push.mp hw with hw | rfl
      · have hne : v.name ≠ w.name := fun he => hv (he ▸ h.name_mem hw)
        simp [Request.rebind, hne, h.cells w hw]
      · simp [Request.rebind, h.unbound _ hv]
    · rw [hvars, List.mem_append, List.mem_singleton, not_or] at hname
      have hne : v.name ≠ name := fun he => hname.2 he.symm
      simp [currentCell_concat, h.unbound name hname.1, Request.rebind, hne]

theorem Records.addFunction (h : Records rs t) (f : Function) :
    Records (rs ++ [.addFunction f]) (t.serve (.addFunction f)).2 ∧
      (t.serve (.addFunction f)).1 = expected rs (.addFunction f) := by
  have hvars : variableNames (rs ++ [.addFunction f]) = variableNames rs :=
    variableNames_concat rs _
  have hfuncs := functionNames_concat rs (.addFunction f)
  simp only [Request.addedFunction?] at hfuncs
  by_cases hf : f.name ∈ functionNames rs
  · -- a duplicate
    rw [if_pos hf] at hfuncs
    have hserve : t.serve (.addFunction f) = (.error (.duplicateFunction f.name), t) := by
      simp only [Table.serve, Table.addFunction, h.funcIndex.symbolicate_of_mem hf]
    rw [hserve]
    exact ⟨h.concat hvars hfuncs fun _ => rfl, by simp [expected, hf]⟩
  · rw [if_neg hf] at hfuncs
    obtain ⟨index', hindex, hnew⟩ := h.funcIndex.symbolicate hf
    have hserve : t.serve (.addFunction f) = (.ok (some t.funcs.size),
        { t with funcs := t.funcs.push f, funcIndex := index', version := t.version + 1 }) := by
      simp only [Table.serve, Table.addFunction, h.size_funcs, hindex]
    have hcell : ∀ name, currentCell (rs ++ [.addFunction f]) name = currentCell rs name :=
      fun name => currentCell_concat rs _ name
    rw [hserve]
    refine ⟨⟨hvars ▸ h.vars, hvars ▸ h.varIndex, ?_, hfuncs ▸ hnew, ?_,
      fun w hw => (hcell _).trans (h.cells w hw), fun name hname =>
      (hcell _).trans (h.unbound name (hvars ▸ hname)), fun g hg => ?_⟩,
      by simp [expected, hf, h.size_funcs]⟩
    · rw [hfuncs, ← h.funcs]
      simp
    · simp only [Array.size_push, h.version]
      omega
    · rcases Array.mem_push.mp hg with hg | rfl
      · exact h.firstFunction_concat _ hg
      · have hnone := firstFunction_eq_none hf
        simp only [firstFunction, List.filterMap_append, List.find?_append] at hnone ⊢
        rw [hnone]
        simp [Request.addedFunction?]

theorem names_modify {vars : Array Variable} (i : Nat) (c : CellId) :
    (vars.modify i fun v => { v with cell := c }).toList.map (·.name) =
      vars.toList.map (·.name) := by
  apply List.ext_getElem
  · simp
  · intro k h₁ h₂
    simp only [List.getElem_map, Array.getElem_toList, Array.getElem_modify]
    split <;> rfl

/-- The cells after the variable at `i` has been bound anew. -/
theorem Records.cells_modify (h : Records rs t) {i : Nat} (c : CellId)
    (hi : t.varIndex.lookup name = some i) {v : Variable}
    (hv : v ∈ t.vars.modify i fun v => { v with cell := c }) :
    currentCell (rs ++ [.set name c]) v.name = some v.cell := by
  obtain ⟨k, hk, rfl⟩ := Array.getElem_of_mem hv
  rw [Array.size_modify] at hk
  have hname : (variableNames rs)[k]? = some t.vars[k].name := by
    rw [← h.vars]
    simp [hk]
  have hcell := h.cells _ (Array.getElem_mem hk)
  rw [Array.getElem_modify, currentCell_concat]
  split
  · rename_i hik
    subst hik
    obtain rfl : t.vars[i].name = name :=
      Option.some.inj (hname.symm.trans ((h.varIndex name i).mp hi))
    simp [Request.rebind, hcell]
  · rename_i hik
    have hne : name ≠ t.vars[k].name := by
      intro he
      rw [← he, ← h.varIndex name k, hi] at hname
      exact hik (Option.some.inj hname)
    simp [Request.rebind, hne, hcell]

theorem Records.set (h : Records rs t) (name : String) (c : CellId) :
    Records (rs ++ [.set name c]) (t.serve (.set name c)).2 ∧
      (t.serve (.set name c)).1 = expected rs (.set name c) := by
  have hvars : variableNames (rs ++ [.set name c]) = variableNames rs := variableNames_concat rs _
  have hfuncs : functionNames (rs ++ [.set name c]) = functionNames rs := functionNames_concat rs _
  by_cases hn : name ∈ variableNames rs
  · obtain ⟨i, hi⟩ := h.varIndex.mem_iff.mp hn
    have hserve : t.serve (.set name c) = (.ok none,
        { t with vars := t.vars.modify i fun v => { v with cell := c } }) := by
      simp only [Table.serve, Table.set, Table.variableIndex?, hi]
    rw [hserve]
    refine ⟨⟨?_, hvars ▸ h.varIndex, hfuncs ▸ h.funcs, hfuncs ▸ h.funcIndex, ?_,
      fun w hw => h.cells_modify c hi hw, fun m hm => ?_, fun _ => h.firstFunction_concat _⟩,
      by simp [expected, hn]⟩
    · rw [hvars, ← h.vars]
      exact names_modify i c
    · simp [h.version]
    · rw [hvars] at hm
      have hne : name ≠ m := fun he => hm (he ▸ hn)
      simp [currentCell_concat, Request.rebind, hne, h.unbound m hm]
  · have hserve : t.serve (.set name c) = (.error (.noVariable name), t) := by
      simp only [Table.serve, Table.set, Table.variableIndex?, h.varIndex.lookup_eq_none hn]
    rw [hserve]
    refine ⟨h.concat hvars hfuncs fun m => ?_, by simp [expected, hn]⟩
    by_cases hm : name = m
    · simp [Request.rebind, ← hm, h.unbound name hn]
    · simp [Request.rebind, hm]

/-- A request is recorded and gives what is expected of it. -/
theorem Records.serve (h : Records rs t) (r : Request) :
    Records (rs ++ [r]) (t.serve r).2 ∧ (t.serve r).1 = expected rs r := by
  cases r with
  | addVariable v => exact h.addVariable v
  | addFunction f => exact h.addFunction f
  | set name c => exact h.set name c

theorem Records.serveAll (h : Records rs t) (more : List Request) :
    Records (rs ++ more) (t.serveAll more).2 := by
  induction more generalizing rs t with
  | nil =>
    rw [List.append_nil]
    exact h
  | cons r more ih => simpa [Table.serveAll] using ih (h.serve r).1

/-! ### Runs of requests -/

namespace Table

theorem serveAll_append (t : Table) (rs more : List Request) : t.serveAll (rs ++ more) =
    ((t.serveAll rs).1 ++ ((t.serveAll rs).2.serveAll more).1,
      ((t.serveAll rs).2.serveAll more).2) := by
  induction rs generalizing t with
  | nil => rfl
  | cons r rs ih => simp [serveAll, ih]

theorem length_serveAll (t : Table) (rs : List Request) : (t.serveAll rs).1.length = rs.length := by
  induction rs generalizing t with
  | nil => rfl
  | cons r rs ih => simp [serveAll, ih]

/-- Whether a request has added a binding. -/
def added : Except Error (Option Nat) → Bool
  | .ok (some _) => true
  | _ => false

theorem version_serve (t : Table) (r : Request) :
    (t.serve r).2.version = t.version + if added (t.serve r).1 then 1 else 0 := by
  cases r with
  | addVariable v =>
    cases hx : symbolicate t.varIndex v.name t.vars.size <;> simp [serve, addVariable, hx, added]
  | addFunction f =>
    cases hx : symbolicate t.funcIndex f.name t.funcs.size <;> simp [serve, addFunction, hx, added]
  | set name c =>
    cases hx : t.variableIndex? name <;> simp [serve, set, hx, added]

/-- The version counts the bindings that requests have added. -/
theorem version_serveAll (t : Table) (rs : List Request) :
    (t.serveAll rs).2.version = t.version + (t.serveAll rs).1.countP added := by
  induction rs generalizing t with
  | nil => rfl
  | cons r rs ih =>
    simp only [serveAll, ih, version_serve, List.countP_cons]
    omega

/-- A request that fails changes nothing. -/
theorem serve_error (t : Table) (r : Request) {e : Error} (h : (t.serve r).1 = .error e) :
    (t.serve r).2 = t := by
  cases r with
  | addVariable v =>
    simp only [serve] at h ⊢
    cases hx : t.addVariable v <;> simp [hx] at h ⊢
  | addFunction f =>
    simp only [serve] at h ⊢
    cases hx : t.addFunction f <;> simp [hx] at h ⊢
  | set name c =>
    simp only [serve] at h ⊢
    cases hx : t.set name c <;> simp [hx] at h ⊢

end Table

theorem records_serveAll (rs : List Request) : Records rs (Table.serveAll {} rs).2 :=
  records_empty.serveAll rs

/-- Each request gives what is expected of it after those before it. -/
theorem outcome_at (hsplit : rs = before ++ r :: after) :
    (Table.serveAll {} rs).1[before.length]? = some (expected before r) := by
  have hr := ((records_serveAll before).serve r).2
  have hlen := Table.length_serveAll {} before
  rw [hsplit, Table.serveAll_append]
  simp only [← hlen, Table.serveAll, List.getElem?_append_right (Nat.le_refl _), Nat.sub_self,
    List.getElem?_cons_zero, hr]

theorem variableNames_stay (rs more : List Request) :
    variableNames rs <+: variableNames (rs ++ more) := by
  rw [variableNames, variableNames, List.filterMap_append, List.map_append, List.eraseDups_append]
  exact List.prefix_append _ _

theorem functionNames_stay (rs more : List Request) :
    functionNames rs <+: functionNames (rs ++ more) := by
  rw [functionNames, functionNames, List.filterMap_append, List.map_append, List.eraseDups_append]
  exact List.prefix_append _ _

/-! ### What programs find -/

/-- A call of a host function. -/
def Function.invoke (f : Function) : List CellId → CellId → EStateM CallStop World Unit :=
  fun args result =>
    match f.call with
    | none => throw (.error (.noImplementation f.name))
    | some call => call args result

theorem link_of_getElem? {f : Function} (hf : t.funcs[n]? = some f) : t.link n = f.invoke := by
  funext args result
  simp only [Table.link, Int.not_lt.mpr (Int.natCast_nonneg n), if_false, Int.toNat_natCast, hf]
  rfl

theorem toList_underscore (name : String) : ("_" ++ name).toList = '_' :: name.toList := by
  rw [String.toList_append]
  rfl

theorem plainName_underscore (name : String) : Table.plainName ("_" ++ name) = name := by
  simp [Table.plainName]

/-- A program that asks for a variable gets the position of its name. -/
theorem Records.global?_iff (h : Records rs t) (name : String) (a : Int) :
    t.symbols.global? ("_" ++ name) = some a ↔
      ∃ n : Nat, a = n ∧ (variableNames rs)[n]? = some name := by
  simp only [Table.symbols, plainName_underscore, Table.variableIndex?, Option.map_eq_some_iff,
    h.varIndex name, Int.ofNat_eq_natCast]
  exact ⟨fun ⟨n, hn, ha⟩ => ⟨n, ha.symm, hn⟩, fun ⟨n, ha, hn⟩ => ⟨n, hn, ha.symm⟩⟩

/-- A program that asks for a function gets the position of its name. -/
theorem Records.function?_iff (h : Records rs t) (name : String) (a : Int) :
    t.symbols.function? ("_" ++ name) = some a ↔
      ∃ n : Nat, a = n ∧ (functionNames rs)[n]? = some name := by
  simp only [Table.symbols, plainName_underscore, Table.functionIndex?, Option.map_eq_some_iff,
    h.funcIndex name, Int.ofNat_eq_natCast]
  exact ⟨fun ⟨n, hn, ha⟩ => ⟨n, ha.symm, hn⟩, fun ⟨n, ha, hn⟩ => ⟨n, hn, ha.symm⟩⟩

/-- The global at the position of a variable's name is the cell that is set for it. -/
theorem Records.getElem?_globals (h : Records rs t) (hn : (variableNames rs)[n]? = some name) :
    ∃ c, currentCell rs name = some c ∧ t.globals[n]? = some c := by
  rw [← h.vars, List.getElem?_map] at hn
  obtain ⟨v, hv, rfl⟩ := Option.map_eq_some_iff.mp hn
  rw [Array.getElem?_toList] at hv
  refine ⟨v.cell, h.cells v (Array.mem_of_getElem? hv), ?_⟩
  simp [Table.globals, hv]

theorem Records.link_eq (h : Records rs t) (hn : (functionNames rs)[n]? = some name) :
    ∃ f, firstFunction rs name = some f ∧ t.link n = f.invoke := by
  rw [← h.funcs, List.getElem?_map] at hn
  obtain ⟨f, hf, rfl⟩ := Option.map_eq_some_iff.mp hn
  rw [Array.getElem?_toList] at hf
  exact ⟨f, h.functions f (Array.mem_of_getElem? hf), link_of_getElem? hf⟩

/-- What the operand of a name gives a program in a table: the cell that is set for a variable, or a
constant that calls a function. -/
structure Finds (rs : List Request) (t : Table) (p : Program) (name : String) (y : Operand) :
    Prop where
  part : y.part = .locals ∨ y.part = .globals ∨ y.part = .constants
  global : y.part = .globals → 0 ≤ y.addr ∧
    ∃ c, currentCell rs name = some c ∧ t.globals[y.addr.toNat]? = some c
  function : y.part = .constants → 0 ≤ y.addr ∧ ∃ f text, firstFunction rs name = some f ∧
    p.immediates[y.addr.toNat]? = some text ∧
    ∀ v, Literal.decodeImmediate text = .ok v →
      ∃ index : Int64, v = .int index ∧ t.link index.toInt = f.invoke

variable {src : String} {p q q' : Program} {syms : Assembler.Symbols} {y : Operand} {t' : Table}

theorem getElem?_of_prefix (h : names <+: xs) (hn : names[n]? = some name) : xs[n]? = some name := by
  obtain ⟨ys, rfl⟩ := h
  rwa [List.getElem?_append_left (List.getElem?_eq_some_iff.mp hn).1]

/-- What a name stood for when it was resolved, it stands for in every later table. -/
theorem Records.finds (h : Records rs t) (h' : Records (rs ++ more) t')
    (hp : assemble src syms = .ok p) (hbound : Assembler.Bound t.symbols q)
    (hy : Assembler.operand q ("_" ++ name) = .ok (y, q')) (hext : q'.Extends p) :
    Finds (rs ++ more) t' p name y := by
  rcases Assembler.operand_named hbound (toList_underscore name) hy with
    hpart | ⟨hpart, ha⟩ | ⟨i, hi, hconst⟩
  · exact ⟨.inl hpart, fun hg => by simp [hpart] at hg, fun hc => by simp [hpart] at hc⟩
  · obtain ⟨n, hn, hname⟩ := (h.global?_iff name _).mp ha
    refine ⟨.inr (.inl hpart), fun _ => ?_, fun hc => by simp [hpart] at hc⟩
    have hlater := getElem?_of_prefix (variableNames_stay rs more) hname
    rw [hn]
    exact ⟨Int.natCast_nonneg n, h'.getElem?_globals hlater⟩
  · obtain ⟨hy', hq'⟩ := Prod.ext_iff.mp hconst
    simp only at hy' hq'
    rw [← hq'] at hext
    obtain ⟨hnonneg, hpooled⟩ := Assembler.getElem?_constant hp hext
    obtain ⟨n, rfl, hname⟩ := (h.function?_iff name i).mp hi
    have hlater := getElem?_of_prefix (functionNames_stay rs more) hname
    obtain ⟨f, hf, hlink⟩ := h'.link_eq hlater
    have hpart : y.part = .constants := by
      rw [← hy']
      rfl
    refine ⟨.inr (.inr hpart), fun hg => by simp [hpart] at hg, fun _ => ?_⟩
    rw [← hy']
    refine ⟨hnonneg, f, _, hf, hpooled, fun v hv => ?_⟩
    obtain ⟨index, rfl, hindex⟩ := Literal.int_of_decode hv
    exact ⟨index, rfl, hindex ▸ hlink⟩

/-- The numbers of bindings are stable.  Whatever a new table is asked for, each request gives what is
expected of it after those before it, requests that fail change nothing, the version counts the
bindings that have been added, and programs get for a name its position among the names that were
added.  These positions stay for ever: where a program that was assembled against the table names a
variable or a function, it finds in every later table the cell that is set for this variable then, and
calls this function. -/
theorem bindings_stable (rs more : List Request) :
    (∀ before r after, rs = before ++ r :: after →
      (Table.serveAll {} rs).1[before.length]? = some (expected before r)) ∧
    (∀ t r e, (Table.serve t r).1 = .error e → (Table.serve t r).2 = t) ∧
    (Table.serveAll {} rs).2.version = (Table.serveAll {} rs).1.countP Table.added ∧
    (∀ name a, (Table.serveAll {} rs).2.symbols.global? ("_" ++ name) = some a ↔
      ∃ n : Nat, a = n ∧ (variableNames rs)[n]? = some name) ∧
    (∀ name a, (Table.serveAll {} rs).2.symbols.function? ("_" ++ name) = some a ↔
      ∃ n : Nat, a = n ∧ (functionNames rs)[n]? = some name) ∧
    variableNames rs <+: variableNames (rs ++ more) ∧
    functionNames rs <+: functionNames (rs ++ more) ∧
    ∀ src p sts before st after,
      assemble src (Table.serveAll {} rs).2.symbols = .ok p → statements src = .ok sts →
      sts = before ++ st :: after → (st.words.headD "").startsWith "#" = false →
      ∃ e z, ComesTo (Table.serveAll {} rs).2.symbols sts before e ∧
        p.code[e.program.code.size]? = some z ∧
        ∀ (j : Nat) (name : String), st.words[j + 2]? = some ("_" ++ name) →
          ∃ y, z.operands[j]? = some y ∧
            Finds (rs ++ more) (Table.serveAll {} (rs ++ more)).2 p name y := by
  have h := records_serveAll rs
  refine ⟨fun before r after hsplit => outcome_at hsplit, fun t r e he => t.serve_error r he, ?_,
    h.global?_iff, h.function?_iff, variableNames_stay rs more, functionNames_stay rs more, ?_⟩
  · rw [Table.version_serveAll]
    exact Nat.zero_add _
  · intro src p sts before st after hp hsts hsplit hop
    obtain ⟨e, e', hcome, hst, hext⟩ := Assembler.comesTo hsts hp hsplit
    obtain ⟨z, hz, hoperands⟩ := Assembler.operation_at hst hcome.emits.1 hop
    refine ⟨e, z, hcome, hext.code hz, fun j name hword => ?_⟩
    obtain ⟨q, y, q', hy, hj, hq, hq'⟩ := hoperands j _ hword
    have hbound := hcome.bound
    have hboundq : Assembler.Bound (Table.serveAll {} rs).2.symbols q :=
      ⟨hq.globals_eq ▸ hbound.globals, hq.functions_eq ▸ hbound.functions⟩
    exact ⟨y, hj, h.finds (records_serveAll (rs ++ more)) hp hboundq hy (hq'.trans hext)⟩

/-- A program that calls a function with a variable. -/
def callingText : String := "#GLOBAL_VARIABLE _x; #GLOBAL_FUNCTION _f; CALLX int L0 _f _x;"

/-- Once another function has been added and the variable been set, the operands of the program still
give what they are to give. -/
theorem bindings_stable_calling :
    let rs : List Request := [.addVariable { name := "x", cell := 0 }, .addFunction { name := "f" }]
    let more : List Request := [.addFunction { name := "g" }, .set "x" 1]
    let t := (Table.serveAll {} (rs ++ more)).2
    ∃ p z, assemble callingText (Table.serveAll {} rs).2.symbols = .ok p ∧ z ∈ p.code ∧
      z.operands = [⟨.locals, 0⟩, ⟨.constants, 0⟩, ⟨.globals, 0⟩] ∧
      currentCell (rs ++ more) "x" = some 1 ∧ t.globals[0]? = some 1 ∧
      Finds (rs ++ more) t p "f" ⟨.constants, 0⟩ := by
  intro rs more t
  have hasm : (assemble callingText (Table.serveAll {} rs).2.symbols).toOption.any (fun p =>
      p.code.map (·.operands) = #[[⟨.locals, 0⟩, ⟨.constants, 0⟩, ⟨.globals, 0⟩]]) = true := by
    decide +kernel
  obtain ⟨p, hp, hcode⟩ := (Option.any_eq_true _ _).mp hasm
  have hread : statements callingText = .ok [⟨1, "#GLOBAL_VARIABLE _x", ["#GLOBAL_VARIABLE", "_x"]⟩,
      ⟨1, "#GLOBAL_FUNCTION _f", ["#GLOBAL_FUNCTION", "_f"]⟩,
      ⟨1, "CALLX int L0 _f _x", ["CALLX", "int", "L0", "_f", "_x"]⟩] := by
    decide +kernel
  obtain ⟨-, -, -, -, -, -, -, hfinds⟩ := bindings_stable rs more
  obtain ⟨e, z, -, hz, hoperands⟩ := hfinds callingText p _ [_, _] _ [] (eq_ok_of_toOption hp)
    hread rfl (by decide +kernel)
  have hmem : z.operands ∈ p.code.map (·.operands) :=
    Array.mem_map_of_mem (Array.mem_of_getElem? hz)
  rw [of_decide_eq_true hcode, Array.mem_singleton] at hmem
  obtain ⟨f, hf, hfound⟩ := hoperands 1 "f" rfl
  obtain ⟨x, hx, hxfound⟩ := hoperands 2 "x" rfl
  rw [hmem] at hf hx
  cases hf
  cases hx
  obtain ⟨-, c, hc, hglobal⟩ := hxfound.global rfl
  have hcurrent : currentCell (rs ++ more) "x" = some 1 := by decide +kernel
  obtain rfl : c = 1 := Option.some.inj (hc.symm.trans hcurrent)
  exact ⟨p, z, eq_ok_of_toOption hp, Array.mem_of_getElem? hz, hmem, hc, hglobal, hfound⟩

end VectorMachine.Binding
