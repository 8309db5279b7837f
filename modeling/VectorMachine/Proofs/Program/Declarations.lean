import VectorMachine.Proofs.Program.Assembled
import VectorMachine.Proofs.Program.Rendering

/-!
# Declarations

A declaration takes effect wherever it stands.  Statements fall into kinds: instructions, labels and
notes are one, as they share the addresses of the program, and each sort of declaration is another.
The first pass keeps what the kinds declare apart, so its result is made up of what it makes of each
kind alone, and the second pass reads the first kind only.  Hence the order of statements matters
within a kind, and nowhere else.
-/

namespace VectorMachine
set_option autoImplicit false

namespace LanguageInfo

variable {i j : LanguageInfo} {key key' : InfoKey}

/-- The information under one key alone. -/
def only (i : LanguageInfo) (key : InfoKey) : LanguageInfo :=
  match i.get? key with
  | some v => LanguageInfo.set {} key v
  | none => {}

theorem only_set (i : LanguageInfo) (key : InfoKey) (v : String) :
    (i.set key v).only key = (i.only key).set key v := by
  cases key <;> simp only [only, set, get?] <;> split <;> rfl

theorem only_set_of_ne (i : LanguageInfo) (v : String) (h : key' ≠ key) :
    (i.set key v).only key' = i.only key' := by
  cases key <;> cases key' <;> first | rfl | exact absurd rfl h

theorem get?_only (i : LanguageInfo) (key : InfoKey) : (i.only key).get? key = i.get? key := by
  unfold only
  split
  · rename_i v hv
    rw [hv]
    cases key <;> rfl
  · rename_i hv
    rw [hv]
    cases key <;> rfl

theorem ext_only (h : ∀ key, i.only key = j.only key) : i = j := by
  have hget : ∀ key, i.get? key = j.get? key := fun key => by
    rw [← get?_only i, h key, get?_only]
  cases i
  cases j
  simp only [mk.injEq]
  exact ⟨hget .assemblyIdentifier, hget .assemblyVersion, hget .scriptIdentifier,
    hget .scriptVersion⟩

end LanguageInfo

namespace Assembler

/-- The kinds of statements among which order matters. -/
inductive Kind where
  /-- Instructions, labels and notes. -/
  | code
  | localVariable | globalVariable | localFunction | globalFunction | comment
  | info (key : InfoKey)
  deriving DecidableEq, Repr

/-- The kind of a statement with these words; unknown directives have none. -/
def kind? (words : List String) : Option Kind :=
  let word := words.headD ""
  match Directive.ofWord? word with
  | some .label | some .note => some .code
  | some .localVariable => some .localVariable
  | some .globalVariable => some .globalVariable
  | some .localFunction => some .localFunction
  | some .globalFunction => some .globalFunction
  | some .comment => some .comment
  | some (.info key) => some (.info key)
  | none => if word.startsWith "#" then none else some .code

/-- The statements of one kind, in order. -/
def ofKind (k : Kind) (sts : List Statement) : List Statement :=
  sts.filter fun st => kind? st.words = some k

/-- Statements with the same words in another order, which is the same within each kind. -/
structure Rearranged (sts sts' : List (List String)) : Prop where
  perm : sts.Perm sts'
  order : ∀ k, sts.filter (kind? · = some k) = sts'.filter (kind? · = some k)

theorem Rearranged.symm {sts sts' : List (List String)} (h : Rearranged sts sts') :
    Rearranged sts' sts :=
  ⟨h.perm.symm, fun k => (h.order k).symm⟩

/-- What has been declared by the statements of one kind. -/
def Kind.view : Kind → Declared → Declared
  | .code, d => { d with
      program.locals := {}
      program.globals := {}
      program.functions := {}
      program.localFunctions := []
      program.info := {}
      program.extent.locals := -1
      program.extent.globals := -1 }
  | .localVariable, d =>
    { program.locals := d.program.locals, program.extent.locals := d.program.extent.locals }
  | .globalVariable, d =>
    { program.globals := d.program.globals, program.extent.globals := d.program.extent.globals }
  | .localFunction, d => { program.localFunctions := d.program.localFunctions }
  | .globalFunction, d => { program.functions := d.program.functions }
  | .comment, _ => {}
  | .info key, d => { program.info := d.program.info.only key }

variable {k j : Kind} {syms : Symbols} {d d' : Declared} {st : Statement}
  {sts read read' : List Statement} {e : Emitted} {p : Program}

/-- The views of all kinds make up what has been declared. -/
theorem ext_view (h : ∀ k : Kind, k.view d = k.view d') : d = d' := by
  have hcode := h .code
  have hlocals := h .localVariable
  have hglobals := h .globalVariable
  have hnames := h .localFunction
  have hfunctions := h .globalFunction
  have hinfo : d.program.info = d'.program.info :=
    LanguageInfo.ext_only fun key => congrArg (·.program.info) (h (.info key))
  obtain ⟨⟨_, _, _, _, _, _, _, _, _, ⟨_, _, _, _⟩, _⟩, _⟩ := d
  obtain ⟨⟨_, _, _, _, _, _, _, _, _, ⟨_, _, _, _⟩, _⟩, _⟩ := d'
  simp_all [Kind.view]

/-! ### The first pass over one statement -/

theorem kind?_operation (h : (st.words.headD "").startsWith "#" = false) :
    kind? st.words = some .code := by
  have hnone : Directive.ofWord? (st.words.headD "") = none := by
    cases hk : Directive.ofWord? (st.words.headD "") with
    | none => rfl
    | some k =>
      rw [startsWith_of_directive hk] at h
      cases h
  simp only [kind?, hnone, h]
  rfl

/-- What the statements of a kind declare, and whether they are in order, is up to this kind. -/
theorem declare_view (h : kind? st.words = some k) :
    (declare syms d st).map k.view = declare syms (k.view d) st := by
  unfold declare
  dsimp only
  split
  · rename_i hw
    rw [kind?_operation (by simpa using hw)] at h
    cases h
    rfl
  unfold kind? at h
  dsimp only at h
  cases hdir : Directive.ofWord? (st.words.headD "") with
  | none => rfl
  | some dir =>
    rw [hdir] at h
    cases dir with cases h
    | localVariable =>
      have hlocals : (Kind.localVariable.view d).program.locals = d.program.locals := rfl
      simp only [declareLocal, hlocals]
      split
      · rfl
      · split <;> rfl
    | globalVariable =>
      simp only [declareGlobal]
      split
      · rfl
      · split <;> rfl
    | globalFunction =>
      simp only [declareFunction]
      split
      · rfl
      · split <;> rfl
    | localFunction =>
      simp only
      split <;> rfl
    | label =>
      have hlabels : (Kind.code.view d).program.labels = d.program.labels := rfl
      simp only [declareLabel, hlabels]
      split
      · rfl
      · split <;> rfl
    | info key =>
      simp only
      split
      · rfl
      · simp only [Except.map, Kind.view, LanguageInfo.only_set]
    | note =>
      simp only
      split <;> rfl
    | comment => rfl

/-- A statement is of some kind, and leaves alone what the others have declared. -/
theorem view_of_declare (hd : declare syms d st = .ok d') :
    ∃ k, kind? st.words = some k ∧ ∀ j : Kind, j ≠ k → j.view d' = j.view d := by
  have hother : ∀ {k : Kind}, (∀ j : Kind, j = k ∨ j.view d' = j.view d) →
      ∀ j : Kind, j ≠ k → j.view d' = j.view d := fun h j hj => (h j).resolve_left hj
  cases accepts_of_declare hd with
  | operation hw =>
    refine ⟨.code, kind?_operation hw, hother fun j => ?_⟩
    cases j <;> first | exact .inr rfl | exact .inl rfl
  | localVariable hk =>
    refine ⟨.localVariable, by simp only [kind?, hk], hother fun j => ?_⟩
    cases j <;> first | exact .inr rfl | exact .inl rfl
  | globalVariable hk =>
    refine ⟨.globalVariable, by simp only [kind?, hk], hother fun j => ?_⟩
    cases j <;> first | exact .inr rfl | exact .inl rfl
  | globalFunction hk =>
    refine ⟨.globalFunction, by simp only [kind?, hk], hother fun j => ?_⟩
    cases j <;> first | exact .inr rfl | exact .inl rfl
  | localFunction hk =>
    refine ⟨.localFunction, by simp only [kind?, hk], hother fun j => ?_⟩
    cases j <;> first | exact .inr rfl | exact .inl rfl
  | label hw =>
    refine ⟨.code, by simp only [kind?, hw, Directive.ofWord?], hother fun j => ?_⟩
    cases j <;> first | exact .inr rfl | exact .inl rfl
  | @info key hk =>
    refine ⟨.info key, by simp only [kind?, hk], fun j hj => ?_⟩
    cases j with
    | info key' =>
      have hkey : key' ≠ key := fun h => hj (h ▸ rfl)
      simp only [Kind.view, LanguageInfo.only_set_of_ne _ _ hkey]
    | _ => rfl
  | note hk => exact ⟨.code, by simp only [kind?, hk], fun _ _ => rfl⟩
  | comment hk => exact ⟨.comment, by simp only [kind?, hk], fun _ _ => rfl⟩

/-! ### The first pass over all statements -/

theorem ofKind_cons (k : Kind) (st : Statement) (sts : List Statement) :
    ofKind k (st :: sts) =
      if kind? st.words = some k then st :: ofKind k sts else ofKind k sts := by
  simp [ofKind, List.filter_cons]

/-- What a pass declares is what it declares for each kind alone. -/
theorem pass_view (h : pass (declare syms) d sts = .ok d') :
    (∀ st ∈ sts, kind? st.words ≠ none) ∧
      ∀ k : Kind, pass (declare syms) (k.view d) (ofKind k sts) = .ok (k.view d') := by
  induction sts generalizing d with
  | nil =>
    cases h
    exact ⟨by simp, fun _ => rfl⟩
  | cons st sts ih =>
    simp only [pass] at h
    split at h
    · rename_i d₁ hd₁
      obtain ⟨hkinds, hviews⟩ := ih h
      obtain ⟨j, hj, hother⟩ := view_of_declare hd₁
      refine ⟨List.forall_mem_cons.mpr ⟨by simp [hj], hkinds⟩, fun k => ?_⟩
      rw [ofKind_cons]
      split
      · rename_i hk
        simp only [pass, ← declare_view hk, hd₁, Except.map]
        exact hviews k
      · rename_i hk
        rw [← hother k (fun hkj => hk (hkj ▸ hj))]
        exact hviews k
    · cases h

/-- A pass succeeds if it succeeds for each kind alone. -/
theorem exists_pass (hkinds : ∀ st ∈ sts, kind? st.words ≠ none)
    (h : ∀ k : Kind, ∃ v, pass (declare syms) (k.view d) (ofKind k sts) = .ok v) :
    ∃ d', pass (declare syms) d sts = .ok d' := by
  induction sts generalizing d with
  | nil => exact ⟨d, rfl⟩
  | cons st sts ih =>
    obtain ⟨hkind, hkinds⟩ := List.forall_mem_cons.mp hkinds
    obtain ⟨j, hj⟩ := Option.ne_none_iff_exists'.mp hkind
    obtain ⟨v, hv⟩ := h j
    simp only [ofKind_cons, hj, if_true, pass, ← declare_view hj] at hv
    cases hd : declare syms d st with
    | error c =>
      rw [hd] at hv
      cases hv
    | ok d₁ =>
      simp only [pass, hd]
      rw [hd] at hv
      obtain ⟨i, hi, hother⟩ := view_of_declare hd
      obtain rfl : j = i := Option.some.inj (hj.symm.trans hi)
      refine ih hkinds fun k => ?_
      by_cases hk : k = j
      · subst hk
        exact ⟨v, hv⟩
      · rw [hother k hk]
        obtain ⟨w, hw⟩ := h k
        have hne : kind? st.words ≠ some k := fun he => hk (Option.some.inj (he.symm.trans hj))
        rw [ofKind_cons, if_neg hne] at hw
        exact ⟨w, hw⟩

theorem words_ofKind (k : Kind) (sts : List Statement) :
    (ofKind k sts).map (·.words) = (sts.map (·.words)).filter (kind? · = some k) := by
  rw [ofKind, List.filter_map]
  rfl

theorem declare_congr {st st' : Statement} (h : st.words = st'.words) (d : Declared) :
    declare syms d st = declare syms d st' := by
  simp only [declare, h]

theorem assembleStatement_congr {st st' : Statement} (h : st.words = st'.words) (e : Emitted) :
    assembleStatement e st = assembleStatement e st' := by
  simp only [assembleStatement, h]

theorem pass_declare_rearranged (h : Rearranged (read.map (·.words)) (read'.map (·.words)))
    (hd : pass (declare syms) {} read = .ok d) : pass (declare syms) {} read' = .ok d := by
  obtain ⟨hkinds, hviews⟩ := pass_view hd
  have hkinds' : ∀ st ∈ read', kind? st.words ≠ none := by
    intro st hst
    obtain ⟨st₀, hst₀, hwords⟩ :=
      List.mem_map.mp (h.perm.mem_iff.mpr (List.mem_map_of_mem (f := (·.words)) hst))
    exact hwords ▸ hkinds st₀ hst₀
  have hviews' : ∀ k : Kind,
      pass (declare syms) (k.view {}) (ofKind k read') = .ok (k.view d) := by
    intro k
    have hwords : (ofKind k read).map (·.words) = (ofKind k read').map (·.words) := by
      rw [words_ofKind, words_ofKind, h.order k]
    rcases (pass_congr (fun d _ _ hst => declare_congr hst d) hwords (k.view {})).cases with
      ⟨v, hv, hv'⟩ | ⟨e, e', he, -⟩
    · rw [hviews k] at hv
      rw [hv', hv]
    · rw [hviews k] at he
      cases he
  obtain ⟨d', hd'⟩ := exists_pass hkinds' fun k => ⟨_, hviews' k⟩
  have hsame : d' = d := ext_view fun k =>
    Except.ok.inj (((pass_view hd').2 k).symm.trans (hviews' k))
  rw [hd', hsame]

/-! ### The second pass -/

/-- The second pass takes no notice of declarations. -/
theorem assembleStatement_declaration (h : kind? st.words ≠ some .code) (e : Emitted) :
    assembleStatement e st = .ok e := by
  have hmark : (st.words.headD "").startsWith "#" = true := by
    by_contra hw
    exact h (kind?_operation (by simpa using hw))
  have hnote : st.words.headD "" ≠ "#META" := fun hw =>
    h (by simp only [kind?, hw, Directive.ofWord?])
  have hlabel : st.words.headD "" ≠ "#LABEL" := fun hw =>
    h (by simp only [kind?, hw, Directive.ofWord?])
  simp only [assembleStatement, hnote, hlabel, hmark, if_true, if_false]

theorem pass_assemble_code (e : Emitted) (sts : List Statement) :
    pass assembleStatement e sts = pass assembleStatement e (ofKind .code sts) := by
  induction sts generalizing e with
  | nil => rfl
  | cons st sts ih =>
    rw [ofKind_cons]
    split
    · simp only [pass]
      split
      · exact ih _
      · rfl
    · rename_i hk
      simp only [pass, assembleStatement_declaration hk]
      exact ih e

/-! ### Both passes -/

theorem assembleStatements_rearranged (h : Rearranged (read.map (·.words)) (read'.map (·.words)))
    (hp : assembleStatements syms read = .ok p) : assembleStatements syms read' = .ok p := by
  obtain ⟨d, hd, hp⟩ := Store.bind_eq_ok.mp hp
  obtain ⟨e, he, hp⟩ := Store.bind_eq_ok.mp hp
  rw [pass_assemble_code] at he
  have hwords : (ofKind .code read).map (·.words) = (ofKind .code read').map (·.words) := by
    rw [words_ofKind, words_ofKind, h.order .code]
  rcases (pass_congr (fun e _ _ hst => assembleStatement_congr hst e) hwords
    { program := d.program }).cases with ⟨e', he₁, he₂⟩ | ⟨e', _, he₁, -⟩
  · rw [he] at he₁
    obtain rfl := Except.ok.inj he₁
    rw [assembleStatements, pass_declare_rearranged h hd]
    simp only [bind, Except.bind, pass_assemble_code _ read', he₂]
    exact hp
  · rw [he] at he₁
    cases he₁

/-- Declarations may stand anywhere.  If the statements of two texts are rearrangements of each
other which keep the order of the code and the order within each kind of declaration, then one text
assembles if and only if the other one does, and to the same program. -/
theorem rearranged_assemble_iff {source source' : String} (hread : statements source = .ok read)
    (hread' : statements source' = .ok read')
    (h : Rearranged (read.map (·.words)) (read'.map (·.words))) (syms : Symbols) (p : Program) :
    assemble source syms = .ok p ↔ assemble source' syms = .ok p := by
  simp only [assemble, hread, hread']
  exact ⟨assembleStatements_rearranged h, assembleStatements_rearranged h.symm⟩

theorem exists_statements {source : String} {sts : List (List String)}
    (h : (statements source).toOption.map (·.map (·.words)) = some sts) :
    ∃ read, statements source = .ok read ∧ read.map (·.words) = sts := by
  obtain ⟨read, hread, hwords⟩ := Option.map_eq_some_iff.mp h
  exact ⟨read, eq_ok_of_toOption hread, hwords⟩

/-- A loop with the declarations of its names before it. -/
def declaredFirst : List (List String) :=
  [["#LOCAL_VARIABLE", "_n"], ["#GLOBAL_VARIABLE", "_g"], ["#LOCAL_VARIABLE", "_m"],
    ["#LABEL", "&l"], ["ADD", "int", "_n", "_g", "_m"], ["JMP", "bool", "-", "&l", "R0"]]

/-- The same with the declarations among the code. -/
def declaredLater : List (List String) :=
  [["#LABEL", "&l"], ["#LOCAL_VARIABLE", "_n"], ["ADD", "int", "_n", "_g", "_m"],
    ["#LOCAL_VARIABLE", "_m"], ["JMP", "bool", "-", "&l", "R0"], ["#GLOBAL_VARIABLE", "_g"]]

theorem rearranged_declaredLater : Rearranged declaredFirst declaredLater := by
  refine ⟨by decide, fun k => ?_⟩
  cases k with
  | info key => cases key <;> decide +kernel
  | _ => decide +kernel

/-- The names of the sum are declared before it or behind it. -/
theorem rearranged_assemble_iff_later :
    let first := "#LOCAL_VARIABLE _n; #GLOBAL_VARIABLE _g; #LOCAL_VARIABLE _m; #LABEL &l; " ++
      "ADD int _n _g _m; JMP bool - &l R0;"
    let later := "#LABEL &l; #LOCAL_VARIABLE _n; ADD int _n _g _m; #LOCAL_VARIABLE _m; " ++
      "JMP bool - &l R0; #GLOBAL_VARIABLE _g;"
    let syms : Symbols := { global? := fun name => if name = "_g" then some 3 else none }
    ((statements first).toOption.map (·.map (·.words)) = some declaredFirst ∧
      (statements later).toOption.map (·.map (·.words)) = some declaredLater ∧
      Rearranged declaredFirst declaredLater) ∧ (assemble first syms).toOption.isSome = true ∧
      ∀ p, assemble first syms = .ok p ↔ assemble later syms = .ok p := by
  intro first later syms
  have hfirst : (statements first).toOption.map (·.map (·.words)) = some declaredFirst := by
    decide +kernel
  have hlater : (statements later).toOption.map (·.map (·.words)) = some declaredLater := by
    decide +kernel
  refine ⟨⟨hfirst, hlater, rearranged_declaredLater⟩, by decide +kernel, fun p => ?_⟩
  obtain ⟨read, hread, hwords⟩ := exists_statements hfirst
  obtain ⟨read', hread', hwords'⟩ := exists_statements hlater
  exact rearranged_assemble_iff hread hread' (hwords ▸ hwords' ▸ rearranged_declaredLater) syms p

end Assembler

end VectorMachine
