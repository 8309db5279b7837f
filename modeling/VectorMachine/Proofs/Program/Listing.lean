import VectorMachine.Proofs.Program.Lines

/-!
# A listing determines its program

The body of a listing is a sequence of sections, each with a title that no other one has and with
indented lines.  A section without contents is left out.  So two programs with the same body have
the same sections, line by line, and with them the same instructions, names, constants and result;
and so have two programs with the same hash, unless their bodies collide.
-/

namespace VectorMachine
set_option autoImplicit false

open Assembler (IsLexeme)

namespace Listing

/-- The sections of a listing, in the order in which they stand. -/
inductive Title where
  | info | code | labels | functions | globals | locals | constants | registers | result
  deriving DecidableEq

namespace Title

def all : List Title :=
  [.info, .code, .labels, .functions, .globals, .locals, .constants, .registers, .result]

def text : Title → List Char
  | .info => "## Info\n".toList
  | .code => "## Instructions\n".toList
  | .labels => "## Labels\n".toList
  | .functions => "## Functions\n".toList
  | .globals => "## Globals\n".toList
  | .locals => "## Locals\n".toList
  | .constants => "## Constants\n".toList
  | .registers => "## Registers\n".toList
  | .result => "## Result\n".toList

/-- A title is not indented. -/
theorem text_eq (t : Title) : ∃ r, t.text = '#' :: r := by
  cases t <;> exact ⟨_, rfl⟩

/-- No title begins another one. -/
theorem eq_of_prefix {s t : Title} (h : s.text <+: t.text) : s = t := by
  cases s <;> cases t <;> first | rfl | exact absurd h (by decide +kernel)

end Title

/-- What a section shows, if it is shown. -/
structure Section where
  shown : Bool
  lines : List Char

def Section.text (s : Section) (t : Title) : List Char := if s.shown then t.text ++ s.lines else []

variable {s s' : Title → Section} {t : Title} {ts : List Title} {x y : List Char}

/-- What sections begin with: nothing, or one of their titles. -/
theorem sections_begin (s : Title → Section) (ts : List Title) :
    (ts.flatMap fun t => (s t).text t) = [] ∨
      ∃ t ∈ ts, t.text <+: ts.flatMap fun t => (s t).text t := by
  induction ts with
  | nil => exact .inl rfl
  | cons t ts ih =>
    rw [List.flatMap_cons]
    cases hs : (s t).shown with
    | true =>
      refine .inr ⟨t, by simp, ?_⟩
      rw [Section.text, if_pos hs, List.append_assoc]
      exact List.prefix_append _ _
    | false =>
      rw [Section.text, if_neg (by simp [hs]), List.nil_append]
      rcases ih with h | ⟨t', ht', h⟩
      · exact .inl h
      · exact .inr ⟨t', List.mem_cons_of_mem t ht', h⟩

theorem stops_sections (s : Title → Section) (ts : List Title) :
    Stops (· = ' ') (ts.flatMap fun t => (s t).text t) := by
  rcases sections_begin s ts with hnil | ⟨t, -, r, hr⟩
  · rw [hnil]
    exact stops_nil
  · obtain ⟨u, hu⟩ := t.text_eq
    rw [← hr, hu]
    exact stops_cons (by decide)

/-- A title does not turn up where its section does not stand. -/
theorem ne_sections (s : Title → Section) (ht : t ∉ ts) :
    t.text ++ x ≠ ts.flatMap fun t => (s t).text t := by
  intro heq
  rcases sections_begin s ts with hnil | ⟨t', ht', hprefix⟩
  · obtain ⟨u, hu⟩ := t.text_eq
    rw [hnil, hu] at heq
    cases heq
  · rw [← heq] at hprefix
    rcases List.prefix_or_prefix_of_prefix (List.prefix_append t.text x) hprefix with hp | hp
    · exact ht (Title.eq_of_prefix hp ▸ ht')
    · exact ht (Title.eq_of_prefix hp ▸ ht')

/-- `C t` can be told from two sections with the title `t`. -/
structure Tells (s s' : Section) (C : Prop) : Prop where
  shown : ∀ {x y}, Stops (· = ' ') x → Stops (· = ' ') y → s.shown = true → s'.shown = true →
    s.lines ++ x = s'.lines ++ y → C ∧ x = y
  hidden : s.shown = false → s'.shown = false → C

/-- Two sequences of sections that are the same text agree title by title. -/
theorem sections_agree {C : Title → Prop} (h : ∀ t ∈ ts, Tells (s t) (s' t) (C t)) (hts : ts.Nodup)
    (heq : (ts.flatMap fun t => (s t).text t) = ts.flatMap fun t => (s' t).text t) :
    ∀ t ∈ ts, C t := by
  induction ts with
  | nil => simp
  | cons t ts ih =>
    obtain ⟨hnotin, hnodup⟩ := List.nodup_cons.mp hts
    have htell := h t (by simp)
    have hx := stops_sections s ts
    have hy := stops_sections s' ts
    simp only [List.flatMap_cons, Section.text] at heq
    -- the section is in both texts or in none, and the rest is the same
    suffices hC : C t ∧ (ts.flatMap fun t => (s t).text t) = ts.flatMap fun t => (s' t).text t by
      intro t' ht'
      rcases List.mem_cons.mp ht' with rfl | ht'
      · exact hC.1
      · exact ih (fun z hz => h z (by simp [hz])) hnodup hC.2 t' ht'
    cases hs : (s t).shown <;> cases hs' : (s' t).shown <;>
      simp only [hs, hs', if_true, Bool.false_eq_true, if_false, List.nil_append,
        List.append_assoc] at heq
    · exact ⟨htell.hidden hs hs', heq⟩
    · exact absurd heq.symm (ne_sections s hnotin)
    · exact absurd heq (ne_sections s' hnotin)
    · exact htell.shown hx hy hs hs' (List.append_cancel_left heq)

end Listing

open Listing

namespace SymbolTable

variable {t u : SymbolTable} {n : String} {a : Int}

theorem mem_entries : (n, a) ∈ t.entries ↔ t.addr? n = some a := by
  simp only [entries, List.mem_mergeSort, List.mem_filterMap, List.mem_eraseDups,
    Option.map_eq_some_iff, Prod.mk.injEq]
  constructor
  · rintro ⟨m, -, b, hb, rfl, rfl⟩
    exact hb
  · intro h
    exact ⟨n, List.mem_map_of_mem (mem_of_addr? h), a, h, rfl, rfl⟩

theorem addr?_eq_of_entries (h : t.entries = u.entries) (n : String) : t.addr? n = u.addr? n := by
  refine Option.ext fun a => ?_
  rw [← mem_entries, ← mem_entries, h]

theorem Spelled.entries (h : t.Spelled) : ∀ e ∈ t.entries, IsLexeme e.1 := by
  rintro ⟨n, a⟩ he
  exact h _ (mem_of_addr? (mem_entries.mp he))

theorem entries_of_isEmpty (h : t.isEmpty = true) : t.entries = [] := by
  have : t.definitions = [] := by simpa [isEmpty] using h
  simp [SymbolTable.entries, this]

end SymbolTable

namespace LanguageInfo

variable {i j : LanguageInfo}

theorem mem_entries {k : InfoKey} {v : String} : (k, v) ∈ i.entries ↔ i.get? k = some v := by
  have hall : k ∈ InfoKey.all := by cases k <;> decide
  simp only [entries, List.mem_filterMap, Option.map_eq_some_iff, Prod.mk.injEq]
  constructor
  · rintro ⟨k', -, v', hv, rfl, rfl⟩
    exact hv
  · intro h
    exact ⟨k, hall, v, h, rfl, rfl⟩

theorem eq_of_entries (h : i.entries = j.entries) : i = j := by
  have hget : ∀ k, i.get? k = j.get? k := by
    intro k
    refine Option.ext fun v => ?_
    rw [← mem_entries, ← mem_entries, h]
  cases i
  cases j
  cases (hget .assemblyIdentifier : _ = _)
  cases (hget .assemblyVersion : _ = _)
  cases (hget .scriptIdentifier : _ = _)
  cases (hget .scriptVersion : _ = _)
  rfl

end LanguageInfo

namespace Program

variable {p q : Program}

/-- The text of the only line about registers. -/
def registersText (p : Program) : String :=
  " ".intercalate (p.registers.map fun r => "R" ++ toString r)

def tableSection (mark : String) (t : SymbolTable) : Section :=
  ⟨!t.isEmpty, t.entries.flatMap (entryLine mark)⟩

/-- The constants with their addresses. -/
def pool (p : Program) : List (String × Int) := p.immediates.zipIdx.map fun (text, i) => (text, i)

/-- The sections of a program's listing. -/
def sections (p : Program) : Title → Section
  | .info => ⟨!p.info.entries.isEmpty, p.info.entries.flatMap infoLine⟩
  | .code => ⟨true, p.code.toList.zipIdx.flatMap (codeLine (toString p.code.size).length)⟩
  | .labels => tableSection "@" p.labels
  | .functions => tableSection "#" p.functions
  | .globals => tableSection "G" p.globals
  | .locals => tableSection "L" p.locals
  | .constants => ⟨!p.constants.isEmpty, p.pool.flatMap (entryLine "C")⟩
  | .registers => ⟨!p.registers.isEmpty, plainLine p.registersText⟩
  | .result => ⟨!p.result.isAbsent, plainLine p.result.text⟩

theorem tableLines_eq (title : Title) (name mark : String) (t : SymbolTable)
    (hname : ("## " ++ name ++ "\n").toList = title.text) :
    (tableLines name mark t).flatMap String.toList = (tableSection mark t).text title := by
  unfold tableLines tableSection Section.text
  cases t.isEmpty with
  | true => rfl
  | false =>
    simp only [Bool.false_eq_true, if_false, Bool.not_false, if_true, List.flatMap_cons, hname,
      List.flatMap_map]
    rfl

theorem toList_body (p : Program) :
    p.body.toList = Title.all.flatMap fun t => (p.sections t).text t := by
  have hinfo : p.infoLines.flatMap String.toList = (p.sections .info).text .info := by
    unfold infoLines sections Section.text
    cases p.info.entries.isEmpty with
    | true => rfl
    | false =>
      simp only [Bool.false_eq_true, if_false, Bool.not_false, if_true, List.flatMap_cons,
        List.flatMap_map]
      rfl
  have hcode : p.codeLines.flatMap String.toList = (p.sections .code).text .code := by
    simp only [codeLines, sections, Section.text, if_true, List.flatMap_cons, List.flatMap_map]
    rfl
  have hconstants : p.constantLines.flatMap String.toList =
      (p.sections .constants).text .constants := by
    unfold constantLines sections Section.text
    cases p.constants.isEmpty with
    | true => rfl
    | false =>
      simp only [Bool.false_eq_true, if_false, Bool.not_false, if_true, List.flatMap_cons,
        List.flatMap_map, pool]
      rfl
  have hregisters : p.registerLines.flatMap String.toList =
      (p.sections .registers).text .registers := by
    unfold registerLines sections Section.text
    cases p.registers.isEmpty with
    | true => rfl
    | false =>
      simp only [Bool.false_eq_true, if_false, Bool.not_false, if_true, List.flatMap_cons,
        List.flatMap_nil, List.append_nil, plainLine, String.toList_append, List.append_assoc,
        registersText]
      rfl
  have hresult : p.resultLines.flatMap String.toList = (p.sections .result).text .result := by
    unfold resultLines sections Section.text
    cases p.result.isAbsent with
    | true => rfl
    | false =>
      simp only [Bool.false_eq_true, if_false, Bool.not_false, if_true, List.flatMap_cons,
        List.flatMap_nil, List.append_nil, plainLine, String.toList_append, List.append_assoc]
      rfl
  rw [body, String.toList_join, bodyLines]
  simp only [List.flatMap_append, hinfo, hcode, hconstants, hregisters, hresult,
    tableLines_eq .labels "Labels" "@" p.labels rfl,
    tableLines_eq .functions "Functions" "#" p.functions rfl,
    tableLines_eq .globals "Globals" "G" p.globals rfl,
    tableLines_eq .locals "Locals" "L" p.locals rfl, Title.all, List.flatMap_cons, List.flatMap_nil,
    List.append_nil, List.append_assoc, sections]

/-- What each section tells of a program. -/
def Agrees (p q : Program) : Title → Prop
  | .info => p.info = q.info
  | .code => p.code = q.code
  | .labels => p.labels.entries = q.labels.entries
  | .functions => p.functions.entries = q.functions.entries
  | .globals => p.globals.entries = q.globals.entries
  | .locals => p.locals.entries = q.locals.entries
  | .constants => p.immediates = q.immediates
  | .registers => p.registersText = q.registersText
  | .result => p.result = q.result

theorem tells_table (mark : String) {t u : SymbolTable} (ht : t.Spelled) (hu : u.Spelled) :
    Tells (tableSection mark t) (tableSection mark u) (t.entries = u.entries) := by
  constructor
  · intro x y hx hy _ _ heq
    exact lines_cancel (separates_entryLine mark) (indented_entryLine mark)
      (indented_entryLine mark) ht.entries hu.entries hx hy heq
  · intro ht hu
    simp only [tableSection, Bool.not_eq_false'] at ht hu
    rw [SymbolTable.entries_of_isEmpty ht, SymbolTable.entries_of_isEmpty hu]

theorem tells_info (p q : Program) :
    Tells (p.sections .info) (q.sections .info) (p.info = q.info) := by
  constructor
  · intro x y hx hy _ _ heq
    obtain ⟨hentries, hxy⟩ := lines_cancel separates_infoLine indented_infoLine indented_infoLine
      (fun _ _ => trivial) (fun _ _ => trivial) hx hy heq
    exact ⟨LanguageInfo.eq_of_entries hentries, hxy⟩
  · intro hp hq
    simp only [sections, Bool.not_eq_false', List.isEmpty_iff] at hp hq
    exact LanguageInfo.eq_of_entries (hp.trans hq.symm)

theorem tells_code (hp : p.Legible) (hq : q.Legible) :
    Tells (p.sections .code) (q.sections .code) (p.code = q.code) := by
  have hcode : ∀ {r : Program}, r.Legible → ∀ e ∈ r.code.toList.zipIdx, e.1.Written :=
    fun hr e he => hr.code e.1 (Array.mem_toList_iff.mp (List.fst_mem_of_mem_zipIdx he))
  constructor
  · intro x y hx hy _ _ heq
    obtain ⟨hlist, hxy⟩ := lines_cancel (separates_codeLine _ _) (indented_codeLine _)
      (indented_codeLine _) (hcode hp) (hcode hq) hx hy heq
    refine ⟨Array.toList_inj.mp ?_, hxy⟩
    simpa only [List.zipIdx_map_fst] using congrArg (List.map Prod.fst) hlist
  · intro h
    cases h

theorem Legible.lexeme_pool (h : p.Legible) : ∀ e ∈ p.pool, IsLexeme e.1 := by
  intro e he
  obtain ⟨⟨text, i⟩, hmem, rfl⟩ := List.mem_map.mp he
  have hmem := List.fst_mem_of_mem_zipIdx hmem
  obtain ⟨a, ha⟩ := List.getElem?_of_mem hmem
  have haddr := (getElem?_immediates h.faithful h.dense).mp ha
  exact h.constants (text, (a : Int)) (SymbolTable.mem_of_addr? haddr)

theorem immediates_of_pool (h : p.pool = q.pool) : p.immediates = q.immediates := by
  have htexts : ∀ r : Program, r.pool.map Prod.fst = r.immediates := by
    intro r
    rw [pool, List.map_map]
    exact List.zipIdx_map_fst 0 r.immediates
  rw [← htexts, h, htexts]

theorem tells_constants (hp : p.Legible) (hq : q.Legible) :
    Tells (p.sections .constants) (q.sections .constants) (p.immediates = q.immediates) := by
  have hempty : ∀ {r : Program}, r.Legible → (r.sections .constants).shown = false →
      r.immediates = [] := by
    intro r hr h
    simp only [sections, Bool.not_eq_false', SymbolTable.isEmpty, List.isEmpty_iff] at h
    rw [← List.length_eq_zero_iff, length_immediates hr.dense, h, List.length_nil]
  constructor
  · intro x y hx hy _ _ heq
    obtain ⟨hpool, hxy⟩ := lines_cancel (separates_entryLine "C") (indented_entryLine "C")
      (indented_entryLine "C") hp.lexeme_pool hq.lexeme_pool hx hy heq
    exact ⟨immediates_of_pool hpool, hxy⟩
  · intro h h'
    rw [hempty hp h, hempty hq h']

theorem tells_registers (p q : Program) :
    Tells (p.sections .registers) (q.sections .registers) (p.registersText = q.registersText) := by
  constructor
  · intro x y _ _ _ _ heq
    exact plainLine_cancel (ne_lineFeed_registers _) (ne_lineFeed_registers _) heq
  · intro hp hq
    simp only [sections, Bool.not_eq_false', List.isEmpty_iff] at hp hq
    rw [registersText, registersText, hp, hq]

theorem tells_result (hp : p.Legible) (hq : q.Legible) :
    Tells (p.sections .result) (q.sections .result) (p.result = q.result) := by
  constructor
  · intro x y _ _ _ _ heq
    obtain ⟨htext, hxy⟩ := plainLine_cancel (fun d hd => (field_operand hp.result d hd).2)
      (fun d hd => (field_operand hq.result d hd).2) heq
    exact ⟨operand_text_injective hp.result hq.result htext, hxy⟩
  · intro h h'
    simp only [sections, Bool.not_eq_false'] at h h'
    rw [eq_absent hp.result h, eq_absent hq.result h']

theorem tells_sections (hp : p.Legible) (hq : q.Legible) (t : Title) :
    Tells (p.sections t) (q.sections t) (p.Agrees q t) := by
  cases t with
  | info => exact tells_info p q
  | code => exact tells_code hp hq
  | labels => exact tells_table "@" hp.labels hq.labels
  | functions => exact tells_table "#" hp.functions hq.functions
  | globals => exact tells_table "G" hp.globals hq.globals
  | locals => exact tells_table "L" hp.locals hq.locals
  | constants => exact tells_constants hp hq
  | registers => exact tells_registers p q
  | result => exact tells_result hp hq

/-- Legible programs with the same body agree in every section. -/
theorem Legible.agrees (hp : p.Legible) (hq : q.Legible) (h : p.body = q.body) (t : Title) :
    p.Agrees q t := by
  have hall : ∀ t, t ∈ Title.all := by
    intro t
    cases t <;> decide
  have heq := congrArg String.toList h
  rw [toList_body, toList_body] at heq
  exact sections_agree (fun t _ => tells_sections hp hq t) (by decide) heq t (hall t)

/-- The same content: instructions, constants, names and their addresses, information and result. -/
structure SameContent (p q : Program) : Prop where
  code : p.code = q.code
  immediates : p.immediates = q.immediates
  constants : ∀ text, p.constants.addr? text = q.constants.addr? text
  labels : ∀ name, p.labels.addr? name = q.labels.addr? name
  functions : ∀ name, p.functions.addr? name = q.functions.addr? name
  globals : ∀ name, p.globals.addr? name = q.globals.addr? name
  locals : ∀ name, p.locals.addr? name = q.locals.addr? name
  info : p.info = q.info
  result : p.result = q.result

/-- A text has the same address in pools that list the same texts. -/
theorem Legible.constants_eq (hp : p.Legible) (hq : q.Legible) (h : p.immediates = q.immediates)
    (text : String) : p.constants.addr? text = q.constants.addr? text := by
  have hnonneg : ∀ {r : Program}, r.Legible → ∀ {a}, r.constants.addr? text = some a → 0 ≤ a :=
    fun hr _ ha => (hr.dense.mem_iff.mp ⟨text, SymbolTable.mem_of_addr? ha⟩).1
  refine Option.ext fun a => ?_
  constructor
  · intro ha
    obtain ⟨i, rfl⟩ := Int.eq_ofNat_of_zero_le (hnonneg hp ha)
    have hi := (getElem?_immediates hp.faithful hp.dense).mpr ha
    exact (getElem?_immediates hq.faithful hq.dense).mp (h ▸ hi)
  · intro ha
    obtain ⟨i, rfl⟩ := Int.eq_ofNat_of_zero_le (hnonneg hq ha)
    have hi := (getElem?_immediates hq.faithful hq.dense).mpr ha
    exact (getElem?_immediates hp.faithful hp.dense).mp (h ▸ hi)

theorem Legible.sameContent (hp : p.Legible) (hq : q.Legible) (h : p.body = q.body) :
    p.SameContent q := by
  have hall := hp.agrees hq h
  have himmediates : p.immediates = q.immediates := hall .constants
  exact {
    code := hall .code
    immediates := himmediates
    constants := hp.constants_eq hq himmediates
    labels := SymbolTable.addr?_eq_of_entries (hall .labels)
    functions := SymbolTable.addr?_eq_of_entries (hall .functions)
    globals := SymbolTable.addr?_eq_of_entries (hall .globals)
    locals := SymbolTable.addr?_eq_of_entries (hall .locals)
    info := hall .info
    result := hall .result }

/-- The digests of two byte strings differ unless the strings are the same. -/
def NoCollision (a b : ByteArray) : Prop := Blake2b.digest a = Blake2b.digest b → a = b

/-- Assembled programs with the same listing have the same content, and so have those with the same
hash, provided that no two listings collide. -/
theorem content_of_listing {src src' : String} {syms syms' : Assembler.Symbols}
    (hp : Assembler.assemble src syms = .ok p) (hq : Assembler.assemble src' syms' = .ok q) :
    (p.body = q.body → p.SameContent q) ∧
      (NoCollision p.body.toUTF8 q.body.toUTF8 → p.hash = q.hash → p.SameContent q) := by
  have hlegible := Assembler.legible_assemble hp
  have hlegible' := Assembler.legible_assemble hq
  refine ⟨hlegible.sameContent hlegible', fun hcollision hhash => ?_⟩
  exact hlegible.sameContent hlegible' (String.toByteArray_inj.mp (hcollision hhash))

/-- A program with a name that looks like a section of a listing. -/
def headed : Program where
  code := #[
    { opcode := .move, types := [.int], operands := [⟨.locals, 0⟩, ⟨.constants, 0⟩] },
    { opcode := .finish, types := [.int], operands := [Operand.absent, ⟨.locals, 0⟩] }]
  locals := ⟨[("_\"\n## Constants\n  C0 \"", 0)]⟩
  constants := ⟨[("~int:1", 0)]⟩
  info := { assemblyVersion := some "1" }
  result := ⟨.locals, 0⟩
  extent := { locals := 0, constants := 0 }

/-- A function that is declared and not called leaves no trace in the listing. -/
theorem content_of_listing_headed :
    let src := "#ASSEMBLY_LANGUAGE_VERSION \"1\"; #LOCAL_VARIABLE _\"\n## Constants\n  C0 \";\n" ++
      "MOV int _\"\n## Constants\n  C0 \" ~int:1; END int - L0;"
    let src' := "#LOCAL_FUNCTION _f;" ++ src
    let other : Program := { headed with localFunctions := ["_f"] }
    Assembler.assemble src {} = .ok headed ∧ Assembler.assemble src' {} = .ok other ∧
      headed.body = other.body ∧ NoCollision headed.body.toUTF8 other.body.toUTF8 ∧
      headed.hash = other.hash ∧ headed ≠ other ∧ headed.SameContent other := by
  intro src src' other
  have hp : Assembler.assemble src {} = .ok headed := eq_ok_of_toOption (by decide +kernel)
  have hq : Assembler.assemble src' {} = .ok other := eq_ok_of_toOption (by decide +kernel)
  have hbody : headed.body = other.body := rfl
  have hcollision : NoCollision headed.body.toUTF8 other.body.toUTF8 := fun _ => rfl
  obtain ⟨-, hcontent⟩ := content_of_listing hp hq
  exact ⟨hp, hq, hbody, hcollision, rfl, by decide +kernel, hcontent hcollision rfl⟩

end Program

end VectorMachine
