import VectorMachine.Proofs.Accelerator.Cacheability
import VectorMachine.Proofs.Program.SelfContained

/-!
# Memories for assembled programs

Every assembled program can be given a memory, unless it asks for more cells than an allocation can
make: its pooled texts decode, and the operands of its own that it names are inside the memory.
-/

namespace VectorMachine
set_option autoImplicit false

open Literal (IsWord decodeImmediate)

namespace Memory

variable {s : Store} {greatest : Int} {layout : Layout} {globals : Array CellId}

/-- More cells than an allocation can make. -/
def Excessive (greatest : Int) : Prop := greatestAllocation < (greatest + 1) * referenceBytes

theorem extentSize_eq (h : -1 ≤ greatest) (hlt : greatest < 2 ^ 63 - 1) :
    (extentSize greatest : Int) = greatest + 1 := by
  rw [extentSize, wrap_of_lt (by omega) (by omega)]
  omega

theorem voidCells_cases (h : -1 ≤ greatest) (hlt : greatest < 2 ^ 63 - 1) :
    (∃ r, voidCells s greatest = .ok r) ∨
      voidCells s greatest = .error .oversized ∧ Excessive greatest := by
  have hwrap : wrap (greatest + 1) = greatest + 1 := wrap_of_lt (by omega) (by omega)
  simp only [voidCells, hwrap]
  split
  · exact .inl ⟨_, rfl⟩
  · split
    · rename_i hover
      exact .inr ⟨rfl, hover⟩
    · exact .inl ⟨_, rfl⟩

/-- An allocation whose texts decode succeeds, unless it makes too many cells. -/
theorem allocate_cases (hl : -1 ≤ layout.greatestLocal) (hl' : layout.greatestLocal < 2 ^ 63 - 1)
    (hr : -1 ≤ layout.greatestRegister) (hr' : layout.greatestRegister < 2 ^ 63 - 1)
    (h : ∀ text ∈ layout.immediates, ∃ v, decodeImmediate text = .ok v) :
    (∃ m t, allocate s layout globals = .ok (m, t)) ∨
      allocate s layout globals = .error (.abort .oversized) ∧
        (Excessive layout.greatestLocal ∨ Excessive layout.greatestRegister) := by
  unfold allocate
  rcases voidCells_cases (s := s) hl hl' with ⟨⟨ls, s₁⟩, h₁⟩ | ⟨h₁, hover⟩
  · rcases voidCells_cases (s := s₁) hr hr' with ⟨⟨rs, s₂⟩, h₂⟩ | ⟨h₂, hover⟩
    · obtain ⟨⟨cs, s₃⟩, h₃⟩ := exists_constantCells (s := s₂) h
      refine .inl ⟨{ globals := globals, locals := ls, constants := cs, registers := rs }, s₃, ?_⟩
      simp [h₁, h₂, h₃, Except.mapError]
    · refine .inr ⟨?_, .inr hover⟩
      simp [h₁, h₂, Except.mapError]
  · refine .inr ⟨?_, .inl hover⟩
    simp [h₁, Except.mapError]

end Memory

namespace Program

variable {p : Program}

theorem Pooled.length_immediates (h : p.Pooled) :
    p.immediates.length = p.constants.definitions.length :=
  Program.length_immediates h.dense

theorem Pooled.getElem?_immediates (h : p.Pooled) {a : Nat} {text : String} :
    p.immediates[a]? = some text ↔ p.constants.addr? text = some (a : Int) :=
  Program.getElem?_immediates h.faithful h.dense

theorem Pooled.decodes_immediate (h : p.Pooled) {text : String} (ht : text ∈ p.immediates) :
    ∃ v, decodeImmediate text = .ok v := by
  obtain ⟨a, ha⟩ := List.getElem?_of_mem ht
  exact h.decodes (text, _) (SymbolTable.mem_of_addr? (h.getElem?_immediates.mp ha))

theorem Pooled.nodup_immediates (h : p.Pooled) : p.immediates.Nodup := by
  rw [List.nodup_iff_injective_get]
  intro i j hij
  have hi := h.getElem?_immediates.mp (List.getElem?_eq_getElem i.2)
  have hj := h.getElem?_immediates.mp (List.getElem?_eq_getElem j.2)
  simp only [List.get_eq_getElem] at hij
  rw [hij, hj] at hi
  exact Fin.ext (Int.ofNat_inj.mp (Option.some.inj hi).symm)

/-- A memory with a cell for every address that a program names, each constant holding what its text
stands for. -/
structure Furnishes (p : Program) (m : Memory) (t : Store) : Prop where
  locals : (m.locals.size : Int) = p.greatestAddress .locals + 1
  registers : (m.registers.size : Int) = p.greatestAddress .registers + 1
  constants : m.constants.size = p.immediates.length
  holds : ∀ (a : Nat) (text : String), p.immediates[a]? = some text →
    ∃ c v, m.constants[a]? = some c ∧ decodeImmediate text = .ok v ∧ t.Holds c (some v)
  operands : ∀ z ∈ p.code, ∀ x ∈ z.operands, x.IsOwn → ∃ c, m.cell? x = some c
  notes : ∀ z ∈ p.code, z.note.part = .absent ∨
    z.note.part = .constants ∧ ∃ c, m.cell? z.note = some c
  result : p.result.part = .absent ∨ p.result.part = .globals ∨ ∃ c, m.cell? p.result = some c

/-- What an allocation for a well formed program gives. -/
theorem furnishes_of_allocate {s t : Store} {globals : Array CellId} {m : Memory} {src : String}
    {syms : Assembler.Symbols} (h : Assembler.assemble src syms = .ok p) (hs : s.Sound)
    (hg : ∀ c ∈ globals, c < s.cells.size)
    (hlocals : p.greatestAddress .locals < 2 ^ 63 - 1)
    (hregisters : p.greatestAddress .registers < 2 ^ 63 - 1)
    (hm : Memory.allocate s p.layout globals = .ok (m, t)) : p.Furnishes m t := by
  have hwf := Assembler.wellFormed_assemble h
  have ha := Memory.allocated hs hm
  let l : Launch := ⟨p, none, s, globals, m, t, #[]⟩
  have hl : l.Valid := ⟨⟨⟨src, syms, h⟩, hs, hg, hm⟩, by simp [l]⟩
  have hcell : ∀ {x : Operand}, x.IsOwn → p.Knows x → ∃ c, m.cell? x = some c := by
    intro x hx hk
    refine hl.exists_cell hx hk ?_
    rintro (hpart | hpart)
    · rw [hpart]
      exact hlocals
    · rw [hpart]
      exact hregisters
  refine ⟨?_, ?_, ?_, fun a text ht => ?_, fun z hz x hx hown => ?_, fun z hz => ?_, ?_⟩
  · rw [ha.locals_eq, Memory.size_consecutive]
    exact Memory.extentSize_eq hwf.declares.locals_ge hlocals
  · rw [ha.registers_eq, Memory.size_consecutive]
    exact Memory.extentSize_eq hwf.declares.registers_ge hregisters
  · rw [ha.constants_eq, Memory.size_consecutive]
    rfl
  · obtain ⟨vs, hvs, hholds⟩ := ha.values
    obtain ⟨v, hi, hv⟩ := Machine.exists_of_forall₂ hvs.flip ht
    refine ⟨_, v, ?_, hv, hholds a v hi⟩
    rw [ha.constants_eq, Memory.getElem?_consecutive]
    exact if_pos (List.getElem?_eq_some_iff.mp ht).1
  · exact hcell hown ((hwf.code z hz).knows x hx)
  · obtain ⟨hk, hpart⟩ := (hwf.code z hz).notes
    exact hpart.imp id fun hpart => ⟨hpart, hcell (.inr (.inr hpart)) hk⟩
  · have hk := hwf.knows_result
    cases hpart : p.result.part with
    | absent => exact .inl rfl
    | globals => exact .inr (.inl rfl)
    | locals => exact .inr (.inr (hcell (.inl hpart) hk))
    | registers => exact .inr (.inr (hcell (.inr (.inl hpart)) hk))
    | constants => exact .inr (.inr (hcell (.inr (.inr hpart)) hk))
    | stack | unknown => simp [Knows, hpart] at hk

/-- Assemble a text to fewer than 2^63 instructions with addresses below 2^63 - 1.  Then the
constant pool lists its texts without repetition at the addresses from zero on, and all of them
decode.  A memory for the program can be allocated, unless it has more cells than an allocation can
make; it has a cell for every local, constant and register that an instruction, a note or the result
names, and its constants hold what their texts stand for.  The registers are listed in ascending
order, exactly those that instructions name; every instruction has as many operands as its operation
admits; and looking up locals, labels and constants by name and by address undo each other. -/
theorem assembled_selfContained {src : String} {syms : Assembler.Symbols}
    (h : Assembler.assemble src syms = .ok p)
    (hsyms : ∀ n i, syms.function? n = some i → IsWord i) (hsize : p.code.size < 2 ^ 63)
    (hlocals : p.greatestAddress .locals < 2 ^ 63 - 1)
    (hregisters : p.greatestAddress .registers < 2 ^ 63 - 1) :
    (∀ a : Int, (∃ n, p.constants.addr? n = some a) ↔ 0 ≤ a ∧ a < p.immediates.length) ∧
    (∀ (a : Nat) (text : String),
      p.immediates[a]? = some text ↔ p.constants.addr? text = some (a : Int)) ∧
    p.immediates.Nodup ∧
    (∀ text ∈ p.immediates, ∃ v, decodeImmediate text = .ok v) ∧
    (∀ (s : Store) (globals : Array CellId), s.Sound → (∀ c ∈ globals, c < s.cells.size) →
      (∃ m t, Memory.allocate s p.layout globals = .ok (m, t) ∧ p.Furnishes m t) ∨
      Memory.allocate s p.layout globals = .error (.abort .oversized) ∧
        (Memory.Excessive (p.greatestAddress .locals) ∨
          Memory.Excessive (p.greatestAddress .registers))) ∧
    p.registers.Pairwise (· < ·) ∧
    (∀ r, r ∈ p.registers ↔ ∃ z ∈ p.code, (⟨.registers, r⟩ : Operand) ∈ z.operands) ∧
    (∀ z ∈ p.code, z.opcode.arity.admits z.operands.length = true) ∧
    ∀ t ∈ [p.locals, p.labels, p.constants], ∀ n ≠ "", ∀ a, t.addr? n = some a ↔ t.name a = n := by
  have hwf := Assembler.wellFormed_assemble h
  obtain ⟨hpool, hloc, hlab, -, hused⟩ := Assembler.collected_assemble h hsyms hsize
  refine ⟨fun a => ?_, fun a text => hpool.getElem?_immediates, hpool.nodup_immediates,
    fun text => hpool.decodes_immediate, fun s globals hs hg => ?_, hpool.ascending, hused,
    fun z hz => (hwf.code z hz).arity, fun t ht n hn a => ?_⟩
  · simp only [hpool.faithful.addr?_eq_some_iff, hpool.length_immediates]
    exact hpool.dense.mem_iff
  · have hcases : (∃ m t, Memory.allocate s p.layout globals = .ok (m, t)) ∨ _ :=
      Memory.allocate_cases hwf.declares.locals_ge hlocals hwf.declares.registers_ge hregisters
        fun text => hpool.decodes_immediate
    rcases hcases with ⟨m, t, hm⟩ | hover
    · exact .inl ⟨m, t, hm, furnishes_of_allocate h hs hg hlocals hregisters hm⟩
    · exact .inr hover
  · have hfaithful : t.Faithful := by
      simp only [List.mem_cons, List.not_mem_nil, or_false] at ht
      rcases ht with rfl | rfl | rfl
      · exact hloc
      · exact hlab
      · exact hpool.faithful
    exact hfaithful.addr?_iff_name hn

/-- A program that pools a note, an immediate, the address of a label and the index of a function. -/
def pooling : Program where
  code := #[
    { opcode := .nop, types := [.void], note := ⟨.constants, 0⟩ },
    { opcode := .callExternal, types := [.int],
      operands := [⟨.locals, 0⟩, ⟨.constants, 1⟩, ⟨.registers, 2⟩, ⟨.constants, 2⟩],
      note := ⟨.constants, 0⟩ },
    { opcode := .jump true, types := [.bool],
      operands := [Operand.absent, ⟨.constants, 3⟩, ⟨.registers, 1⟩], note := ⟨.constants, 0⟩ },
    { opcode := .finish, types := [.int], operands := [Operand.absent, ⟨.locals, 0⟩],
      note := ⟨.constants, 0⟩ }]
  locals := ⟨[("_x", 0)]⟩
  functions := ⟨[("_f", 3)]⟩
  labels := ⟨[("&go", 0)]⟩
  constants := ⟨[("~int:0", 3), ("~int:7", 2), ("~int:3", 1), ("~string:\"loop\"", 0)]⟩
  result := ⟨.locals, 0⟩
  extent := { locals := 0, constants := 3, registers := 2 }
  registers := [1, 2]

/-- Both registers of the program are listed, and a memory for it has three. -/
theorem assembled_selfContained_pooling :
    let src := "#LOCAL_VARIABLE _x; #GLOBAL_FUNCTION _f; #META \"loop\"; #LABEL &go;" ++
      "CALLX int _x _f R2 ~int:7; JMP bool - &go R1; END int - _x;"
    let syms : Assembler.Symbols := { function? := fun n => if n = "_f" then some 3 else none }
    Assembler.assemble src syms = .ok pooling ∧
      (∀ n i, syms.function? n = some i → IsWord i) ∧
      (∀ r, r ∈ [(1 : Int), 2] ↔
        ∃ z ∈ pooling.code, (⟨.registers, r⟩ : Operand) ∈ z.operands) ∧
      ∃ m t, Memory.allocate {} pooling.layout #[] = .ok (m, t) ∧ pooling.Furnishes m t := by
  intro src syms
  have hasm : Assembler.assemble src syms = .ok pooling :=
    eq_ok_of_toOption (by decide +kernel)
  have hsyms : ∀ n i, syms.function? n = some i → IsWord i := by
    intro n i hi
    simp only [syms, Option.ite_none_right_eq_some, Option.some.injEq] at hi
    obtain ⟨-, rfl⟩ := hi
    exact ⟨by decide, by decide⟩
  obtain ⟨-, -, -, -, halloc, -, hused, -⟩ :=
    assembled_selfContained hasm hsyms (by decide) (by decide) (by decide)
  refine ⟨hasm, hsyms, hused, ?_⟩
  rcases halloc {} #[] Store.sound_empty (by simp) with hok | ⟨hover, -⟩
  · exact hok
  · have hsome : (Memory.allocate {} pooling.layout #[]).toOption.isSome = true := by decide +kernel
    rw [hover] at hsome
    cases hsome

end Program

end VectorMachine
