import VectorMachine.Assembler.Statement
import VectorMachine.Assembler.Error
import VectorMachine.Program.Basic

/-!
# Assembling programs

Assembly has two passes.  The first declares names and gives every label the address at which the
second pass will stand, so that a name may be used before its declaration.  The second emits the
instructions.
-/

namespace VectorMachine.Assembler
set_option autoImplicit false

/-- The addresses of names that are bound outside of a program. -/
structure Symbols where
  global? : String → Option Int := fun _ => none
  function? : String → Option Int := fun _ => none

inductive Directive where
  | localVariable | globalVariable | localFunction | globalFunction
  | label | note | comment
  | info (key : InfoKey)
  deriving DecidableEq, Repr

def Directive.ofWord? : String → Option Directive
  | "#LOCAL_VARIABLE" => some .localVariable
  | "#GLOBAL_VARIABLE" => some .globalVariable
  | "#LOCAL_FUNCTION" => some .localFunction
  | "#GLOBAL_FUNCTION" => some .globalFunction
  | "#LABEL" => some .label
  | "#META" => some .note
  | "#COMMENT" => some .comment
  | w => (InfoKey.all.find? (·.directive == w)).map .info

/-- The state of the first pass. -/
structure Declared where
  program : Program := {}
  /-- The address of the next instruction. -/
  next : Int := 0

/-- How many instructions a statement with this operation emits: a call is followed by the place
where it returns to. -/
def emittedCount (word : String) : Int := if word = Opcode.call.name then 2 else 1

/-- Text without its quotes and escapes if it is a string literal, else as it is. -/
def literalOr (s : String) : String :=
  match Literal.readText s with
  | .ok t => t
  | .error _ => s

def declareLocal (d : Declared) (name : String) : Except Cause Declared :=
  if name = "" then .error (.missing .localName)
  else if (d.program.locals.addr? name).isSome then .error (.duplicateLocal name)
  else
    let (addr, locals) := d.program.locals.intern name
    .ok { d with program := { d.program with locals := locals }.use ⟨.locals, addr⟩ }

def declareGlobal (syms : Symbols) (d : Declared) (name : String) : Except Cause Declared :=
  if name = "" then .error (.missing .globalName)
  else match syms.global? name with
    | none => .error (.unboundGlobal name)
    | some addr =>
      let globals := d.program.globals.define name addr
      .ok { d with program := { d.program with globals := globals }.use ⟨.globals, addr⟩ }

def declareFunction (syms : Symbols) (d : Declared) (name : String) : Except Cause Declared :=
  if name = "" then .error (.missing .functionName)
  else match syms.function? name with
    | none => .error (.unboundFunction name)
    | some index => .ok { d with program.functions := d.program.functions.define name index }

/-- A label is an ampersand and at least one more character. -/
def isLabelName (name : String) : Bool :=
  match name.toList with
  | '&' :: _ :: _ => true
  | _ => false

def declareLabel (d : Declared) (name : String) : Except Cause Declared :=
  if !isLabelName name then .error (.badLabel name)
  else if (d.program.labels.addr? name).isSome then .error (.duplicateLabel name)
  else .ok { program := { d.program with labels := d.program.labels.define name d.next },
             next := d.next + 1 }

/-- The first pass over one statement. -/
def declare (syms : Symbols) (d : Declared) (st : Statement) : Except Cause Declared :=
  let word := st.words.headD ""
  let name := st.words.tail.headD ""
  if !word.startsWith "#" then .ok { d with next := d.next + emittedCount word }
  else match Directive.ofWord? word with
    | some .localVariable => declareLocal d name
    | some .globalVariable => declareGlobal syms d name
    | some .globalFunction => declareFunction syms d name
    | some .localFunction =>
      if name = "" then .error (.missing .functionName)
      else .ok { d with program.localFunctions := d.program.localFunctions ++ [name] }
    | some .label => declareLabel d name
    | some (.info key) =>
      if name = "" then .error (.missing .value)
      else .ok { d with program.info := d.program.info.set key (literalOr name) }
    | some .note =>
      match Literal.readText name with
      | .ok _ => .ok d
      | .error e => .error (.note e)
    | some .comment => .ok d
    | none => .error (.unknownDirective word)

/-- The state of the second pass. -/
structure Emitted where
  program : Program
  /-- The constant of the last note. -/
  note : Operand := Operand.absent

/-- The address of an immediate in the constant pool. -/
def constant (p : Program) (text : String) : Operand × Program :=
  let (addr, constants) := p.constants.intern text
  let x : Operand := ⟨.constants, addr⟩
  (x, { p with constants := constants }.use x)

def integerImmediate (i : Int) : String := "~int:" ++ toString i

/-- The partition that an address letter names. -/
def addressedPartition? : Char → Option Partition
  | 'R' => some .registers
  | 'L' => some .locals
  | 'G' => some .globals
  | _ => none

def addressOperand (p : Program) (part : Partition) (w digits : String) :
    Except Cause (Operand × Program) :=
  match Binary64.readInt64? digits with
  | none => .error (.badAddress w)
  | some a =>
    if a.toInt < 0 then .error (.badAddress w)
    else
      let x : Operand := ⟨part, a.toInt⟩
      .ok (x, p.use x)

def immediateOperand (p : Program) (text : String) : Except Cause (Operand × Program) :=
  match Literal.decodeImmediate text with
  | .ok _ => .ok (constant p text)
  | .error e => .error (.immediate e)

/-- A name stands for a local, a global or the index of an external function, in this order. -/
def namedOperand (p : Program) (w : String) : Except Cause (Operand × Program) :=
  match p.locals.addr? w with
  | some a => .ok (⟨.locals, a⟩, p)
  | none => match p.globals.addr? w with
    | some a => .ok (⟨.globals, a⟩, p)
    | none => match p.functions.addr? w with
      | some i => .ok (constant p (integerImmediate i))
      | none => .error (.undefinedName w)

def labelOperand (p : Program) (w : String) : Except Cause (Operand × Program) :=
  match p.labels.addr? w with
  | some a => .ok (constant p (integerImmediate a))
  | none => .error (.undefinedLabel w)

/-- Resolves one operand word. -/
def operand (p : Program) (w : String) : Except Cause (Operand × Program) :=
  match w.toList with
  | '~' :: _ => immediateOperand p w
  | '#' :: cs => immediateOperand p (String.ofList ('~' :: cs))
  | '_' :: _ => namedOperand p w
  | '&' :: _ => labelOperand p w
  | ['-'] => .ok (Operand.absent, p)
  | c :: cs =>
    match addressedPartition? c with
    | some part => addressOperand p part w (String.ofList cs)
    | none => .error (.unrecognized w)
  | [] => .error (.unrecognized w)

def operands : Program → List String → Except Cause (List Operand × Program)
  | p, [] => .ok ([], p)
  | p, w :: ws => do
    let (x, p) ← operand p w
    let (xs, p) ← operands p ws
    .ok (x :: xs, p)

/-- Refuses to store into a constant and to share its data. -/
def checkWrites (x : Instruction) : Except Cause Unit :=
  match x.operands with
  | [] => .ok ()
  | d :: rest =>
    if x.opcode.writes ∧ d.part = .constants then .error (.constantDestination x.opcode d)
    else match rest with
      | s :: _ =>
        if (x.opcode = .refer ∨ x.opcode = .referElement) ∧ s.part = .constants then
          .error (.constantSource x.opcode s)
        else .ok ()
      | [] => .ok ()

def emit (e : Emitted) (x : Instruction) : Emitted :=
  { e with program.code := e.program.code.push { x with note := e.note } }

/-- The type names between colons. -/
def annotationNames : List Char → List String
  | [] => [""]
  | ':' :: cs => "" :: annotationNames cs
  | c :: cs =>
    match annotationNames cs with
    | [] => [c.toString]
    | name :: names => (c.toString ++ name) :: names

def annotation (name : String) : Except Cause DataType :=
  match DataType.ofName? name with
  | some t => .ok t
  | none => .error (.unknownType name)

def instruction (p : Program) (words : List String) : Except Cause (Instruction × Program) :=
  match words with
  | [] => .error (.unknownOpcode "")
  | word :: rest =>
    match Opcode.ofName? word with
    | none => .error (.unknownOpcode word)
    | some op =>
      match rest with
      | [] => .error (.missingType op)
      | types :: args => do
        let types ← (annotationNames types.toList).mapM annotation
        if op = .cast ∧ types.length ≠ 2 then .error .castTypes
        if !op.arity.admits args.length then .error (.operandCount op args.length)
        let (xs, p) ← operands p args
        let x : Instruction := { opcode := op, types := types, operands := xs }
        checkWrites x
        .ok (x, p)

/-- Appends an instruction, and what its operation asks for besides. -/
def emitInstruction (e : Emitted) (x : Instruction) : Emitted :=
  let e := emit e x
  let e := if x.opcode = .call then emit e (Instruction.landing Operand.absent) else e
  match x.opcode, x.operands with
  | .finish, _ :: result :: _ => { e with program.result := result }
  | _, _ => e

/-- The second pass over one statement. -/
def assembleStatement (e : Emitted) (st : Statement) : Except Cause Emitted :=
  let word := st.words.headD ""
  if word = "#META" then
    let (x, p) := constant e.program ("~string:" ++ st.words.tail.headD "")
    .ok { program := p, note := x }
  else if word = "#LABEL" then .ok (emit e (Instruction.landing Operand.absent))
  else if word.startsWith "#" then .ok e
  else do
    let (x, p) ← instruction e.program st.words
    .ok (emitInstruction { e with program := p } x)

/-- Runs a pass over all statements; an error names its statement. -/
def pass {σ : Type} (step : σ → Statement → Except Cause σ) :
    σ → List Statement → Except Error σ
  | x, [] => .ok x
  | x, st :: rest =>
    match step x st with
    | .ok y => pass step y rest
    | .error c => .error ⟨st.line, st.text, c⟩

def assembleStatements (syms : Symbols) (sts : List Statement) : Except Error Program := do
  let d ← pass (declare syms) {} sts
  let e ← pass assembleStatement { program := d.program } sts
  .ok e.program

/-- Assembles a program from its text. -/
def assemble (source : String) (syms : Symbols) : Except Error Program :=
  match statements source with
  | .error u => .error ⟨u.line, u.text, .unterminated⟩
  | .ok sts => assembleStatements syms sts

end VectorMachine.Assembler
