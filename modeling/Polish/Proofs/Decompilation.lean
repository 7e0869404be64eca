import Polish.Instruction

/-!
Which code is the code of a program.

Instructions keep account of the height of the stack: operands raise it, operators
need theirs on it, and a statement ends at height one.  Code with a correct account
can be read back, so it is the code of one program and of no other.
-/

namespace Polish

/-- The height of the stack after an instruction, unless the instruction may not
stand at the height before it. -/
def Instruction.height? (height : Nat) : Instruction → Option Nat
  | pushConst _ | load _ => some (height + 1)
  | binary _ => if 2 ≤ height then some (height - 1) else none
  | unary _ => if 1 ≤ height then some height else none
  | store _ | print => if height = 1 then some 0 else none

def Code.height? (height : Nat) (code : Code) : Option Nat :=
  code.foldlM Instruction.height? height

/-- What code has been read back to: whole statements, and after them expressions
that no statement has used yet, the last one on top. -/
structure Reading where
  statements : Program := []
  pending : List Expr := []

namespace Reading

/-- The code that has been read. -/
def code (reading : Reading) : Code :=
  Program.compile reading.statements ++ reading.pending.reverse.flatMap Expr.compile

def height (reading : Reading) : Nat :=
  reading.pending.length

/-- Ends a statement.  Its value must be all that is pending. -/
def finish (reading : Reading) (statement : Expr → Statement) : Option Reading :=
  match reading.pending with
  | [value] => some { statements := reading.statements ++ [statement value] }
  | _ => none

def read (reading : Reading) : Instruction → Option Reading
  | .pushConst value => some { reading with pending := .const value :: reading.pending }
  | .load name => some { reading with pending := .var name :: reading.pending }
  | .binary op =>
      match reading.pending with
      | right :: left :: pending =>
          some { reading with pending := .binary op left right :: pending }
      | _ => none
  | .unary op =>
      match reading.pending with
      | operand :: pending => some { reading with pending := .unary op operand :: pending }
      | _ => none
  | .store name => reading.finish (.assign name)
  | .print => reading.finish .print

def readAll (reading : Reading) (code : Code) : Option Reading :=
  code.foldlM read reading

theorem exists_of_finish {reading next : Reading} {statement : Expr → Statement}
    (h : reading.finish statement = some next) :
    ∃ value, reading.pending = [value] ∧
      next = { statements := reading.statements ++ [statement value] } := by
  simp only [finish] at h
  split at h
  · rename_i value hpending
    exact ⟨value, hpending, (Option.some.inj h).symm⟩
  · cases h

theorem code_of_read {reading next : Reading} {instruction : Instruction}
    (h : reading.read instruction = some next) :
    next.code = reading.code ++ [instruction] := by
  obtain ⟨statements, pending⟩ := reading
  cases instruction with
  | pushConst value | load name =>
      obtain rfl := Option.some.inj h
      simp [code, Expr.compile]
  | binary op =>
      rcases pending with _ | ⟨right, _ | ⟨left, pending⟩⟩
      · cases h
      · cases h
      · obtain rfl := Option.some.inj h
        simp [code, Expr.compile]
  | unary op =>
      rcases pending with _ | ⟨operand, pending⟩
      · cases h
      · obtain rfl := Option.some.inj h
        simp [code, Expr.compile]
  | store name | print =>
      obtain ⟨value, hpending, rfl⟩ := exists_of_finish h
      simp only at hpending
      simp [code, hpending, Program.compile, Statement.compile]

/-- An instruction can be read just at the heights at which it may stand. -/
theorem map_height_read (reading : Reading) (instruction : Instruction) :
    (reading.read instruction).map height = instruction.height? reading.height := by
  obtain ⟨statements, pending⟩ := reading
  cases instruction with
  | pushConst value | load name => rfl
  | binary op =>
      rcases pending with _ | ⟨right, _ | ⟨left, pending⟩⟩
      · rfl
      · rfl
      · simp [read, height, Instruction.height?]
  | unary op =>
      rcases pending with _ | ⟨operand, pending⟩
      · rfl
      · simp [read, height, Instruction.height?]
  | store name | print =>
      rcases pending with _ | ⟨value, _ | ⟨second, pending⟩⟩
      · rfl
      · rfl
      · simp [read, finish, height, Instruction.height?]

theorem readAll_cons (reading : Reading) (instruction : Instruction) (code : Code) :
    reading.readAll (instruction :: code) =
      (reading.read instruction).bind fun next => next.readAll code :=
  rfl

theorem readAll_append {reading middle : Reading} {first : Code}
    (h : reading.readAll first = some middle) (second : Code) :
    reading.readAll (first ++ second) = middle.readAll second := by
  rw [readAll] at h
  rw [readAll, List.foldlM_append, h]
  rfl

theorem code_of_readAll {reading last : Reading} {code : Code}
    (h : reading.readAll code = some last) : last.code = reading.code ++ code := by
  induction code generalizing reading with
  | nil =>
      obtain rfl := Option.some.inj h
      rw [List.append_nil]
  | cons instruction code ih =>
      rw [readAll_cons] at h
      obtain ⟨next, hread, hrest⟩ := Option.bind_eq_some_iff.mp h
      rw [ih hrest, code_of_read hread, List.append_assoc, List.singleton_append]

theorem map_height_readAll (reading : Reading) (code : Code) :
    (reading.readAll code).map height = code.height? reading.height := by
  induction code generalizing reading with
  | nil => rfl
  | cons instruction code ih =>
      have hstep := map_height_read reading instruction
      rw [readAll_cons, Code.height?, List.foldlM_cons, ← hstep]
      cases reading.read instruction with
      | none => rfl
      | some next => exact ih next

theorem readAll_compile_expr (e : Expr) (reading : Reading) :
    reading.readAll e.compile = some { reading with pending := e :: reading.pending } := by
  induction e generalizing reading with
  | const value => rfl
  | var name => rfl
  | binary op left right ihLeft ihRight =>
      rw [Expr.compile, List.append_assoc, readAll_append (ihLeft reading),
        readAll_append (ihRight _)]
      rfl
  | unary op operand ih =>
      rw [Expr.compile, readAll_append (ih reading)]
      rfl

theorem readAll_compile_statement (statement : Statement) (statements : Program) :
    ({ statements } : Reading).readAll statement.compile =
      some { statements := statements ++ [statement] } := by
  cases statement with
  | assign target value | print value =>
      rw [Statement.compile, readAll_append (readAll_compile_expr value _)]
      rfl

theorem readAll_compile (program statements : Program) :
    ({ statements } : Reading).readAll program.compile =
      some { statements := statements ++ program } := by
  induction program generalizing statements with
  | nil =>
      rw [List.append_nil]
      rfl
  | cons statement program ih =>
      rw [Program.compile_cons, readAll_append (readAll_compile_statement statement statements),
        ih, List.append_assoc, List.singleton_append]

end Reading

/-- The program that code was made from, if there is one. -/
def Code.decompile? (code : Code) : Option Program :=
  match ({} : Reading).readAll code with
  | some ⟨program, []⟩ => some program
  | _ => none

namespace Program

theorem decompile?_compile (program : Program) :
    Code.decompile? program.compile = some program := by
  rw [Code.decompile?, Reading.readAll_compile]
  rfl

theorem compile_of_decompile? {code : Code} {program : Program}
    (h : code.decompile? = some program) : program.compile = code := by
  rw [Code.decompile?] at h
  split at h
  · rename_i statements hread
    obtain rfl := Option.some.inj h
    have hcode := Reading.code_of_readAll hread
    simpa [Reading.code, compile] using hcode
  · cases h

theorem isSome_decompile?_iff {code : Code} :
    code.decompile?.isSome ↔ code.height? 0 = some 0 := by
  have hheight : (({} : Reading).readAll code).map Reading.height = code.height? 0 :=
    Reading.map_height_readAll {} code
  rw [← hheight, Code.decompile?]
  rcases ({} : Reading).readAll code with _ | ⟨statements, _ | ⟨e, pending⟩⟩
  · simp
  · simp [Reading.height]
  · simp [Reading.height]

theorem compile_injective : Function.Injective compile := by
  intro first second h
  have hread := congrArg Code.decompile? h
  rw [decompile?_compile, decompile?_compile] at hread
  exact Option.some.inj hread

/-- Code is the code of a program just when its account of the height of the
stack is correct and goes from zero to zero.  No two programs have the same code. -/
theorem exists_compile_iff_height (code : Code) :
    ((∃ program : Program, program.compile = code) ↔ code.height? 0 = some 0) ∧
      Function.Injective compile := by
  refine ⟨?_, compile_injective⟩
  rw [← isSome_decompile?_iff, Option.isSome_iff_exists]
  constructor
  · rintro ⟨program, rfl⟩
    exact ⟨program, decompile?_compile program⟩
  · rintro ⟨program, h⟩
    exact ⟨program, compile_of_decompile? h⟩

example : Code.height? 0 [.load "x", .load "y", .print, .print] = none := by decide

end Program

end Polish
