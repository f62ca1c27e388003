import WasmLift.Code.Dialect

/-!
# The plain dialect

Nothing is inferred: parameters, locals and globals are variables of their own, and every memory
access is a dereference of a typed pointer.
-/

namespace WasmLift

namespace Direct

/-- The variable of a parameter or local. -/
def lookup? (f : Function) (index : Nat) : Option Code :=
  if index < f.params.length then some (.param index)
  else if index < f.params.length + f.locals.length then some (.localVar index)
  else none

/-- The variable of a parameter or local, which has to exist. -/
def variableOf (f : Function) (index : Nat) : Walk Unit Code :=
  match lookup? f index with
  | some node => return node
  | none => throw (.malformed (.localIndex index))

/-- The plain dialect of a function. -/
def dialect (p : Program) (f : Function) : Dialect Unit where
  localGet := variableOf f
  localSet index value _ := do return .assign (← variableOf f index) value
  globalGet index := .globalVar (Walk.globalText p index)
  globalSet index value := .assign (.globalVar (Walk.globalText p index)) value
  const value := .const value none
  binary op left right := .binary op left right
  load address arg ty := return .deref address arg ty
  store address value ty arg := return .assign (.deref address arg ty) value

/-- The statements of a function in the plain dialect. -/
def statements (p : Program) (f : Function) : Except Cause (List Code) :=
  ((Walk.function p (dialect p f) f).run.run ()).1

end Direct

end WasmLift
