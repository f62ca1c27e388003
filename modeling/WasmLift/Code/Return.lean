import WasmLift.Code.Basic

/-!
# The implicit return

The value of a function is that of its last statement with a value, which is therefore printed as a
return. A conditional with a value that cannot be printed as one expression passes the return on to
its arms.
-/

namespace WasmLift

namespace Code

mutual

/-- Returns the value of a node. In an arm of a conditional, an unlabeled block returns the value of
its last statement and a terminator stays as it is. -/
def returning (inArm : Bool) : Code → Code
  | .ite condition ifTrue (some ifFalse) true =>
    if ifTrue.isExpression && ifFalse.isExpression then
      .ret (some (.ite condition ifTrue (some ifFalse) true))
    else .ite condition (returning true ifTrue) (some (returning true ifFalse)) false
  | .block none children =>
    if inArm then .block none (returningLast children) else .block none children
  | node =>
    if inArm && node.isTerminator then node
    else if node.isExpression then .ret (some node)
    else node
termination_by structural node => node

/-- Returns the value of the last node, unless it is a terminator. -/
def returningLast : List Code → List Code
  | [] => []
  | [last] => [if last.isTerminator then last else returning false last]
  | node :: rest => node :: returningLast rest
termination_by structural nodes => nodes

end

/-- The position of the last statement with a value. -/
def lastValue? (statements : List (Code × Bool)) : Option Nat :=
  (statements.reverse.findIdx? (·.2)).map fun i => statements.length - 1 - i

/-- The statements, each given with whether it has a value, with the value of the function
returned. -/
def withReturn (returnsValue : Bool) (statements : List (Code × Bool)) : List Code :=
  let position := if returnsValue then lastValue? statements else none
  statements.zipIdx.map fun ((node, _), i) =>
    if some i = position then node.returning false else node

end Code

end WasmLift
