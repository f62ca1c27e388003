import WasmLift.Proofs.Execution.Structure
import WasmLift.Proofs.Expansion.Frames

/-!
# Code that is never reached

Operators in dead code are passed over: a stretch of them that closes every construct it opens
leaves the state of a reconstruction as it is (`Builder.rebuildAll_balanced`), whatever the
operators in it are. So it can be cut out of a body, and nothing tells (`Expr.ofOperators_cut`).
-/

namespace WasmLift

/-- Every construct that is opened among the operators is closed among them, and an `else` stands
only inside an `if`: one among them, or one around them if `inIf` holds. All other operators stand
anywhere. -/
inductive Operator.Balanced : (inIf : Bool) → List Operator → Prop where
  | nil {inIf : Bool} : Balanced inIf []
  | plain {inIf : Bool} {op : Operator} {rest : List Operator} (plain : op.isPlain = true)
      (after : Balanced inIf rest) : Balanced inIf (op :: rest)
  | block {inIf : Bool} {type : BlockType} {inside rest : List Operator}
      (within : Balanced inIf inside) (after : Balanced inIf rest) :
      Balanced inIf (.block type :: (inside ++ .finish :: rest))
  | loop {inIf : Bool} {type : BlockType} {inside rest : List Operator}
      (within : Balanced inIf inside) (after : Balanced inIf rest) :
      Balanced inIf (.loop type :: (inside ++ .finish :: rest))
  | ifThen {inIf : Bool} {type : BlockType} {inside rest : List Operator}
      (within : Balanced true inside) (after : Balanced inIf rest) :
      Balanced inIf (.ifThen type :: (inside ++ .finish :: rest))
  | elseArm {rest : List Operator} (after : Balanced true rest) : Balanced true (.elseArm :: rest)

theorem Operator.Balanced.append {inIf : Bool} {xs ys : List Operator} (hx : Balanced inIf xs)
    (hy : Balanced inIf ys) : Balanced inIf (xs ++ ys) := by
  induction hx with
  | nil => exact hy
  | plain hplain _ ih => exact .plain hplain (ih hy)
  | block within _ _ ih => simpa using .block within (ih hy)
  | loop within _ _ ih => simpa using .loop within (ih hy)
  | ifThen within _ _ ih => simpa using .ifThen within (ih hy)
  | elseArm _ ih => exact .elseArm (ih hy)

namespace Instr

mutual

/-- The operators of an instruction are balanced. -/
theorem flatten_balanced (inIf : Bool) : ∀ i : Instr, Operator.Balanced inIf i.flatten
  | .plain op => .plain op.2 .nil
  | .block _ body => .block (flattenAll_balanced inIf body) .nil
  | .loop _ body => .loop (flattenAll_balanced inIf body) .nil
  | .ifThen _ body => .ifThen (flattenAll_balanced true body) .nil
  | .ifElse type body other => by
    have hinside :=
      (flattenAll_balanced true body).append (.elseArm (flattenAll_balanced true other))
    simpa [flatten] using Operator.Balanced.ifThen hinside (@Operator.Balanced.nil inIf)

theorem flattenAll_balanced (inIf : Bool) :
    ∀ is : List Instr, Operator.Balanced inIf (flattenAll is)
  | [] => .nil
  | i :: rest => (flatten_balanced inIf i).append (flattenAll_balanced inIf rest)

end

end Instr

namespace Builder

section
variable {scope : Scope} {b : Builder}

theorem rebuild_dead {op : Operator} (hb : b.isDead = true) :
    rebuild scope op b = (passOver op >>= fun closes =>
      if closes then rebuildLive scope op else pure ()) b := by
  rw [rebuild, bind_run (a := b) rfl, if_pos hb]

theorem rebuild_live {op : Operator} (hb : b.isDead = false) :
    rebuild scope op b = rebuildLive scope op b := by
  rw [rebuild, bind_run (a := b) rfl, hb]
  rfl

/-- The operators that end an arm or a construct are rebuilt in any case, unless they belong to a
construct that is passed over. -/
theorem rebuild_finish (hb : b.deadConstructs = 0) : rebuild scope .finish b = close b := by
  cases hdead : b.isDead with
  | false => exact rebuild_live hdead
  | true =>
    have hpass : passOver .finish b = .ok (true, b) := by
      rw [passOver, bind_run (a := b) rfl, hb]
      rfl
    rw [rebuild_dead hdead, bind_run hpass]
    rfl

theorem rebuild_else (hb : b.deadConstructs = 0) : rebuild scope .elseArm b = beginElse b := by
  cases hdead : b.isDead with
  | false => exact rebuild_live hdead
  | true =>
    have hpass : passOver .elseArm b = .ok (true, b) := by
      rw [passOver, bind_run (a := b) rfl, hb]
      rfl
    rw [rebuild_dead hdead, bind_run hpass]
    rfl

theorem rebuildAll_append (xs ys : List Operator) :
    rebuildAll scope (xs ++ ys) = rebuildAll scope xs >>= fun _ => rebuildAll scope ys := by
  induction xs with
  | nil => rw [List.nil_append, rebuildAll, pure_bind]
  | cons op xs ih => rw [List.cons_append, rebuildAll, rebuildAll, ih, bind_assoc]

theorem passOver_plain {op : Operator} (hop : op.isPlain = true) (hb : b.isDead = true) :
    rebuild scope op b = .ok ((), b) := by
  rw [rebuild_dead hb]
  cases op with
  | block | loop | ifThen | elseArm | finish => cases hop
  | _ => rfl

/-- The state inside a construct that is passed over. -/
def deeper (b : Builder) : Builder :=
  { b with deadConstructs := b.deadConstructs + 1 }

/-- A construct is passed over if what is inside it is. -/
theorem passOver_construct {op : Operator} {inside rest : List Operator}
    (hopen : rebuild scope op b = .ok ((), b.deeper))
    (hinside : rebuildAll scope inside b.deeper = .ok ((), b.deeper)) (hb : b.isDead = true) :
    rebuildAll scope (op :: (inside ++ .finish :: rest)) b = rebuildAll scope rest b := by
  have hfinish : rebuild scope .finish b.deeper = .ok ((), b) := rebuild_dead (b := b.deeper) hb
  rw [rebuildAll, bind_run hopen, rebuildAll_append, bind_run hinside, rebuildAll,
    bind_run hfinish]

/-- A balanced stretch of dead code leaves the state as it is. -/
theorem rebuildAll_balanced {inIf : Bool} {ops : List Operator} (h : Operator.Balanced inIf ops)
    (hb : b.isDead = true) (hin : inIf = true → b.deadConstructs ≠ 0) :
    rebuildAll scope ops b = .ok ((), b) := by
  induction h generalizing b with
  | nil => rfl
  | plain hplain _ ih =>
    rw [rebuildAll, bind_run (passOver_plain hplain hb)]
    exact ih hb hin
  | block _ _ ihInside ihRest | loop _ _ ihInside ihRest | ifThen _ _ ihInside ihRest =>
    have hinside := ihInside (b := b.deeper) hb (fun _ => Nat.succ_ne_zero _)
    rw [passOver_construct (rebuild_dead hb) hinside hb]
    exact ihRest hb hin
  | elseArm _ ih =>
    have hpass : rebuild scope .elseArm b = .ok ((), b) := by
      rw [rebuild_dead hb, passOver, bind_assoc, bind_run (a := b) rfl, pure_bind,
        beq_eq_false_iff_ne.2 (hin rfl)]
      rfl
    rw [rebuildAll, bind_run hpass]
    exact ih hb hin

/-- Instructions that are never reached are passed over. -/
theorem passOver_instrs (is : List Instr) (hb : b.isDead = true) :
    rebuildAll scope (Instr.flattenAll is) b = .ok ((), b) :=
  rebuildAll_balanced (Instr.flattenAll_balanced false is) hb (fun hin => by cases hin)

end

end Builder

/-- A balanced stretch of operators can be cut out where the innermost construct is dead, whatever
comes after it. The rest is rebuilt in the same state, so the body has the same tree, labels and
locals, or is refused for the same reason. -/
theorem Expr.ofOperators_cut {scope : Scope} {params locals : List Ty} {result : Ty}
    {before dead after : List Operator} {b : Builder}
    (hbefore : Builder.rebuildAll scope before (.start (params ++ locals) result) = .ok ((), b))
    (hdead : b.isDead = true) (hbalanced : Operator.Balanced false dead) :
    Builder.rebuildAll scope (before ++ dead ++ after) (.start (params ++ locals) result) =
        Builder.rebuildAll scope (before ++ after) (.start (params ++ locals) result) ∧
      ofOperators scope params locals result (before ++ dead ++ after) =
        ofOperators scope params locals result (before ++ after) := by
  have hpass : Builder.rebuildAll scope dead b = .ok ((), b) :=
    Builder.rebuildAll_balanced hbalanced hdead (fun hin => by cases hin)
  have hsame : Builder.rebuildAll scope (before ++ dead ++ after) (.start (params ++ locals) result) =
      Builder.rebuildAll scope (before ++ after) (.start (params ++ locals) result) := by
    rw [Builder.rebuildAll_append, Builder.rebuildAll_append, Builder.rebuildAll_append, bind_assoc,
      Builder.bind_run hbefore, Builder.bind_run hbefore, Builder.bind_run hpass]
  refine ⟨hsame, ?_⟩
  unfold ofOperators
  rw [StateT.run, StateT.run, hsame]

/-- A branch out of a block is followed by an operator that is not supported, by a branch to nowhere
inside an `if` with two arms, and by a loop. -/
theorem Expr.ofOperators_cut_branch :
    ∃ b, Builder.rebuildAll ⟨[], [], [], []⟩ [.block .empty, .br 0] (.start [] .i32) = .ok ((), b) ∧
      b.isDead = true ∧
      ofOperators ⟨[], [], [], []⟩ [] [] .i32
          ([.block .empty, .br 0] ++
            [.other "I8x16Splat" [], .ifThen .empty, .br 99, .elseArm, .loop .empty, .finish, .finish] ++
            [.finish, .const (.i32 7), .finish]) =
        .ok ([], .block none [.block (some ⟨1⟩) [.br ⟨1⟩ none none] .void, .const (.i32 7)] .i32) := by
  have harms : Operator.Balanced true [.br 99, .elseArm, .loop .empty, .finish] :=
    .plain rfl (.elseArm (@Operator.Balanced.loop true .empty [] [] .nil .nil))
  have hbalanced : Operator.Balanced false
      [.other "I8x16Splat" [], .ifThen .empty, .br 99, .elseArm, .loop .empty, .finish, .finish] :=
    .plain rfl (.ifThen harms .nil)
  exact ⟨_, rfl, rfl, (ofOperators_cut rfl rfl hbalanced).2⟩

end WasmLift
