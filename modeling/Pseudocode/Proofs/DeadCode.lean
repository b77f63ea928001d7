import Pseudocode.Proofs.Moved
import Pseudocode.Proofs.Parentheses

/-!
# What stands behind a `RETURN` is dead

A block is left at its first `RETURN`, whatever this evaluates to, so the statements behind it
never run. `Block.cut` drops them, in the program itself, in branches, in loops and in the bodies
of procedures, and what is left runs as the program did (`executeProgram_cut`).

The dropped statements never run, but the machine is not the same without them: procedures are
stored with their bodies. So the two runs are compared as programs that are alike, and alike blocks
may go on in any way behind a `RETURN`.
-/

namespace Pseudocode

/-! ## Cutting -/

/-- Is the statement a `RETURN`? -/
def Stmt.isReturn : Stmt → Bool
  | .returns _ => true
  | _ => false

mutual

/-- The statement with the blocks inside it cut. A `RETURN` itself stays as it is. -/
def Stmt.cut : Stmt → Stmt
  | .procedure name params body => .procedure name params (Block.cut body)
  | .assign target value => .assign target value
  | .ifThen condition thenBlock => .ifThen condition (Block.cut thenBlock)
  | .ifThenElse condition thenBlock elseBlock =>
      .ifThenElse condition (Block.cut thenBlock) (Block.cut elseBlock)
  | .repeatTimes count body => .repeatTimes count (Block.cut body)
  | .repeatUntil condition body => .repeatUntil condition (Block.cut body)
  | .forEach item list body => .forEach item list (Block.cut body)
  | .returns value => .returns value
  | .expression e => .expression e

/-- A block up to its first `RETURN`, and the blocks inside it as well. -/
def Block.cut : List Stmt → List Stmt
  | [] => []
  | s :: rest => s.cut :: if s.isReturn then [] else Block.cut rest

end

/-! ## Nothing is left behind a `RETURN` -/

/-- If a `RETURN` stands among these statements, it is the last of them. -/
def Block.ReturnsLast (block : Block) : Prop :=
  ∀ before s after, block = before ++ s :: after → s.isReturn = true → after = []

/-- The blocks that a statement holds, without those inside them. -/
def Stmt.blocks : Stmt → List Block
  | .procedure _ _ body => [body]
  | .ifThen _ thenBlock => [thenBlock]
  | .ifThenElse _ thenBlock elseBlock => [thenBlock, elseBlock]
  | .repeatTimes _ body => [body]
  | .repeatUntil _ body => [body]
  | .forEach _ _ body => [body]
  | _ => []

/-- Cutting neither makes a `RETURN` nor takes one away. -/
theorem Stmt.isReturn_cut (s : Stmt) : s.cut.isReturn = s.isReturn := by
  cases s <;> rfl

/-- Behind the cut a `RETURN` is the last statement of its block. -/
theorem Block.returnsLast_cut (block : Block) : Block.ReturnsLast (Block.cut block) := by
  induction block with
  | nil =>
      intro before s after hblock
      exact absurd hblock (by simp [Block.cut])
  | cons first rest ih =>
      intro before s after hblock hreturn
      rw [Block.cut] at hblock
      cases before with
      | nil =>
          -- this is the statement where the block was cut
          obtain ⟨rfl, hafter⟩ := List.cons.inj hblock
          rw [Stmt.isReturn_cut] at hreturn
          rw [if_pos hreturn] at hafter
          exact hafter.symm
      | cons s' before =>
          obtain ⟨rfl, htail⟩ := List.cons.inj hblock
          split at htail
          · exact absurd htail (by simp)
          · exact ih before s after htail hreturn

/-- No block of the statement goes on behind a `RETURN`. -/
def Stmt.Trimmed (s : Stmt) : Prop := ∀ block ∈ s.blocks, Block.ReturnsLast block

theorem Stmt.trimmed_cut (s : Stmt) : s.cut.Trimmed := by
  have hblocks : ∀ block ∈ s.cut.blocks, ∃ whole, block = Block.cut whole := by
    intro block hblock
    cases s with
    | ifThenElse condition thenBlock elseBlock =>
        rcases List.mem_cons.mp hblock with hthen | helse
        · exact ⟨thenBlock, hthen⟩
        · exact ⟨elseBlock, List.mem_singleton.mp helse⟩
    | assign target value => exact absurd hblock List.not_mem_nil
    | returns value => exact absurd hblock List.not_mem_nil
    | expression e => exact absurd hblock List.not_mem_nil
    | _ => exact ⟨_, List.mem_singleton.mp hblock⟩
  intro block hblock
  obtain ⟨whole, rfl⟩ := hblocks block hblock
  exact Block.returnsLast_cut whole

mutual

theorem Stmt.trimmed_parts_cut : ∀ s : Stmt, ∀ x ∈ s.cut.parts, x.Trimmed
  | .procedure name params body => by
      rw [Stmt.cut, Stmt.parts]
      exact List.forall_mem_cons.mpr ⟨Stmt.trimmed_cut (.procedure name params body),
        Block.trimmed_parts_cut body⟩
  | .assign target value => List.forall_mem_singleton.mpr (Stmt.trimmed_cut (.assign target value))
  | .ifThen condition thenBlock => by
      rw [Stmt.cut, Stmt.parts]
      exact List.forall_mem_cons.mpr ⟨Stmt.trimmed_cut (.ifThen condition thenBlock),
        Block.trimmed_parts_cut thenBlock⟩
  | .ifThenElse condition thenBlock elseBlock => by
      rw [Stmt.cut, Stmt.parts]
      exact List.forall_mem_cons.mpr ⟨Stmt.trimmed_cut (.ifThenElse condition thenBlock elseBlock),
        List.forall_mem_append.mpr ⟨Block.trimmed_parts_cut thenBlock,
          Block.trimmed_parts_cut elseBlock⟩⟩
  | .repeatTimes count body => by
      rw [Stmt.cut, Stmt.parts]
      exact List.forall_mem_cons.mpr ⟨Stmt.trimmed_cut (.repeatTimes count body),
        Block.trimmed_parts_cut body⟩
  | .repeatUntil condition body => by
      rw [Stmt.cut, Stmt.parts]
      exact List.forall_mem_cons.mpr ⟨Stmt.trimmed_cut (.repeatUntil condition body),
        Block.trimmed_parts_cut body⟩
  | .forEach item list body => by
      rw [Stmt.cut, Stmt.parts]
      exact List.forall_mem_cons.mpr ⟨Stmt.trimmed_cut (.forEach item list body),
        Block.trimmed_parts_cut body⟩
  | .returns value => List.forall_mem_singleton.mpr (Stmt.trimmed_cut (.returns value))
  | .expression e => List.forall_mem_singleton.mpr (Stmt.trimmed_cut (.expression e))

/-- So it is for all statements inside the block, at every depth. -/
theorem Block.trimmed_parts_cut : ∀ block : List Stmt,
    ∀ x ∈ Block.parts (Block.cut block), x.Trimmed
  | [] => fun _ hx => absurd hx List.not_mem_nil
  | s :: rest => by
      rw [Block.cut, Block.parts]
      refine List.forall_mem_append.mpr ⟨s.trimmed_parts_cut, ?_⟩
      split
      · exact fun _ hx => absurd hx List.not_mem_nil
      · exact Block.trimmed_parts_cut rest

end

/-! ## The two programs are alike -/

/-- An expression that is the same in both programs. -/
theorem Expr.like_self (e : Expr) : e.Like .sameErrors e := by
  have hlike : e.Like .sameErrors (e.mapTokens id) := by
    refine e.like_mapTokens fun x _ =>
      ⟨x.alike_mapTokens (fun _ => rfl) (fun _ => rfl) fun _ _ _ _ => trivial, ?_⟩
    rw [x.mapTokens_id]
    exact fun error error' hboth => hboth.eq_of_self
  rwa [e.mapTokens_id] at hlike

/-- The errors of a statement are about its operands, which stay as they are. -/
theorem Stmt.node_cut (s : Stmt) : s.Node .sameErrors s.cut := by
  refine ⟨?_, ?_⟩
  · cases s with
    | procedure name params body => exact ⟨⟨rfl, rfl⟩, trivial⟩
    | assign target value => rfl
    | forEach item list body => rfl
    | _ => exact trivial
  · intro error error' hboth
    generalize hx : s.cut = x at hboth
    cases hboth with
    | _ =>
        injection hx
        subst_vars
        rfl

mutual

theorem Stmt.like_cut : ∀ s : Stmt, s.Like .sameErrors s.cut
  | .procedure name params body =>
      .procedure (Stmt.node_cut (.procedure name params body)) (Block.like_cut body)
  | .assign target value => .assign (Stmt.node_cut (.assign target value)) value.like_self
  | .ifThen condition thenBlock =>
      .ifThen (Stmt.node_cut (.ifThen condition thenBlock)) condition.like_self
        (Block.like_cut thenBlock)
  | .ifThenElse condition thenBlock elseBlock =>
      .ifThenElse (Stmt.node_cut (.ifThenElse condition thenBlock elseBlock)) condition.like_self
        (Block.like_cut thenBlock)
        (Block.like_cut elseBlock)
  | .repeatTimes count body =>
      .repeatTimes (Stmt.node_cut (.repeatTimes count body)) count.like_self (Block.like_cut body)
  | .repeatUntil condition body =>
      .repeatUntil (Stmt.node_cut (.repeatUntil condition body)) condition.like_self
        (Block.like_cut body)
  | .forEach item list body =>
      .forEach (Stmt.node_cut (.forEach item list body)) list.like_self (Block.like_cut body)
  | .returns value => .returns value.like_self
  | .expression e => .expression e.like_self

/-- A program is like itself cut: behind the first `RETURN` alike blocks may differ. -/
theorem Block.like_cut : ∀ block : List Stmt, Block.Like .sameErrors block (Block.cut block)
  | [] => .nil
  | s :: rest => by
      rw [Block.cut]
      split
      next hreturn =>
        -- behind a `RETURN` the blocks may differ
        cases s with
        | returns value => exact .returns value.like_self
        | _ => exact absurd hreturn (by simp [Stmt.isReturn])
      next => exact .cons s.like_cut (Block.like_cut rest)

end

/--
**Code behind a `RETURN` is dead.**

Cut at the first `RETURN` of every block, at every depth, a program displays the same lines on a
fresh machine and ends with the same value, in the same error with the same span, or for lack of
fuel, however much fuel there is. After the cut nothing stands behind a `RETURN`, in the program
and in all blocks inside it.
-/
theorem executeProgram_cut (fuel : Nat) (program : Block) :
    (executeProgram fuel (Block.cut program)).outcome = (executeProgram fuel program).outcome
      ∧ Block.ReturnsLast (Block.cut program)
      ∧ ∀ s ∈ Block.parts (Block.cut program), ∀ block ∈ s.blocks, Block.ReturnsLast block :=
  ⟨(Outcome.like_of_program fuel (Block.like_cut program)).eq, Block.returnsLast_cut program,
    Block.trimmed_parts_cut program⟩

end Pseudocode
