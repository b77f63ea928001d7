import Pseudocode.Proofs.Simulation

/-!
# Sessions

In a session one program after another runs in the same global scope. A program may fail half way,
and the session goes on. What does the failed program leave behind?

Nothing is undone when a program fails, so the answer has to come from what the parts of a program
can write. At the top level only an assignment and a procedure definition write to the global
scope, and each does so as its last step, when nothing can fail any more. Every other statement
leaves the global scope alone, whatever runs inside it: expressions change no scope at all, and
blocks spare the root. The global scope is thus at all times what the declarations made of it that
completed, and a failing statement is as good as never tried, up to the lines it displayed.
-/

namespace Pseudocode

open EvalM
open Machine (Within)

/-! ## Expressions -/

/-- An expression changes no scope. -/
theorem evaluate_within (fuel : Nat) {m : Machine} (hm : m.scopes.Rooted) (scope : ScopeId)
    (e : Expr) :
    Within [] m ((evaluate (.standard fuel) scope e).after m) :=
  evaluate_preserves (Context.framed_standard fuel) hm scope e m (Within.refl [] m)

/-- On the machine `m` a step does nothing but display lines, and taken again right away it does
the same again. -/
structure EvalM.Repeatable {α : Type} (step : EvalM α) (m : Machine) : Prop where
  scopes : (step.after m).scopes = m.scopes
  depth : (step.after m).depth = m.depth
  answer : step.answer (step.after m) = step.answer m
  output : ∃ lines, (step.after m).output = m.output ++ lines ∧
    (step.after (step.after m)).output = m.output ++ lines ++ lines

/-- **Expressions change no scope, and repeat themselves**, whether they have a value or fail, and
whatever the procedures do that they call. Of the machine it is asked only that its global scope is
a root, which is so from the start of a session on (`Session.rooted`) and stays so inside blocks
and calls (`Scopes.Rooted.addChild`). -/
theorem evaluate_repeatable (fuel : Nat) {m : Machine} (hm : m.scopes.Rooted) (scope : ScopeId)
    (e : Expr) :
    (evaluate (.standard fuel) scope e).Repeatable m := by
  have hwithin := evaluate_within fuel hm scope e
  have hscopes := hwithin.scopes.eq
  have hagain := evaluate_alike fuel hm hscopes.symm hwithin.depth.symm scope e
  obtain ⟨lines, hfirst, hsecond⟩ := hagain.output
  refine ⟨hscopes, hwithin.depth, hagain.answer.symm, lines, hfirst, ?_⟩
  rw [hsecond, hfirst]

/-- The procedure `hide` assigns to the name of a global, and displays it. -/
def hide : Procedure :=
  ⟨⟨"hide", .identifier, 14⟩, [], [.assign ⟨"x", .identifier, 20⟩ (.literal ⟨"false", .truth, 28⟩),
    .expression (.call ⟨"DISPLAY", .identifier, 37⟩ [.name ⟨"x", .identifier, 39⟩]
      ⟨")", .closeParen, 40⟩)]⟩

/-- A machine with a global `x` and with `hide`. -/
def withHide : Machine :=
  ⟨(Machine.fresh.scopes.define Machine.global "x" (.value (.boolean true))).define
    Machine.global "hide"
    (.procedure hide), 0, #[]⟩

/-- A call of `hide` displays the value that it assigned, and yet leaves the global alone. -/
theorem evaluate_hide_repeatable :
    withHide.scopes.Rooted ∧
      (evaluate (.standard 0) Machine.global
        (.call hide.name [] ⟨")", .closeParen, 15⟩)).Repeatable withHide ∧
      ((evaluate (.standard 0) Machine.global (.call hide.name [] ⟨")", .closeParen, 15⟩)).after
        withHide).output = #["false"] := by
  have hrooted : withHide.scopes.Rooted := (Scopes.rooted_fresh.define _ _ _).define _ _ _
  exact ⟨hrooted, evaluate_repeatable 0 hrooted _ _, rfl⟩

/-! ## Statements at the top level -/

/-- The scopes after a statement at the top level has completed. Only declarations bind a name, and
an assignment binds it to the value that its right side has at that point. -/
def settleOne (fuel depth : Nat) (s : Scopes) : Stmt → Scopes
  | .procedure name params body =>
      s.define Machine.global name.text (.procedure ⟨name, params, body⟩)
  | .assign target value =>
    match (evaluate (.standard fuel) Machine.global value).answer ⟨s, depth, #[]⟩ with
    | .ok result => s.define Machine.global target.text (.value result)
    | .error _ => s
  | _ => s

/-- The scopes after declarations at the top level have completed. -/
def settle (fuel depth : Nat) (declarations : Block) (s : Scopes) : Scopes :=
  declarations.foldl (settleOne fuel depth) s

theorem settleOne_assign {fuel depth : Nat} {s : Scopes} {value : Expr} {result : Value}
    (h : (evaluate (.standard fuel) Machine.global value).answer ⟨s, depth, #[]⟩ = .ok result)
    (target : Token) :
    settleOne fuel depth s (.assign target value) =
      s.define Machine.global target.text (.value result) := by
  simp only [settleOne, h]

/-- A statement that declares nothing settles nothing. -/
theorem settleOne_of_not_declares {stmt : Stmt} (h : stmt.declares = false) (fuel depth : Nat)
    (s : Scopes) :
    settleOne fuel depth s stmt = s := by
  cases stmt with
  | procedure => exact absurd h (by simp [Stmt.declares])
  | assign => exact absurd h (by simp [Stmt.declares])
  | _ => rfl

/-- Declarations settle one after another. -/
theorem settle_filter_cons (fuel depth : Nat) (stmt : Stmt) (block : Block) (s : Scopes) :
    settle fuel depth ((stmt :: block).filter Stmt.declares) s =
      settle fuel depth (block.filter Stmt.declares) (settleOne fuel depth s stmt) := by
  cases hstmt : stmt.declares with
  | true =>
      rw [List.filter_cons_of_pos hstmt]
      rfl
  | false =>
      rw [List.filter_cons_of_neg (by simp [hstmt]), settleOne_of_not_declares hstmt]

/-- An assignment evaluates its right hand side first, and then writes. -/
theorem execute_assign (c : Context) (target : Token) (value : Expr) (scope : ScopeId)
    (m : Machine) :
    execute c (.assign target value) scope m =
      match evaluate c scope value m with
      | .ok result m' =>
          .ok .next ⟨c.assign m'.scopes scope target.text result, m'.depth, m'.output⟩
      | .error halt m' => .error halt m' := by
  unfold execute
  show EStateM.bind (evaluate c scope value) _ m = _
  unfold EStateM.bind
  cases evaluate c scope value m <;> rfl

/-- What a statement at the top level does to the scopes: it completes and settles, or it stops the
program and changes nothing. -/
theorem execute_global (fuel : Nat) {m : Machine} (hm : m.scopes.Rooted) (stmt : Stmt) :
    (∃ m', execute (.standard fuel) stmt Machine.global m = .ok .next m' ∧
      m'.scopes = settleOne fuel m.depth m.scopes stmt) ∨
    (∃ value m', execute (.standard fuel) stmt Machine.global m = .ok (.returned value) m' ∧
      m'.scopes = m.scopes) ∨
    (∃ halt m', execute (.standard fuel) stmt Machine.global m = .error halt m' ∧
      m'.scopes = m.scopes) := by
  cases hstmt : stmt.declares with
  | true =>
      cases stmt with
      | procedure name params body => exact .inl ⟨_, by unfold execute; rfl, rfl⟩
      | assign target value =>
          have hscopes := (evaluate_within fuel hm Machine.global value).scopes.eq
          rw [execute_assign]
          cases h : evaluate (.standard fuel) Machine.global value m with
          | error halt m' =>
              rw [after_of_error h] at hscopes
              exact .inr (.inr ⟨halt, m', rfl, hscopes⟩)
          | ok result m' =>
              rw [after_of_ok h] at hscopes
              refine .inl ⟨_, rfl, ?_⟩
              -- the value is the same on a machine that displayed nothing yet
              have halike :
                  (evaluate (.standard fuel) Machine.global value).Alike m
                    ⟨m.scopes, m.depth, #[]⟩ :=
                evaluate_alike fuel hm (by rfl) (by rfl) Machine.global value
              rw [settleOne_assign (halike.answer.symm.trans (answer_of_ok h)) target,
                ← hm.assign_global, ← hscopes]
              rfl
      | _ => exact absurd hstmt (by simp [Stmt.declares])
  | false =>
      -- seen from the global scope, there is no scope around a block that the block may write to
      have hsub : (m.scopes.chain Machine.global).dropLast ⊆ [] := by
        rw [hm.chain_global]
        exact List.nil_subset []
      have hscopes :=
        (execute_writesBelow (Context.framed_standard fuel) stmt hstmt
          Machine.global m [] hm hsub m
        (Within.refl [] m)).scopes.eq
      cases h : execute (.standard fuel) stmt Machine.global m with
      | error halt m' =>
          rw [after_of_error h] at hscopes
          exact .inr (.inr ⟨halt, m', rfl, hscopes⟩)
      | ok flow m' =>
          rw [after_of_ok h] at hscopes
          cases flow with
          | next =>
              exact .inl ⟨m', rfl,
                hscopes.trans (settleOne_of_not_declares hstmt fuel m.depth m.scopes).symm⟩
          | returned value => exact .inr (.inl ⟨value, m', rfl, hscopes⟩)

/-! ## Programs -/

/-- How a program goes on, from the machine `mid`, to its end: nothing is left of it, or its next
statement returns or fails. -/
inductive EndsIn (fuel : Nat) (mid : Machine) :
    Block → EStateM.Result Halt Machine (Option Value) → Prop where
  | complete : EndsIn fuel mid [] (.ok none mid)
  | returned {stmt : Stmt} {rest : Block} {value : Value} {m : Machine} :
      execute (.standard fuel) stmt Machine.global mid = .ok (.returned value) m →
      EndsIn fuel mid (stmt :: rest) (.ok (some value) m)
  | failed {stmt : Stmt} {rest : Block} {halt : Halt} {m : Machine} :
      execute (.standard fuel) stmt Machine.global mid = .error halt m →
      EndsIn fuel mid (stmt :: rest) (.error halt m)

theorem executeProgram_cons (fuel : Nat) (stmt : Stmt) (rest : Block) (m : Machine) :
    executeProgram fuel (stmt :: rest) m =
      match execute (.standard fuel) stmt Machine.global m with
      | .ok .next m' => executeProgram fuel rest m'
      | .ok (.returned value) m' => .ok (some value) m'
      | .error halt m' => .error halt m' := by
  unfold executeProgram
  rw [executeBlock]
  show EStateM.bind (EStateM.bind (execute (.standard fuel) stmt Machine.global) _) _ m = _
  unfold EStateM.bind
  cases execute (.standard fuel) stmt Machine.global m with
  | error halt m' => rfl
  | ok flow m' => cases flow <;> rfl

/-- A program changes the global scope and no other. -/
theorem executeProgram_within (fuel : Nat) (program : Block) {m : Machine} (hm : m.scopes.Rooted) :
    Within [Machine.global] m ((executeProgram fuel program).after m) := by
  have hblock :=
    executeBlock_writesFrom (Context.framed_standard fuel) program Machine.global m
      [Machine.global] hm
    (by rw [hm.writable_global]; exact List.Subset.refl _)
  exact preserves_bind hblock (fun _ => preserves_pure _) m (Within.refl _ m)

/-- A run of `program` on `m` splits: `front` completes and leaves `mid`, and in `rest` the run
ends. The scopes are then still those of `mid`, and these are what the declarations in `front` made
of the scopes of `m`. -/
structure Splits (fuel : Nat) (m : Machine) (program front rest : Block)
    (mid : Machine) : Prop where
  program_eq : program = front ++ rest
  front_completes : executeProgram fuel front m = .ok none mid
  rest_ends : EndsIn fuel mid rest (executeProgram fuel program m)
  scopes : ((executeProgram fuel program).after m).scopes = mid.scopes
  settled : mid.scopes = settle fuel m.depth (front.filter Stmt.declares) m.scopes

/-- Every run splits, by induction on the program. -/
theorem executeProgram_splits (fuel : Nat) (program : Block) {m : Machine} (hm : m.scopes.Rooted) :
    ∃ front rest mid, Splits fuel m program front rest mid := by
  induction program generalizing m with
  | nil => exact ⟨[], [], m, rfl, rfl, .complete, rfl, rfl⟩
  | cons stmt program ih =>
      have hrun := executeProgram_cons fuel stmt program m
      rcases execute_global fuel hm stmt with ⟨m', h, hscopes⟩ | ⟨value, m', h,
        hscopes⟩ | ⟨halt, m', h, hscopes⟩
      · -- the statement completes, and the rest of the program is split
        have hwithin :=
          execute_writesFrom (Context.framed_standard fuel) stmt Machine.global m
            [Machine.global] hm
          (by rw [hm.writable_global]; exact List.Subset.refl _) m (Within.refl _ m)
        rw [after_of_ok h] at hwithin
        obtain ⟨front, rest, mid, hrest⟩ := ih (hm.changed hwithin.scopes)
        rw [h] at hrun
        refine ⟨stmt :: front, rest, mid, ?_, ?_, ?_, ?_, ?_⟩
        · rw [hrest.program_eq, List.cons_append]
        · rw [executeProgram_cons, h]
          exact hrest.front_completes
        · rw [hrun]
          exact hrest.rest_ends
        · rw [← hrest.scopes]
          unfold after
          rw [hrun]
        · rw [hrest.settled, settle_filter_cons, hwithin.depth, hscopes]
      · rw [h] at hrun
        refine ⟨[], stmt :: program, m, rfl, rfl, ?_,
          (congrArg _ (after_of_ok hrun)).trans hscopes, rfl⟩
        rw [hrun]
        exact .returned h
      · rw [h] at hrun
        refine ⟨[], stmt :: program, m, rfl, rfl, ?_,
          (congrArg _ (after_of_error hrun)).trans hscopes, rfl⟩
        rw [hrun]
        exact .failed h

/-! ## Sessions -/

/-- The machines that a session can reach: programs run one after the other, each to its end or
until it fails. -/
inductive Session : Machine → Prop where
  | start : Session Machine.fresh
  | execute {m : Machine} (fuel : Nat) (program : Block) :
      Session m → Session ((executeProgram fuel program).after m)

/-- A session keeps its global scope. -/
theorem Session.rooted {m : Machine} (h : Session m) : m.scopes.Rooted := by
  induction h with
  | start => exact Scopes.rooted_fresh
  | execute fuel program _ ih => exact ih.changed (executeProgram_within fuel program ih).scopes

/-- **Statements at the top level are atomic.** In a session, a program completes a front part of
it and then ends, in the next statement or because none is left. The scopes it leaves are those
that the front part alone leaves, and depend only on the declarations there; as many calls are
under way as before; and whatever runs later in the session answers, changes and displays what it
would after the front part alone. -/
theorem executeProgram_atomic (fuel : Nat) {m : Machine} (hm : Session m) (program : Block) :
    ∃ front rest mid, Splits fuel m program front rest mid ∧
      ((executeProgram fuel program).after m).depth = m.depth ∧
      ∀ fuel' later,
      (executeProgram fuel' later).Alike ((executeProgram fuel program).after m) mid := by
  obtain ⟨front, rest, mid, hsplits⟩ := executeProgram_splits fuel program hm.rooted
  have hwithin := executeProgram_within fuel program hm.rooted
  have hmid := executeProgram_within fuel front hm.rooted
  rw [after_of_ok hsplits.front_completes] at hmid
  refine ⟨front, rest, mid, hsplits, hwithin.depth, fun fuel' later => ?_⟩
  exact executeProgram_alike fuel' (hm.rooted.changed hwithin.scopes) hsplits.scopes
    (hwithin.depth.trans hmid.depth.symm) later

/-- A program whose second statement is `IF (true) { x ← false y }`, where `y` stands for
nothing. -/
def failsInBranch : Block :=
  [.assign ⟨"x", .identifier, 1⟩ (.literal ⟨"true", .truth, 8⟩),
    .ifThen (.literal ⟨"true", .truth, 17⟩)
      [.assign ⟨"x", .identifier, 22⟩ (.literal ⟨"false", .truth, 30⟩),
        .expression (.name ⟨"y", .identifier, 36⟩)],
        .assign ⟨"x", .identifier, 40⟩ (.literal ⟨"false", .truth, 48⟩)]

/-- It fails after the assignment in the branch, and `x` keeps the value of the first statement. -/
theorem executeProgram_atomic_branch :
    Session Machine.fresh ∧
      (∃ front rest mid, Splits 0 Machine.fresh failsInBranch front rest mid ∧
        ((executeProgram 0 failsInBranch).after Machine.fresh).depth = Machine.fresh.depth ∧
        ∀ fuel' later, (executeProgram fuel' later).Alike
          ((executeProgram 0 failsInBranch).after Machine.fresh) mid) ∧
      (executeProgram 0 failsInBranch).answer Machine.fresh =
        .error (.error (.undefinedName ⟨"y", .identifier, 36⟩)) ∧
      ((executeProgram 0 failsInBranch).after Machine.fresh).scopes.getLocal? Machine.global "x" =
        some (.value (.boolean true)) :=
  ⟨.start, executeProgram_atomic 0 .start failsInBranch, rfl, rfl⟩

end Pseudocode
