import Pseudocode.Proofs.Simulation
import Pseudocode.Proofs.Termination

/-!
# Loops at the top level

A `REPEAT UNTIL` asks its condition before each round. In a procedure the rounds can change the
answer, since they assign to the names of the procedure. At the top level they cannot: a round runs
in a scope below the root, and from there the root is never written. Nothing else that a condition
depends on can have changed either. Scopes of earlier rounds are gone, as many calls are under way
as before, and what was displayed is never looked at.

So a loop at the top level that begins its first round will not fall through any more. It can only
be left from the inside, by a `RETURN` or an error in the body, and otherwise goes on until the
fuel is used up, however much there is of it (`execute_repeatUntil_stuck`).
-/

namespace Pseudocode

open EvalM
open Machine (inChild Within)

variable {α : Type}

/-! ## Rounds -/

section Rounds

variable (finished : EvalM Bool) (body : EvalM Flow)

/-- Some rounds of a loop, from one machine to another. Each time the condition answers no, and the
body comes to its end. -/
inductive Rounds : Machine → Machine → Prop where
  | none (m : Machine) : Rounds m m
  | more {m asked next last : Machine} :
      finished m = .ok false asked → body asked = .ok .next next → Rounds next last → Rounds m last

/-- A loop that begins on the machine `m` ends in its body: after some rounds the condition answers
no once more, and the body returns or raises an error. -/
inductive EndsInBody (m : Machine) : EStateM.Result Halt Machine Flow → Prop where
  | returned {last asked after : Machine} {value : Value} :
      Rounds finished body m last → finished last = .ok false asked →
      body asked = .ok (.returned value) after →
      EndsInBody m (.ok (.returned value) after)
  | failed {last asked after : Machine} {e : Error} :
      Rounds finished body m last → finished last = .ok false asked →
      body asked = .error (.error e) after →
      EndsInBody m (.error (.error e) after)

end Rounds

variable {finished : EvalM Bool} {body : EvalM Flow}

/-- A round more at the beginning. -/
theorem EndsInBody.more {m asked next : Machine} {ending : EStateM.Result Halt Machine Flow}
    (hno : finished m = .ok false asked) (hbody : body asked = .ok .next next)
    (h : EndsInBody finished body next ending) : EndsInBody finished body m ending := by
  cases h with
  | returned hrounds hagain hreturns => exact .returned (.more hno hbody hrounds) hagain hreturns
  | failed hrounds hagain hfails => exact .failed (.more hno hbody hrounds) hagain hfails

/-- A loop that ends in its body does not fall through. -/
theorem EndsInBody.ne_next {m after : Machine} {ending : EStateM.Result Halt Machine Flow}
    (h : EndsInBody finished body m ending) : ending ≠ .ok .next after := by
  intro hnext
  subst hnext
  cases h

/-- A loop whose condition answers no goes on with its body. -/
theorem repeatUntil_of_no {m asked : Machine} (h : finished m = .ok false asked) (fuel : Nat) :
    repeatUntil finished body (fuel + 1) m =
      match body asked with
      | .ok .next next => repeatUntil finished body fuel next
      | .ok (.returned value) after => .ok (.returned value) after
      | .error halt after => .error halt after := by
  rw [repeatUntil, bind_of_ok h]
  show EStateM.bind body _ asked = _
  unfold EStateM.bind
  cases body asked with
  | error halt after => rfl
  | ok flow after => cases flow <;> rfl

theorem EvalM.exists_of_answer {step : EvalM α} {m : Machine} {a : α} (h : step.answer m = .ok a) :
    ∃ after, step m = .ok a after := by
  cases hrun : step m with
  | ok b after =>
      rw [answer_of_ok hrun] at h
      injection h with h
      exact ⟨after, by rw [h]⟩
  | error halt after =>
      rw [answer_of_error hrun] at h
      exact absurd h (by simp)

/-- If neither the condition nor the body leads out of machines where the condition never answers
yes, the loop is left in its body or not at all. -/
theorem repeatUntil_endsInBody {inv : Machine → Prop} (hfinished : finished.Preserves inv)
    (hbody : body.Preserves inv)
    (hno : ∀ m, inv m → finished.answer m = .ok false ∨ finished.answer m = .error .outOfFuel)
    (hhalts : ∀ m halt, body.answer m = .error halt → (∃ e, halt = .error e) ∨ halt = .outOfFuel)
    (fuel : Nat) {m : Machine} (hm : inv m) :
    (repeatUntil finished body fuel).answer m = .error .outOfFuel
      ∨ EndsInBody finished body m (repeatUntil finished body fuel m) := by
  induction fuel generalizing m with
  | zero => exact .inl rfl
  | succ fuel ih =>
      rcases hno m hm with hno | hfuel
      · obtain ⟨asked, hasked⟩ := exists_of_answer hno
        have hstep : repeatUntil finished body (fuel + 1) m = _ := repeatUntil_of_no hasked fuel
        have hinv : inv asked := after_of_ok hasked ▸ hfinished m hm
        cases hrun : body asked with
        | error halt after =>
            rw [hrun] at hstep
            rcases hhalts asked halt (answer_of_error hrun) with ⟨e, rfl⟩ | rfl
            · exact .inr (hstep ▸ .failed (.none m) hasked hrun)
            · exact .inl (answer_of_error hstep)
        | ok flow after =>
            rw [hrun] at hstep
            cases flow with
            | returned value => exact .inr (hstep ▸ .returned (.none m) hasked hrun)
            | next =>
                have hnext : inv after := after_of_ok hrun ▸ hbody asked hinv
                rcases ih hnext with hfuel | hends
                · left
                  unfold answer at hfuel ⊢
                  rw [hstep]
                  exact hfuel
                · right
                  rw [hstep]
                  exact hends.more hasked hrun
      · left
        cases hrun : finished m with
        | ok b after =>
            rw [answer_of_ok hrun] at hfuel
            exact absurd hfuel (by simp)
        | error halt after =>
            rw [answer_of_error hrun] at hfuel
            rw [repeatUntil, answer_of_error (bind_of_error hrun _), Except.error.inj hfuel]

/-! ## Conditions -/

/-- A condition does not depend on earlier output. -/
theorem evaluateCondition_alike (fuel : Nat) {m n : Machine} (hm : m.scopes.Rooted)
    (hscopes : m.scopes = n.scopes) (hdepth : m.depth = n.depth) (scope : ScopeId)
    (fault : Tag → TypeFault) (condition : Expr) :
    (evaluateCondition (.standard fuel) scope fault condition).Alike m n :=
  alike_of_simulates scope
    (simulates_condition (Context.simulation_withRule Scopes.same_simulation fuel) scope scope
      fault condition) hm hscopes
    hdepth

/-- A condition answers with more fuel what it answers with less. -/
theorem evaluateCondition_extends {fuel fuel' : Nat} (hfuel : fuel ≤ fuel') (scope : ScopeId)
    (fault : Tag → TypeFault) (condition : Expr) :
    EvalM.Extends (evaluateCondition (.standard fuel) scope fault condition)
      (evaluateCondition (.standard fuel') scope fault condition) := by
  have hcontext : Context.Extends (.standard fuel) (.standard fuel') :=
    Context.extends_layer Scopes.assign hfuel callLimit
  exact extends_bind (extends_evaluate hcontext scope condition) fun _ => Extends.refl _

/-- What a step answers with some fuel it answers with any fuel, unless it runs out of it. -/
theorem EvalM.answer_of_extends {step : Nat → EvalM α}
    (h : ∀ {fuel fuel'}, fuel ≤ fuel' → Extends (step fuel) (step fuel')) {m : Machine}
    {enough : Nat} {a : α} (henough : (step enough).answer m = .ok a) (fuel : Nat) :
    (step fuel).answer m = .ok a ∨ (step fuel).answer m = .error .outOfFuel := by
  rcases Nat.le_total fuel enough with hle | hle
  · rcases h hle m with hfuel | hsame
    · exact .inr hfuel
    · unfold answer at henough ⊢
      rw [hsame] at henough
      exact .inl henough
  · rcases h hle m with hfuel | hsame
    · rw [henough] at hfuel
      exact absurd hfuel (by simp)
    · unfold answer at henough ⊢
      rw [hsame]
      exact .inl henough

/-! ## Blocks -/

/-- Whatever is stored on the machine, a block that fails raises an error or runs out of fuel. -/
theorem executeBlock_halts (fuel : Nat) (block : Block) (scope : ScopeId) {m : Machine}
    {halt : Halt} (h : (executeBlock (.standard fuel) block scope).answer m = .error halt) :
    (∃ e, halt = .error e) ∨ halt = .outOfFuel := by
  let allowed : Halt → Prop := fun halt => (∃ e, halt = .error e) ∨ halt = .outOfFuel
  have hblocks : ∀ block : Block, Block.Confined allowed block := by
    intro block s hs
    refine ⟨fun halt hraises => ?_, fun e _ x _ error _ => .inl ⟨error, rfl⟩⟩
    exact (Block.Raises.statement hs hraises).error_or_endless.imp_right And.left
  have hcontext : Context.Confined allowed callLimit (.standard fuel) :=
    Context.confined_layer fuel (fun _ id name value hs => hs.assign id name value) callLimit
  have hends := keeps_executeBlock hcontext block scope (hblocks block) m
    ⟨fun _ _ p _ => hblocks p.body, Nat.le_add_left _ _⟩
  cases hrun : executeBlock (.standard fuel) block scope m with
  | ok flow after =>
      rw [answer_of_ok hrun] at h
      exact absurd h (by simp)
  | error found after =>
      rw [hrun] at hends
      rw [answer_of_error hrun] at h
      exact Except.error.inj h ▸ hends.2

/-- A block below a root leaves behind what it found, except for the lines it displayed. -/
theorem inChild_still {scope : ScopeId} {m : Machine} (hm : m.scopes.Rooted)
    (hscope : m.scopes.isRoot scope = true) (fuel : Nat) (block : Block) :
    (inChild scope fun inner => executeBlock (.standard fuel) block inner).Preserves
      (Within [] m) := by
  have hpath : m.scopes.path scope = [] := List.isEmpty_iff.mp hscope
  have hsub : (m.scopes.chain scope).dropLast ⊆ [] := by
    rw [Scopes.chain, hpath]
    exact List.nil_subset []
  exact writesBelow_inChild (executeBlock_writesFrom (Context.framed_standard fuel) block) m
    [] hm hsub

/--
**A loop at the top level does not stop by itself.**

In a root scope, as the global one is, let the condition of a `REPEAT UNTIL` evaluate to false when
the statement begins, with whatever fuel it takes. Then the statement does not fall through to the
next, however much fuel there is. It runs out of fuel, or it is left from the inside: after some
rounds that go through comes one in which the body returns or raises an error, and the loop ends as
the body does.
-/
theorem execute_repeatUntil_stuck {m : Machine} (hm : m.scopes.Rooted) {scope : ScopeId}
    (hscope : m.scopes.isRoot scope = true) {condition : Expr} {enough : Nat} {asked : Machine}
    (hfirst : evaluateCondition (.standard enough) scope .untilCondition condition m =
      .ok false asked)
    (body : Block) (fuel : Nat) :
    (∀ after, execute (.standard fuel) (.repeatUntil condition body) scope m ≠ .ok .next after)
      ∧ ((execute (.standard fuel) (.repeatUntil condition body) scope).answer m =
        .error .outOfFuel
        ∨ EndsInBody (evaluateCondition (.standard fuel) scope .untilCondition condition)
            (inChild scope fun inner => executeBlock (.standard fuel) body inner) m
            (execute (.standard fuel) (.repeatUntil condition body) scope m)) := by
  have hfinished :
      (evaluateCondition (.standard fuel) scope .untilCondition condition).Preserves
        (Within [] m) :=
    evaluateCondition_preserves (Context.framed_standard fuel) hm scope _ condition
  have hno : ∀ n, Within [] m n →
      (evaluateCondition (.standard fuel) scope .untilCondition condition).answer n = .ok false
      ∨ (evaluateCondition (.standard fuel) scope .untilCondition condition).answer n =
        .error .outOfFuel := by
    intro n hn
    -- such a machine differs in what it displayed, which no condition sees
    rw [←
      (evaluateCondition_alike fuel hm hn.scopes.eq.symm hn.depth.symm scope _ condition).answer]
    exact answer_of_extends (fun hle => evaluateCondition_extends hle scope _ condition)
      (answer_of_ok hfirst) fuel
  have hhalts :
      ∀ n halt, (inChild scope fun inner => executeBlock (.standard fuel) body inner).answer n =
        .error halt →
      (∃ e, halt = .error e) ∨ halt = .outOfFuel := by
    rintro ⟨scopes, depth, output⟩ halt hfails
    rw [answer_inChild] at hfails
    exact executeBlock_halts fuel body _ hfails
  have hends := repeatUntil_endsInBody hfinished (inChild_still hm hscope fuel body) hno hhalts
    (Context.standard fuel).fuel (Within.refl [] m)
  rw [execute]
  refine ⟨fun after hnext => ?_, hends⟩
  rcases hends with hfuel | hends
  · rw [answer_of_ok hnext] at hfuel
    exact absurd hfuel (by simp)
  · exact hends.ne_next hnext

/-- A machine with a global `done` that is false. -/
def withDone : Machine :=
  ⟨Machine.fresh.scopes.define Machine.global "done" (.value (.boolean false)), 0, #[]⟩

/-- The body of this loop assigns to the name that the condition asks for, and the loop goes on all
the same. -/
theorem execute_repeatUntil_stuck_done :
    withDone.scopes.Rooted ∧ ∀ fuel after,
      execute (.standard fuel) (.repeatUntil (.name ⟨"done", .identifier, 17⟩)
        [.assign ⟨"done", .identifier, 24⟩ (.literal ⟨"true", .truth, 31⟩)])
          Machine.global withDone
      ≠ .ok .next after := by
  have hrooted : withDone.scopes.Rooted := Scopes.rooted_fresh.define _ _ _
  have hfirst :
      evaluateCondition (.standard 0) Machine.global .untilCondition
        (.name ⟨"done", .identifier, 17⟩) withDone
      = .ok false withDone := rfl
  exact ⟨hrooted, fun fuel => (execute_repeatUntil_stuck hrooted rfl hfirst _ fuel).1⟩

end Pseudocode
