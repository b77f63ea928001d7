import Pseudocode.Interpreter
import Pseudocode.Proofs.Framing

/-!
# Running the same program twice

Two runs of the same program are compared: they start on machines that need not be equal, and may
follow different rules of assignment. When are they bound to answer alike and to display the same
lines?

It is enough to relate the stores. A relation `Q a b` holds between two stores as seen from a scope
`a` of the one and a scope `b` of the other; the two runs are in step when it makes names stand for
the same things, and when defining, assigning and opening a scope on both sides keeps it
(`AssignRule.Simulation`). Nothing about calls has to be shown but how they start: by framing, the
stores are again what they were when a call ends.

What was displayed before the two runs began is allowed to differ, and is never looked at. The
first use of the relation is therefore equality of stores: a run does not depend on earlier output
(`evaluate_alike`, `executeProgram_alike`).
-/

namespace Pseudocode

open Machine (fail ofExcept lookup updateScopes define emit inChild calling)
open Scopes (ChangedOnly)

variable {α β : Type}

namespace EvalM

/-! ## Steps in lockstep -/

/-- Two steps answer alike on related machines, and leave related machines behind. -/
def Simulates (x y : EvalM α) (R : Machine → Machine → Prop) : Prop :=
  ∀ m n, R m n → x.answer m = y.answer n ∧ R (x.after m) (y.after n)

variable {R : Machine → Machine → Prop}

theorem simulates_pure (a : α) : Simulates (pure a) (pure a) R := fun _ _ h => ⟨rfl, h⟩

theorem simulates_throw (halt : Halt) : Simulates (throw halt : EvalM α) (throw halt) R :=
  fun _ _ h => ⟨rfl, h⟩

/-- Steps one after another, which answer alike and so go on alike. -/
theorem simulates_bind {x y : EvalM α} {f g : α → EvalM β} (hstep : Simulates x y R)
    (hnext : ∀ a, Simulates (f a) (g a) R) : Simulates (x >>= f) (y >>= g) R := by
  intro m n h
  obtain ⟨hanswer, hafter⟩ := hstep m n h
  show EvalM.answer (EStateM.bind x f) m = EvalM.answer (EStateM.bind y g) n ∧
    R (EvalM.after (EStateM.bind x f) m) (EvalM.after (EStateM.bind y g) n)
  unfold answer after EStateM.bind
  unfold answer at hanswer
  unfold after at hafter
  -- equal answers: both steps have the same value and go on, or both fail alike
  cases hx : x m with
  | ok a m' =>
      cases hy : y n with
      | ok b n' =>
          rw [hx, hy] at hanswer hafter
          injection hanswer with hab
          subst hab
          exact hnext a m' n' hafter
      | error halt n' =>
          rw [hx, hy] at hanswer
          exact absurd hanswer (by simp)
  | error halt m' =>
      cases hy : y n with
      | ok b n' =>
          rw [hx, hy] at hanswer
          exact absurd hanswer (by simp)
      | error halt' n' =>
          rw [hx, hy] at hanswer hafter
          injection hanswer with hhalt
          subst hhalt
          exact ⟨rfl, hafter⟩

theorem simulates_ofExcept (result : Except Error α) :
    Simulates (ofExcept result) (ofExcept result) R := by
  cases result with
  | ok a => exact simulates_pure a
  | error e => exact simulates_throw _

theorem simulates_checkArity (name : String) (expected found : Nat) (span : Span) :
    Simulates (checkArity name expected found span) (checkArity name expected found span) R := by
  unfold checkArity
  split
  · exact simulates_pure ()
  · exact simulates_throw _

theorem simulates_continue {x y : EvalM Flow} (h : Simulates x y R) (flow : Flow) :
    Simulates
      (match flow with
        | .next => x
        | .returned value => pure (.returned value))
      (match flow with
        | .next => y
        | .returned value => pure (.returned value)) R := by
  cases flow with
  | next => exact h
  | returned value => exact simulates_pure _

theorem simulates_repeatTimes {x y : EvalM Flow} (hbody : Simulates x y R) (count : Nat) :
    Simulates (repeatTimes x count) (repeatTimes y count) R := by
  induction count with
  | zero => exact simulates_pure _
  | succ count ih =>
      unfold repeatTimes
      exact simulates_bind hbody (simulates_continue ih)

/-- A loop takes the same rounds on both sides. -/
theorem simulates_repeatUntil {finished finished' : EvalM Bool} {x y : EvalM Flow}
    (hfinished : Simulates finished finished' R) (hbody : Simulates x y R) (fuel : Nat) :
    Simulates (repeatUntil finished x fuel) (repeatUntil finished' y fuel) R := by
  induction fuel with
  | zero => exact simulates_throw _
  | succ fuel ih =>
      unfold repeatUntil
      refine simulates_bind hfinished fun done => ?_
      cases done with
      | true => exact simulates_pure _
      | false => exact simulates_bind hbody (simulates_continue ih)

theorem simulates_forEach {x y : Value → EvalM Flow}
    (hbody : ∀ value, Simulates (x value) (y value) R) (items : List Value) :
    Simulates (forEach x items) (forEach y items) R := by
  induction items with
  | nil => exact simulates_pure _
  | cons item rest ih =>
      unfold forEach
      exact simulates_bind (hbody item) (simulates_continue ih)

end EvalM

open EvalM

/-! ## Machines with related stores -/

/-- The machines `m` and `n` have related stores and equally many calls under way, and displayed
the same lines since the outputs were `pre₁` and `pre₂`. -/
structure Machine.Matches (Q : Scopes → Scopes → Prop) (pre₁ pre₂ : Array String)
    (m n : Machine) : Prop where
  scopes : Q m.scopes n.scopes
  depth : m.depth = n.depth
  output : ∃ lines, m.output = pre₁ ++ lines ∧ n.output = pre₂ ++ lines

open Machine (Matches)

variable {Q : Scopes → Scopes → Prop} {pre₁ pre₂ : Array String}

/-- A name is found on both sides or on neither. -/
theorem simulates_lookup {a b : ScopeId}
    (h : ∀ s t, Q s t → ∀ name, s.get? a name = t.get? b name) (name : Token) :
    Simulates (lookup a name) (lookup b name) (Matches Q pre₁ pre₂) := by
  intro m n hmn
  have hlookup : m.scopes.lookup a name = n.scopes.lookup b name := by
    unfold Scopes.lookup
    rw [h _ _ hmn.scopes]
  unfold answer after lookup
  rw [hlookup]
  cases n.scopes.lookup b name <;> exact ⟨rfl, hmn⟩

/-- A change of scopes on both sides that keeps the relation. -/
theorem simulates_updateScopes {f g : Scopes → Scopes} (h : ∀ s t, Q s t → Q (f s) (g t)) :
    Simulates (updateScopes f) (updateScopes g) (Matches Q pre₁ pre₂) :=
  fun _ _ hmn => ⟨rfl, h _ _ hmn.scopes, hmn.depth, hmn.output⟩

theorem simulates_emit (line : String) :
    Simulates (emit line) (emit line) (Matches Q pre₁ pre₂) := by
  rintro m n ⟨hscopes, hdepth, lines, hm, hn⟩
  refine ⟨rfl, hscopes, hdepth, lines.push line, ?_, ?_⟩
  · show m.output.push line = pre₁ ++ lines.push line
    rw [hm, Array.append_push]
  · show n.output.push line = pre₂ ++ lines.push line
    rw [hn, Array.append_push]

theorem simulates_respond (b : Builtin) (arguments : List Argument) :
    Simulates (respond b arguments) (respond b arguments) (Matches Q pre₁ pre₂) := by
  unfold respond
  split
  · exact simulates_bind (simulates_emit _) fun _ => simulates_pure _
  · exact simulates_pure _
  · exact simulates_throw _

/-- As many calls are under way on both sides, so both are refused or neither. -/
theorem simulates_calling {x y : EvalM α} (span : Span) (h : Simulates x y (Matches Q pre₁ pre₂)) :
    Simulates (calling span x) (calling span y) (Matches Q pre₁ pre₂) := by
  rintro ⟨s, depth, out₁⟩ ⟨t, depth', out₂⟩ ⟨hscopes, hdepth, houtput⟩
  obtain rfl : depth = depth' := hdepth
  by_cases hlimit : depth < callLimit
  · obtain ⟨hanswer, hafter⟩ := h ⟨s, depth + 1, out₁⟩ ⟨t, depth + 1, out₂⟩ ⟨hscopes, rfl, houtput⟩
    rw [answer_calling span x s out₁ hlimit, answer_calling span y t out₂ hlimit,
      after_calling span x s out₁ hlimit, after_calling span y t out₂ hlimit]
    exact ⟨hanswer, hafter.scopes, congrArg (· - 1) hafter.depth, hafter.output⟩
  · have hx := calling_of_le span x s out₁ (Nat.le_of_not_lt hlimit)
    have hy := calling_of_le span y t out₂ (Nat.le_of_not_lt hlimit)
    rw [answer_of_error hx, answer_of_error hy, after_of_error hx, after_of_error hy]
    exact ⟨rfl, hscopes, rfl, houtput⟩

/-- Two bodies, each run in a scope of its own. `hleave` may use that the bodies wrote only where
they may. -/
theorem simulates_inChild {a b : ScopeId} {x y : ScopeId → EvalM α}
    {Q' : ScopeId → ScopeId → Scopes → Scopes → Prop}
    (hrooted : ∀ s t, Q s t → s.Rooted ∧ t.Rooted)
    (henter : ∀ s t, Q s t → Q' s.size t.size (s.addChild a) (t.addChild b))
    (hx : ∀ id, (x id).WritesFrom id) (hy : ∀ id, (y id).WritesFrom id)
    (hbody : ∀ i j, Simulates (x i) (y j) (Matches (Q' i j) pre₁ pre₂))
    (hleave : ∀ s t s' t', Q s t → ChangedOnly ((s.addChild a).writable s.size) (s.addChild a) s' →
      ChangedOnly ((t.addChild b).writable t.size) (t.addChild b) t' → Q' s.size t.size s' t' →
      Q (s'.release s.size) (t'.release t.size)) :
    Simulates (inChild a x) (inChild b y) (Matches Q pre₁ pre₂) := by
  rintro ⟨s, depth, out₁⟩ ⟨t, depth', out₂⟩ ⟨hscopes, hdepth, houtput⟩
  obtain ⟨hs, ht⟩ := hrooted s t hscopes
  obtain ⟨hanswer, hafter⟩ :=
    hbody s.size t.size ⟨s.addChild a, depth, out₁⟩ ⟨t.addChild b, depth', out₂⟩
    ⟨henter s t hscopes, hdepth, houtput⟩
  -- each run by itself stays within the scopes it may write to, however it ends
  have hs' :=
    hx s.size ⟨s.addChild a, depth, out₁⟩ _ (hs.addChild a) (List.Subset.refl _) _
      (Machine.Within.refl _ _)
  have ht' :=
    hy t.size ⟨t.addChild b, depth', out₂⟩ _ (ht.addChild b) (List.Subset.refl _) _
      (Machine.Within.refl _ _)
  rw [answer_inChild, answer_inChild, after_inChild, after_inChild]
  exact ⟨hanswer, hleave s t _ _ hscopes hs'.scopes ht'.scopes hafter.scopes,
    hafter.depth, hafter.output⟩

/-! ## Programs in lockstep -/

/-- What has to be shown of a relation between stores for two rules of assignment to be
indistinguishable. -/
structure AssignRule.Simulation (Q : ScopeId → ScopeId → Scopes → Scopes → Prop)
    (left right : AssignRule) : Prop where
  framed_left : AssignRule.Framed left
  framed_right : AssignRule.Framed right
  rooted : ∀ {a b s t}, Q a b s t → s.Rooted ∧ t.Rooted
  get? : ∀ {a b s t}, Q a b s t → ∀ name, s.get? a name = t.get? b name
  define : ∀ {a b s t}, Q a b s t → ∀ name binding,
    Q a b (s.define a name binding) (t.define b name binding)
  assign : ∀ {a b s t}, Q a b s t → ∀ name value,
    Q a b (left s a name value) (right t b name value)
  /-- A block, or the body of a loop, begins. -/
  child : ∀ {a b s t}, Q a b s t → Q s.size t.size (s.addChild a) (t.addChild b)
  /-- It ends, and had written only where it may. -/
  leave : ∀ {a b s t s' t'}, Q a b s t →
    ChangedOnly ((s.addChild a).writable s.size) (s.addChild a) s' →
    ChangedOnly ((t.addChild b).writable t.size) (t.addChild b) t' →
    Q s.size t.size s' t' → Q a b (s'.release s.size) (t'.release t.size)
  /-- A procedure body begins. -/
  call : ∀ {a b s t}, Q a b s t →
    Q s.size t.size (s.addChild Machine.global) (t.addChild Machine.global)

/-- Two contexts with indistinguishable rules that run procedure bodies in lockstep. -/
structure Context.Simulation (Q : ScopeId → ScopeId → Scopes → Scopes → Prop)
    (c d : Context) : Prop where
  rules : AssignRule.Simulation Q c.assign d.assign
  left : c.Framed
  right : d.Framed
  fuel : c.fuel = d.fuel
  invoke : ∀ body a b pre₁ pre₂,
    Simulates (c.invoke body a) (d.invoke body b) (Matches (Q a b) pre₁ pre₂)

variable {Q : ScopeId → ScopeId → Scopes → Scopes → Prop} {c d : Context}

theorem simulates_define (h : Context.Simulation Q c d) (a b : ScopeId) (name : String)
    (binding : Binding) :
    Simulates (define a name binding) (define b name binding) (Matches (Q a b) pre₁ pre₂) :=
  simulates_updateScopes fun _ _ hst => h.rules.define hst name binding

theorem simulates_bindParams (h : Context.Simulation Q c d) (a b : ScopeId) (params : List Token)
    (values : List Value) :
    Simulates (bindParams a params values) (bindParams b params values)
      (Matches (Q a b) pre₁ pre₂) := by
  induction params generalizing values with
  | nil => exact simulates_pure ()
  | cons param params ih =>
      cases values with
      | nil => exact simulates_pure ()
      | cons value values =>
          unfold bindParams
          exact simulates_bind (simulates_define h a b _ _) fun _ => ih values

/-- What was written in the scope of a call is gone when the call ends. -/
theorem release_call {s s' : Scopes} (hs : s.Rooted)
    (h : ChangedOnly ((s.addChild Machine.global).writable s.size)
      (s.addChild Machine.global) s') :
    s'.release s.size = s := by
  rw [hs.writable_call] at h
  exact h.leave.eq

/-- A call. It starts in related scopes, and leaves the stores as they were. -/
theorem simulates_enter (h : Context.Simulation Q c d) (a b : ScopeId) (p : Procedure)
    (arguments : List Value) (span : Span) :
    Simulates (enter c p arguments span) (enter d p arguments span)
      (Matches (Q a b) pre₁ pre₂) := by
  unfold enter
  refine simulates_inChild (fun _ _ => h.rules.rooted) (fun _ _ => h.rules.call)
    (enter_writesFrom h.left p arguments span) (enter_writesFrom h.right p arguments span)
    (fun i j => ?_) ?_
  · refine simulates_bind (simulates_bindParams h i j _ _) fun _ => ?_
    exact simulates_bind (simulates_calling span (h.invoke p.body i j _ _))
      fun _ => simulates_pure _
  · -- nothing is left of what the bodies wrote, so it
    -- does not matter how the stores were related inside
    intro s t s' t' hst hs' ht' _
    obtain ⟨hs, ht⟩ := h.rules.rooted hst
    rw [release_call hs hs', release_call ht ht']
    exact hst

mutual

/-- **Expressions are evaluated in lockstep**, by induction on the expression. -/
theorem simulates_evaluate (h : Context.Simulation Q c d) (a b : ScopeId) :
    ∀ e : Expr, Simulates (evaluate c a e) (evaluate d b e) (Matches (Q a b) pre₁ pre₂)
  | .literal token => by
      unfold evaluate
      exact simulates_ofExcept _
  | .name token => by
      unfold evaluate
      refine simulates_bind (simulates_lookup (fun _ _ => h.rules.get?) token) fun binding => ?_
      cases binding with
      | value value => exact simulates_pure value
      | procedure p => exact simulates_throw _
      | builtin b => exact simulates_throw _
  | .unary operator operand => by
      unfold evaluate
      exact simulates_bind (simulates_evaluate h a b operand) fun _ => simulates_ofExcept _
  | .binary left operator right => by
      unfold evaluate
      refine simulates_bind (simulates_evaluate h a b left) fun _ => ?_
      exact simulates_bind (simulates_evaluate h a b right) fun _ => simulates_ofExcept _
  | .group inner => by
      unfold evaluate
      exact simulates_evaluate h a b inner
  | .list _ items _ => by
      unfold evaluate
      exact simulates_bind (simulates_evaluateAll h a b items) fun _ => simulates_pure _
  | .call callee arguments closing => by
      unfold evaluate
      refine simulates_bind (simulates_lookup (fun _ _ => h.rules.get?) callee) fun binding => ?_
      cases binding with
      | value value => exact simulates_throw _
      | procedure p =>
          refine simulates_bind (simulates_checkArity _ _ _ _) fun _ => ?_
          exact simulates_bind (simulates_evaluateAll h a b arguments)
            fun values => simulates_enter h a b p values _
      | builtin builtin =>
          refine simulates_bind (simulates_checkArity _ _ _ _) fun _ => ?_
          exact simulates_bind (simulates_evaluateAll h a b arguments)
            fun values => simulates_respond builtin _

theorem simulates_evaluateAll (h : Context.Simulation Q c d) (a b : ScopeId) :
    ∀ es : List Expr,
      Simulates (evaluateAll c a es) (evaluateAll d b es) (Matches (Q a b) pre₁ pre₂)
  | [] => by
      unfold evaluateAll
      exact simulates_pure _
  | e :: rest => by
      unfold evaluateAll
      refine simulates_bind (simulates_evaluate h a b e) fun _ => ?_
      exact simulates_bind (simulates_evaluateAll h a b rest) fun _ => simulates_pure _

end

theorem simulates_condition (h : Context.Simulation Q c d) (a b : ScopeId)
    (fault : Tag → TypeFault) (condition : Expr) :
    Simulates (evaluateCondition c a fault condition) (evaluateCondition d b fault condition)
      (Matches (Q a b) pre₁ pre₂) := by
  refine simulates_bind (simulates_evaluate h a b condition) fun value => ?_
  split
  · exact simulates_pure _
  · exact simulates_throw _

theorem simulates_count (h : Context.Simulation Q c d) (a b : ScopeId) (count : Expr) :
    Simulates (evaluateCount c a count) (evaluateCount d b count) (Matches (Q a b) pre₁ pre₂) := by
  refine simulates_bind (simulates_evaluate h a b count) fun value => ?_
  split
  · exact simulates_pure _
  · exact simulates_throw _

theorem simulates_items (h : Context.Simulation Q c d) (a b : ScopeId) (list : Expr) :
    Simulates (evaluateItems c a list) (evaluateItems d b list) (Matches (Q a b) pre₁ pre₂) := by
  refine simulates_bind (simulates_evaluate h a b list) fun value => ?_
  split
  · exact simulates_pure _
  · exact simulates_throw _

/-- A block in a scope of its own, on both sides. -/
theorem simulates_block (h : Context.Simulation Q c d) (a b : ScopeId) {x y : ScopeId → EvalM α}
    (hx : ∀ id, (x id).WritesFrom id) (hy : ∀ id, (y id).WritesFrom id)
    (hbody : ∀ i j, Simulates (x i) (y j) (Matches (Q i j) pre₁ pre₂)) :
    Simulates (inChild a x) (inChild b y) (Matches (Q a b) pre₁ pre₂) :=
  simulates_inChild (fun _ _ => h.rules.rooted) (fun _ _ => h.rules.child) hx hy hbody
    (fun _ _ _ _ => h.rules.leave)

mutual

/-- **Statements run in lockstep**, by induction on the statement. -/
theorem simulates_execute (h : Context.Simulation Q c d) :
    ∀ (stmt : Stmt) (a b : ScopeId),
      Simulates (execute c stmt a) (execute d stmt b) (Matches (Q a b) pre₁ pre₂)
  | .procedure name params body, a, b => by
      unfold execute
      exact simulates_bind (simulates_define h a b _ _) fun _ => simulates_pure _
  | .assign target value, a, b => by
      unfold execute
      refine simulates_bind (simulates_evaluate h a b value) fun result => ?_
      refine simulates_bind (simulates_updateScopes fun _ _ hst => ?_) fun _ => simulates_pure _
      exact h.rules.assign hst target.text result
  | .ifThen condition thenBlock, a, b => by
      unfold execute
      refine simulates_bind (simulates_condition h a b _ condition) fun holds => ?_
      split
      · exact simulates_block h a b (executeBlock_writesFrom h.left thenBlock)
          (executeBlock_writesFrom h.right thenBlock) (simulates_executeBlock h thenBlock)
      · exact simulates_pure _
  | .ifThenElse condition thenBlock elseBlock, a, b => by
      unfold execute
      refine simulates_bind (simulates_condition h a b _ condition) fun holds => ?_
      split
      · exact simulates_block h a b (executeBlock_writesFrom h.left thenBlock)
          (executeBlock_writesFrom h.right thenBlock) (simulates_executeBlock h thenBlock)
      · exact simulates_block h a b (executeBlock_writesFrom h.left elseBlock)
          (executeBlock_writesFrom h.right elseBlock) (simulates_executeBlock h elseBlock)
  | .repeatTimes count body, a, b => by
      unfold execute
      refine simulates_bind (simulates_count h a b count) fun rounds => ?_
      exact simulates_repeatTimes (simulates_block h a b (executeBlock_writesFrom h.left body)
        (executeBlock_writesFrom h.right body) (simulates_executeBlock h body)) rounds
  | .repeatUntil condition body, a, b => by
      unfold execute
      rw [h.fuel]
      exact simulates_repeatUntil (simulates_condition h a b _ condition)
        (simulates_block h a b (executeBlock_writesFrom h.left body)
          (executeBlock_writesFrom h.right body)
          (simulates_executeBlock h body)) d.fuel
  | .forEach item list body, a, b => by
      unfold execute
      refine simulates_bind (simulates_items h a b list) fun items => ?_
      refine simulates_forEach (fun value => ?_) items
      refine simulates_block h a b (fun i =>
        writesFrom_round item.text value (executeBlock_writesFrom h.left body i))
        (fun j => writesFrom_round item.text value (executeBlock_writesFrom h.right body j))
          fun i j => ?_
      exact simulates_bind (simulates_define h i j _ _) fun _ => simulates_executeBlock h body i j
  | .returns value, a, b => by
      unfold execute
      exact simulates_bind (simulates_evaluate h a b value) fun _ => simulates_pure _
  | .expression e, a, b => by
      unfold execute
      exact simulates_bind (simulates_evaluate h a b e) fun _ => simulates_pure _

theorem simulates_executeBlock (h : Context.Simulation Q c d) :
    ∀ (block : Block) (a b : ScopeId),
      Simulates (executeBlock c block a) (executeBlock d block b) (Matches (Q a b) pre₁ pre₂)
  | [], a, b => by
      unfold executeBlock
      exact simulates_pure _
  | stmt :: rest, a, b => by
      unfold executeBlock
      exact simulates_bind (simulates_execute h stmt a b)
        (simulates_continue (simulates_executeBlock h rest a b))

end

/-! ## Layers of calls -/

/-- Procedure bodies on any layer, by induction on the layers. -/
theorem simulates_runBody {left right : AssignRule} (h : AssignRule.Simulation Q left right)
    (fuel layers : Nat) (body : Block) (a b : ScopeId) (pre₁ pre₂ : Array String) :
    Simulates (runBody left fuel layers body a) (runBody right fuel layers body b)
      (Matches (Q a b) pre₁ pre₂) := by
  induction layers generalizing body a b pre₁ pre₂ with
  | zero => exact simulates_throw _
  | succ layers ih =>
      -- a body of this layer runs in a context whose calls are of the layer below
      have hcontext :
          Context.Simulation Q ⟨runBody left fuel layers, left, fuel⟩
            ⟨runBody right fuel layers, right, fuel⟩ :=
        ⟨h, ⟨h.framed_left, runBody_writesFrom h.framed_left fuel layers⟩,
          ⟨h.framed_right, runBody_writesFrom h.framed_right fuel layers⟩, rfl, ih⟩
      exact simulates_executeBlock hcontext body a b

/-- **Indistinguishable rules of assignment make indistinguishable contexts.** -/
theorem Context.simulation_withRule {left right : AssignRule}
    (h : AssignRule.Simulation Q left right) (fuel : Nat) :
    Context.Simulation Q (Context.withRule left fuel) (Context.withRule right fuel) :=
  ⟨h, framed_withRule h.framed_left fuel, framed_withRule h.framed_right fuel, rfl,
    simulates_runBody h fuel callLimit⟩

/-! ## Earlier output makes no difference -/

/-- The two stores, and the two scopes they are seen from, are the same. -/
def Scopes.Same (a b : ScopeId) (s t : Scopes) : Prop := a = b ∧ s = t ∧ s.Rooted

/-- Equal stores stay equal. -/
theorem Scopes.same_simulation :
    AssignRule.Simulation Scopes.Same Scopes.assign Scopes.assign where
  framed_left := Scopes.assign_changedOnly
  framed_right := Scopes.assign_changedOnly
  rooted := by
    rintro a b s t ⟨rfl, rfl, hs⟩
    exact ⟨hs, hs⟩
  get? := by
    rintro a b s t ⟨rfl, rfl, hs⟩ name
    rfl
  define := by
    rintro a b s t ⟨rfl, rfl, hs⟩ name binding
    exact ⟨rfl, rfl, hs.define a name binding⟩
  assign := by
    rintro a b s t ⟨rfl, rfl, hs⟩ name value
    exact ⟨rfl, rfl, hs.changed (Scopes.assign_changedOnly s a name value)⟩
  child := by
    rintro a b s t ⟨rfl, rfl, hs⟩
    exact ⟨rfl, rfl, hs.addChild a⟩
  leave := by
    rintro a b s t s' t' ⟨rfl, rfl, hs⟩ hs' ht' ⟨-, rfl, -⟩
    rw [Scopes.writable_addChild] at hs'
    exact ⟨rfl, rfl, hs.changed hs'.leave⟩
  call := by
    rintro a b s t ⟨rfl, rfl, hs⟩
    exact ⟨rfl, rfl, hs.addChild Machine.global⟩

/-- A step does the same on two machines: it answers alike, leaves equal scopes and as many calls
under way, and displays the same lines. -/
structure EvalM.Alike (step : EvalM α) (m n : Machine) : Prop where
  answer : step.answer m = step.answer n
  scopes : (step.after m).scopes = (step.after n).scopes
  depth : (step.after m).depth = (step.after n).depth
  output : ∃ lines, (step.after m).output = m.output ++ lines ∧
    (step.after n).output = n.output ++ lines

/-- A step in lockstep with itself does the same on two machines with equal stores. -/
theorem alike_of_simulates {step : EvalM α} {m n : Machine} (scope : ScopeId)
    (h : Simulates step step (Matches (Scopes.Same scope scope) m.output n.output))
    (hm : m.scopes.Rooted) (hscopes : m.scopes = n.scopes) (hdepth : m.depth = n.depth) :
    step.Alike m n := by
  obtain ⟨hanswer, hafter⟩ := h m n ⟨⟨rfl, hscopes, hm⟩, hdepth, #[], by simp, by simp⟩
  exact ⟨hanswer, hafter.scopes.2.1, hafter.depth, hafter.output⟩

/-- **Expressions do not depend on earlier output.** -/
theorem evaluate_alike (fuel : Nat) {m n : Machine} (hm : m.scopes.Rooted)
    (hscopes : m.scopes = n.scopes) (hdepth : m.depth = n.depth) (scope : ScopeId) (e : Expr) :
    (evaluate (.standard fuel) scope e).Alike m n :=
  alike_of_simulates scope
    (simulates_evaluate (Context.simulation_withRule Scopes.same_simulation fuel) scope scope e)
    hm hscopes hdepth

/-- **Programs do not depend on earlier output.** -/
theorem executeProgram_alike (fuel : Nat) {m n : Machine} (hm : m.scopes.Rooted)
    (hscopes : m.scopes = n.scopes) (hdepth : m.depth = n.depth) (program : Block) :
    (executeProgram fuel program).Alike m n := by
  refine alike_of_simulates Machine.global
    (simulates_bind ?_ fun _ => simulates_pure _) hm hscopes hdepth
  exact simulates_executeBlock (Context.simulation_withRule Scopes.same_simulation fuel)
    program _ _

end Pseudocode
