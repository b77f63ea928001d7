import Pseudocode.Interpreter
import Pseudocode.Proofs.Scopes

/-!
# What evaluation leaves alone

An expression changes no scope, a statement changes only scopes that an assignment in its scope may
write to, and both leave the number of calls under way as they found it. This holds however they
end.

The three are one induction. An expression can call procedures, whose bodies are statements; what
saves it is that a body runs in a scope of its own, right below the global one, and that scope is
released when the call ends. A block in a loop or a branch is released in the same way, but its
scope lies below the scope of the statement, so that the block may still write to scopes around it.

Procedure bodies are run through the context. The induction on syntax assumes that the context
keeps bodies within their scope (`Context.Framed`), and a second induction, on the layers of calls,
provides it.
-/

namespace Pseudocode

open Machine (fail ofExcept lookup updateScopes define emit inChild calling)
open Scopes (ChangedOnly)

variable {α β : Type}

namespace EvalM

/-- The machine that a step leaves behind, whether it succeeds or fails. -/
def after (step : EvalM α) (m : Machine) : Machine :=
  match step m with
  | .ok _ m' => m'
  | .error _ m' => m'

/-- What a step answers. -/
def answer (step : EvalM α) (m : Machine) : Except Halt α :=
  match step m with
  | .ok a _ => .ok a
  | .error halt _ => .error halt

theorem after_of_ok {step : EvalM α} {m m' : Machine} {a : α} (h : step m = .ok a m') :
    step.after m = m' := by
  unfold after
  rw [h]

theorem after_of_error {step : EvalM α} {m m' : Machine} {halt : Halt}
    (h : step m = .error halt m') :
    step.after m = m' := by
  unfold after
  rw [h]

theorem answer_of_error {step : EvalM α} {m m' : Machine} {halt : Halt}
    (h : step m = .error halt m') :
    step.answer m = .error halt := by
  unfold answer
  rw [h]

theorem answer_of_ok {step : EvalM α} {m m' : Machine} {a : α} (h : step m = .ok a m') :
    step.answer m = .ok a := by
  unfold answer
  rw [h]

/-- The outcome of a program is what it displays and answers on a fresh machine. -/
theorem outcome_eq (step : EvalM (Option Value)) :
    step.outcome = ⟨(step.after Machine.fresh).output, step.answer Machine.fresh⟩ := by
  unfold outcome after answer
  cases step Machine.fresh <;> rfl

/-- Behind a step that succeeds, the next one runs on the machine that it left. -/
theorem bind_of_ok {step : EvalM α} {m m' : Machine} {a : α} (h : step m = .ok a m')
    (next : α → EvalM β) :
    (step >>= next : EvalM β) m = next a m' := by
  show EStateM.bind step next m = next a m'
  unfold EStateM.bind
  rw [h]

/-- Behind a step that fails nothing runs. -/
theorem bind_of_error {step : EvalM α} {m m' : Machine} {halt : Halt} (h : step m = .error halt m')
    (next : α → EvalM β) : (step >>= next : EvalM β) m = .error halt m' := by
  show EStateM.bind step next m = .error halt m'
  unfold EStateM.bind
  rw [h]

theorem answer_bind_of_ok {step : EvalM α} {m m' : Machine} {a : α} (h : step m = .ok a m')
    (next : α → EvalM β) :
    (step >>= next : EvalM β).answer m = (next a).answer m' := by
  unfold answer
  rw [bind_of_ok h]

theorem after_bind_of_ok {step : EvalM α} {m m' : Machine} {a : α} (h : step m = .ok a m')
    (next : α → EvalM β) :
    (step >>= next : EvalM β).after m = (next a).after m' := by
  unfold after
  rw [bind_of_ok h]

theorem inChild_apply (parent : ScopeId) (body : ScopeId → EvalM α) (scopes : Scopes) (depth : Nat)
    (output : Array String) :
    inChild parent body ⟨scopes, depth, output⟩ =
      match body scopes.size ⟨scopes.addChild parent, depth, output⟩ with
      | .ok a m => .ok a (m.release scopes.size)
      | .error halt m => .error halt (m.release scopes.size) := rfl

/-- A step in a scope of its own ends as the step itself does, less the scope. -/
theorem after_inChild (parent : ScopeId) (body : ScopeId → EvalM α) (scopes : Scopes) (depth : Nat)
    (output : Array String) :
    (inChild parent body).after ⟨scopes, depth, output⟩ =
      ((body scopes.size).after ⟨scopes.addChild parent, depth, output⟩).release scopes.size := by
  unfold after
  rw [inChild_apply]
  cases body scopes.size ⟨scopes.addChild parent, depth, output⟩ <;> rfl

/-- A scope of its own does not change what a step answers. -/
theorem answer_inChild (parent : ScopeId) (body : ScopeId → EvalM α) (scopes : Scopes)
    (depth : Nat) (output : Array String) :
    (inChild parent body).answer ⟨scopes, depth, output⟩ =
      (body scopes.size).answer ⟨scopes.addChild parent, depth, output⟩ := by
  unfold answer
  rw [inChild_apply]
  cases body scopes.size ⟨scopes.addChild parent, depth, output⟩ <;> rfl

/-- A call ends as its body does, one call higher. -/
theorem after_calling {depth : Nat} (span : Span) (body : EvalM α) (scopes : Scopes)
    (output : Array String) (h : depth < callLimit) :
    (calling span body).after ⟨scopes, depth, output⟩ =
      ⟨(body.after ⟨scopes, depth + 1, output⟩).scopes,
        (body.after ⟨scopes, depth + 1, output⟩).depth - 1,
        (body.after ⟨scopes, depth + 1, output⟩).output⟩ := by
  unfold after calling
  simp only [h, if_true]
  cases body ⟨scopes, depth + 1, output⟩ <;> rfl

/-- Below the limit, a call answers what its body does. -/
theorem answer_calling {depth : Nat} (span : Span) (body : EvalM α) (scopes : Scopes)
    (output : Array String) (h : depth < callLimit) :
    (calling span body).answer ⟨scopes, depth, output⟩ =
      body.answer ⟨scopes, depth + 1, output⟩ := by
  unfold answer calling
  simp only [h, if_true]
  cases body ⟨scopes, depth + 1, output⟩ <;> rfl

/-- At the limit of calls the body does not run. -/
theorem calling_of_le {depth : Nat} (span : Span) (body : EvalM α) (scopes : Scopes)
    (output : Array String) (h : callLimit ≤ depth) :
    calling span body ⟨scopes, depth, output⟩ =
      .error (.error (.recursionLimit span)) ⟨scopes, depth, output⟩ := by
  unfold calling
  simp only [Nat.not_lt.mpr h, if_false]

/-! ## Invariants of steps -/

/-- A step keeps an invariant, whether it succeeds or fails. -/
def Preserves (step : EvalM α) (inv : Machine → Prop) : Prop := ∀ m, inv m → inv (step.after m)

variable {inv : Machine → Prop}

theorem preserves_pure (a : α) : (pure a : EvalM α).Preserves inv := fun _ hm => hm

theorem preserves_throw (halt : Halt) : (throw halt : EvalM α).Preserves inv := fun _ hm => hm

/-- Steps one after another, each of which keeps the invariant. -/
theorem preserves_bind {step : EvalM α} {next : α → EvalM β} (hstep : step.Preserves inv)
    (hnext : ∀ a, (next a).Preserves inv) : (step >>= next : EvalM β).Preserves inv := by
  intro m hm
  have hafter := hstep m hm
  show inv (EvalM.after (EStateM.bind step next) m)
  unfold after EStateM.bind
  cases h : step m with
  | ok a m' =>
      rw [after_of_ok h] at hafter
      exact hnext a m' hafter
  | error halt m' =>
      rw [after_of_error h] at hafter
      exact hafter

theorem preserves_ofExcept (result : Except Error α) : (ofExcept result).Preserves inv := by
  cases result with
  | ok a => exact preserves_pure a
  | error e => exact preserves_throw _

theorem preserves_lookup (scope : ScopeId) (name : Token) : (lookup scope name).Preserves inv := by
  intro m hm
  unfold after lookup
  cases m.scopes.lookup scope name <;> exact hm

theorem preserves_checkArity (name : String) (expected found : Nat) (span : Span) :
    (checkArity name expected found span).Preserves inv := by
  unfold checkArity
  split
  · exact preserves_pure ()
  · exact preserves_throw _

/-- A loop goes on only where its body did not return. -/
theorem preserves_continue {next : EvalM Flow} (hnext : next.Preserves inv) (flow : Flow) :
    (match flow with
      | .next => next
      | .returned value => pure (.returned value) : EvalM Flow).Preserves inv := by
  cases flow with
  | next => exact hnext
  | returned value => exact preserves_pure _

theorem preserves_repeatTimes {body : EvalM Flow} (hbody : body.Preserves inv) (count : Nat) :
    (repeatTimes body count).Preserves inv := by
  induction count with
  | zero => exact preserves_pure _
  | succ count ih =>
      unfold repeatTimes
      exact preserves_bind hbody (preserves_continue ih)

/-- A loop keeps what its condition and its body keep, however many rounds there are. -/
theorem preserves_repeatUntil {finished : EvalM Bool} {body : EvalM Flow}
    (hfinished : finished.Preserves inv) (hbody : body.Preserves inv) (fuel : Nat) :
    (repeatUntil finished body fuel).Preserves inv := by
  induction fuel with
  | zero => exact preserves_throw _
  | succ fuel ih =>
      unfold repeatUntil
      refine preserves_bind hfinished fun done => ?_
      cases done with
      | true => exact preserves_pure _
      | false => exact preserves_bind hbody (preserves_continue ih)

theorem preserves_forEach {body : Value → EvalM Flow} (hbody : ∀ value, (body value).Preserves inv)
    (items : List Value) : (forEach body items).Preserves inv := by
  induction items with
  | nil => exact preserves_pure _
  | cons item rest ih =>
      unfold forEach
      exact preserves_bind (hbody item) (preserves_continue ih)

end EvalM

/-! ## Machines that differ in given scopes -/

/-- `m` differs from `m₀` in the bindings of the scopes in `ids` and in what it displayed, and in
nothing else. -/
structure Machine.Within (ids : List ScopeId) (m₀ m : Machine) : Prop where
  scopes : ChangedOnly ids m₀.scopes m.scopes
  depth : m.depth = m₀.depth

open EvalM
open Machine (Within)

variable {ids : List ScopeId} {m₀ : Machine}

theorem Machine.Within.refl (ids : List ScopeId) (m : Machine) : Within ids m m :=
  ⟨ChangedOnly.refl ids m.scopes, rfl⟩

/-- A step in the scope `id` that writes only where an assignment in that scope may write. -/
def EvalM.WritesFrom (step : EvalM α) (id : ScopeId) : Prop :=
  ∀ m₀ ids, m₀.scopes.Rooted → m₀.scopes.writable id ⊆ ids → step.Preserves (Within ids m₀)

/-- A step that, seen from the scope `id`, writes only where an assignment in a block below that
scope may write. The root is then spared even if it is `id`. -/
def EvalM.WritesBelow (step : EvalM α) (id : ScopeId) : Prop :=
  ∀ m₀ ids, m₀.scopes.Rooted → (m₀.scopes.chain id).dropLast ⊆ ids → step.Preserves (Within ids m₀)

theorem EvalM.WritesBelow.writesFrom {step : EvalM α} {id : ScopeId} (h : step.WritesBelow id) :
    step.WritesFrom id :=
  fun m₀ ids hm₀ hsub => h m₀ ids hm₀ (List.Subset.trans (Scopes.chain_dropLast_subset _ _) hsub)

/-- A change of scopes that stays within the given ones. -/
theorem preserves_updateScopes {change : Scopes → Scopes}
    (h : ∀ s, ChangedOnly ids m₀.scopes s → ChangedOnly ids s (change s)) :
    (updateScopes change).Preserves (Within ids m₀) :=
  fun m hm => ⟨hm.scopes.trans (h m.scopes hm.scopes), hm.depth⟩

theorem preserves_define {id : ScopeId} (hid : id ∈ ids) (name : String) (binding : Binding) :
    (define id name binding).Preserves (Within ids m₀) :=
  preserves_updateScopes fun s _ => ChangedOnly.define hid s name binding

theorem preserves_emit (line : String) : (emit line).Preserves (Within ids m₀) :=
  fun _ hm => ⟨hm.scopes, hm.depth⟩

/-- A builtin changes what is displayed, and no scope. -/
theorem preserves_respond (b : Builtin) (arguments : List Argument) :
    (respond b arguments).Preserves (Within ids m₀) := by
  unfold respond
  split
  · exact preserves_bind (preserves_emit _) fun _ => preserves_pure _
  · exact preserves_pure _
  · exact preserves_throw _

theorem preserves_bindParams {id : ScopeId} (hid : id ∈ ids) (params : List Token)
    (values : List Value) :
    (bindParams id params values).Preserves (Within ids m₀) := by
  induction params generalizing values with
  | nil => exact preserves_pure ()
  | cons param params ih =>
      cases values with
      | nil => exact preserves_pure ()
      | cons value values =>
          unfold bindParams
          exact preserves_bind (preserves_define hid _ _) fun _ => ih values

/-- What a body does in a scope of its own below `parent` reaches only the scopes around. The scope
itself is gone. -/
theorem writesBelow_inChild {parent : ScopeId} {body : ScopeId → EvalM α}
    (hbody : ∀ id, (body id).WritesFrom id) :
    (inChild parent body).WritesBelow parent := by
  intro m₀ ids hm₀ hsub
  rintro ⟨scopes, depth, output⟩ ⟨hscopes, hdepth⟩
  have hrooted : (scopes.addChild parent).Rooted := (hm₀.changed hscopes).addChild parent
  have hwritable : (scopes.addChild parent).writable scopes.size ⊆ scopes.size :: ids := by
    rw [Scopes.writable_addChild, hscopes.chain]
    exact List.cons_subset_cons _ hsub
  -- inside, the new scope may be written to as well; `ChangedOnly.leave` takes it off the list
  have hinside :=
    hbody scopes.size ⟨scopes.addChild parent, depth, output⟩
      (scopes.size :: ids) hrooted hwritable _
    (Within.refl _ _)
  rw [after_inChild]
  exact ⟨hscopes.trans hinside.scopes.leave, hinside.depth.trans hdepth⟩

/-- Counting a call writes to no scope. -/
theorem writesFrom_calling {id : ScopeId} {body : EvalM α} (hbody : body.WritesFrom id)
    (span : Span) :
    (calling span body).WritesFrom id := by
  rintro m₀ ids hm₀ hsub ⟨scopes, depth, output⟩ ⟨hscopes, hdepth⟩
  -- the body starts one call deeper, and is therefore compared with a machine one call deeper
  have hinside :=
    hbody ⟨m₀.scopes, m₀.depth + 1, m₀.output⟩ ids hm₀ hsub ⟨scopes, depth + 1, output⟩
    ⟨hscopes, congrArg (· + 1) hdepth⟩
  by_cases hlimit : depth < callLimit
  · rw [after_calling span body scopes output hlimit]
    exact ⟨hinside.scopes, congrArg (· - 1) hinside.depth⟩
  · rw [after_of_error (calling_of_le span body scopes output (Nat.le_of_not_lt hlimit))]
    exact ⟨hscopes, hdepth⟩

/-! ## Expressions -/

/-- A rule of assignment that writes to the scope it is used in and to scopes around it, the root
excepted. -/
def AssignRule.Framed (rule : AssignRule) : Prop :=
  ∀ s id name value, ChangedOnly (s.writable id) s (rule s id name value)

/-- A context whose assignments and procedure bodies write only where they may. -/
structure Context.Framed (c : Context) : Prop where
  assign : AssignRule.Framed c.assign
  invoke : ∀ body id, (c.invoke body id).WritesFrom id

variable {c : Context}

/-- A procedure's body, with its parameters bound, stays within the scope of the call. -/
theorem enter_writesFrom (hc : c.Framed) (p : Procedure) (arguments : List Value) (span : Span)
    (id : ScopeId) :
    (do bindParams id p.params arguments
        let flow ← calling span (c.invoke p.body id)
        pure (flow.value?.getD .null) : EvalM Value).WritesFrom id := by
  intro m₀ ids hm₀ hsub
  refine preserves_bind (preserves_bindParams (hsub List.mem_cons_self) _ _) fun _ => ?_
  exact preserves_bind (writesFrom_calling (hc.invoke p.body id) span m₀ ids hm₀ hsub)
    fun _ => preserves_pure _

/-- **A call writes to no scope that is there before it.** -/
theorem enter_preserves (hc : c.Framed) (hm₀ : m₀.scopes.Rooted) (p : Procedure)
    (arguments : List Value) (span : Span) :
    (enter c p arguments span).Preserves (Within ids m₀) := by
  have hsub : (m₀.scopes.chain Machine.global).dropLast ⊆ ids := by
    rw [hm₀.chain_global]
    exact List.nil_subset ids
  exact writesBelow_inChild (enter_writesFrom hc p arguments span) m₀ ids hm₀ hsub

mutual

/-- **Expressions change no scope**: whatever may change, an expression does not change it. -/
theorem evaluate_preserves (hc : c.Framed) (hm₀ : m₀.scopes.Rooted) (scope : ScopeId) :
    ∀ e : Expr, (evaluate c scope e).Preserves (Within ids m₀)
  | .literal token => by
      unfold evaluate
      exact preserves_ofExcept _
  | .name token => by
      unfold evaluate
      refine preserves_bind (preserves_lookup _ _) fun binding => ?_
      cases binding with
      | value value => exact preserves_pure value
      | procedure p => exact preserves_throw _
      | builtin b => exact preserves_throw _
  | .unary operator operand => by
      unfold evaluate
      exact preserves_bind (evaluate_preserves hc hm₀ scope operand) fun _ => preserves_ofExcept _
  | .binary left operator right => by
      unfold evaluate
      refine preserves_bind (evaluate_preserves hc hm₀ scope left) fun _ => ?_
      exact preserves_bind (evaluate_preserves hc hm₀ scope right) fun _ => preserves_ofExcept _
  | .group inner => by
      unfold evaluate
      exact evaluate_preserves hc hm₀ scope inner
  | .list _ items _ => by
      unfold evaluate
      exact preserves_bind (evaluateAll_preserves hc hm₀ scope items) fun _ => preserves_pure _
  | .call callee arguments closing => by
      have harguments : (evaluateAll c scope arguments).Preserves (Within ids m₀) :=
        evaluateAll_preserves hc hm₀ scope arguments
      unfold evaluate
      refine preserves_bind (preserves_lookup _ _) fun binding => ?_
      cases binding with
      | value value => exact preserves_throw _
      | procedure p =>
          refine preserves_bind (preserves_checkArity _ _ _ _) fun _ => ?_
          exact preserves_bind harguments fun values => enter_preserves hc hm₀ p values _
      | builtin b =>
          refine preserves_bind (preserves_checkArity _ _ _ _) fun _ => ?_
          exact preserves_bind harguments fun values => preserves_respond b _

theorem evaluateAll_preserves (hc : c.Framed) (hm₀ : m₀.scopes.Rooted) (scope : ScopeId) :
    ∀ es : List Expr, (evaluateAll c scope es).Preserves (Within ids m₀)
  | [] => by
      unfold evaluateAll
      exact preserves_pure _
  | e :: rest => by
      unfold evaluateAll
      refine preserves_bind (evaluate_preserves hc hm₀ scope e) fun _ => ?_
      exact preserves_bind (evaluateAll_preserves hc hm₀ scope rest) fun _ => preserves_pure _

end

/-- What is read off the value of an expression is read without a change. -/
theorem preserves_evaluate_bind (hc : c.Framed) (hm₀ : m₀.scopes.Rooted) (scope : ScopeId)
    (e : Expr) {next : Value → EvalM β} (hnext : ∀ value, (next value).Preserves (Within ids m₀)) :
    (evaluate c scope e >>= next : EvalM β).Preserves (Within ids m₀) :=
  preserves_bind (evaluate_preserves hc hm₀ scope e) hnext

theorem evaluateCondition_preserves (hc : c.Framed) (hm₀ : m₀.scopes.Rooted) (scope : ScopeId)
    (fault : Tag → TypeFault) (condition : Expr) :
    (evaluateCondition c scope fault condition).Preserves (Within ids m₀) := by
  refine preserves_evaluate_bind hc hm₀ scope condition fun value => ?_
  split
  · exact preserves_pure _
  · exact preserves_throw _

theorem evaluateCount_preserves (hc : c.Framed) (hm₀ : m₀.scopes.Rooted) (scope : ScopeId)
    (count : Expr) :
    (evaluateCount c scope count).Preserves (Within ids m₀) := by
  refine preserves_evaluate_bind hc hm₀ scope count fun value => ?_
  split
  · exact preserves_pure _
  · exact preserves_throw _

theorem evaluateItems_preserves (hc : c.Framed) (hm₀ : m₀.scopes.Rooted) (scope : ScopeId)
    (list : Expr) :
    (evaluateItems c scope list).Preserves (Within ids m₀) := by
  refine preserves_evaluate_bind hc hm₀ scope list fun value => ?_
  split
  · exact preserves_pure _
  · exact preserves_throw _

/-! ## Statements -/

/-- Assignments and procedure definitions bind a name in the scope they stand in. All other
statements bind names only in scopes of their own. -/
def Stmt.declares : Stmt → Bool
  | .procedure .. => true
  | .assign .. => true
  | _ => false

/-- A declaration writes where an assignment in its scope may write. -/
theorem declaration_writesFrom (hc : c.Framed) {stmt : Stmt} (hstmt : stmt.declares = true)
    (scope : ScopeId) :
    (execute c stmt scope).WritesFrom scope := by
  intro m₀ ids hm₀ hsub
  cases stmt with
  | procedure name params body =>
      unfold execute
      exact preserves_bind (preserves_define (hsub List.mem_cons_self) _ _)
        fun _ => preserves_pure _
  | assign target value =>
      unfold execute
      refine preserves_evaluate_bind hc hm₀ scope value fun result => ?_
      refine preserves_bind (preserves_updateScopes fun s hs => ?_) fun _ => preserves_pure _
      exact (hc.assign s scope target.text result).mono (by rw [hs.writable]; exact hsub)
  | _ => exact absurd hstmt (by simp [Stmt.declares])

theorem writesFrom_round {id : ScopeId} {body : EvalM α} (name : String) (value : Value)
    (hbody : body.WritesFrom id) :
    (do define id name (.value value); body : EvalM α).WritesFrom id :=
  fun m₀ ids hm₀ hsub =>
    preserves_bind (preserves_define (hsub List.mem_cons_self) _ _) fun _ => hbody m₀ ids hm₀ hsub

mutual

/-- **A statement that declares nothing writes only where an assignment in a block below its scope
may write.** -/
theorem execute_writesBelow (hc : c.Framed) :
    ∀ stmt : Stmt, stmt.declares = false → ∀ scope, (execute c stmt scope).WritesBelow scope
  | .procedure name params body, hstmt => absurd hstmt (by simp [Stmt.declares])
  | .assign target value, hstmt => absurd hstmt (by simp [Stmt.declares])
  | .ifThen condition thenBlock, _ => by
      intro scope m₀ ids hm₀ hsub
      unfold execute
      refine preserves_bind (evaluateCondition_preserves hc hm₀ scope _ condition) fun holds => ?_
      split
      · exact writesBelow_inChild (executeBlock_writesFrom hc thenBlock) m₀ ids hm₀ hsub
      · exact preserves_pure _
  | .ifThenElse condition thenBlock elseBlock, _ => by
      intro scope m₀ ids hm₀ hsub
      unfold execute
      refine preserves_bind (evaluateCondition_preserves hc hm₀ scope _ condition) fun holds => ?_
      split
      · exact writesBelow_inChild (executeBlock_writesFrom hc thenBlock) m₀ ids hm₀ hsub
      · exact writesBelow_inChild (executeBlock_writesFrom hc elseBlock) m₀ ids hm₀ hsub
  | .repeatTimes count body, _ => by
      intro scope m₀ ids hm₀ hsub
      have hbody := writesBelow_inChild (executeBlock_writesFrom hc body) m₀ ids hm₀ hsub
      unfold execute
      exact preserves_bind (evaluateCount_preserves hc hm₀ scope count)
        (preserves_repeatTimes hbody)
  | .repeatUntil condition body, _ => by
      intro scope m₀ ids hm₀ hsub
      have hbody := writesBelow_inChild (executeBlock_writesFrom hc body) m₀ ids hm₀ hsub
      unfold execute
      exact preserves_repeatUntil (evaluateCondition_preserves hc hm₀ scope _ condition) hbody
        c.fuel
  | .forEach item list body, _ => by
      intro scope m₀ ids hm₀ hsub
      have hround := fun value inner =>
          writesFrom_round item.text value (executeBlock_writesFrom hc body inner)
      unfold execute
      refine preserves_bind (evaluateItems_preserves hc hm₀ scope list) fun items => ?_
      exact preserves_forEach (fun value => writesBelow_inChild (hround value) m₀ ids hm₀ hsub)
        items
  | .returns value, _ => by
      intro scope m₀ ids hm₀ hsub
      unfold execute
      exact preserves_evaluate_bind hc hm₀ scope value fun _ => preserves_pure _
  | .expression e, _ => by
      intro scope m₀ ids hm₀ hsub
      unfold execute
      exact preserves_evaluate_bind hc hm₀ scope e fun _ => preserves_pure _

/-- **A block writes only where an assignment in its scope may write.** -/
theorem executeBlock_writesFrom (hc : c.Framed) :
    ∀ (block : Block) (scope : ScopeId), (executeBlock c block scope).WritesFrom scope
  | [], scope => by
      intro m₀ ids hm₀ hsub
      unfold executeBlock
      exact preserves_pure _
  | stmt :: rest, scope => by
      intro m₀ ids hm₀ hsub
      unfold executeBlock
      refine preserves_bind ?_
        (preserves_continue (executeBlock_writesFrom hc rest scope m₀ ids hm₀ hsub))
      -- `execute_writesFrom` says both cases in one, but
      -- here the recursion on the statement has to be seen
      cases hstmt : stmt.declares with
      | true => exact declaration_writesFrom hc hstmt scope m₀ ids hm₀ hsub
      | false => exact (execute_writesBelow hc stmt hstmt scope).writesFrom m₀ ids hm₀ hsub

end

/-- Any statement writes only where an assignment in its scope may write. -/
theorem execute_writesFrom (hc : c.Framed) (stmt : Stmt) (scope : ScopeId) :
    (execute c stmt scope).WritesFrom scope := by
  cases hstmt : stmt.declares with
  | true => exact declaration_writesFrom hc hstmt scope
  | false => exact (execute_writesBelow hc stmt hstmt scope).writesFrom

/-! ## Layers of calls -/

/-- So does a procedure body on any layer, by induction on the layers. -/
theorem runBody_writesFrom {rule : AssignRule} (hrule : AssignRule.Framed rule)
    (fuel layers : Nat) (body : Block) (id : ScopeId) :
    (runBody rule fuel layers body id).WritesFrom id := by
  induction layers generalizing body id with
  | zero => exact fun _ _ _ _ => preserves_throw _
  | succ layers ih => exact executeBlock_writesFrom ⟨hrule, ih⟩ body id

theorem Context.framed_withRule {rule : AssignRule} (hrule : AssignRule.Framed rule) (fuel : Nat) :
    (Context.withRule rule fuel).Framed :=
  ⟨hrule, runBody_writesFrom hrule fuel callLimit⟩

/-- The language itself keeps to the frame. -/
theorem Context.framed_standard (fuel : Nat) : (Context.standard fuel).Framed :=
  framed_withRule Scopes.assign_changedOnly fuel

end Pseudocode
