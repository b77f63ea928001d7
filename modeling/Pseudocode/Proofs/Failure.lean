import Pseudocode.Interpreter
import Pseudocode.Proofs.Framing
import Pseudocode.Proofs.Parts

/-!
# Where a program can fail

Errors are raised in some twenty places of the evaluator, at any depth of calls, loops and blocks.
There are no more of them than the nodes of the program account for: however a program fails, some
node of it can raise this failure (`executeProgram_raises`). What is wanted of all errors, that
their code is of a certain form or that they point into the source, can then be proved node by
node, and nothing has to be said about machines any more.

Two things stand in the way. A procedure body is run from the store, where the program put it
earlier, so the invariant has to speak of the bodies that are stored: `Machine.Confined` says that
they raise nothing but what the program does. And the layers of calls must not give out, or a call
would end for a reason that no node names. They do not, since the limit on calls strikes first; the
same invariant says how many are left.

Running out of fuel is a way to end as well. Among all nodes only `REPEAT UNTIL` has it.
-/

namespace Pseudocode

open Machine (fail ofExcept lookup updateScopes define emit inChild calling)

variable {α β : Type} {allowed : Halt → Prop}

/-! ## Stored procedures -/

/-- Every procedure that is stored has a body that raises only what is allowed. -/
def Scopes.Confined (allowed : Halt → Prop) (s : Scopes) : Prop :=
  ∀ i name p, s.getLocal? i name = some (.procedure p) → Block.Confined allowed p.body

namespace Scopes

variable {s : Scopes}

/-- What a scope binds after a definition was there before, or is what was defined. -/
theorem getLocal?_define_eq_some {id i : ScopeId} {name x : String} {binding found : Binding}
    (h : (s.define id name binding).getLocal? i x = some found) :
    found = binding ∨ s.getLocal? i x = some found := by
  by_cases hother : i ≠ id ∨ x ≠ name
  · rw [getLocal?_define_of_ne binding hother] at h
    exact .inr h
  · obtain ⟨hi, hx⟩ := not_or.mp hother
    obtain rfl := Decidable.of_not_not hi
    obtain rfl := Decidable.of_not_not hx
    have hlt : i < s.size := by
      rw [← size_define s i x binding]
      exact lt_size_of_getLocal? (Option.isSome_iff_exists.mpr ⟨found, h⟩)
    rw [getLocal?_define_self x binding hlt] at h
    exact .inl (Option.some.inj h).symm

/-- Some scope binds a name to this procedure. -/
def Stores (s : Scopes) (p : Procedure) : Prop :=
  ∃ i name, s.getLocal? i name = some (.procedure p)

namespace Stores

variable {p : Procedure}

/-- After a definition, a stored procedure is the one that was defined, or was there before. -/
theorem of_define {id : ScopeId} {name : String} {binding : Binding}
    (h : (s.define id name binding).Stores p) :
    binding = .procedure p ∨ s.Stores p := by
  obtain ⟨i, x, hp⟩ := h
  rcases getLocal?_define_eq_some hp with hnew | hold
  · exact .inl hnew.symm
  · exact .inr ⟨i, x, hold⟩

theorem of_defineValue {id : ScopeId} {name : String} {value : Value}
    (h : (s.define id name (.value value)).Stores p) :
    s.Stores p := h.of_define.resolve_left fun hp => Binding.noConfusion hp

theorem of_overwrite {ids : List ScopeId} {name : String} {value : Value}
    (h : (s.overwrite ids name value).Stores p) :
    s.Stores p := by
  unfold Scopes.overwrite at h
  induction ids generalizing s with
  | nil => exact h
  | cons id rest ih =>
      rw [List.foldl_cons] at h
      have hfirst := ih h
      split at hfirst
      · exact hfirst.of_defineValue
      · exact hfirst

/-- Assignment stores values, and so no procedure. -/
theorem of_assign {id : ScopeId} {name : String} {value : Value}
    (h : (s.assign id name value).Stores p) : s.Stores p :=
  h.of_defineValue.of_overwrite

theorem of_addChild {parent : ScopeId} (h : (s.addChild parent).Stores p) : s.Stores p := by
  obtain ⟨i, x, hp⟩ := h
  by_cases hi : i = s.size
  · rw [hi] at hp
    unfold getLocal? at hp
    rw [store_addChild_self] at hp
    exact absurd hp (by simp)
  · rw [getLocal?_of_store (store_addChild_of_ne parent hi)] at hp
    exact ⟨i, x, hp⟩

theorem of_release {size : Nat} (h : (s.release size).Stores p) : s.Stores p := by
  obtain ⟨i, x, hp⟩ := h
  by_cases hi : i < size
  · rw [getLocal?_of_store (store_release_of_lt hi)] at hp
    exact ⟨i, x, hp⟩
  · unfold getLocal? at hp
    rw [store_release_of_le (Nat.le_of_not_lt hi)] at hp
    exact absurd hp (by simp)

theorem of_install {id : ScopeId} (h : (s.install id).Stores p) : s.Stores p := by
  unfold Scopes.install at h
  generalize Builtin.all = builtins at h
  induction builtins generalizing s with
  | nil => exact h
  | cons b rest ih =>
      rw [List.foldl_cons] at h
      exact (ih h).of_define.resolve_left fun hp => Binding.noConfusion hp

/-- What is found by its name is stored. -/
theorem of_get? {id : ScopeId} {name : String} (h : s.get? id name = some (.procedure p)) :
    s.Stores p := by
  obtain ⟨i, -, hi⟩ := List.exists_of_findSome?_eq_some h
  exact ⟨i, name, hi⟩

end Stores

/-- A fresh machine stores builtins only. -/
theorem not_stores_fresh {p : Procedure} : ¬ Machine.fresh.scopes.Stores p := by
  intro h
  obtain ⟨i, x, hp⟩ : Scopes.empty.addRoot.Stores p := h.of_install
  cases i with
  | zero => exact absurd hp (by simp [getLocal?, addRoot, empty])
  | succ i => exact absurd hp (by simp [getLocal?, addRoot, empty])

namespace Confined

/-- Where nothing is stored that was not stored before, what is stored stays confined. -/
theorem of_stores {t : Scopes} (hs : s.Confined allowed) (h : ∀ p, t.Stores p → s.Stores p) :
    t.Confined allowed := by
  intro i name p hp
  obtain ⟨j, x, hx⟩ := h p ⟨i, name, hp⟩
  exact hs j x p hx

/-- A procedure that is stored has to be confined itself. -/
theorem define {binding : Binding} (h : s.Confined allowed)
    (hbinding : ∀ p, binding = .procedure p → Block.Confined allowed p.body) (id : ScopeId)
    (name : String) :
    (s.define id name binding).Confined allowed := by
  intro i x p hp
  rcases getLocal?_define_eq_some hp with hnew | hold
  · exact hbinding p hnew.symm
  · exact h i x p hold

theorem defineValue (h : s.Confined allowed) (id : ScopeId) (name : String) (value : Value) :
    (s.define id name (.value value)).Confined allowed :=
  h.of_stores fun _ => Stores.of_defineValue

theorem assign (h : s.Confined allowed) (id : ScopeId) (name : String) (value : Value) :
    (s.assign id name value).Confined allowed := h.of_stores fun _ => Stores.of_assign

theorem addChild (h : s.Confined allowed) (parent : ScopeId) :
    (s.addChild parent).Confined allowed :=
  h.of_stores fun _ => Stores.of_addChild

theorem release (h : s.Confined allowed) (size : Nat) : (s.release size).Confined allowed :=
  h.of_stores fun _ => Stores.of_release

theorem get? {id : ScopeId} {name : String} {p : Procedure} (h : s.Confined allowed)
    (hp : s.get? id name = some (.procedure p)) : Block.Confined allowed p.body := by
  obtain ⟨i, x, hi⟩ := Stores.of_get? hp
  exact h i x p hi

end Confined

theorem confined_fresh : Machine.fresh.scopes.Confined allowed :=
  fun i name _ hp => absurd ⟨i, name, hp⟩ not_stores_fresh

end Scopes

/-! ## Steps that end only in allowed ways -/

/-- A step keeps an invariant. If it succeeds, its value is as `post` says, and if not, it ends in
an allowed way. -/
def EvalM.Yields (step : EvalM α) (inv : Machine → Prop) (allowed : Halt → Prop)
    (post : α → Prop) : Prop :=
  ∀ m, inv m → match step m with
    | .ok a m' => inv m' ∧ post a
    | .error halt m' => inv m' ∧ allowed halt

namespace EvalM

variable {inv : Machine → Prop} {post : α → Prop} {post' : β → Prop}

theorem yields_pure {a : α} (h : post a) : (pure a : EvalM α).Yields inv allowed post :=
  fun _ hm => ⟨hm, h⟩

theorem yields_throw {halt : Halt} (h : allowed halt) :
    (throw halt : EvalM α).Yields inv allowed post :=
  fun _ hm => ⟨hm, h⟩

/-- Two steps one after the other, the second of which may use what the first ensures. -/
theorem yields_bind {step : EvalM α} {next : α → EvalM β} (hstep : step.Yields inv allowed post)
    (hnext : ∀ a, post a → (next a).Yields inv allowed post') :
    (step >>= next : EvalM β).Yields inv allowed post' := by
  intro m hm
  have h := hstep m hm
  cases hrun : step m with
  | ok a m' =>
      rw [hrun] at h
      rw [bind_of_ok hrun]
      exact hnext a h.2 m' h.1
  | error halt m' =>
      rw [hrun] at h
      rw [bind_of_error hrun]
      exact h

/-- A computation outside the machine, by its two outcomes. -/
theorem yields_ofExcept {result : Except Error α} (hok : ∀ a, result = .ok a → post a)
    (herror : ∀ e, result = .error e → allowed (.error e)) :
    (ofExcept result).Yields inv allowed post := by
  cases result with
  | ok a => exact yields_pure (hok a rfl)
  | error e => exact yields_throw (herror e rfl)

/-- A step that always goes on alike, whatever the value of the first was. -/
abbrev Keeps (step : EvalM α) (inv : Machine → Prop) (allowed : Halt → Prop) : Prop :=
  step.Yields inv allowed fun _ => True

theorem yields_checkArity {name : String} {expected found : Nat} {span : Span}
    (h : allowed (.error (.arityMismatch name expected found span))) :
    (checkArity name expected found span).Yields inv allowed fun _ => expected = found := by
  unfold checkArity
  split
  · exact yields_pure (by assumption)
  · exact yields_throw h

theorem keeps_continue {next : EvalM Flow} (hnext : next.Keeps inv allowed) (flow : Flow) :
    (match flow with
      | .next => next
      | .returned value => pure (.returned value) : EvalM Flow).Keeps inv allowed := by
  cases flow with
  | next => exact hnext
  | returned value => exact yields_pure trivial

theorem keeps_repeatTimes {body : EvalM Flow} (hbody : body.Keeps inv allowed) (count : Nat) :
    (repeatTimes body count).Keeps inv allowed := by
  induction count with
  | zero => exact yields_pure trivial
  | succ count ih =>
      unfold repeatTimes
      exact yields_bind hbody fun flow _ => keeps_continue ih flow

/-- A loop without a bound may run out of fuel as well. -/
theorem keeps_repeatUntil {finished : EvalM Bool} {body : EvalM Flow} (hfuel : allowed .outOfFuel)
    (hfinished : finished.Keeps inv allowed) (hbody : body.Keeps inv allowed) (fuel : Nat) :
    (repeatUntil finished body fuel).Keeps inv allowed := by
  induction fuel with
  | zero => exact yields_throw hfuel
  | succ fuel ih =>
      unfold repeatUntil
      refine yields_bind hfinished fun done _ => ?_
      cases done with
      | true => exact yields_pure trivial
      | false => exact yields_bind hbody fun flow _ => keeps_continue ih flow

/-- A loop over a list, by induction on the list. -/
theorem keeps_forEach {body : Value → EvalM Flow} (hbody : ∀ value, (body value).Keeps inv allowed)
    (items : List Value) : (forEach body items).Keeps inv allowed := by
  induction items with
  | nil => exact yields_pure trivial
  | cons item rest ih =>
      unfold forEach
      exact yields_bind (hbody item) fun flow _ => keeps_continue ih flow

end EvalM

open EvalM

/-- The stored procedures raise only what is allowed, and with the calls that are under way,
`layers` more are enough to reach the limit. -/
structure Machine.Confined (allowed : Halt → Prop) (layers : Nat) (m : Machine) : Prop where
  scopes : m.scopes.Confined allowed
  depth : callLimit ≤ m.depth + layers

variable {layers : Nat} {post : α → Prop}

/-- A procedure that is found is confined. -/
theorem yields_lookup {scope : ScopeId} {name : Token}
    (h : allowed (.error (.undefinedName name))) :
    (lookup scope name).Yields (Machine.Confined allowed layers) allowed
      fun binding => ∀ p, binding = .procedure p → Block.Confined allowed p.body := by
  intro m hm
  unfold lookup Scopes.lookup
  cases hfound : m.scopes.get? scope name.text with
  | none => exact ⟨hm, h⟩
  | some binding =>
      refine ⟨hm, fun p hp => ?_⟩
      rw [hp] at hfound
      exact hm.scopes.get? hfound

theorem keeps_updateScopes {change : Scopes → Scopes}
    (h : ∀ s, s.Confined allowed → (change s).Confined allowed) :
    (updateScopes change).Keeps (Machine.Confined allowed layers) allowed :=
  fun m hm => ⟨⟨h m.scopes hm.scopes, hm.depth⟩, trivial⟩

theorem keeps_defineValue (id : ScopeId) (name : String) (value : Value) :
    (define id name (.value value)).Keeps (Machine.Confined allowed layers) allowed :=
  keeps_updateScopes fun _ hs => hs.defineValue id name value

/-- Arguments are values, so binding them stores no procedure. -/
theorem keeps_bindParams (id : ScopeId) (params : List Token) (values : List Value) :
    (bindParams id params values).Keeps (Machine.Confined allowed layers) allowed := by
  induction params generalizing values with
  | nil => exact yields_pure trivial
  | cons param params ih =>
      cases values with
      | nil => exact yields_pure trivial
      | cons value values =>
          unfold bindParams
          exact yields_bind (keeps_defineValue id _ _) fun _ _ => ih values

theorem keeps_emit (line : String) : (emit line).Keeps (Machine.Confined allowed layers) allowed :=
  fun _ hm => ⟨⟨hm.scopes, hm.depth⟩, trivial⟩

/-- A builtin that is given an argument complains about that argument or about nothing. -/
theorem keeps_respond {b : Builtin} {arguments : List Argument} (hne : arguments ≠ [])
    (hdisplay : ∀ a ∈ arguments, ∀ fault, allowed (.error (.invalidArgument fault a.span)))
    (hlength : ∀ a ∈ arguments, ∀ found,
      allowed (.error (.typeError (.lengthArgument found) a.span))) :
    (respond b arguments).Keeps (Machine.Confined allowed layers) allowed := by
  cases arguments with
  | nil => exact absurd rfl hne
  | cons a rest =>
      have hcall : ∀ halt, b.call (a :: rest) = .error halt → allowed halt := by
        intro halt h
        unfold Builtin.call at h
        cases b with
        | display =>
            unfold Builtin.showLine at h
            cases hv : a.value with
            | list items =>
                simp only [hv] at h
                exact Except.error.inj h ▸ hdisplay a List.mem_cons_self _
            | null =>
                simp only [hv] at h
                exact Except.error.inj h ▸ hdisplay a List.mem_cons_self _
            | _ =>
                simp only [hv] at h
                exact nomatch h
        | length =>
            unfold Builtin.count at h
            cases hv : a.value with
            | text s =>
                simp only [hv] at h
                exact nomatch h
            | list items =>
                simp only [hv] at h
                exact nomatch h
            | _ =>
                simp only [hv] at h
                exact Except.error.inj h ▸ hlength a List.mem_cons_self _
      unfold respond
      split
      · exact yields_bind (keeps_emit _) fun _ _ => yields_pure trivial
      · exact yields_pure trivial
      · rename_i halt h
        exact yields_throw (hcall halt h)

/-- A block in a scope of its own. Releasing the scope stores nothing. -/
theorem yields_inChild {parent : ScopeId} {body : ScopeId → EvalM α}
    (hbody : ∀ id, (body id).Yields (Machine.Confined allowed layers) allowed post) :
    (inChild parent body).Yields (Machine.Confined allowed layers) allowed post := by
  rintro ⟨scopes, depth, output⟩ ⟨hscopes, hdepth⟩
  have h :=
    hbody scopes.size ⟨scopes.addChild parent, depth, output⟩ ⟨hscopes.addChild parent, hdepth⟩
  rw [inChild_apply]
  cases hrun : body scopes.size ⟨scopes.addChild parent, depth, output⟩ with
  | ok a m' =>
      rw [hrun] at h
      exact ⟨⟨h.1.scopes.release _, h.1.depth⟩, h.2⟩
  | error halt m' =>
      rw [hrun] at h
      exact ⟨⟨h.1.scopes.release _, h.1.depth⟩, h.2⟩

/-- A call uses up one of the layers that are left. If there is none left, the limit is reached and
the body not run. -/
theorem yields_calling {span : Span} {body : EvalM α}
    (hlimit : allowed (.error (.recursionLimit span)))
    (hbody : ∀ left, layers = left + 1 →
      body.Yields (Machine.Confined allowed left) allowed post) :
    (calling span body).Yields (Machine.Confined allowed layers) allowed post := by
  rintro ⟨scopes, depth, output⟩ ⟨hscopes, hdepth⟩
  simp only at hdepth
  unfold calling
  by_cases hroom : depth < callLimit
  · simp only [hroom, if_true]
    obtain ⟨left, rfl⟩ : ∃ left, layers = left + 1 := ⟨layers - 1, by omega⟩
    have h := hbody left rfl ⟨scopes, depth + 1, output⟩ ⟨hscopes, by simp only; omega⟩
    cases hrun : body ⟨scopes, depth + 1, output⟩ with
    | ok a m' =>
        rw [hrun] at h
        have hleft := h.1.depth
        exact ⟨⟨h.1.scopes, by simp only; omega⟩, h.2⟩
    | error halt m' =>
        rw [hrun] at h
        have hleft := h.1.depth
        exact ⟨⟨h.1.scopes, by simp only; omega⟩, h.2⟩
  · simp only [hroom, if_false]
    exact ⟨⟨hscopes, hdepth⟩, hlimit⟩

/-! ## Expressions -/

/-- A context that keeps the stored procedures confined, and that runs a body with one layer less
than it has. -/
structure Context.Confined (allowed : Halt → Prop) (layers : Nat) (c : Context) : Prop where
  assign : ∀ s id name value, s.Confined allowed → (c.assign s id name value).Confined allowed
  invoke : ∀ body id, Block.Confined allowed body → ∀ left, layers = left + 1 →
    (c.invoke body id).Keeps (Machine.Confined allowed left) allowed

variable {c : Context}

/-- A call of a confined procedure, which may be refused at the limit. -/
theorem keeps_enter (hc : c.Confined allowed layers) {p : Procedure}
    (hp : Block.Confined allowed p.body) {span : Span}
    (hlimit : allowed (.error (.recursionLimit span))) (values : List Value) :
    (enter c p values span).Keeps (Machine.Confined allowed layers) allowed := by
  unfold enter
  refine yields_inChild fun id => yields_bind (keeps_bindParams id _ values) fun _ _ => ?_
  exact yields_bind (yields_calling hlimit (hc.invoke p.body id hp)) fun _ _ => yields_pure trivial

/-- What a sign complains about is an error of its node. -/
theorem applyUnary_raises {operator : Token} {operand : Expr} {value : Value} {e : Error}
    (h : applyUnary (.unary operator operand) operator value = .error e) :
    (Expr.unary operator operand).Raises e := by
  unfold applyUnary at h
  split at h
  · exact absurd h (by simp)
  · exact absurd h (by simp)
  · exact Except.error.inj h ▸ .unaryOperand

/-- What an operator complains about is an error of its node. -/
theorem applyBinary_raises {operator : Token} {left right : Expr} {x y : Value} {e : Error}
    (h : applyBinary (.binary left operator right) operator x y = .error e) :
    (Expr.binary left operator right).Raises e := by
  unfold applyBinary at h
  split at h
  · split at h
    · exact absurd h (by simp)
    · exact Except.error.inj h ▸ .unsupportedOperator
  · exact Except.error.inj h ▸ .typeMismatch

/-- What is handed to a builtin carries the span of one of the expressions. -/
theorem exists_argument {values : List Value} {es : List Expr} {a : Argument}
    (h : a ∈ List.zipWith Argument.mk values (es.map Expr.span)) : ∃ e ∈ es, e.span = a.span := by
  induction values generalizing es with
  | nil => exact absurd h (by simp)
  | cons value values ih =>
      cases es with
      | nil => exact absurd h (by simp)
      | cons e es =>
          rcases List.mem_cons.mp h with rfl | h
          · exact ⟨e, List.mem_cons_self, rfl⟩
          · obtain ⟨x, hx, hspan⟩ := ih h
            exact ⟨x, List.mem_cons_of_mem e hx, hspan⟩

/-- Every builtin has an argument to work on, once the arity is right. -/
theorem arguments_ne_nil {b : Builtin} {values : List Value} {es : List Expr}
    (hvalues : values.length = es.length) (harity : b.arity = es.length) :
    List.zipWith Argument.mk values (es.map Expr.span) ≠ [] := by
  have hone : b.arity = 1 := by cases b <;> rfl
  intro hnil
  have hlength := congrArg List.length hnil
  rw [List.length_zipWith, List.length_map, List.length_nil] at hlength
  omega

mutual

/-- An expression ends only in ways that one of its parts can raise, or that a stored procedure
can. -/
theorem keeps_evaluate (hc : c.Confined allowed layers) (scope : ScopeId) :
    ∀ e : Expr, e.Confined allowed →
      (evaluate c scope e).Keeps (Machine.Confined allowed layers) allowed
  | .literal token, h => by
      unfold evaluate
      exact yields_ofExcept (fun _ _ => trivial) fun _ he => h.raises (.literal he)
  | .name token, h => by
      unfold evaluate
      refine yields_bind (yields_lookup (h.raises .undefinedName)) fun binding _ => ?_
      cases binding with
      | value value => exact yields_pure trivial
      | procedure p => exact yields_throw (h.raises .procedureAsValue)
      | builtin b => exact yields_throw (h.raises .procedureAsValue)
  | .unary operator operand, h => by
      unfold evaluate
      refine yields_bind (keeps_evaluate hc scope operand h.operand) fun value _ => ?_
      exact yields_ofExcept (fun _ _ => trivial) fun _ he => h.raises (applyUnary_raises he)
  | .binary left operator right, h => by
      unfold evaluate
      refine yields_bind (keeps_evaluate hc scope left h.left) fun x _ => ?_
      refine yields_bind (keeps_evaluate hc scope right h.right) fun y _ => ?_
      exact yields_ofExcept (fun _ _ => trivial) fun _ he => h.raises (applyBinary_raises he)
  | .group inner, h => by
      unfold evaluate
      exact keeps_evaluate hc scope inner h.inner
  | .list _ items _, h => by
      unfold evaluate
      exact yields_bind (yields_evaluateAll hc scope items h.items) fun _ _ => yields_pure trivial
  | .call callee arguments closing, h => by
      have harguments := yields_evaluateAll hc scope arguments h.arguments
      unfold evaluate
      refine yields_bind (yields_lookup (h.raises .undefinedCallee)) fun binding hbinding => ?_
      cases binding with
      | value value => exact yields_throw (h.raises .notCallable)
      | procedure p =>
          refine yields_bind (yields_checkArity (h.raises .arityMismatch)) fun _ _ => ?_
          refine yields_bind harguments fun values _ => ?_
          exact keeps_enter hc (hbinding p rfl) (h.raises .recursionLimit) values
      | builtin b =>
          refine yields_bind (yields_checkArity (h.raises .arityMismatch)) fun _ harity => ?_
          refine yields_bind harguments fun values hvalues => ?_
          refine keeps_respond (arguments_ne_nil hvalues harity) (fun a ha fault => ?_)
            (fun a ha found => ?_)
          · obtain ⟨argument, hmem, heq⟩ := exists_argument ha
            exact heq ▸ h.raises (.invalidArgument hmem)
          · obtain ⟨argument, hmem, heq⟩ := exists_argument ha
            exact heq ▸ h.raises (.lengthArgument hmem)

/-- Arguments, which are as many values as there are expressions. -/
theorem yields_evaluateAll (hc : c.Confined allowed layers) (scope : ScopeId) :
    ∀ es : List Expr, (∀ e ∈ es, e.Confined allowed) →
      (evaluateAll c scope es).Yields (Machine.Confined allowed layers) allowed
        fun values => values.length = es.length
  | [], _ => by
      unfold evaluateAll
      exact yields_pure rfl
  | e :: rest, h => by
      unfold evaluateAll
      refine yields_bind (keeps_evaluate hc scope e (h e List.mem_cons_self)) fun value _ => ?_
      refine yields_bind (yields_evaluateAll hc scope rest
        fun x hx => h x (List.mem_cons_of_mem e hx)) fun values hlength => ?_
      exact yields_pure (congrArg (· + 1) hlength)

end

theorem keeps_evaluateCondition (hc : c.Confined allowed layers) (scope : ScopeId)
    {fault : Tag → TypeFault} {condition : Expr} (h : condition.Confined allowed)
    (hfault : ∀ found, allowed (.error (.typeError (fault found) condition.span))) :
    (evaluateCondition c scope fault condition).Keeps
      (Machine.Confined allowed layers) allowed := by
  refine yields_bind (keeps_evaluate hc scope condition h) fun value _ => ?_
  split
  · exact yields_pure trivial
  · exact yields_throw (hfault _)

theorem keeps_evaluateCount (hc : c.Confined allowed layers) (scope : ScopeId) {count : Expr}
    (h : count.Confined allowed)
    (hfault : ∀ found, allowed (.error (.typeError (.repeatCount found) count.span))) :
    (evaluateCount c scope count).Keeps (Machine.Confined allowed layers) allowed := by
  refine yields_bind (keeps_evaluate hc scope count h) fun value _ => ?_
  split
  · exact yields_pure trivial
  · exact yields_throw (hfault _)

theorem keeps_evaluateItems (hc : c.Confined allowed layers) (scope : ScopeId) {list : Expr}
    (h : list.Confined allowed)
    (hfault : ∀ found, allowed (.error (.typeError (.forEachList found) list.span))) :
    (evaluateItems c scope list).Keeps (Machine.Confined allowed layers) allowed := by
  refine yields_bind (keeps_evaluate hc scope list h) fun value _ => ?_
  split
  · exact yields_pure trivial
  · exact yields_throw (hfault _)

/-! ## Statements -/

mutual

/-- A statement ends only in ways that one of its parts can raise, or that a stored procedure
can. -/
theorem keeps_execute (hc : c.Confined allowed layers) :
    ∀ (s : Stmt) (scope : ScopeId), s.Confined allowed →
      (execute c s scope).Keeps (Machine.Confined allowed layers) allowed
  | .procedure name params body, scope, h => by
      have hbody : Block.Confined allowed body := h.block fun x hx => List.mem_cons_of_mem _ hx
      unfold execute
      refine yields_bind (keeps_updateScopes fun s hs => ?_) fun _ _ => yields_pure trivial
      refine hs.define (fun p hp => ?_) scope name.text
      injection hp with hp
      exact hp ▸ hbody
  | .assign target value, scope, h => by
      unfold execute
      refine yields_bind (keeps_evaluate hc scope value (h.operand List.mem_cons_self))
        fun result _ => ?_
      exact yields_bind (keeps_updateScopes fun s hs => hc.assign s scope target.text result hs)
        fun _ _ => yields_pure trivial
  | .ifThen condition thenBlock, scope, h => by
      unfold execute
      refine yields_bind (keeps_evaluateCondition hc scope (h.operand List.mem_cons_self)
        fun _ => h.raises .ifThen)
        fun holds _ => ?_
      split
      · exact yields_inChild fun id =>
          keeps_executeBlock hc thenBlock id (h.block fun x hx => List.mem_cons_of_mem _ hx)
      · exact yields_pure trivial
  | .ifThenElse condition thenBlock elseBlock, scope, h => by
      unfold execute
      refine yields_bind (keeps_evaluateCondition hc scope (h.operand List.mem_cons_self)
        fun _ => h.raises .ifThenElse)
        fun holds _ => ?_
      split
      · exact yields_inChild fun id => keeps_executeBlock hc thenBlock id
          (h.block fun x hx => List.mem_cons_of_mem _ (List.mem_append_left _ hx))
      · exact yields_inChild fun id => keeps_executeBlock hc elseBlock id
          (h.block fun x hx => List.mem_cons_of_mem _ (List.mem_append_right _ hx))
  | .repeatTimes count body, scope, h => by
      unfold execute
      refine yields_bind (keeps_evaluateCount hc scope (h.operand List.mem_cons_self)
        fun _ => h.raises .repeatCount)
        fun rounds _ => ?_
      exact keeps_repeatTimes (yields_inChild fun id =>
        keeps_executeBlock hc body id (h.block fun x hx => List.mem_cons_of_mem _ hx)) rounds
  | .repeatUntil condition body, scope, h => by
      unfold execute
      refine keeps_repeatUntil (h.raises .endless) ?_ ?_ c.fuel
      · exact keeps_evaluateCondition hc scope (h.operand List.mem_cons_self)
          fun _ => h.raises .untilCondition
      · exact yields_inChild fun id =>
          keeps_executeBlock hc body id (h.block fun x hx => List.mem_cons_of_mem _ hx)
  | .forEach item list body, scope, h => by
      unfold execute
      refine yields_bind (keeps_evaluateItems hc scope (h.operand List.mem_cons_self)
        fun _ => h.raises .forEachList)
        fun items _ => ?_
      refine keeps_forEach (fun value => yields_inChild fun id => ?_) items
      exact yields_bind (keeps_defineValue id _ value) fun _ _ =>
        keeps_executeBlock hc body id (h.block fun x hx => List.mem_cons_of_mem _ hx)
  | .returns value, scope, h => by
      unfold execute
      exact yields_bind (keeps_evaluate hc scope value (h.operand List.mem_cons_self))
        fun _ _ => yields_pure trivial
  | .expression e, scope, h => by
      unfold execute
      exact yields_bind (keeps_evaluate hc scope e (h.operand List.mem_cons_self))
        fun _ _ => yields_pure trivial

theorem keeps_executeBlock (hc : c.Confined allowed layers) :
    ∀ (block : Block) (scope : ScopeId), Block.Confined allowed block →
      (executeBlock c block scope).Keeps (Machine.Confined allowed layers) allowed
  | [], scope, _ => by
      unfold executeBlock
      exact yields_pure trivial
  | s :: rest, scope, h => by
      unfold executeBlock
      exact yields_bind (keeps_execute hc s scope h.head) fun flow _ =>
        keeps_continue (keeps_executeBlock hc rest scope h.tail) flow

end

/-! ## Layers of calls -/

/-- Every layer of calls is confined, by induction on the layers, for every rule of assignment that
stores no procedures. -/
theorem Context.confined_layer {rule : AssignRule} (fuel : Nat)
    (hrule : ∀ s id name value, s.Confined allowed → (rule s id name value).Confined allowed)
    (layers : Nat) :
    Context.Confined allowed layers ⟨runBody rule fuel layers, rule, fuel⟩ := by
  induction layers with
  | zero => exact ⟨hrule, fun _ _ _ left h => absurd h (by omega)⟩
  | succ layers ih =>
      refine ⟨hrule, fun body id hbody left h => ?_⟩
      obtain rfl : layers = left := by omega
      exact keeps_executeBlock ih body id hbody

/-- **Every failure has a place in the program.** If a program ends in an error, a step out of
turn, or for lack of fuel, then some node of the program can raise that. -/
theorem executeProgram_raises {fuel : Nat} {program : Block} {halt : Halt}
    (h : (executeProgram fuel program).answer Machine.fresh = .error halt) :
    Block.Raises program halt := by
  have hcontext : Context.Confined (Block.Raises program) callLimit (.standard fuel) :=
    Context.confined_layer fuel (fun _ id name value hs => hs.assign id name value) callLimit
  have hprogram :
      (executeProgram fuel program).Keeps (Machine.Confined (Block.Raises program) callLimit)
      (Block.Raises program) :=
    yields_bind (keeps_executeBlock hcontext program Machine.global program.confined_raises)
      fun _ _ => yields_pure trivial
  have hends := hprogram Machine.fresh ⟨Scopes.confined_fresh, Nat.le_add_left _ _⟩
  cases hrun : executeProgram fuel program Machine.fresh with
  | ok value m =>
      rw [answer_of_ok hrun] at h
      exact absurd h (by simp)
  | error found m =>
      rw [hrun] at hends
      rw [answer_of_error hrun] at h
      exact Except.error.inj h ▸ hends.2

end Pseudocode
