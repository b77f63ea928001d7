import Pseudocode.Proofs.Simulation

/-!
# What a procedure can see

A procedure is called from some scope and was defined in some scope, and neither of them matters:
its body runs in a scope of its own, right below the global one. Two calls of the same procedure
with the same arguments therefore cannot be told apart, however different the machines are that
they run on, as long as the global scopes bind the same names to the same things.

The two runs use different indices. The scope of a call is added at the end of the store, and the
stores need not have the same size. So what code in a scope can see is described without them: the
`view` from a scope is the list, from the inside out, of what the scopes of its chain bind.
Everything that evaluation does to the store is a function of the view, and so two runs that start
with equal views keep them equal.
-/

namespace Pseudocode

open EvalM
open Machine (Matches)
open Scopes (ChangedOnly)

/-! ## Views -/

/-- What one scope binds. -/
abbrev Names := String → Option Binding

/-- The same names, and `name` bound to `binding`. -/
def Names.bind (name : String) (binding : Binding) (names : Names) : Names :=
  fun x => if x = name then some binding else names x

/-- Binds a name in the innermost scope of a view. -/
def defineView (name : String) (binding : Binding) : List Names → List Names
  | [] => []
  | inner :: around => inner.bind name binding :: around

/-- Binds a name in the scopes of a view that bind it already. The last one, which is the root, is
spared. -/
def overwriteView (name : String) (value : Value) : List Names → List Names
  | [] => []
  | [root] => [root]
  | names :: next :: around =>
    (if (names name).isSome then names.bind name (.value value) else names) ::
      overwriteView name value (next :: around)

/-- Assignment, as it is seen: the innermost scope gets the value in any case. -/
def assignView (name : String) (value : Value) : List Names → List Names
  | [] => []
  | inner :: around => inner.bind name (.value value) :: overwriteView name value around

namespace Scopes

variable {s t s' t' : Scopes} {a b p : ScopeId}

/-- What code in a scope can see: what each scope of the chain binds, from the inside out. -/
def view (s : Scopes) (id : ScopeId) : List Names := (s.chain id).map s.getLocal?

/-! ## What evaluation does to a view -/

/-- What a name stands for is a function of the view. -/
theorem get?_eq_view (s : Scopes) (id : ScopeId) (name : String) :
    s.get? id name = (s.view id).findSome? fun names => names name := by
  unfold get? view
  rw [List.findSome?_map]
  rfl

theorem view_global (hs : s.Rooted) : s.view Machine.global = [s.getLocal? Machine.global] := by
  unfold view
  rw [hs.chain_global]
  rfl

/-- The view from any scope ends with the global scope. -/
theorem getLast?_view (h : s.Chained a) :
    (s.view a).getLast? = some (s.getLocal? Machine.global) := by
  obtain ⟨inner, hinner⟩ := h.global
  unfold view
  rw [← hinner, List.map_append]
  exact List.getLast?_concat

theorem getLocal?_define (s : Scopes) {id : ScopeId} (h : id < s.size) (name : String)
    (binding : Binding) :
    (s.define id name binding).getLocal? id = Names.bind name binding (s.getLocal? id) := by
  funext x
  unfold Names.bind
  by_cases hx : x = name
  · rw [if_pos hx, hx]
    exact getLocal?_define_self name binding h
  · rw [if_neg hx]
    exact getLocal?_define_of_ne binding (.inr hx)

/-- A definition binds the name in the innermost scope of the view. -/
theorem view_define (h : s.Chained a) (name : String) (binding : Binding) :
    (s.define a name binding).view a = defineView name binding (s.view a) := by
  have hhead := getLocal?_define s (h.bounded a List.mem_cons_self) name binding
  have htail : (s.path a).map (s.define a name binding).getLocal? =
      (s.path a).map s.getLocal? := by
    refine List.map_congr_left fun i hi => funext fun x => ?_
    exact getLocal?_define_of_ne binding (.inl fun heq => h.not_mem_path (heq ▸ hi))
  unfold view chain
  rw [path_define, List.map_cons, hhead, htail]
  rfl

/-- Overwriting spares the scopes that do not bind the name, and the root. -/
theorem view_overwrite (name : String) (value : Value) (targets ids : List ScopeId)
    (hin : ids.dropLast ⊆ targets) (hroot : ∀ root, ids.getLast? = some root → root ∉ targets) :
    ids.map (s.overwrite targets name value).getLocal? =
      overwriteView name value (ids.map s.getLocal?) := by
  induction ids with
  | nil => rfl
  | cons id around ih =>
      cases around with
      | nil =>
          have hid : (s.overwrite targets name value).getLocal? id = s.getLocal? id := by
            funext x
            by_cases hx : x = name
            · rw [hx, getLocal?_overwrite, if_neg fun hmem => hroot id rfl hmem.1]
            · exact getLocal?_overwrite_of_ne targets value id hx
          rw [List.map_singleton, hid]
          rfl
      | cons next around =>
          rw [List.dropLast_cons_of_ne_nil (List.cons_ne_nil next around)] at hin
          obtain ⟨hid, haround⟩ := List.cons_subset.mp hin
          have hnames : (s.overwrite targets name value).getLocal? id =
              if (s.getLocal? id name).isSome then Names.bind name (.value value) (s.getLocal? id)
              else s.getLocal? id := by
            funext x
            by_cases hx : x = name
            · rw [hx, getLocal?_overwrite]
              by_cases hbound : (s.getLocal? id name).isSome
              · rw [if_pos ⟨hid, hbound⟩, if_pos hbound, Names.bind, if_pos rfl]
              · rw [if_neg fun hmem => hbound hmem.2, if_neg hbound]
            · rw [getLocal?_overwrite_of_ne targets value id hx]
              split
              · rw [Names.bind, if_neg hx]
              · rfl
          rw [List.map_cons, hnames, ih haround
            fun root h => hroot root (by rw [List.getLast?_cons_cons]; exact h)]
          rfl

/-- What an assignment does to the view does not depend on indices. -/
theorem view_assign (h : s.Chained a) (name : String) (value : Value) :
    (s.assign a name value).view a = assignView name value (s.view a) := by
  have hpath : (s.path a).Nodup := (List.nodup_cons.mp h.nodup).2
  -- the root stands last in the path and nowhere else, so that it is not among the targets
  have hroot : ∀ root, (s.path a).getLast? = some root → root ∉ (s.path a).dropLast := by
    intro root hlast hmem
    obtain ⟨front, hfront⟩ := List.getLast?_eq_some_iff.mp hlast
    rw [hfront, List.dropLast_concat] at hmem
    rw [hfront] at hpath
    exact (List.nodup_append.mp hpath).2.2 root hmem root (List.mem_singleton_self root) rfl
  have hwritten :=
    view_overwrite (s := s) name value (s.path a).dropLast (s.path a) (List.Subset.refl _) hroot
  have hsame := ChangedOnly.overwrite (List.Subset.refl (s.path a).dropLast) s name value
  have hself : (s.overwrite (s.path a).dropLast name value).getLocal? a = s.getLocal? a := by
    refine funext fun x => getLocal?_of_store (hsame.store a fun hmem => h.not_mem_path ?_) x
    exact List.dropLast_subset _ hmem
  unfold assign
  rw [view_define (h.changed hsame) name (.value value)]
  unfold view chain
  rw [hsame.path, List.map_cons, hself, hwritten]
  rfl

/-- A new scope binds nothing, and sees what the scope around it sees. -/
theorem view_addChild (hold : ∀ i ∈ s.chain p, i < s.size) :
    (s.addChild p).view s.size = (fun _ => none) :: s.view p := by
  have hnew : (s.addChild p).getLocal? s.size = fun _ => none := by
    funext x
    unfold getLocal?
    rw [store_addChild_self]
    rfl
  have haround : (s.chain p).map (s.addChild p).getLocal? = (s.chain p).map s.getLocal? := by
    refine List.map_congr_left fun i hi => funext fun x => ?_
    exact getLocal?_of_store (store_addChild_of_ne p (Nat.ne_of_lt (hold i hi))) x
  unfold view
  rw [chain_addChild_self, List.map_cons, hnew, haround]

/-- When the scope of a block is left, the view from around it is what was seen from inside. -/
theorem view_leave {ids : List ScopeId} (h : s.Chained a)
    (hs : ChangedOnly (s.size :: ids) (s.addChild a) s') :
    (s'.release s.size).view a = (s'.view s.size).tail := by
  have hchain : s'.chain s.size = s.size :: s.chain a := by rw [hs.chain, chain_addChild_self]
  unfold view
  rw [hs.leave.chain, hchain, List.map_cons, List.tail_cons]
  refine List.map_congr_left fun i hi => funext fun x => ?_
  exact getLocal?_of_store (store_release_of_lt (h.bounded i hi)) x

/-! ## Equal views -/

/-- From the scope `a` of `s` and the scope `b` of `t` the same is seen. -/
structure Mirrors (a b : ScopeId) (s t : Scopes) : Prop where
  left : s.Chained a
  right : t.Chained b
  view : s.view a = t.view b

/-- Equal views end with equal global scopes. -/
theorem Mirrors.globals (h : Mirrors a b s t) :
    s.getLocal? Machine.global = t.getLocal? Machine.global := by
  have hlast := getLast?_view h.left
  rw [h.view, getLast?_view h.right] at hlast
  exact (Option.some.inj hlast).symm

/-- What the evaluator does to scopes keeps views equal. -/
theorem mirrors_simulation : AssignRule.Simulation Mirrors Scopes.assign Scopes.assign where
  framed_left := assign_changedOnly
  framed_right := assign_changedOnly
  rooted h := ⟨h.left.rooted, h.right.rooted⟩
  get? h name := by rw [get?_eq_view, get?_eq_view, h.view]
  define {a b s t} h name binding := by
    refine ⟨h.left.changed (ChangedOnly.define (List.mem_singleton_self a) s name binding),
      h.right.changed (ChangedOnly.define (List.mem_singleton_self b) t name binding), ?_⟩
    rw [view_define h.left, view_define h.right, h.view]
  assign {a b s t} h name value := by
    refine ⟨h.left.changed (assign_changedOnly s a name value),
      h.right.changed (assign_changedOnly t b name value), ?_⟩
    rw [view_assign h.left, view_assign h.right, h.view]
  child h := by
    refine ⟨h.left.addBlock, h.right.addBlock, ?_⟩
    rw [view_addChild h.left.bounded, view_addChild h.right.bounded, h.view]
  leave h hs ht hinside := by
    rw [writable_addChild] at hs ht
    refine ⟨h.left.changed hs.leave, h.right.changed ht.leave, ?_⟩
    rw [view_leave h.left hs, view_leave h.right ht, hinside.view]
  call h := by
    refine ⟨h.left.addCall, h.right.addCall, ?_⟩
    rw [view_addChild (chained_global h.left.rooted).bounded,
      view_addChild (chained_global h.right.rooted).bounded, view_global h.left.rooted,
      view_global h.right.rooted, h.globals]

end Scopes

/-! ## Calls -/

/-- Two steps, each on a machine of its own, answer alike and display the same lines. -/
structure EvalM.Indistinct {α : Type} (x y : EvalM α) (m n : Machine) : Prop where
  answer : x.answer m = y.answer n
  output : ∃ lines, (x.after m).output = m.output ++ lines ∧ (y.after n).output = n.output ++ lines

/-- Runs that simulate each other cannot be told apart. -/
theorem EvalM.Indistinct.of_simulates {α : Type} {x y : EvalM α} {Q : Scopes → Scopes → Prop}
    {m n : Machine} (h : Simulates x y (Matches Q m.output n.output))
    (hscopes : Q m.scopes n.scopes) (hdepth : m.depth = n.depth) :
    Indistinct x y m n := by
  obtain ⟨hanswer, hafter⟩ := h m n ⟨hscopes, hdepth, #[], by simp, by simp⟩
  exact ⟨hanswer, hafter.output⟩

/-- Steps one after another that cannot be told apart. -/
theorem EvalM.Indistinct.bind {α β : Type} {x y : EvalM α} {f g : α → EvalM β} {m n : Machine}
    (h : Indistinct x y m n) (hnext : ∀ a, Indistinct (f a) (g a) (x.after m) (y.after n)) :
    Indistinct (x >>= f) (y >>= g) m n := by
  obtain ⟨hanswer, lines, hx, hy⟩ := h
  cases hm : x m with
  | ok a m' =>
      rw [answer_of_ok hm] at hanswer
      rw [after_of_ok hm] at hx hnext
      cases hn : y n with
      | ok b n' =>
          rw [answer_of_ok hn] at hanswer
          rw [after_of_ok hn] at hy hnext
          obtain rfl : a = b := Except.ok.inj hanswer
          obtain ⟨hanswer', lines', hx', hy'⟩ := hnext a
          rw [hx, Array.append_assoc] at hx'
          rw [hy, Array.append_assoc] at hy'
          refine ⟨?_, lines ++ lines', ?_, ?_⟩
          · rw [answer_bind_of_ok hm, answer_bind_of_ok hn]
            exact hanswer'
          · rw [after_bind_of_ok hm]
            exact hx'
          · rw [after_bind_of_ok hn]
            exact hy'
      | error halt n' =>
          rw [answer_of_error hn] at hanswer
          exact absurd hanswer (by simp)
  | error halt m' =>
      rw [answer_of_error hm] at hanswer
      rw [after_of_error hm] at hx
      cases hn : y n with
      | ok b n' =>
          rw [answer_of_ok hn] at hanswer
          exact absurd hanswer (by simp)
      | error halt' n' =>
          rw [answer_of_error hn] at hanswer
          rw [after_of_error hn] at hy
          have hx' := bind_of_error hm f
          have hy' := bind_of_error hn g
          refine ⟨?_, lines, ?_, ?_⟩
          · rw [answer_of_error hx', answer_of_error hy']
            exact congrArg _ (Except.error.inj hanswer)
          · rw [after_of_error hx']
            exact hx
          · rw [after_of_error hy']
            exact hy

theorem EvalM.Indistinct.congr {α : Type} {x x' y y' : EvalM α} {m n : Machine} (hx : x m = x' m)
    (hy : y n = y' n) (h : Indistinct x' y' m n) : Indistinct x y m n := by
  obtain ⟨hanswer, houtput⟩ := h
  unfold EvalM.answer at hanswer
  unfold EvalM.after at houtput
  rw [← hx, ← hy] at hanswer houtput
  exact ⟨hanswer, houtput⟩

theorem EvalM.Indistinct.throw {α : Type} (halt : Halt) (m n : Machine) :
    Indistinct (throw halt : EvalM α) (throw halt) m n :=
  ⟨rfl, #[], Array.append_empty.symm, Array.append_empty.symm⟩

/-- Where a name stands for a procedure, a call of it checks the number of arguments, evaluates
them, and enters the procedure. -/
theorem evaluate_call {c : Context} {scope : ScopeId} {m : Machine} {callee : Token}
    {p : Procedure} (h : m.scopes.get? scope callee.text = some (.procedure p))
    (arguments : List Expr) (closing : Token) :
    evaluate c scope (.call callee arguments closing) m =
      (do
        checkArity p.name.text p.params.length arguments.length
          (Expr.call callee arguments closing).span
        let values ← evaluateAll c scope arguments
        enter c p values (Expr.call callee arguments closing).span : EvalM Value) m := by
  have hlookup : Machine.lookup scope callee m = .ok (.procedure p) m := by
    unfold Machine.lookup Scopes.lookup
    rw [h]
  rw [evaluate, bind_of_ok hlookup]

/-- The arguments are evaluated without a change to the scopes or to the calls under way. -/
theorem evaluateAll_within (fuel : Nat) {m : Machine} (hm : m.scopes.Rooted) (scope : ScopeId)
    (es : List Expr) :
    Machine.Within [] m ((evaluateAll (.standard fuel) scope es).after m) :=
  evaluateAll_preserves (Context.framed_standard fuel) hm scope es m (Machine.Within.refl [] m)

/-- **A procedure sees only its arguments and the globals.** Take two machines whose global scopes
bind the same names to the same things and on which equally many calls are under way, and on each
of them a scope from which `callee` stands for the procedure `p` and the arguments come out alike.
The call then has the same value or fails in the same way, and displays the same lines. Nothing is
asked of any other scope on either machine. -/
theorem call_isolated (fuel : Nat) {m n : Machine} (hm : m.scopes.Rooted) (hn : n.scopes.Rooted)
    (hglobals : ∀ name, m.scopes.getLocal? Machine.global name =
      n.scopes.getLocal? Machine.global name)
    (hdepth : m.depth = n.depth) {a b : ScopeId} {callee : Token} {p : Procedure}
    (ha : m.scopes.get? a callee.text = some (.procedure p))
    (hb : n.scopes.get? b callee.text = some (.procedure p)) {arguments : List Expr}
    (harguments : Indistinct (evaluateAll (.standard fuel) a arguments)
      (evaluateAll (.standard fuel) b arguments) m n)
    (closing : Token) :
    Indistinct (evaluate (.standard fuel) a (.call callee arguments closing))
      (evaluate (.standard fuel) b (.call callee arguments closing)) m n := by
  have hmirrors : Scopes.Mirrors Machine.global Machine.global m.scopes n.scopes := by
    refine ⟨Scopes.chained_global hm, Scopes.chained_global hn, ?_⟩
    rw [Scopes.view_global hm, Scopes.view_global hn, funext hglobals]
  have hcontext := Context.simulation_withRule Scopes.mirrors_simulation fuel
  refine Indistinct.congr (evaluate_call ha arguments closing)
    (evaluate_call hb arguments closing) ?_
  unfold checkArity
  split
  · -- the arguments leave both machines as they were, up to what they displayed
    have hleft := evaluateAll_within fuel hm a arguments
    have hright := evaluateAll_within fuel hn b arguments
    refine harguments.bind (f := fun values => enter _ p values _)
      (g := fun values => enter _ p values _) fun values => ?_
    refine Indistinct.of_simulates
      (simulates_enter hcontext Machine.global Machine.global p values _) ?_ ?_
    · rw [hleft.scopes.eq, hright.scopes.eq]
      exact hmirrors
    · rw [hleft.depth, hright.depth, hdepth]
  · exact Indistinct.throw _ m n

/-- The procedure `reveal` displays its argument and returns `secret`, which is none of its
names. -/
def reveal : Procedure :=
  ⟨⟨"reveal", .identifier, 16⟩, [⟨"x", .identifier, 18⟩],
    [.expression
      (.call ⟨"DISPLAY", .identifier, 30⟩ [.name ⟨"x", .identifier, 32⟩] ⟨")", .closeParen, 33⟩),
      .returns (.name ⟨"secret", .identifier, 48⟩)]⟩

/-- A machine with `reveal`. -/
def withReveal : Machine :=
  ⟨Machine.fresh.scopes.define Machine.global "reveal" (.procedure reveal), 0, #[]⟩

/-- The same, and a scope below the global one that binds `secret`. -/
def withSecret : Machine :=
  ⟨(withReveal.scopes.addChild Machine.global).define 1 "secret" (.value (.boolean true)),
    0, #["earlier"]⟩

/-- Called from the scope of the secret, `reveal` does what it does without a secret: it displays
its argument and fails. -/
theorem call_isolated_reveal :
    Indistinct (evaluate (.standard 0) 1
      (.call reveal.name [.literal ⟨"true", .truth, 60⟩] ⟨")", .closeParen, 61⟩))
        (evaluate (.standard 0) Machine.global
          (.call reveal.name [.literal ⟨"true", .truth, 60⟩] ⟨")", .closeParen, 61⟩))
        withSecret withReveal ∧
      (withSecret.scopes.get? 1 "secret").isSome = true ∧
      ((evaluate (.standard 0) 1
        (.call reveal.name [.literal ⟨"true", .truth, 60⟩] ⟨")", .closeParen, 61⟩)).after
        withSecret).output = #["earlier", "true"] ∧
      (evaluate (.standard 0) 1
        (.call reveal.name [.literal ⟨"true", .truth, 60⟩] ⟨")", .closeParen, 61⟩)).answer
        withSecret = .error (.error (.undefinedName ⟨"secret", .identifier, 48⟩)) := by
  have hreveal : withReveal.scopes.Rooted := Scopes.rooted_fresh.define _ _ _
  have hsecret : withSecret.scopes.Rooted := (hreveal.addChild _).define _ _ _
  refine ⟨call_isolated 0 hsecret hreveal (fun _ => rfl) rfl (p := reveal) rfl rfl
    ⟨rfl, #[], rfl, rfl⟩ _, rfl, rfl, rfl⟩

end Pseudocode
