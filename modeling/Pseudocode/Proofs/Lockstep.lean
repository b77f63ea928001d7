import Pseudocode.Interpreter
import Pseudocode.Proofs.Framing

/-!
# Two runs in lockstep

Two runs of programs that differ are compared step by step. Where the programs differ, so do the
procedures that they store and the errors that they raise, so neither the stores nor the answers
can be expected to be equal. They are related: `EvalM.Relates` says that two steps, begun on
related machines, both succeed or both fail, with related answers, and leave related machines
behind.

The machines that occur have stores of one shape which bind the same names, and what they bind a
name to is related (`Scopes.Linked`). Every operation on stores keeps that, whatever the relation
between bindings is.
-/

namespace Pseudocode

open Machine (fail ofExcept lookup updateScopes define emit inChild calling)

variable {α β γ δ : Type}

namespace EvalM

/-! ## Steps -/

/-- On machines in the relation `R` two steps both succeed, with values as `post` says, or both
fail, in ways that `E` relates. The machines after them are in the relation again. -/
def Relates (x : EvalM α) (y : EvalM β) (R : Machine → Machine → Prop) (E : Halt → Halt → Prop)
    (post : α → β → Prop) : Prop :=
  ∀ m n, R m n → match x m, y n with
    | .ok a m', .ok b n' => post a b ∧ R m' n'
    | .error halt m', .error halt' n' => E halt halt' ∧ R m' n'
    | _, _ => False

variable {R : Machine → Machine → Prop} {E : Halt → Halt → Prop} {post : α → β → Prop}
  {post' : γ → δ → Prop}

theorem relates_pure {a : α} {b : β} (h : post a b) : Relates (pure a) (pure b) R E post :=
  fun _ _ hR => ⟨h, hR⟩

theorem relates_throw {halt halt' : Halt} (h : E halt halt') :
    Relates (throw halt : EvalM α) (throw halt' : EvalM β) R E post :=
  fun _ _ hR => ⟨h, hR⟩

/-- Steps one after another. The second may use what the first says about its answers. -/
theorem relates_bind {x : EvalM α} {y : EvalM β} {f : α → EvalM γ} {g : β → EvalM δ}
    (hstep : Relates x y R E post) (hnext : ∀ a b, post a b → Relates (f a) (g b) R E post') :
    Relates (x >>= f) (y >>= g) R E post' := by
  intro m n hR
  have h := hstep m n hR
  cases hx : x m with
  | ok a m' =>
      cases hy : y n with
      | ok b n' =>
          rw [hx, hy] at h
          rw [bind_of_ok hx, bind_of_ok hy]
          exact hnext a b h.1 m' n' h.2
      | error halt' n' => rw [hx, hy] at h; exact h.elim
  | error halt m' =>
      cases hy : y n with
      | ok b n' => rw [hx, hy] at h; exact h.elim
      | error halt' n' =>
          rw [hx, hy] at h
          rw [bind_of_error hx, bind_of_error hy]
          exact h

/-- Two results that are both values or both errors. -/
theorem relates_ofExcept {r : Except Error α} {r' : Except Error β}
    (h : (∃ a b, r = .ok a ∧ r' = .ok b ∧ post a b)
      ∨ ∃ e e', r = .error e ∧ r' = .error e' ∧ E (.error e) (.error e')) :
    Relates (ofExcept r) (ofExcept r') R E post := by
  rcases h with ⟨a, b, rfl, rfl, h⟩ | ⟨e, e', rfl, rfl, h⟩
  · exact relates_pure h
  · exact relates_throw h

/-! ### The same answer on both sides -/

/-- Both answers are the same, and it is as `P` says. -/
def Same (P : α → Prop) (a b : α) : Prop := b = a ∧ P a

variable {P : α → Prop}

/-- The same, where both first steps have one answer. -/
theorem relates_bind_same {x y : EvalM α} {f g : α → EvalM γ} {post : γ → γ → Prop}
    (hstep : Relates x y R E (Same P)) (hnext : ∀ a, P a → Relates (f a) (g a) R E post) :
    Relates (x >>= f) (y >>= g) R E post := by
  refine relates_bind hstep ?_
  rintro a b ⟨rfl, ha⟩
  exact hnext b ha

/-- The number of arguments is right on both sides, or on neither. -/
theorem relates_checkArity {name : String} {expected found : Nat} {span span' : Span}
    (h : E (.error (.arityMismatch name expected found span))
      (.error (.arityMismatch name expected found span'))) :
    Relates (checkArity name expected found span) (checkArity name expected found span') R E
      (Same fun _ => True) := by
  unfold checkArity
  split
  · exact relates_pure ⟨rfl, trivial⟩
  · exact relates_throw h

end EvalM

/-- What a statement returns, if it returns, is as `P` says. -/
def Flow.Carries (P : Value → Prop) (flow : Flow) : Prop :=
  ∀ value, flow.value? = some value → P value

namespace EvalM

variable {R : Machine → Machine → Prop} {E : Halt → Halt → Prop} {P : Value → Prop}

theorem relates_next : Relates (pure .next) (pure .next) R E (Same (Flow.Carries P)) :=
  relates_pure ⟨rfl, fun _ h => nomatch h⟩

theorem relates_returned {value : Value} (h : P value) :
    Relates (pure (.returned value)) (pure (.returned value)) R E (Same (Flow.Carries P)) :=
  relates_pure ⟨rfl, fun _ hvalue => Option.some.inj hvalue ▸ h⟩

/-- What follows a statement runs on both sides or is skipped on both. -/
theorem relates_continue {next next' : EvalM Flow}
    (hnext : Relates next next' R E (Same (Flow.Carries P))) (flow : Flow) :
    flow.Carries P → Relates
      (match flow with | .next => next | .returned value => pure (.returned value) : EvalM Flow)
      (match flow with | .next => next' | .returned value => pure (.returned value) : EvalM Flow)
      R E (Same (Flow.Carries P)) := by
  intro hflow
  cases flow with
  | next => exact hnext
  | returned value => exact relates_returned (hflow value rfl)

theorem relates_repeatTimes {body body' : EvalM Flow}
    (hbody : Relates body body' R E (Same (Flow.Carries P))) (count : Nat) :
    Relates (repeatTimes body count) (repeatTimes body' count) R E (Same (Flow.Carries P)) := by
  induction count with
  | zero => exact relates_next
  | succ count ih =>
      unfold repeatTimes
      exact relates_bind_same hbody (relates_continue ih)

/-- A loop takes the same number of rounds on both sides. -/
theorem relates_repeatUntil {finished finished' : EvalM Bool} {body body' : EvalM Flow}
    (hfuel : E .outOfFuel .outOfFuel)
    (hfinished : Relates finished finished' R E (Same fun _ => True))
    (hbody : Relates body body' R E (Same (Flow.Carries P))) (fuel : Nat) :
    Relates (repeatUntil finished body fuel) (repeatUntil finished' body' fuel) R E
      (Same (Flow.Carries P)) := by
  induction fuel with
  | zero => exact relates_throw hfuel
  | succ fuel ih =>
      unfold repeatUntil
      refine relates_bind_same hfinished fun done _ => ?_
      cases done with
      | true => exact relates_next
      | false => exact relates_bind_same hbody (relates_continue ih)

/-- So does a loop over a list. -/
theorem relates_forEach {body body' : Value → EvalM Flow} {items : List Value}
    (hbody : ∀ item ∈ items, Relates (body item) (body' item) R E (Same (Flow.Carries P))) :
    Relates (forEach body items) (forEach body' items) R E (Same (Flow.Carries P)) := by
  induction items with
  | nil => exact relates_next
  | cons item rest ih =>
      unfold forEach
      refine relates_bind_same (hbody item List.mem_cons_self)
        (relates_continue (ih fun other h => ?_))
      exact hbody other (List.mem_cons_of_mem _ h)

end EvalM

/-! ## Stores -/

/-- Stores of one shape that bind the same names, to things that `B` relates. -/
structure Scopes.Linked (B : Binding → Binding → Prop) (s t : Scopes) : Prop where
  size : t.size = s.size
  path : ∀ i, t.path i = s.path i
  bindings : ∀ i name, Option.Rel B (s.getLocal? i name) (t.getLocal? i name)

namespace Scopes

/-- What a definition changes, and that it changes nothing where there is no scope. -/
theorem getLocal?_define_if (s : Scopes) (id i : ScopeId) (name x : String) (binding : Binding) :
    (s.define id name binding).getLocal? i x =
      if (i = id ∧ x = name) ∧ id < s.size then some binding else s.getLocal? i x := by
  by_cases hsame : i = id ∧ x = name
  · obtain ⟨rfl, rfl⟩ := hsame
    by_cases hlt : i < s.size
    · rw [if_pos ⟨⟨rfl, rfl⟩, hlt⟩, getLocal?_define_self x binding hlt]
    · have hnone : ∀ u : Scopes, u.size = s.size → u.getLocal? i x = none := by
        intro u hu
        unfold getLocal?
        rw [Array.getElem?_eq_none (show u.size ≤ i from hu ▸ Nat.le_of_not_lt hlt)]
      rw [if_neg fun h => hlt h.2, hnone s rfl, hnone _ (size_define s i x binding)]
  · rw [if_neg fun h => hsame h.1]
    exact getLocal?_define_of_ne binding (Decidable.not_and_iff_or_not.mp hsame)

theorem getLocal?_addChild (s : Scopes) (parent i : ScopeId) (x : String) :
    (s.addChild parent).getLocal? i x = if i = s.size then none else s.getLocal? i x := by
  split
  · rename_i h
    rw [h]
    unfold getLocal?
    rw [store_addChild_self]
    rfl
  · rename_i h
    exact getLocal?_of_store (store_addChild_of_ne parent h) x

/-- What is left of a store after a release. -/
theorem getLocal?_release (s : Scopes) (size i : Nat) (x : String) :
    (s.release size).getLocal? i x = if i < size then s.getLocal? i x else none := by
  split
  · rename_i h
    exact getLocal?_of_store (store_release_of_lt h) x
  · rename_i h
    unfold getLocal?
    rw [store_release_of_le (Nat.le_of_not_lt h)]

namespace Linked

variable {B : Binding → Binding → Prop} {s t : Scopes}

theorem chain (h : Linked B s t) (i : ScopeId) : t.chain i = s.chain i := by
  unfold Scopes.chain
  rw [h.path i]

/-- From each scope, a name stands for related things. -/
theorem get? (h : Linked B s t) (id : ScopeId) (name : String) :
    Option.Rel B (s.get? id name) (t.get? id name) := by
  unfold Scopes.get?
  rw [h.chain id]
  induction s.chain id with
  | nil => exact .none
  | cons i rest ih =>
      rw [List.findSome?_cons, List.findSome?_cons]
      have hi := h.bindings i name
      generalize s.getLocal? i name = b at hi ⊢
      generalize t.getLocal? i name = b' at hi ⊢
      cases hi with
      | none => exact ih
      | some hb => exact .some hb

/-- Related bindings may be defined for a name. -/
theorem define {b b' : Binding} (h : Linked B s t) (id : ScopeId) (name : String) (hb : B b b') :
    Linked B (s.define id name b) (t.define id name b') where
  size := by rw [size_define, size_define, h.size]
  path i := by rw [path_define, path_define, h.path i]
  bindings i x := by
    rw [getLocal?_define_if, getLocal?_define_if, h.size]
    split
    · exact .some hb
    · exact h.bindings i x

/-- Overwriting happens on both sides in the same scopes. -/
theorem overwrite {value : Value} (h : Linked B s t) (hvalue : B (.value value) (.value value))
    (ids : List ScopeId) (name : String) :
    Linked B (s.overwrite ids name value) (t.overwrite ids name value) := by
  unfold Scopes.overwrite
  induction ids generalizing s t with
  | nil => exact h
  | cons id rest ih =>
      rw [List.foldl_cons, List.foldl_cons]
      refine ih ?_
      -- the same scopes bind the name on both sides
      have hbinds : t.bindsLocally id name = s.bindsLocally id name := by
        have hi := h.bindings id name
        unfold bindsLocally
        generalize s.getLocal? id name = b at hi ⊢
        generalize t.getLocal? id name = b' at hi ⊢
        cases hi <;> rfl
      rw [hbinds]
      split
      · exact h.define id name hvalue
      · exact h

/-- An assignment writes to the same scopes on both sides. -/
theorem assign {value : Value} (h : Linked B s t) (hvalue : B (.value value) (.value value))
    (id : ScopeId) (name : String) :
    Linked B (s.assign id name value) (t.assign id name value) := by
  unfold Scopes.assign
  rw [h.path id]
  exact (h.overwrite hvalue _ name).define id name hvalue

theorem install (h : Linked B s t) (hbuiltin : ∀ b, B (.builtin b) (.builtin b)) (id : ScopeId) :
    Linked B (s.install id) (t.install id) := by
  unfold Scopes.install
  induction Builtin.all generalizing s t with
  | nil => exact h
  | cons b rest ih =>
      rw [List.foldl_cons, List.foldl_cons]
      exact ih (h.define id b.name (hbuiltin b))

theorem addChild (h : Linked B s t) (parent : ScopeId) :
    Linked B (s.addChild parent) (t.addChild parent) where
  size := by rw [size_addChild, size_addChild, h.size]
  path i := by
    by_cases hi : i = s.size
    · rw [hi, path_addChild_self, ← h.size, path_addChild_self, h.chain]
    · rw [path_of_store (store_addChild_of_ne parent hi),
        path_of_store (store_addChild_of_ne parent (by rw [h.size]; exact hi)), h.path i]
  bindings i x := by
    rw [getLocal?_addChild, getLocal?_addChild, h.size]
    split
    · exact .none
    · exact h.bindings i x

theorem release (h : Linked B s t) (size : Nat) : Linked B (s.release size) (t.release size) where
  size := by rw [size_release, size_release, h.size]
  path i := by
    by_cases hi : i < size
    · rw [path_of_store (store_release_of_lt hi), path_of_store (store_release_of_lt hi), h.path i]
    · have hle : size ≤ i := Nat.le_of_not_lt hi
      rw [path_of_size_le (by rw [size_release]; omega),
        path_of_size_le (by rw [size_release]; omega)]
  bindings i x := by
    rw [getLocal?_release, getLocal?_release]
    split
    · exact h.bindings i x
    · exact .none

/-- A store is linked with itself if everything in it is. -/
theorem refl (h : ∀ i name b, s.getLocal? i name = some b → B b b) : Linked B s s where
  size := rfl
  path _ := rfl
  bindings i name := by
    cases hb : s.getLocal? i name with
    | none => exact .none
    | some b => exact .some (h i name b hb)

/-- A wider relation between bindings links what a narrower one does. -/
theorem mono {B' : Binding → Binding → Prop} (h : Linked B s t) (hB : ∀ b b', B b b' → B' b b') :
    Linked B' s t where
  size := h.size
  path := h.path
  bindings i name := by
    have hi := h.bindings i name
    generalize s.getLocal? i name = b at hi ⊢
    generalize t.getLocal? i name = b' at hi ⊢
    cases hi with
    | none => exact .none
    | some hb => exact .some (hB _ _ hb)

end Linked

end Scopes

/-! ## Machines -/

/-- Machines with linked stores, as many calls under way, and the same output. -/
structure Machine.Linked (B : Binding → Binding → Prop) (m n : Machine) : Prop where
  scopes : m.scopes.Linked B n.scopes
  depth : n.depth = m.depth
  output : n.output = m.output

open EvalM

variable {B : Binding → Binding → Prop} {E : Halt → Halt → Prop} {post : α → β → Prop}

/-- A name is found on both sides or on neither. -/
theorem relates_lookup {scope : ScopeId} {name name' : Token} (htext : name'.text = name.text)
    (h : E (.error (.undefinedName name)) (.error (.undefinedName name'))) :
    Relates (lookup scope name) (lookup scope name') (Machine.Linked B) E B := by
  intro m n hR
  unfold lookup Scopes.lookup
  rw [htext]
  cases hm : m.scopes.get? scope name.text with
  | none =>
      cases hn : n.scopes.get? scope name.text with
      | none => exact ⟨h, hR⟩
      | some b' =>
          have hget := hR.scopes.get? scope name.text
          rw [hm, hn] at hget
          exact nomatch hget
  | some b =>
      have hget := hR.scopes.get? scope name.text
      rw [hm] at hget
      cases hn : n.scopes.get? scope name.text with
      | none => rw [hn] at hget; exact nomatch hget
      | some b' =>
          rw [hn] at hget
          cases hget with
          | some hb => exact ⟨hb, hR⟩

theorem relates_updateScopes {change change' : Scopes → Scopes}
    (h : ∀ s t, s.Linked B t → (change s).Linked B (change' t)) :
    Relates (updateScopes change) (updateScopes change') (Machine.Linked B) E fun _ _ => True :=
  fun m n hR => ⟨trivial, h m.scopes n.scopes hR.scopes, hR.depth, hR.output⟩

theorem relates_define {b b' : Binding} (hb : B b b') (id : ScopeId) {name name' : String}
    (hname : name' = name) :
    Relates (define id name b) (define id name' b') (Machine.Linked B) E fun _ _ => True := by
  subst hname
  exact relates_updateScopes fun _ _ h => h.define id name' hb

/-- Parameters of the same names are bound to the same values. -/
theorem relates_bindParams {values : List Value}
    (hvalues : ∀ v ∈ values, B (.value v) (.value v)) (id : ScopeId)
    {params params' : List Token} (hparams : params'.map Token.text = params.map Token.text) :
    Relates (bindParams id params values) (bindParams id params' values) (Machine.Linked B) E
      fun _ _ => True := by
  induction params generalizing params' values with
  | nil =>
      obtain rfl : params' = [] := List.map_eq_nil_iff.mp hparams
      exact relates_pure trivial
  | cons param params ih =>
      obtain ⟨param', rest', rfl, hparam, hrest⟩ := List.map_eq_cons_iff.mp hparams
      cases values with
      | nil => exact relates_pure trivial
      | cons value values =>
          unfold bindParams
          refine relates_bind (relates_define (hvalues value List.mem_cons_self) id hparam)
            fun _ _ _ => ?_
          exact ih (fun v hv => hvalues v (List.mem_cons_of_mem _ hv)) hrest

theorem relates_emit (line : String) :
    Relates (emit line) (emit line) (Machine.Linked B) E fun _ _ => True :=
  fun _ _ hR => ⟨trivial, hR.scopes, hR.depth, congrArg (·.push line) hR.output⟩

/-- A scope is opened and released on both sides at the same index. -/
theorem relates_inChild {parent : ScopeId} {body : ScopeId → EvalM α} {body' : ScopeId → EvalM β}
    (hbody : ∀ id, Relates (body id) (body' id) (Machine.Linked B) E post) :
    Relates (inChild parent body) (inChild parent body') (Machine.Linked B) E post := by
  rintro ⟨s, depth, output⟩ ⟨t, depth', output'⟩ ⟨hscopes, hdepth, houtput⟩
  have h := hbody s.size ⟨s.addChild parent, depth, output⟩ ⟨t.addChild parent, depth', output'⟩
    ⟨hscopes.addChild parent, hdepth, houtput⟩
  have hleave : ∀ m n, Machine.Linked B m n →
      Machine.Linked B (m.release s.size) (n.release s.size) :=
    fun m n hR => ⟨hR.scopes.release _, hR.depth, hR.output⟩
  rw [inChild_apply, inChild_apply, hscopes.size]
  cases hx : body s.size ⟨s.addChild parent, depth, output⟩ with
  | ok a m =>
      cases hy : body' s.size ⟨t.addChild parent, depth', output'⟩ with
      | ok b n => rw [hx, hy] at h; exact ⟨h.1, hleave m n h.2⟩
      | error halt' n => rw [hx, hy] at h; exact h.elim
  | error halt m =>
      cases hy : body' s.size ⟨t.addChild parent, depth', output'⟩ with
      | ok b n => rw [hx, hy] at h; exact h.elim
      | error halt' n => rw [hx, hy] at h; exact ⟨h.1, hleave m n h.2⟩

/-- The limit of calls is reached on both sides or on neither. -/
theorem relates_calling {span span' : Span} {body : EvalM α} {body' : EvalM β}
    (hlimit : E (.error (.recursionLimit span)) (.error (.recursionLimit span')))
    (hbody : Relates body body' (Machine.Linked B) E post) :
    Relates (calling span body) (calling span' body') (Machine.Linked B) E post := by
  rintro ⟨s, depth, output⟩ ⟨t, depth', output'⟩ ⟨hscopes, hdepth, houtput⟩
  obtain rfl : depth' = depth := hdepth
  by_cases hroom : depth' < callLimit
  · have h := hbody ⟨s, depth' + 1, output⟩ ⟨t, depth' + 1, output'⟩ ⟨hscopes, rfl, houtput⟩
    have hleave : ∀ m n, Machine.Linked B m n →
        Machine.Linked B ⟨m.scopes, m.depth - 1, m.output⟩ ⟨n.scopes, n.depth - 1, n.output⟩ :=
      fun m n hR => ⟨hR.scopes, congrArg (· - 1) hR.depth, hR.output⟩
    unfold calling
    simp only [hroom, if_true]
    cases hx : body ⟨s, depth' + 1, output⟩ with
    | ok a m =>
        cases hy : body' ⟨t, depth' + 1, output'⟩ with
        | ok b n => rw [hx, hy] at h; exact ⟨h.1, hleave m n h.2⟩
        | error halt' n => rw [hx, hy] at h; exact h.elim
    | error halt m =>
        cases hy : body' ⟨t, depth' + 1, output'⟩ with
        | ok b n => rw [hx, hy] at h; exact h.elim
        | error halt' n => rw [hx, hy] at h; exact ⟨h.1, hleave m n h.2⟩
  · have hle : callLimit ≤ depth' := Nat.le_of_not_lt hroom
    rw [calling_of_le span body s output hle, calling_of_le span' body' t output' hle]
    exact ⟨hlimit, hscopes, rfl, houtput⟩

end Pseudocode
