import Pseudocode.Proofs.Session

/-!
# Blocks leak no names

A conditional or a loop runs its blocks in scopes of their own, one for each round, and an
assignment inside may write to many scopes around at once. What can a look at the old scopes tell,
when the statement is over, of what went on inside? Only that names which were bound before have
got other values, and only names that some assignment of the statement is written for.

That the writes stay in the chain is known from framing. What is new is which names they go to.
Assignment overwrites a name around it only where it is bound, and binds it anew only in its own
scope, which inside a block is none of the old ones. So the invariant splits the store at the index
where the statement began: below it each name is as it was, or was bound, is bound, and is one of
the targets (`Scopes.Spared`). Procedures may be called at any point of the block; what they assign
is not written in the statement, but by framing nothing of it is left when the call is over.
-/

namespace Pseudocode

open Machine (fail ofExcept lookup updateScopes define emit inChild calling Within)
open EvalM

/-! ## Trees of scopes -/

namespace Scopes

variable {s t : Scopes}

/-- Every scope is a root, or was added below a scope that was there before. -/
def Tree (s : Scopes) : Prop := ∀ i < s.size, s.path i = [] ∨ ∃ parent < i,
    s.path i = s.chain parent

namespace Tree

/-- A change of bindings leaves the tree as it is. -/
theorem changed {ids : List ScopeId} (hs : s.Tree) (h : ChangedOnly ids s t) : t.Tree := by
  intro i hi
  rw [h.size] at hi
  rw [h.path i]
  refine (hs i hi).imp_right ?_
  rintro ⟨parent, hlt, hpath⟩
  exact ⟨parent, hlt, by rw [h.chain parent, hpath]⟩

/-- Scopes are added below scopes that are there. -/
theorem addChild (hs : s.Tree) {parent : ScopeId} (h : parent < s.size) :
    (s.addChild parent).Tree := by
  have hold : ∀ i, i ≠ s.size → (s.addChild parent).path i = s.path i :=
    fun i hi => path_of_store (store_addChild_of_ne parent hi)
  have hchain : ∀ i, i < s.size → (s.addChild parent).chain i = s.chain i :=
    fun i hi => congrArg (i :: ·) (hold i (Nat.ne_of_lt hi))
  intro i hi
  rw [size_addChild] at hi
  rcases Nat.lt_or_eq_of_le (Nat.le_of_lt_succ hi) with hlt | rfl
  · rw [hold i (Nat.ne_of_lt hlt)]
    refine (hs i hlt).imp_right ?_
    rintro ⟨around, haround, hpath⟩
    exact ⟨around, haround, by rw [hchain around (Nat.lt_trans haround hlt), hpath]⟩
  · rw [path_addChild_self]
    exact .inr ⟨parent, h, (hchain parent h).symm⟩

/-- A chain ends at its first root. -/
theorem path_ne_nil {i j : ScopeId} (hs : s.Tree) (h : j ∈ (s.chain i).dropLast) :
    s.path j ≠ [] := by
  induction i using Nat.strongRecOn with
  | ind i ih =>
      unfold chain at h
      cases hpath : s.path i with
      | nil =>
          rw [hpath] at h
          exact absurd h List.not_mem_nil
      | cons next rest =>
          have hi : i < s.size := by
            rcases Nat.lt_or_ge i s.size with hlt | hge
            · exact hlt
            · rw [path_of_size_le hge] at hpath
              exact nomatch hpath
          rcases hs i hi with hnil | ⟨parent, hlt, hparent⟩
          · rw [hnil] at hpath
            exact nomatch hpath
          · have hne : s.chain parent ≠ [] := List.cons_ne_nil _ _
            rw [hparent, List.dropLast_cons_of_ne_nil hne] at h
            rcases List.mem_cons.mp h with rfl | h
            · rw [hpath]
              exact List.cons_ne_nil _ _
            · exact ih parent hlt h

end Tree

theorem tree_fresh : Machine.fresh.scopes.Tree := by
  have hroot : empty.addRoot.Tree := by
    intro i hi
    obtain rfl : i = 0 := Nat.lt_one_iff.mp hi
    exact .inl rfl
  exact hroot.changed (install_changedOnly _ _)

theorem Rooted.release {n : Nat} (hs : s.Rooted) (h : Machine.global < n) :
    (s.release n).Rooted where
  exists_global := by
    rw [size_release]
    exact Nat.lt_min.mpr ⟨h, hs.exists_global⟩
  path_global := by rw [path_of_store (store_release_of_lt h), hs.path_global]

/-! ## Names below a given index -/

/-- Below the index `bound` every scope of `t` binds each name as in `s`, or else the name is one
of `names`, and is bound on both sides. -/
structure Spared (bound : Nat) (names : List String) (s t : Scopes) : Prop where
  size : bound ≤ t.size
  kept : ∀ i < bound, ∀ x, t.getLocal? i x = s.getLocal? i x
    ∨ x ∈ names ∧ (s.getLocal? i x).isSome = true ∧ (t.getLocal? i x).isSome = true

namespace Spared

variable {bound : Nat} {names : List String}

theorem refl (s : Scopes) (names : List String) : Spared s.size names s s :=
  ⟨Nat.le_refl _, fun _ _ _ => .inl rfl⟩

/-- A change that leaves the names below `bound` as they are. -/
theorem still {t' : Scopes} (h : Spared bound names s t) (hsize : bound ≤ t'.size)
    (hsame : ∀ i < bound, ∀ x, t'.getLocal? i x = t.getLocal? i x) : Spared bound names s t' :=
  ⟨hsize, fun i hi x => by rw [hsame i hi x]; exact h.kept i hi x⟩

theorem define {id : ScopeId} (h : Spared bound names s t) (hid : bound ≤ id) (name : String)
    (binding : Binding) :
    Spared bound names s (t.define id name binding) := by
  refine h.still (by rw [size_define]; exact h.size) fun i hi x => ?_
  exact getLocal?_define_of_ne binding (.inl (Nat.ne_of_lt (Nat.lt_of_lt_of_le hi hid)))

/-- Overwriting a target leaves it bound where it was bound. -/
theorem overwrite {name : String} (h : Spared bound names s t) (hname : name ∈ names)
    (ids : List ScopeId) (value : Value) :
    Spared bound names s (t.overwrite ids name value) := by
  refine ⟨?_, fun i hi x => ?_⟩
  · rw [(ChangedOnly.overwrite (List.Subset.refl ids) t name value).size]
    exact h.size
  by_cases hx : x = name
  · subst hx
    rw [getLocal?_overwrite]
    split
    · rename_i hbound
      -- the name was bound in `t`, and so it was in `s`
      refine .inr ⟨hname, ?_, rfl⟩
      rcases h.kept i hi x with hsame | ⟨-, hs, -⟩
      · rw [← hsame]
        exact hbound.2
      · exact hs
    · exact h.kept i hi x
  · rw [getLocal?_overwrite_of_ne ids value i hx]
    exact h.kept i hi x

/-- An assignment in a new scope touches old ones only where they bind the name. -/
theorem assign {id : ScopeId} {name : String} (h : Spared bound names s t) (hid : bound ≤ id)
    (hname : name ∈ names) (value : Value) : Spared bound names s (t.assign id name value) :=
  (h.overwrite hname _ value).define hid name (.value value)

theorem addChild (h : Spared bound names s t) (parent : ScopeId) :
    Spared bound names s (t.addChild parent) := by
  refine h.still (by rw [size_addChild]; exact Nat.le_succ_of_le h.size) fun i hi x => ?_
  exact getLocal?_of_store
    (store_addChild_of_ne parent (Nat.ne_of_lt (Nat.lt_of_lt_of_le hi h.size))) x

/-- New scopes may be released. -/
theorem release {n : Nat} (h : Spared bound names s t) (hn : bound ≤ n) :
    Spared bound names s (t.release n) := by
  refine h.still (by rw [size_release]; exact Nat.le_min.mpr ⟨hn, h.size⟩) fun i hi x => ?_
  exact getLocal?_of_store (store_release_of_lt (Nat.lt_of_lt_of_le hi hn)) x

end Spared

end Scopes

/-! ## Targets of assignments -/

mutual

/-- The names that the assignments of a statement are written for. Procedure bodies do not
count. -/
def Stmt.targets : Stmt → List String
  | .procedure .. => []
  | .assign target _ => [target.text]
  | .ifThen _ thenBlock => Block.targets thenBlock
  | .ifThenElse _ thenBlock elseBlock => Block.targets thenBlock ++ Block.targets elseBlock
  | .repeatTimes _ body => Block.targets body
  | .repeatUntil _ body => Block.targets body
  | .forEach _ _ body => Block.targets body
  | .returns _ => []
  | .expression _ => []

/-- The names that the assignments of a block are written for. -/
def Block.targets : List Stmt → List String
  | [] => []
  | s :: rest => s.targets ++ Block.targets rest

end

/-- Conditionals and loops. -/
def Stmt.opensBlock : Stmt → Bool
  | .ifThen .. | .ifThenElse .. | .repeatTimes .. | .repeatUntil .. | .forEach .. => true
  | _ => false

/-- Conditionals and loops declare nothing in their own scope. -/
theorem Stmt.declares_of_opensBlock {stmt : Stmt} (h : stmt.opensBlock = true) :
    stmt.declares = false := by
  cases stmt <;> first | rfl | exact absurd h (by simp [Stmt.opensBlock])

/-! ## What a block does to the old scopes -/

/-- The old scopes are spared, and there is a global scope for calls to start from. -/
structure Machine.Spares (bound : Nat) (names : List String) (s : Scopes)
    (m : Machine) : Prop where
  rooted : m.scopes.Rooted
  scopes : s.Spared bound names m.scopes

variable {α : Type} {bound : Nat} {names : List String} {s : Scopes}

/-- A step that changes no scope. -/
theorem spares_of_still {step : EvalM α}
    (h : ∀ m₀ : Machine, m₀.scopes.Rooted → step.Preserves (Within [] m₀)) :
    step.Preserves (Machine.Spares bound names s) := by
  intro m hm
  have hscopes := (h m hm.rooted m (Within.refl [] m)).scopes.eq
  exact ⟨hscopes ▸ hm.rooted, hscopes ▸ hm.scopes⟩

theorem spares_define {id : ScopeId} (hid : bound ≤ id) (name : String) (binding : Binding) :
    (define id name binding).Preserves (Machine.Spares bound names s) :=
  fun _ hm => ⟨hm.rooted.define id name binding, hm.scopes.define hid name binding⟩

/-- An assignment to one of the targets, in a new scope. -/
theorem spares_assign {id : ScopeId} {name : String} (hid : bound ≤ id) (hname : name ∈ names)
    (value : Value) :
    (updateScopes fun scopes => scopes.assign id name value).Preserves
      (Machine.Spares bound names s) :=
  fun m hm => ⟨hm.rooted.changed (m.scopes.assign_changedOnly id name value),
    hm.scopes.assign hid hname value⟩

/-- A scope that is opened now comes behind the old ones, wherever in the tree it stands. -/
theorem spares_inChild {body : ScopeId → EvalM α}
    (hbody : ∀ id, bound ≤ id → (body id).Preserves (Machine.Spares bound names s))
    (parent : ScopeId) :
    (inChild parent body).Preserves (Machine.Spares bound names s) := by
  rintro ⟨scopes, depth, output⟩ ⟨hrooted, hscopes⟩
  have hinside := hbody scopes.size hscopes.size ⟨scopes.addChild parent, depth, output⟩
    ⟨hrooted.addChild parent, hscopes.addChild parent⟩
  rw [after_inChild]
  exact ⟨hinside.rooted.release hrooted.exists_global, hinside.scopes.release hscopes.size⟩

variable {c : Context}

mutual

/-- A statement inside a block spares the old scopes. One that only opens further blocks may stand
in an old scope itself. -/
theorem execute_spares (hc : c.Framed) (hassign : c.assign = Scopes.assign) :
    ∀ stmt : Stmt, stmt.targets ⊆ names → ∀ id, (stmt.declares = true → bound ≤ id) →
      (execute c stmt id).Preserves (Machine.Spares bound names s)
  | .procedure name params body, _, id, hid => by
      unfold execute
      exact preserves_bind (spares_define (hid rfl) _ _) fun _ => preserves_pure _
  | .assign target value, htargets, id, hid => by
      unfold execute
      refine preserves_bind (spares_of_still fun m₀ hm₀ => evaluate_preserves hc hm₀ id value)
        fun result => ?_
      rw [hassign]
      exact preserves_bind (spares_assign (hid rfl) (htargets List.mem_cons_self) result)
        fun _ => preserves_pure _
  | .ifThen condition thenBlock, htargets, id, _ => by
      unfold execute
      refine preserves_bind (spares_of_still
        fun m₀ hm₀ => evaluateCondition_preserves hc hm₀ id _ condition) fun holds => ?_
      split
      · exact spares_inChild (executeBlock_spares hc hassign thenBlock htargets) id
      · exact preserves_pure _
  | .ifThenElse condition thenBlock elseBlock, htargets, id, _ => by
      obtain ⟨hthen, helse⟩ := List.append_subset.mp htargets
      unfold execute
      refine preserves_bind (spares_of_still
        fun m₀ hm₀ => evaluateCondition_preserves hc hm₀ id _ condition) fun holds => ?_
      split
      · exact spares_inChild (executeBlock_spares hc hassign thenBlock hthen) id
      · exact spares_inChild (executeBlock_spares hc hassign elseBlock helse) id
  | .repeatTimes count body, htargets, id, _ => by
      unfold execute
      refine preserves_bind (spares_of_still fun m₀ hm₀ => evaluateCount_preserves hc hm₀ id count)
        fun rounds => ?_
      exact preserves_repeatTimes
        (spares_inChild (executeBlock_spares hc hassign body htargets) id) rounds
  | .repeatUntil condition body, htargets, id, _ => by
      unfold execute
      refine preserves_repeatUntil (spares_of_still fun m₀ hm₀ => ?_) ?_ c.fuel
      · exact evaluateCondition_preserves hc hm₀ id _ condition
      · exact spares_inChild (executeBlock_spares hc hassign body htargets) id
  | .forEach item list body, htargets, id, _ => by
      unfold execute
      refine preserves_bind (spares_of_still fun m₀ hm₀ => evaluateItems_preserves hc hm₀ id list)
        fun items => ?_
      -- the loop variable is bound in the scope of the round, and so counts as no target
      refine preserves_forEach (fun value => spares_inChild (fun inner hinner => ?_) id) items
      exact preserves_bind (spares_define hinner _ _)
        fun _ => executeBlock_spares hc hassign body htargets inner hinner
  | .returns value, _, id, _ => by
      unfold execute
      exact preserves_bind (spares_of_still fun m₀ hm₀ => evaluate_preserves hc hm₀ id value)
        fun _ => preserves_pure _
  | .expression e, _, id, _ => by
      unfold execute
      exact preserves_bind (spares_of_still fun m₀ hm₀ => evaluate_preserves hc hm₀ id e)
        fun _ => preserves_pure _

/-- So do the statements of a block, which stands in a new scope. -/
theorem executeBlock_spares (hc : c.Framed) (hassign : c.assign = Scopes.assign) :
    ∀ block : List Stmt, Block.targets block ⊆ names → ∀ id, bound ≤ id →
      (executeBlock c block id).Preserves (Machine.Spares bound names s)
  | [], _, id, _ => by
      unfold executeBlock
      exact preserves_pure _
  | stmt :: rest, htargets, id, hid => by
      obtain ⟨hfirst, hrest⟩ := List.append_subset.mp htargets
      unfold executeBlock
      refine preserves_bind (execute_spares hc hassign stmt hfirst id fun _ => hid) ?_
      exact preserves_continue (executeBlock_spares hc hassign rest hrest id hid)

end

/-! ## Conditionals and loops -/

/--
**Blocks cannot leak names.**

A conditional or a loop is run in some scope of a tree of scopes, and ends in whatever way: it
falls through, returns, or fails. Afterwards the tree has the scopes it had, and each of them binds
the same names. Every root is wholly unchanged, and so is every scope outside the chain of the one
it ran in. Where a binding did change, the scope is one of the chain and no root, and the name is
the target of an assignment that is written in the statement, outside of procedure bodies.
-/
theorem execute_leaks_no_names (fuel : Nat) {m : Machine} (hm : m.scopes.Rooted)
    (htree : m.scopes.Tree) {stmt : Stmt} (hstmt : stmt.opensBlock = true) (scope : ScopeId) :
    let after := ((execute (.standard fuel) stmt scope).after m).scopes
    (after.size = m.scopes.size ∧ ∀ i, after.path i = m.scopes.path i)
      ∧ (∀ i name, after.bindsLocally i name = m.scopes.bindsLocally i name)
      ∧ (∀ i, m.scopes.isRoot i = true → after.store[i]? = m.scopes.store[i]?)
      ∧ (∀ i, i ∉ m.scopes.chain scope → after.store[i]? = m.scopes.store[i]?)
      ∧ ∀ i name, after.getLocal? i name ≠ m.scopes.getLocal? i name →
          (i ∈ m.scopes.chain scope ∧ m.scopes.isRoot i = false) ∧ name ∈ stmt.targets := by
  intro after
  have hdeclares := Stmt.declares_of_opensBlock hstmt
  have hwithin : Scopes.ChangedOnly (m.scopes.chain scope).dropLast m.scopes after :=
    (execute_writesBelow (Context.framed_standard fuel) stmt hdeclares scope m _ hm
      (List.Subset.refl _) m
      (Within.refl _ m)).scopes
  have hspared : m.scopes.Spared m.scopes.size stmt.targets after :=
    (execute_spares (Context.framed_standard fuel) rfl stmt (List.Subset.refl _) scope
      (fun h => absurd h (by rw [hdeclares]; exact Bool.false_ne_true)) m
      ⟨hm, Scopes.Spared.refl _ _⟩).scopes
  -- from the size of the store on there is nothing on either side
  have hnone : ∀ i name, m.scopes.size ≤ i →
      after.getLocal? i name = m.scopes.getLocal? i name := by
    intro i name hi
    refine Scopes.getLocal?_of_store ?_ name
    rw [Array.getElem?_eq_none (show after.size ≤ i from hwithin.size ▸ hi),
      Array.getElem?_eq_none hi]
  have hchanged : ∀ i, after.store[i]? ≠ m.scopes.store[i]? →
      i ∈ (m.scopes.chain scope).dropLast :=
    fun i h => Decidable.of_not_not fun hi => h (hwithin.store i hi)
  have hroot : ∀ i ∈ (m.scopes.chain scope).dropLast, m.scopes.isRoot i = false := by
    intro i hi
    unfold Scopes.isRoot
    exact Bool.eq_false_iff.mpr fun hnil => htree.path_ne_nil hi (List.isEmpty_iff.mp hnil)
  refine ⟨⟨hwithin.size, hwithin.path⟩, fun i name => ?_, fun i hi => ?_, fun i hi => ?_,
    fun i name hne => ?_⟩
  · unfold Scopes.bindsLocally
    rcases Nat.lt_or_ge i m.scopes.size with hlt | hge
    · rcases hspared.kept i hlt name with hsame | ⟨-, hbefore, hafter⟩
      · rw [hsame]
      · rw [hbefore, hafter]
    · rw [hnone i name hge]
  · refine hwithin.store i fun hmem => ?_
    rw [hroot i hmem] at hi
    exact Bool.noConfusion hi
  · exact hwithin.store i fun hmem => hi (List.dropLast_subset _ hmem)
  · have hmem : i ∈ (m.scopes.chain scope).dropLast :=
      hchanged i fun h => hne (Scopes.getLocal?_of_store h name)
    refine ⟨⟨List.dropLast_subset _ hmem, hroot i hmem⟩, ?_⟩
    rcases Nat.lt_or_ge i m.scopes.size with hlt | hge
    · exact ((hspared.kept i hlt name).resolve_left hne).1
    · exact absurd (hnone i name hge) hne

/-- A machine inside a call: below the global scope there is one that binds `seen`. -/
def insideCall : Machine :=
  ⟨(Machine.fresh.scopes.addChild Machine.global).define 1 "seen" (.value (.boolean false)), 1,
    #[]⟩

/-- `IF (true) { seen ← true fresh ← true RETURN (true) }`, without its braces. -/
def marking : Stmt :=
  .ifThen (.literal ⟨"true", .truth, 8⟩)
    [.assign ⟨"seen", .identifier, 15⟩ (.literal ⟨"true", .truth, 24⟩),
    .assign ⟨"fresh", .identifier, 30⟩ (.literal ⟨"true", .truth, 39⟩),
    .returns (.literal ⟨"true", .truth, 51⟩)]

/-- The value of `seen` changes, `fresh` is not there, and the global scope is what it was. -/
theorem execute_leaks_no_names_marking :
    let after := ((execute (.standard 0) marking 1).after insideCall).scopes
    insideCall.scopes.Rooted ∧ insideCall.scopes.Tree ∧ marking.opensBlock = true
      ∧ after.getLocal? 1 "seen" = some (.value (.boolean true))
      ∧ after.bindsLocally 1 "fresh" = insideCall.scopes.bindsLocally 1 "fresh"
      ∧ after.store[Machine.global]? = insideCall.scopes.store[Machine.global]? := by
  have hrooted : insideCall.scopes.Rooted :=
    (Scopes.rooted_fresh.addChild Machine.global).define 1 _ _
  have htree : insideCall.scopes.Tree :=
    (Scopes.tree_fresh.addChild Scopes.rooted_fresh.exists_global).changed
      (Scopes.ChangedOnly.define (List.mem_singleton_self 1) _ _ _)
  have hopens : marking.opensBlock = true := rfl
  obtain ⟨-, hnames, hroots, -, -⟩ := execute_leaks_no_names 0 hrooted htree hopens 1
  exact ⟨hrooted, htree, hopens, rfl, hnames 1 "fresh", hroots Machine.global rfl⟩

end Pseudocode
