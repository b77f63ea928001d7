import Pseudocode.Proofs.Simulation

/-!
# Assignment is an update in place

An assignment writes its value twice: to the scopes around that bind the name already, and to the
scope it stands in, whether that scope binds the name or not. The second write looks like a new
variable, which would hide the outer one from then on. It never does. A program cannot tell this
rule from the plain one, which overwrites the name wherever it is bound and creates a binding only
where there is none.

The reason is that the extra binding is a copy that cannot go stale. To assign to the outer
variable, code has to run below its scope; code that runs while the copy exists runs in the scope
of the copy or below it; and an assignment from there reaches both. The relation `Copies` says so
for the chain of scopes a program can see at one time: where the first store binds a name that the
second does not, it binds it to what the name stands for further out, the root excepted.
-/

namespace Pseudocode

open EvalM
open Machine (Matches)
open Scopes (ChangedOnly)

/-! ## Copies of outer bindings -/

/-- `σ` and `τ` tell what each scope binds some name to. Along a chain of scopes they agree, except
that `σ` may have copies, in scopes where `τ` has nothing, of what `τ` has further out and not in
the root. -/
def Copies (σ τ : ScopeId → Option Binding) : List ScopeId → Prop
  | [] => True
  | id :: around => (σ id = τ id ∨ τ id = none ∧ σ id = around.dropLast.findSome? τ) ∧
      Copies σ τ around

namespace Copies

variable {σ τ σ' τ' : ScopeId → Option Binding} {ids : List ScopeId}

theorem refl (σ : ScopeId → Option Binding) (ids : List ScopeId) : Copies σ σ ids := by
  induction ids with
  | nil => trivial
  | cons id around ih => exact ⟨.inl rfl, ih⟩

theorem findSome?_congr (h : ∀ id ∈ ids, τ' id = τ id) : ids.findSome? τ' = ids.findSome? τ := by
  induction ids with
  | nil => rfl
  | cons id around ih =>
      rw [List.findSome?_cons, List.findSome?_cons, h id List.mem_cons_self,
        ih fun i hi => h i (List.mem_cons_of_mem _ hi)]

/-- Only what the scopes of the chain bind counts. -/
theorem congr (hσ : ∀ id ∈ ids, σ' id = σ id) (hτ : ∀ id ∈ ids, τ' id = τ id)
    (h : Copies σ τ ids) :
    Copies σ' τ' ids := by
  induction ids with
  | nil => trivial
  | cons id around ih =>
      have haround : around.dropLast.findSome? τ' = around.dropLast.findSome? τ :=
        findSome?_congr fun i hi => hτ i (List.mem_cons_of_mem _ (List.dropLast_subset _ hi))
      refine ⟨?_, ih (fun i hi => hσ i (List.mem_cons_of_mem _ hi))
        (fun i hi => hτ i (List.mem_cons_of_mem _ hi)) h.2⟩
      rw [hσ id List.mem_cons_self, hτ id List.mem_cons_self, haround]
      exact h.1

/-- A copy is found in place of what it copies. -/
theorem findSome?_eq (h : Copies σ τ ids) : ids.findSome? σ = ids.findSome? τ := by
  induction ids with
  | nil => rfl
  | cons id around ih =>
      rw [List.findSome?_cons, List.findSome?_cons, ih h.2]
      rcases h.1 with heq | ⟨hnone, hcopy⟩
      · rw [heq]
      · rw [hnone]
        cases hfound : σ id with
        | none => rfl
        | some binding =>
            rw [hfound] at hcopy
            -- what the copy was made from is not in the root,
            -- but a search through the root finds it as well
            have hfront : around.dropLast <+: around := List.dropLast_prefix around
            exact (hfront.findSome?_eq_some hcopy.symm).symm

/-- Seen from further out there are copies too. -/
theorem of_suffix {rest : List ScopeId} (hsuffix : rest <:+ ids) (h : Copies σ τ ids) :
    Copies σ τ rest := by
  obtain ⟨front, rfl⟩ := hsuffix
  induction front with
  | nil => exact h
  | cons id front ih => exact ih h.2

/-- Where there is nothing to copy there are no copies. -/
theorem eq_none (h : Copies σ τ ids) (hnone : ∀ id ∈ ids.dropLast, τ id = none) :
    ∀ id ∈ ids.dropLast, σ id = none := by
  induction ids with
  | nil => exact fun id hid => absurd hid List.not_mem_nil
  | cons first around ih =>
      cases around with
      | nil => exact fun id hid => absurd hid List.not_mem_nil
      | cons second rest =>
          rw [List.dropLast_cons_of_ne_nil (List.cons_ne_nil second rest)] at hnone ⊢
          have hrest : ∀ id ∈ (second :: rest).dropLast, τ id = none :=
            fun id hid => hnone id (List.mem_cons_of_mem _ hid)
          intro id hid
          rcases List.mem_cons.mp hid with rfl | hid
          · rcases h.1 with heq | ⟨-, hcopy⟩
            · rw [heq]
              exact hnone id List.mem_cons_self
            · rw [hcopy]
              exact List.findSome?_eq_none_iff.mpr hrest
          · exact ih h.2 hrest id hid

end Copies

/-- What scopes bind a name to after the name was overwritten in those of `ids` that bind it. -/
def stamp (binding : Binding) (ids : List ScopeId) (σ : ScopeId → Option Binding) (id : ScopeId) :
    Option Binding :=
  if id ∈ ids ∧ (σ id).isSome then some binding else σ id

namespace Copies

variable {σ τ : ScopeId → Option Binding} {ids targets : List ScopeId} {binding : Binding}

theorem stamp_of_not_mem {id : ScopeId} (h : id ∉ targets) : stamp binding targets σ id = σ id :=
  if_neg fun hand => h hand.1

/-- Overwriting binds nothing that was not bound. -/
theorem stamp_of_none {id : ScopeId} (h : σ id = none) : stamp binding targets σ id = none := by
  unfold stamp
  rw [h]
  simp

theorem stamp_of_isSome {id : ScopeId} (hid : id ∈ targets) (h : (σ id).isSome) :
    stamp binding targets σ id = some binding :=
  if_pos ⟨hid, h⟩

/-- Where all scopes of a chain may be overwritten, a bound name is found with the new binding. -/
theorem findSome?_stamp (hsub : ids ⊆ targets) :
    ids.findSome? (stamp binding targets τ) = (ids.findSome? τ).map fun _ => binding := by
  induction ids with
  | nil => rfl
  | cons id around ih =>
      obtain ⟨hid, haround⟩ := List.cons_subset.mp hsub
      rw [List.findSome?_cons, List.findSome?_cons, ih haround]
      cases hτ : τ id with
      | none => rw [stamp_of_none hτ]
      | some found => rw [stamp_of_isSome hid (by rw [hτ]; rfl)]; rfl

/-- Overwriting a name in all scopes of a chain but the root keeps copies copies. -/
theorem stamp_both (h : Copies σ τ ids) (hsub : ids.dropLast ⊆ targets) :
    Copies (stamp binding targets σ) (stamp binding targets τ) ids := by
  induction ids with
  | nil => trivial
  | cons id around ih =>
      cases around with
      | nil =>
          refine ⟨.inl ?_, trivial⟩
          rcases h.1 with heq | ⟨hnone, hcopy⟩
          · unfold stamp
            rw [heq]
          · rw [stamp_of_none hnone]
            exact stamp_of_none hcopy
      | cons second rest =>
          rw [List.dropLast_cons_of_ne_nil (List.cons_ne_nil second rest)] at hsub
          obtain ⟨hid, haround⟩ := List.cons_subset.mp hsub
          refine ⟨?_, ih h.2 haround⟩
          rcases h.1 with heq | ⟨hnone, hcopy⟩
          · left
            unfold stamp
            rw [heq]
          · right
            refine ⟨stamp_of_none hnone, ?_⟩
            rw [findSome?_stamp haround, ← hcopy]
            cases hσ : σ id with
            | none => exact stamp_of_none hσ
            | some found => exact stamp_of_isSome hid (by rw [hσ]; rfl)

theorem stamp_cons_of_ne {id first : ScopeId} (h : id ≠ first) :
    stamp binding (first :: targets) σ id = stamp binding targets σ id := by
  unfold stamp
  simp [h]

section Assign

variable {σ' τ' : ScopeId → Option Binding} {a : ScopeId} {around : List ScopeId}

/-- An assignment to a name that is bound in the chain, outside of the root: `σ'` has the value in
`a` in any case, `τ'` only if `τ` had a binding there. If not, the value in `a` is a copy. -/
theorem assign_bound (h : Copies σ τ (a :: around)) (ha : a ∉ around)
    (hbound : ∃ id ∈ (a :: around).dropLast, (τ id).isSome) (hself : σ' a = some binding)
    (hσ' : ∀ id ∈ around, σ' id = stamp binding around.dropLast σ id)
    (hτ' : ∀ id ∈ a :: around, τ' id = stamp binding (a :: around).dropLast τ id) :
    Copies σ' τ' (a :: around) := by
  obtain ⟨outer, houter, hsome⟩ := hbound
  cases around with
  | nil => exact absurd houter List.not_mem_nil
  | cons next rest =>
      rw [List.dropLast_cons_of_ne_nil (List.cons_ne_nil next rest)] at houter hτ'
      have hτ'_around : ∀ id ∈ next :: rest,
          τ' id = stamp binding (next :: rest).dropLast τ id := by
        intro id hid
        rw [hτ' id (List.mem_cons_of_mem _ hid)]
        exact stamp_cons_of_ne fun heq => ha (heq ▸ hid)
      refine ⟨?_, (h.2.stamp_both (List.Subset.refl _)).congr hσ' hτ'_around⟩
      cases hτa : τ a with
      | some found =>
          left
          rw [hself, hτ' a List.mem_cons_self]
          exact (stamp_of_isSome List.mem_cons_self (by rw [hτa]; rfl)).symm
      | none =>
          -- the value that `σ'` has in `a` is found further
          -- out by `τ'`, since the name is bound there
          right
          refine ⟨by rw [hτ' a List.mem_cons_self]; exact stamp_of_none hτa, ?_⟩
          have hne : outer ≠ a :=
            fun heq => by rw [heq, hτa] at hsome; exact absurd hsome (by simp)
          have hfound : ((next :: rest).dropLast.findSome? τ).isSome :=
            List.findSome?_isSome_iff.mpr ⟨outer,
              (List.mem_cons.mp houter).resolve_left hne, hsome⟩
          rw [hself, findSome?_congr fun id hid => hτ'_around id (List.dropLast_subset _ hid),
            findSome?_stamp (List.Subset.refl _)]
          obtain ⟨found, hfound⟩ := Option.isSome_iff_exists.mp hfound
          rw [hfound]
          rfl

/-- An assignment to a name that is bound nowhere in the chain, outside of the root: both sides get
it in `a`. -/
theorem assign_unbound (h : Copies σ τ (a :: around))
    (hnone : ∀ id ∈ (a :: around).dropLast, τ id = none) (hself : σ' a = τ' a)
    (hσ' : ∀ id ∈ around, σ' id = stamp binding around.dropLast σ id)
    (hτ' : ∀ id ∈ around, τ' id = τ id) : Copies σ' τ' (a :: around) := by
  refine ⟨.inl hself, h.2.congr (fun id hid => ?_) hτ'⟩
  rw [hσ' id hid]
  by_cases hroot : id ∈ around.dropLast
  · have hmem : id ∈ (a :: around).dropLast := by
      rw [List.dropLast_cons_of_ne_nil (List.ne_nil_of_mem hid)]
      exact List.mem_cons_of_mem _ hroot
    have hσ : σ id = none := h.eq_none hnone id hmem
    rw [stamp_of_none hσ, hσ]
  · exact stamp_of_not_mem hroot

end Assign

end Copies

/-! ## The plain rule -/

namespace Scopes

/-- Assignment in place. Every scope around, the scope itself included and the root excepted, that
binds the name gets the value. If there is none, the scope itself gets it. -/
def assignInPlace (s : Scopes) (id : ScopeId) (name : String) (value : Value) : Scopes :=
  if (s.chain id).dropLast.any fun around => s.bindsLocally around name then
    s.overwrite (s.chain id).dropLast name value
  else s.define id name (.value value)

/-- Two scopes below the global one, the outer of which binds `x`: a write to `x` from the inner
one leaves a copy by the one rule, and none by the other. -/
example :
    let s := ((Machine.fresh.scopes.addChild 0).define 1 "x" (.value (.boolean true))).addChild 1
    ((s.assign 2 "x" (.boolean false)).getLocal? 2 "x").isSome = true ∧
      ((s.assignInPlace 2 "x" (.boolean false)).getLocal? 2 "x").isSome = false := by
  decide

/-- The plain rule, too, writes only where an assignment may write. -/
theorem assignInPlace_changedOnly (s : Scopes) (id : ScopeId) (name : String) (value : Value) :
    ChangedOnly (s.writable id) s (s.assignInPlace id name value) := by
  unfold assignInPlace
  split
  · exact ChangedOnly.overwrite (chain_dropLast_subset s id) s name value
  · exact ChangedOnly.define List.mem_cons_self s name _

/-- The stores `s`, where assignment leaves copies, and `t`, where it does not, as a program in the
scope `a` sees them. -/
structure Shadows (a b : ScopeId) (s t : Scopes) : Prop where
  scope : a = b
  chained : s.Chained a
  rooted_right : t.Rooted
  size : t.size = s.size
  path : ∀ i, t.path i = s.path i
  copies : ∀ name, Copies (s.getLocal? · name) (t.getLocal? · name) (s.chain a)

namespace Shadows

variable {a p : ScopeId} {s t s' t' : Scopes}

theorem chain_right (h : Shadows a a s t) (i : ScopeId) : t.chain i = s.chain i := by
  unfold chain
  rw [h.path i]

theorem ne_of_mem_path {i : ScopeId} (h : Shadows a a s t) (hi : i ∈ s.path a) : i ≠ a :=
  fun heq => h.chained.not_mem_path (heq ▸ hi)

/-- A name stands for the same thing in both stores. -/
theorem get? (h : Shadows a a s t) (name : String) : s.get? a name = t.get? a name := by
  unfold Scopes.get?
  rw [h.chain_right a]
  exact (h.copies name).findSome?_eq

/-- Changes to the bindings on both sides, after which copies are still copies. -/
theorem update {ids ids' : List ScopeId} (h : Shadows a a s t) (hs : ChangedOnly ids s s')
    (ht : ChangedOnly ids' t t')
    (hcopies : ∀ name, Copies (s'.getLocal? · name) (t'.getLocal? · name) (s.chain a)) :
    Shadows a a s' t' where
  scope := rfl
  chained := h.chained.changed hs
  rooted_right := h.rooted_right.changed ht
  size := by rw [ht.size, hs.size, h.size]
  path i := by rw [ht.path, hs.path, h.path]
  copies := by rw [hs.chain]; exact hcopies

/-- A name that is bound on both sides hides what both have further out. -/
theorem define (h : Shadows a a s t) (name : String) (binding : Binding) :
    Shadows a a (s.define a name binding) (t.define a name binding) := by
  have hid : a ∈ [a] := List.mem_singleton_self a
  refine h.update (ChangedOnly.define hid s name binding)
    (ChangedOnly.define hid t name binding) fun x => ?_
  have hlt : a < s.size := h.chained.bounded a List.mem_cons_self
  by_cases hx : x = name
  · subst hx
    refine ⟨.inl ?_, (h.copies x).2.congr ?_ ?_⟩
    · exact (getLocal?_define_self x binding hlt).trans
        (getLocal?_define_self x binding (h.size ▸ hlt)).symm
    · exact fun i hi => getLocal?_define_of_ne binding (.inl (h.ne_of_mem_path hi))
    · exact fun i hi => getLocal?_define_of_ne binding (.inl (h.ne_of_mem_path hi))
  · exact (h.copies x).congr (fun i _ => getLocal?_define_of_ne binding (.inr hx))
      (fun i _ => getLocal?_define_of_ne binding (.inr hx))

/-- **One assignment on each side keeps copies copies.** The name is bound somewhere below the
root, or nowhere. -/
theorem assign (h : Shadows a a s t) (name : String) (value : Value) :
    Shadows a a (s.assign a name value) (t.assignInPlace a name value) := by
  refine h.update (assign_changedOnly s a name value)
    (assignInPlace_changedOnly t a name value) fun x => ?_
  have hlt : a < s.size := h.chained.bounded a List.mem_cons_self
  by_cases hx : x = name
  · subst hx
    have hσ : ∀ i ∈ s.path a, (s.assign a x value).getLocal? i x =
        stamp (.value value) (s.path a).dropLast (s.getLocal? · x) i := by
      intro i hi
      unfold Scopes.assign
      rw [getLocal?_define_of_ne _ (.inl (h.ne_of_mem_path hi))]
      exact getLocal?_overwrite s _ x value i
    have hself : (s.assign a x value).getLocal? a x = some (.value value) := by
      unfold Scopes.assign
      refine getLocal?_define_self x _ ?_
      rw [(ChangedOnly.overwrite (List.Subset.refl _) s x value).size]
      exact hlt
    unfold assignInPlace
    rw [h.chain_right a]
    split
    · rename_i hany
      obtain ⟨i, hi, hbound⟩ := List.any_eq_true.mp hany
      exact Copies.assign_bound (h.copies x) h.chained.not_mem_path ⟨i, hi, hbound⟩ hself hσ
        fun i _ => getLocal?_overwrite t _ x value i
    · -- nothing binds the name on either side, so the
      -- overwriting half of the first rule does nothing
      rename_i hany
      have hnone : ∀ i ∈ (s.chain a).dropLast, t.getLocal? i x = none := by
        intro i hi
        cases hbound : t.getLocal? i x with
        | none => rfl
        | some binding =>
            exact absurd (List.any_eq_true.mpr ⟨i, hi, by simp [bindsLocally, hbound]⟩) hany
      refine Copies.assign_unbound (h.copies x) hnone ?_ hσ fun i hi => ?_
      · exact hself.trans (getLocal?_define_self x _ (h.size ▸ hlt)).symm
      · exact getLocal?_define_of_ne _ (.inl (h.ne_of_mem_path hi))
  · refine (h.copies x).congr (fun i _ => ?_) (fun i _ => ?_)
    · exact (getLocal?_define_of_ne _ (.inr hx)).trans (getLocal?_overwrite_of_ne _ value i hx)
    · show (t.assignInPlace a name value).getLocal? i x = t.getLocal? i x
      unfold assignInPlace
      split
      · exact getLocal?_overwrite_of_ne _ value i hx
      · exact getLocal?_define_of_ne _ (.inr hx)

/-- A scope is opened on both sides, below one that the program sees. -/
theorem addChild (h : Shadows a a s t) (hp : s.chain p <:+ s.chain a)
    (hglobal : [Machine.global] <:+ s.chain p) :
    Shadows s.size t.size (s.addChild p) (t.addChild p) := by
  have hold : ∀ i ∈ s.chain p, i < s.size := fun i hi => h.chained.bounded i (hp.subset hi)
  have hstore : ∀ i ∈ s.chain p, (s.addChild p).store[i]? = s.store[i]? :=
    fun i hi => store_addChild_of_ne p (Nat.ne_of_lt (hold i hi))
  have hstore' : ∀ i ∈ s.chain p, (t.addChild p).store[i]? = t.store[i]? :=
    fun i hi => store_addChild_of_ne p (Nat.ne_of_lt (h.size ▸ hold i hi))
  have hchain := chain_addChild_self s p
  refine ⟨h.size.symm, h.chained.addChild hp hglobal, h.rooted_right.addChild p, ?_, ?_, ?_⟩
  · rw [size_addChild, size_addChild, h.size]
  · intro i
    by_cases hi : i = s.size
    · rw [hi, path_addChild_self, ← h.size, path_addChild_self, h.chain_right]
    · rw [path_of_store (store_addChild_of_ne p hi),
        path_of_store (store_addChild_of_ne p (h.size ▸ hi)), h.path]
  · intro name
    rw [hchain]
    -- the new scope binds nothing yet, and the scopes around it are as before
    refine ⟨.inl ?_, (Copies.of_suffix hp (h.copies name)).congr ?_ ?_⟩
    · show (s.addChild p).getLocal? s.size name = (t.addChild p).getLocal? s.size name
      rw [← h.size]
      unfold getLocal?
      rw [h.size, store_addChild_self, ← h.size, store_addChild_self]
    · exact fun i hi => getLocal?_of_store (hstore i hi) name
    · exact fun i hi => getLocal?_of_store (hstore' i hi) name

/-- The scope of a block is left on both sides. -/
theorem leave (h : Shadows a a s t)
    (hs : ChangedOnly ((s.addChild a).writable s.size) (s.addChild a) s')
    (ht : ChangedOnly ((t.addChild a).writable t.size) (t.addChild a) t')
    (hinside : Shadows s.size t.size s' t') :
    Shadows a a (s'.release s.size) (t'.release t.size) := by
  have hchain : s'.chain s.size = s.size :: s.chain a := by
    rw [hs.chain, chain_addChild_self]
  rw [writable_addChild] at hs ht
  refine h.update hs.leave ht.leave fun name => ?_
  have hcopies := hinside.copies name
  rw [hchain] at hcopies
  refine hcopies.2.congr (fun i hi => ?_) (fun i hi => ?_)
  · exact getLocal?_of_store (store_release_of_lt (h.chained.bounded i hi)) name
  · exact getLocal?_of_store (store_release_of_lt (h.size ▸ h.chained.bounded i hi)) name

end Shadows

/-- What the evaluator does to scopes keeps the relation. -/
theorem shadows_simulation : AssignRule.Simulation Shadows Scopes.assign Scopes.assignInPlace where
  framed_left := assign_changedOnly
  framed_right := assignInPlace_changedOnly
  rooted h := ⟨h.chained.rooted, h.rooted_right⟩
  get? h name := by
    obtain rfl := h.scope
    exact h.get? name
  define h name binding := by
    obtain rfl := h.scope
    exact h.define name binding
  assign h name value := by
    obtain rfl := h.scope
    exact h.assign name value
  child h := by
    obtain rfl := h.scope
    exact h.addChild (List.suffix_refl _) h.chained.global
  leave h hs ht hinside := by
    obtain rfl := h.scope
    exact h.leave hs ht hinside
  call h := by
    obtain rfl := h.scope
    exact h.addChild h.chained.global_suffix h.chained.rooted.global_suffix

theorem shadows_fresh :
    Shadows Machine.global Machine.global Machine.fresh.scopes Machine.fresh.scopes where
  scope := rfl
  chained := chained_global rooted_fresh
  rooted_right := rooted_fresh
  size := rfl
  path _ := rfl
  copies _ := Copies.refl _ _

end Scopes

/-! ## Programs -/

/-- Runs a program in the global scope, with a given rule of assignment. -/
def executeWith (rule : AssignRule) (fuel : Nat) (program : Block) : EvalM (Option Value) := do
  let flow ← executeBlock (.withRule rule fuel) program Machine.global
  pure flow.value?

/-- Reads and runs a source, with a given rule of assignment. -/
def runWith (rule : AssignRule) (fuel : Nat) (source : String) : Outcome :=
  match parseSource source with
  | .ok program => (executeWith rule fuel program).outcome
  | .error halt => ⟨#[], .error halt⟩

theorem runWith_assign (fuel : Nat) (source : String) :
    runWith Scopes.assign fuel source = run fuel source := by
  unfold runWith run
  cases parseSource source <;> rfl

/-- So programs have the same outcome under both rules. -/
theorem executeWith_assignInPlace (fuel : Nat) (program : Block) :
    (executeWith Scopes.assignInPlace fuel program).outcome =
      (executeWith Scopes.assign fuel program).outcome := by
  have hcontext := Context.simulation_withRule Scopes.shadows_simulation fuel
  have hprogram :
      Simulates (executeWith Scopes.assign fuel program)
        (executeWith Scopes.assignInPlace fuel program)
      (Matches (Scopes.Shadows Machine.global Machine.global) #[] #[]) :=
    simulates_bind (simulates_executeBlock hcontext program _ _) fun _ => simulates_pure _
  obtain ⟨hanswer, hafter⟩ :=
    hprogram Machine.fresh Machine.fresh ⟨Scopes.shadows_fresh, rfl, #[], rfl, rfl⟩
  obtain ⟨lines, hleft, hright⟩ := hafter.output
  rw [outcome_eq, outcome_eq, hanswer, hleft, hright]

/-- **Assignment is an update in place.** With the rule that overwrites a name where it is bound,
and creates a binding only where there is none, every source displays the same lines and ends in
the same way, in the same error at the same place if it fails. -/
theorem runWith_assignInPlace (fuel : Nat) (source : String) :
    runWith Scopes.assignInPlace fuel source = run fuel source := by
  rw [← runWith_assign]
  unfold runWith
  cases parseSource source with
  | ok program => exact executeWith_assignInPlace fuel program
  | error halt => rfl

end Pseudocode
