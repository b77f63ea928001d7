import Pseudocode.Proofs.Leakage
import Pseudocode.Proofs.Lockstep

/-!
# What an assignment writes

An assignment binds the name in its own scope, and besides in every scope around it that has the
name already, the root excepted. Nothing else is written: no other name, no scope beside the chain,
and no scope of the chain that did not know the name. This is said of single bindings first, and
from there of what lookups find.

In the store the exception is made by leaving out the last scope of a path. In a tree that is the
same as leaving out the roots, since every chain has one root and ends there
(`Tree.dropLast_chain`). It also settles what a scope further up sees afterwards: the root comes
last in its chain, so that any scope of the chain which was written hides it.
-/

namespace Pseudocode

namespace Scopes

variable {s t : Scopes}

/-! ## Walking up a tree -/

namespace Tree

/-- What holds of the roots, and passes from a scope to the scopes below it, holds everywhere. -/
theorem induction {motive : ScopeId → Prop} (hs : s.Tree) (root : ∀ i, s.path i = [] → motive i)
    (child : ∀ i parent, s.path i = s.chain parent → motive parent → motive i)
    (i : ScopeId) : motive i := by
  induction i using Nat.strongRecOn with
  | ind i ih =>
      rcases Nat.lt_or_ge i s.size with hlt | hge
      · rcases hs i hlt with hroot | ⟨parent, hparent, hpath⟩
        · exact root i hroot
        · exact child i parent hpath (ih parent hparent)
      · exact root i (path_of_size_le hge)

theorem isRoot_child {i parent : ScopeId} (h : s.path i = s.chain parent) :
    s.isRoot i = false := by
  unfold isRoot
  rw [h]
  rfl

/-- The chain of a scope goes on with the chain of its parent. -/
theorem chain_child {i parent : ScopeId} (h : s.path i = s.chain parent) :
    s.chain i = i :: s.chain parent := by
  rw [chain, h]

/-- A chain without its last scope is a chain without roots. -/
theorem dropLast_chain (hs : s.Tree) (i : ScopeId) :
    (s.chain i).dropLast = (s.chain i).filter fun j => !s.isRoot j := by
  induction i using hs.induction with
  | root i hroot =>
      have hself : s.isRoot i = true := by rw [isRoot, hroot, List.isEmpty_nil]
      rw [chain, hroot, List.dropLast_singleton, List.filter_cons_of_neg (by simp [hself]),
        List.filter_nil]
  | child i parent hpath ih =>
      have hne : s.chain parent ≠ [] := List.cons_ne_nil _ _
      rw [chain_child hpath, List.dropLast_cons_of_ne_nil hne, ih,
        List.filter_cons_of_pos (by simp [isRoot_child hpath])]

/-- Leaving out the last scope of a path leaves out its root. -/
theorem mem_dropLast_path (hs : s.Tree) (i j : ScopeId) :
    j ∈ (s.path i).dropLast ↔ j ∈ s.path i ∧ s.isRoot j = false := by
  induction i using hs.induction with
  | root i hroot => simp [hroot]
  | child i parent hpath _ => simp [hpath, hs.dropLast_chain parent]

/-- A scope around `i` has around it what follows it in the path of `i`. -/
theorem chain_suffix_path (hs : s.Tree) {i j : ScopeId} (h : j ∈ s.path i) :
    s.chain j <:+ s.path i := by
  induction i using hs.induction with
  | root i hroot =>
      rw [hroot] at h
      exact absurd h List.not_mem_nil
  | child i parent hpath ih =>
      rw [hpath] at h ⊢
      rcases List.mem_cons.mp h with rfl | h
      · exact List.suffix_refl _
      · exact (ih h).trans (List.suffix_cons parent _)

theorem not_mem_path_self (hs : s.Tree) (i : ScopeId) : i ∉ s.path i := by
  intro hmem
  have hlength := (hs.chain_suffix_path hmem).length_le
  rw [chain, List.length_cons] at hlength
  omega

/-- If of a chain all scopes that bind a name get one binding for it, the root excepted, then a
lookup finds this binding as soon as there is such a scope, and otherwise what it found before. -/
theorem get?_rebound (hs : s.Tree) (hpath : ∀ j, t.path j = s.path j) {i : ScopeId}
    {name : String} {binding : Binding}
    (h : ∀ j ∈ s.chain i, t.getLocal? j name = if s.isRoot j = false ∧
      s.bindsLocally j name = true then some binding else s.getLocal? j name) :
    t.get? i name = if ∃ j ∈ s.chain i, s.isRoot j = false ∧
      s.bindsLocally j name = true then some binding
      else s.get? i name := by
  induction i using hs.induction with
  | root i hroot =>
      have hself : s.isRoot i = true := by rw [isRoot, hroot, List.isEmpty_nil]
      have hchain : s.chain i = [i] := by rw [chain, hroot]
      have hlocal := h i List.mem_cons_self
      rw [hself, if_neg (by simp)] at hlocal
      rw [if_neg (by simp [hchain, hself]), get?, get?, chain, hpath i, hroot, hchain,
        List.findSome?_singleton, List.findSome?_singleton, hlocal]
  | child i parent hchild ih =>
      have hlocal := h i List.mem_cons_self
      have hrest :=
        ih fun j hj => h j (by rw [chain_child hchild]; exact List.mem_cons_of_mem i hj)
      have hchild' : t.path i = t.chain parent := by
        rw [hpath i, hchild, chain, chain, hpath parent]
      rw [get?, get?, chain_child hchild', chain_child hchild, List.findSome?_cons,
        List.findSome?_cons]
      by_cases hbinds : s.bindsLocally i name = true
      · -- the scope itself is written, and the lookup ends there
        rw [if_pos ⟨isRoot_child hchild, hbinds⟩] at hlocal
        rw [hlocal, if_pos ⟨i, List.mem_cons_self, isRoot_child hchild, hbinds⟩]
      · have hnone : s.getLocal? i name = none := by simpa [bindsLocally] using hbinds
        rw [if_neg (fun hboth => hbinds hboth.2), hnone] at hlocal
        rw [hlocal, hnone]
        simpa [hbinds, get?] using hrest

end Tree

/-! ## Assignment -/

/-- One binding after an assignment. -/
theorem getLocal?_assign (hs : s.Tree) {e : ScopeId} (he : e < s.size) (name : String)
    (value : Value) (i : ScopeId) (x : String) : (s.assign e name value).getLocal? i x =
      if x = name ∧ (i = e ∨ i ∈ s.path e ∧ s.isRoot i = false ∧ s.bindsLocally i name = true) then
      some (.value value)
      else s.getLocal? i x := by
  have hsize : (s.overwrite (s.path e).dropLast name value).size = s.size :=
    (ChangedOnly.overwrite (List.Subset.refl _) s name value).size
  rw [assign, getLocal?_define_if, hsize]
  by_cases hx : x = name
  · subst hx
    rw [getLocal?_overwrite]
    by_cases hi : i = e
    · rw [if_pos ⟨⟨hi, rfl⟩, he⟩, if_pos ⟨rfl, .inl hi⟩]
    · rw [if_neg (fun h => hi h.1.1)]
      simp only [hi, true_and, false_or, bindsLocally, hs.mem_dropLast_path, and_assoc]
  · rw [if_neg (fun h => hx h.1.2), if_neg (fun h => hx h.1), getLocal?_overwrite_of_ne _ _ _ hx]

end Scopes

/--
**What an assignment writes.**

In any tree of scopes, an assignment in the scope `e` binds its name in `e` and in those scopes
around `e`, roots excepted, that bound the name before. Every other binding of every scope is as it
was, and so is the tree. A lookup in `e` then finds the value. A lookup in a scope around `e` that
is no root finds it if this scope, or a scope around it that is no root, bound the name before, and
finds what it found before otherwise. A root is changed by no assignment but its own.
-/
theorem assign_write_set {s : Scopes} (hs : s.Tree) {e : ScopeId} (he : e < s.size)
    (name : String) (value : Value) :
    (∀ i x, (s.assign e name value).getLocal? i x =
      if x = name ∧ (i = e ∨ i ∈ s.path e ∧ s.isRoot i = false ∧ s.bindsLocally i name = true) then
      some (.value value)
      else s.getLocal? i x)
    ∧ (s.assign e name value).size = s.size ∧ (∀ i, (s.assign e name value).path i = s.path i)
    ∧ (s.assign e name value).get? e name = some (.value value)
    ∧ (∀ i ∈ s.path e, s.isRoot i = false → (s.assign e name value).get? i name =
        if ∃ j ∈ s.chain i, s.isRoot j = false ∧
        s.bindsLocally j name = true then some (.value value) else s.get? i name)
    ∧ ∀ i, s.isRoot i = true → (s.assign e name value).store[i]? ≠ s.store[i]? → i = e := by
  have hlocal := Scopes.getLocal?_assign hs he name value
  have hchanged := Scopes.assign_changedOnly s e name value
  refine ⟨hlocal, hchanged.size, hchanged.path, ?_, ?_, ?_⟩
  · rw [Scopes.get?, Scopes.chain, List.findSome?_cons, hlocal, if_pos ⟨rfl, .inl rfl⟩]
  · intro i hi _
    refine hs.get?_rebound hchanged.path fun j hj => ?_
    -- all of this chain lies around `e`
    have hmem : j ∈ s.path e := (hs.chain_suffix_path hi).subset hj
    have hne : j ≠ e := fun heq => hs.not_mem_path_self e (heq ▸ hmem)
    rw [hlocal]
    simp only [hmem, hne, true_and, false_or]
  · intro i hroot hstore
    have hwritable : i ∈ s.writable e :=
      Decidable.byContradiction fun hnot => hstore (hchanged.store i hnot)
    rcases List.mem_cons.mp hwritable with heq | hmem
    · exact heq
    · have hinner := ((hs.mem_dropLast_path e i).mp hmem).2
      rw [hroot] at hinner
      exact absurd hinner (by simp)

/-- Four scopes, one inside the other. The root and the scope next to it bind `x`. -/
def Scopes.nested : Scopes :=
  let outer := Scopes.empty.addRoot.define 0 "x" (.value .null)
  let inner := (outer.addChild 0).define 1 "x" (.value .null)
  (inner.addChild 1).addChild 2

/-- They are a tree. -/
theorem Scopes.tree_nested : Scopes.nested.Tree := by
  have hroot : Scopes.empty.addRoot.Tree := by
    intro i hi
    obtain rfl : i = 0 := Nat.lt_one_iff.mp hi
    exact .inl rfl
  have houter :=
    hroot.changed (ChangedOnly.define (List.mem_singleton_self 0) _ "x" (.value .null))
  have hinner := (houter.addChild (Nat.zero_lt_one)).changed
    (ChangedOnly.define (List.mem_singleton_self 1) _ "x" (.value .null))
  exact (hinner.addChild (by decide)).addChild (by decide)

/-- An assignment in the innermost scope passes over the one that does not bind the name, and
spares the root. -/
theorem assign_write_set_nested :
    (Scopes.nested.assign 3 "x" (.boolean true)).getLocal? 1 "x" = some (.value (.boolean true))
      ∧ (Scopes.nested.assign 3 "x" (.boolean true)).getLocal? 2 "x" = none
      ∧ (Scopes.nested.assign 3 "x" (.boolean true)).get? 2 "x" = some (.value (.boolean true))
      ∧ (Scopes.nested.assign 3 "x" (.boolean true)).getLocal? 0 "x" = some (.value .null) := by
  obtain ⟨hlocal, -, -, -, hget, -⟩ :=
    assign_write_set Scopes.tree_nested (e := 3) (by decide) "x" (.boolean true)
  refine ⟨?_, ?_, ?_, ?_⟩
  · rw [hlocal, if_pos (by decide)]
  · rw [hlocal, if_neg (by decide)]
    rfl
  · rw [hget 2 (by decide) (by decide), if_pos (by decide)]
  · rw [hlocal, if_neg (by decide)]
    rfl

end Pseudocode
