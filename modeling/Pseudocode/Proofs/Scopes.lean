import Pseudocode.Evaluation.Machine

/-!
# What changes in the store of scopes

Evaluation touches the store in few ways: it binds a name in one scope, overwrites a name in
several, adds a scope at the end and releases scopes from the end. Here is said, once for each,
what a reader of the store sees afterwards.

The statement that later proofs carry is `ChangedOnly`: between two stores no scope was added or
moved, and only the listed scopes may differ. It composes, and a scope that was added and released
again drops out of the list. A store is `Rooted` when its global scope exists and has no scope
around it. That is all the evaluator relies on: since assignment spares the root of the chain it
runs in, a procedure body, whose chain is its own scope and the global one, can then write nowhere
but in its own scope.
-/

namespace Pseudocode

/-- A name that is bound is found, and all others are found as before. -/
theorem Scope.lookup_bind (name x : String) (binding : Binding)
    (entries : List (String × Binding)) :
    (Scope.bind name binding entries).lookup x = if x = name then some binding
      else entries.lookup x := by
  induction entries with
  | nil =>
      rw [Scope.bind, List.lookup_cons]
      by_cases h : x = name
      · simp [h]
      · simp [h, beq_false_of_ne h]
  | cons entry rest ih =>
      obtain ⟨key, bound⟩ := entry
      rw [Scope.bind]
      by_cases hkey : key = name
      · subst hkey
        by_cases h : x = key
        · simp [h]
        · simp [List.lookup_cons, h, beq_false_of_ne h]
      · rw [if_neg (by simpa using hkey), List.lookup_cons, ih, List.lookup_cons]
        by_cases h : x = name
        · subst h
          simp [beq_false_of_ne (Ne.symm hkey)]
        · rw [if_neg h]
          simp [h]

namespace Scopes

variable {s t u : Scopes} {ids : List ScopeId}

/-! ## Reading the store after a change -/

/-- Stores with the same scopes are the same. -/
theorem eq_of_store (h : ∀ i : ScopeId, s.store[i]? = t.store[i]?) : s = t := by
  obtain ⟨store⟩ := s
  obtain ⟨store'⟩ := t
  exact congrArg Scopes.mk (Array.ext_getElem? h)

theorem path_of_store {i j : ScopeId} (h : s.store[i]? = t.store[j]?) : s.path i = t.path j := by
  unfold path
  rw [h]

theorem getLocal?_of_store {i j : ScopeId} (h : s.store[i]? = t.store[j]?) (name : String) :
    s.getLocal? i name = t.getLocal? j name := by
  unfold getLocal?
  rw [h]

theorem path_of_size_le {i : ScopeId} (h : s.size ≤ i) : s.path i = [] := by
  unfold path
  rw [Array.getElem?_eq_none h]

@[simp] theorem size_define (s : Scopes) (id : ScopeId) (name : String) (binding : Binding) :
    (s.define id name binding).size = s.size :=
  Array.size_modify

theorem store_define_of_ne {id i : ScopeId} (name : String) (binding : Binding) (h : i ≠ id) :
    (s.define id name binding).store[i]? = s.store[i]? := by
  unfold define
  rw [Array.getElem?_modify, if_neg (Ne.symm h)]

@[simp] theorem path_define (s : Scopes) (id : ScopeId) (name : String) (binding : Binding)
    (i : ScopeId) :
    (s.define id name binding).path i = s.path i := by
  unfold define path
  by_cases h : id = i
  · rw [Array.getElem?_modify, if_pos h]
    cases s.store[i]? <;> rfl
  · rw [Array.getElem?_modify, if_neg h]

/-- In a scope that is there, a name that is defined is bound. -/
theorem getLocal?_define_self {id : ScopeId} (name : String) (binding : Binding)
    (h : id < s.size) :
    (s.define id name binding).getLocal? id name = some binding := by
  have hstore : s.store[id]? = some s.store[id] := Array.getElem?_eq_getElem h
  unfold define getLocal?
  rw [Array.getElem?_modify, if_pos rfl, hstore]
  show (Scope.bind name binding s.store[id].bindings).lookup name = some binding
  rw [Scope.lookup_bind, if_pos rfl]

/-- Other names and other scopes are as they were. -/
theorem getLocal?_define_of_ne {id i : ScopeId} {name x : String} (binding : Binding)
    (h : i ≠ id ∨ x ≠ name) :
    (s.define id name binding).getLocal? i x = s.getLocal? i x := by
  by_cases hi : i = id
  · have hx : x ≠ name := h.resolve_left (fun hne => hne hi)
    subst hi
    unfold define getLocal?
    rw [Array.getElem?_modify, if_pos rfl]
    cases s.store[i]? with
    | none => rfl
    | some scope =>
        show (Scope.bind name binding scope.bindings).lookup x = scope.bindings.lookup x
        rw [Scope.lookup_bind, if_neg hx]
  · exact getLocal?_of_store (store_define_of_ne name binding hi) x

/-- Only a scope that is there binds names. -/
theorem lt_size_of_getLocal? {i : ScopeId} {name : String} (h : (s.getLocal? i name).isSome) :
    i < s.size := by
  rcases Nat.lt_or_ge i s.size with hlt | hge
  · exact hlt
  · unfold getLocal? at h
    rw [Array.getElem?_eq_none hge] at h
    exact absurd h (by simp)

/-- Overwriting leaves other names alone. -/
theorem getLocal?_overwrite_of_ne {name x : String} (targets : List ScopeId) (value : Value)
    (i : ScopeId) (h : x ≠ name) :
    (s.overwrite targets name value).getLocal? i x = s.getLocal? i x := by
  unfold overwrite
  induction targets generalizing s with
  | nil => rfl
  | cons id rest ih =>
      rw [List.foldl_cons, ih]
      split
      · exact getLocal?_define_of_ne _ (.inr h)
      · rfl

/-- Overwriting a name reaches exactly those of the scopes that bind it. -/
theorem getLocal?_overwrite (s : Scopes) (targets : List ScopeId) (name : String) (value : Value)
    (i : ScopeId) :
    (s.overwrite targets name value).getLocal? i name =
      if i ∈ targets ∧ (s.getLocal? i name).isSome then some (.value value)
      else s.getLocal? i name := by
  unfold overwrite
  induction targets generalizing s with
  | nil => rw [if_neg (by simp)]; rfl
  | cons id rest ih =>
      rw [List.foldl_cons, ih]
      by_cases hi : i = id
      · subst hi
        by_cases hbound : (s.getLocal? i name).isSome
        · have hself := getLocal?_define_self name (.value value) (lt_size_of_getLocal? hbound)
          simp [bindsLocally, hbound, hself]
        · simp [bindsLocally, hbound]
      · have hother : ∀ binding, (s.define id name binding).getLocal? i name =
            s.getLocal? i name :=
          fun binding => getLocal?_define_of_ne binding (.inl hi)
        split <;> simp [hi, hother]

@[simp] theorem size_addChild (s : Scopes) (parent : ScopeId) :
    (s.addChild parent).size = s.size + 1 :=
  Array.size_push _

theorem store_addChild_of_ne {i : ScopeId} (parent : ScopeId) (h : i ≠ s.size) :
    (s.addChild parent).store[i]? = s.store[i]? := by
  unfold addChild
  rw [Array.getElem?_push]
  exact if_neg h

/-- A new scope is empty and lies below its parent. -/
theorem store_addChild_self (s : Scopes) (parent : ScopeId) :
    (s.addChild parent).store[s.size]? = some ⟨s.chain parent, []⟩ :=
  Array.getElem?_push_size

theorem path_addChild_self (s : Scopes) (parent : ScopeId) :
    (s.addChild parent).path s.size = s.chain parent := by
  unfold path
  rw [store_addChild_self]

theorem chain_addChild_self (s : Scopes) (parent : ScopeId) :
    (s.addChild parent).chain s.size = s.size :: s.chain parent := by
  rw [chain, path_addChild_self]

theorem size_release (s : Scopes) (n : Nat) : (s.release n).size = min n s.size :=
  Array.size_shrink

/-- A release keeps the scopes below the index. -/
theorem store_release_of_lt {i n : Nat} (h : i < n) : (s.release n).store[i]? = s.store[i]? := by
  unfold release
  simp only [Array.shrink_eq_take, Array.take_eq_extract, Array.getElem?_extract,
    Nat.sub_zero, Nat.zero_add]
  split
  · rfl
  · exact (Array.getElem?_eq_none (by omega)).symm

theorem store_release_of_le {i n : Nat} (h : n ≤ i) : (s.release n).store[i]? = none := by
  apply Array.getElem?_eq_none
  have hsize := size_release s n
  unfold size at hsize
  omega

/-! ## Changes that stay within given scopes -/

/-- `t` is `s` after changes to the bindings of the scopes in `ids`. -/
structure ChangedOnly (ids : List ScopeId) (s t : Scopes) : Prop where
  size : t.size = s.size
  path : ∀ i, t.path i = s.path i
  store : ∀ i, i ∉ ids → t.store[i]? = s.store[i]?

namespace ChangedOnly

theorem refl (ids : List ScopeId) (s : Scopes) : ChangedOnly ids s s :=
  ⟨rfl, fun _ => rfl, fun _ _ => rfl⟩

/-- Changes one after another. -/
theorem trans (h₁ : ChangedOnly ids s t) (h₂ : ChangedOnly ids t u) : ChangedOnly ids s u where
  size := h₂.size.trans h₁.size
  path i := (h₂.path i).trans (h₁.path i)
  store i hi := (h₂.store i hi).trans (h₁.store i hi)

theorem mono {ids' : List ScopeId} (hsub : ids ⊆ ids') (h : ChangedOnly ids s t) :
    ChangedOnly ids' s t :=
  ⟨h.size, h.path, fun i hi => h.store i (fun hmem => hi (hsub hmem))⟩

/-- With no scope to change there is no change. -/
theorem eq (h : ChangedOnly [] s t) : t = s :=
  eq_of_store fun i => h.store i List.not_mem_nil

theorem chain (h : ChangedOnly ids s t) (i : ScopeId) : t.chain i = s.chain i := by
  unfold Scopes.chain
  rw [h.path i]

theorem define {id : ScopeId} (hid : id ∈ ids) (s : Scopes) (name : String) (binding : Binding) :
    ChangedOnly ids s (s.define id name binding) where
  size := size_define s id name binding
  path := path_define s id name binding
  store _ hi := store_define_of_ne name binding (fun h => hi (h ▸ hid))

/-- Overwriting changes no more than its targets. -/
theorem overwrite {targets : List ScopeId} (hsub : targets ⊆ ids) (s : Scopes) (name : String)
    (value : Value) :
    ChangedOnly ids s (s.overwrite targets name value) := by
  unfold Scopes.overwrite
  induction targets generalizing s with
  | nil => exact refl ids s
  | cons id rest ih =>
      obtain ⟨hid, hrest⟩ := List.cons_subset.mp hsub
      rw [List.foldl_cons]
      refine trans ?_ (ih hrest _)
      split
      · exact define hid s name (.value value)
      · exact refl ids s

/-- A scope that was added and is released again leaves only the changes to other scopes. -/
theorem leave {parent : ScopeId} (h : ChangedOnly (s.size :: ids) (s.addChild parent) t) :
    ChangedOnly ids s (t.release s.size) := by
  have hsize : t.size = s.size + 1 := h.size.trans (size_addChild s parent)
  have hpath : ∀ i, (t.release s.size).path i = s.path i := by
    intro i
    by_cases hi : i < s.size
    · rw [path_of_store (store_release_of_lt hi), h.path i]
      exact path_of_store (store_addChild_of_ne parent (Nat.ne_of_lt hi))
    · have hle : s.size ≤ i := Nat.le_of_not_lt hi
      rw [path_of_size_le hle]
      exact path_of_size_le (by rw [size_release]; omega)
  refine ⟨by rw [size_release]; omega, hpath, fun i hi => ?_⟩
  -- below the released scope nothing but `ids` changed,
  -- and from it on nothing is left on either side
  by_cases hlt : i < s.size
  · have hne : i ≠ s.size := Nat.ne_of_lt hlt
    rw [store_release_of_lt hlt, h.store i (by simp [hne, hi]), store_addChild_of_ne parent hne]
  · have hle : s.size ≤ i := Nat.le_of_not_lt hlt
    rw [store_release_of_le hle, Array.getElem?_eq_none hle]

end ChangedOnly

/-! ## Where assignment may write -/

/-- The scopes that an assignment in `id` may write to: the scope itself and those around it, the
root excepted. -/
def writable (s : Scopes) (id : ScopeId) : List ScopeId := id :: (s.path id).dropLast

theorem ChangedOnly.writable (h : ChangedOnly ids s t) (id : ScopeId) :
    t.writable id = s.writable id := by
  unfold Scopes.writable
  rw [h.path id]

/-- **An assignment writes only where it may.** -/
theorem assign_changedOnly (s : Scopes) (id : ScopeId) (name : String) (value : Value) :
    ChangedOnly (s.writable id) s (s.assign id name value) := by
  have hpath : (s.path id).dropLast ⊆ s.writable id := List.subset_cons_self id _
  exact (ChangedOnly.overwrite hpath s name value).trans
    (ChangedOnly.define List.mem_cons_self _ name _)

/-- In a new scope below `id` assignment may write to that scope and to what it may write to in
`id`, where the root is no longer among them. -/
theorem writable_addChild (s : Scopes) (id : ScopeId) :
    (s.addChild id).writable s.size = s.size :: (s.chain id).dropLast := by
  unfold writable
  rw [path_addChild_self]

/-- Assignment may write to all of a chain but its root. -/
theorem chain_dropLast_subset (s : Scopes) (id : ScopeId) :
    (s.chain id).dropLast ⊆ s.writable id := by
  unfold chain writable
  cases s.path id with
  | nil => exact List.nil_subset _
  | cons next rest => exact List.Subset.refl _

/-! ## The global scope -/

/-- The global scope exists and has no scope around it. -/
structure Rooted (s : Scopes) : Prop where
  exists_global : Machine.global < s.size
  path_global : s.path Machine.global = []

namespace Rooted

/-- Changes of bindings leave the global scope a root. -/
theorem changed (hs : s.Rooted) (h : ChangedOnly ids s t) : t.Rooted :=
  ⟨h.size ▸ hs.exists_global, (h.path _).trans hs.path_global⟩

theorem define (hs : s.Rooted) (id : ScopeId) (name : String) (binding : Binding) :
    (s.define id name binding).Rooted :=
  hs.changed (ChangedOnly.define (List.mem_singleton_self id) s name binding)

/-- So does a new scope. -/
theorem addChild (hs : s.Rooted) (parent : ScopeId) : (s.addChild parent).Rooted where
  exists_global := by
    rw [size_addChild]
    exact Nat.lt_succ_of_lt hs.exists_global
  path_global := by
    rw [← hs.path_global]
    exact path_of_store (store_addChild_of_ne parent (Nat.ne_of_lt hs.exists_global))

theorem chain_global (hs : s.Rooted) : s.chain Machine.global = [Machine.global] := by
  unfold chain
  rw [hs.path_global]

theorem global_suffix (hs : s.Rooted) : [Machine.global] <:+ s.chain Machine.global :=
  ⟨[], hs.chain_global.symm⟩

/-- The scope of a call is the only one that its body may write to. -/
theorem writable_call (hs : s.Rooted) :
    (s.addChild Machine.global).writable s.size = [s.size] := by
  rw [writable_addChild, hs.chain_global]
  rfl

/-- In the global scope assignment is definition. -/
theorem assign_global (hs : s.Rooted) (name : String) (value : Value) :
    s.assign Machine.global name value = s.define Machine.global name (.value value) := by
  unfold assign
  rw [hs.path_global]
  rfl

/-- In the global scope, only that may be written to. -/
theorem writable_global (hs : s.Rooted) : s.writable Machine.global = [Machine.global] := by
  unfold writable
  rw [hs.path_global]
  rfl

end Rooted

/-! ## Chains -/

section

variable {s' : Scopes} {a p : ScopeId}

/-- The chain of a scope consists of different scopes of the store, and goes out to the global
one. -/
structure Chained (s : Scopes) (id : ScopeId) : Prop where
  rooted : s.Rooted
  bounded : ∀ i ∈ s.chain id, i < s.size
  nodup : (s.chain id).Nodup
  global : [Machine.global] <:+ s.chain id

namespace Chained

theorem not_mem_path (h : s.Chained a) : a ∉ s.path a := (List.nodup_cons.mp h.nodup).1

theorem changed {ids : List ScopeId} (h : s.Chained a) (hs : ChangedOnly ids s s') :
    s'.Chained a where
  rooted := h.rooted.changed hs
  bounded := by rw [hs.chain, hs.size]; exact h.bounded
  nodup := by rw [hs.chain]; exact h.nodup
  global := by rw [hs.chain]; exact h.global

/-- A scope that is added below one of the chain. -/
theorem addChild (h : s.Chained a) (hp : s.chain p <:+ s.chain a)
    (hglobal : [Machine.global] <:+ s.chain p) :
    (s.addChild p).Chained s.size := by
  have hold : ∀ i ∈ s.chain p, i < s.size := fun i hi => h.bounded i (hp.subset hi)
  have hchain := chain_addChild_self s p
  refine ⟨h.rooted.addChild p, ?_, ?_, ?_⟩
  · rw [hchain, size_addChild]
    intro i hi
    rcases List.mem_cons.mp hi with rfl | hi
    · exact Nat.lt_succ_self _
    · exact Nat.lt_succ_of_lt (hold i hi)
  · rw [hchain]
    exact List.nodup_cons.mpr ⟨fun hmem => Nat.lt_irrefl _ (hold _ hmem), hp.sublist.nodup h.nodup⟩
  · rw [hchain]
    exact hglobal.trans (List.suffix_cons _ _)

/-- A scope that is opened for a block. -/
theorem addBlock (h : s.Chained a) : (s.addChild a).Chained s.size :=
  h.addChild (List.suffix_refl _) h.global

/-- The chain of the global scope is the end of every other. -/
theorem global_suffix (h : s.Chained a) : s.chain Machine.global <:+ s.chain a := by
  rw [h.rooted.chain_global]
  exact h.global

/-- A scope that is opened for a call. -/
theorem addCall (h : s.Chained a) : (s.addChild Machine.global).Chained s.size :=
  h.addChild h.global_suffix h.rooted.global_suffix

end Chained

/-- The chain of the global scope is that scope alone. -/
theorem chained_global (hs : s.Rooted) : s.Chained Machine.global := by
  have hchain := hs.chain_global
  refine ⟨hs, ?_, ?_, hs.global_suffix⟩
  · rw [hchain]
    intro i hi
    rw [List.mem_singleton.mp hi]
    exact hs.exists_global
  · rw [hchain]
    exact List.nodup_cons.mpr ⟨List.not_mem_nil, List.nodup_nil⟩

end

/-! ## The fresh store -/

theorem install_changedOnly (s : Scopes) (id : ScopeId) : ChangedOnly [id] s (s.install id) := by
  unfold install
  induction Builtin.all generalizing s with
  | nil => exact ChangedOnly.refl _ s
  | cons b rest ih =>
      rw [List.foldl_cons]
      exact (ChangedOnly.define List.mem_cons_self s b.name (.builtin b)).trans (ih _)

/-- A fresh machine has its global scope. -/
theorem rooted_fresh : Machine.fresh.scopes.Rooted := by
  have hroot : empty.addRoot.Rooted := ⟨Nat.zero_lt_one, rfl⟩
  exact hroot.changed (install_changedOnly _ _)

end Scopes

end Pseudocode
