import Pseudocode.Builtin
import Pseudocode.Program

/-!
# Scopes

A scope binds names. Scopes form a tree: a name that a scope does not bind is looked for in the
scope around it, and so on out to a root. All scopes live in one store and are known by their index
in it, so that two parts of a program which hold the same index share the scope. Each scope carries
its path, the scopes around it from the nearest to the root.

Scopes are added at the end of the store. A scope that a block needed is released when the block is
done, together with all scopes added after it.
-/

namespace Pseudocode

/-- A procedure of the program. It remembers no scope: its body always runs below the global
one. -/
structure Procedure where
  name : Token
  params : List Token
  body : Block

/-- What a name stands for. -/
inductive Binding where
  | value (v : Value)
  | procedure (p : Procedure)
  | builtin (b : Builtin)

/-- The index of a scope in the store. -/
abbrev ScopeId := Nat

/-- The scopes around a scope, and what it binds itself. -/
structure Scope where
  path : List ScopeId
  bindings : List (String × Binding)

namespace Scope

/-- Binds `name` in a list of bindings, in place of what it stood for before. -/
def bind (name : String) (binding : Binding) : List (String × Binding) → List (String × Binding)
  | [] => [(name, binding)]
  | entry :: rest =>
    if entry.1 == name then (name, binding) :: rest else entry :: bind name binding rest

end Scope

/-- All scopes, in the order in which they were added. -/
structure Scopes where
  store : Array Scope

namespace Scopes

/-- No scopes. -/
def empty : Scopes := ⟨#[]⟩

/-- How many scopes there are, which is the index that the next one gets. -/
def size (s : Scopes) : Nat := s.store.size

/-- The scopes around a scope, nearest first. -/
def path (s : Scopes) (id : ScopeId) : List ScopeId :=
  match s.store[id]? with
  | some scope => scope.path
  | none => []

/-- A scope and those around it, from the inside out. -/
def chain (s : Scopes) (id : ScopeId) : List ScopeId := id :: s.path id

/-- Is there no scope around this one? -/
def isRoot (s : Scopes) (id : ScopeId) : Bool := (s.path id).isEmpty

/-! ## Adding and releasing scopes -/

/-- Adds an empty scope with none around it. -/
def addRoot (s : Scopes) : Scopes := ⟨s.store.push ⟨[], []⟩⟩

/-- Adds an empty scope below `parent`. Its index is the size that the store had before. -/
def addChild (s : Scopes) (parent : ScopeId) : Scopes := ⟨s.store.push ⟨s.chain parent, []⟩⟩

/-- Forgets all scopes from index `size` on. -/
def release (s : Scopes) (size : Nat) : Scopes := ⟨s.store.shrink size⟩

/-! ## Names -/

/-- What a scope itself binds a name to. -/
def getLocal? (s : Scopes) (id : ScopeId) (name : String) : Option Binding :=
  match s.store[id]? with
  | some scope => scope.bindings.lookup name
  | none => none

/-- Does a scope itself bind a name? -/
def bindsLocally (s : Scopes) (id : ScopeId) (name : String) : Bool := (s.getLocal? id name).isSome

/-- The innermost binding of a name, seen from a scope. -/
def get? (s : Scopes) (id : ScopeId) (name : String) : Option Binding :=
  (s.chain id).findSome? fun around => s.getLocal? around name

/-- The binding of a name that the program mentions. -/
def lookup (s : Scopes) (id : ScopeId) (name : Token) : Except Error Binding :=
  match s.get? id name.text with
  | some binding => .ok binding
  | none => .error (.undefinedName name)

/-- Binds a name in one scope. -/
def define (s : Scopes) (id : ScopeId) (name : String) (binding : Binding) : Scopes :=
  ⟨s.store.modify id
    fun scope => { scope with bindings := Scope.bind name binding scope.bindings }⟩

/-- Binds a name in those of the given scopes that bind it already. -/
def overwrite (s : Scopes) (ids : List ScopeId) (name : String) (value : Value) : Scopes :=
  ids.foldl (fun s id => if s.bindsLocally id name then s.define id name (.value value) else s) s

/-- Assignment. Every scope around this one, the root excepted, that binds the name already gets
the value, and this scope gets it in any case. -/
def assign (s : Scopes) (id : ScopeId) (name : String) (value : Value) : Scopes :=
  (s.overwrite (s.path id).dropLast name value).define id name (.value value)

/-- Binds every builtin in a scope. -/
def install (s : Scopes) (id : ScopeId) : Scopes :=
  Builtin.all.foldl (fun s b => s.define id b.name (.builtin b)) s

end Scopes

end Pseudocode
