import Mathlib
import Pseudocode.Proofs.Moved
import Pseudocode.Proofs.Printing
import Pseudocode.Proofs.Session
import Pseudocode.Proofs.Shortest

/-!
# Displayed lists read back

The text of a list looks like the expression for it, but texts are put between quotes as they are,
and a quote inside one would end it too early. That this never happens is a property of runs, not
of values: a literal has no quote inside, texts are made from literals by putting one behind the
other only, and so no text that a run can come by has one (`unquoted_of_run`).

Given that, the text of an item is cut into the tokens of an expression whose value is the item
again (`Denotes`). What follows an item in a list is a comma or a bracket, and neither goes on a
word or a number. A negative number is read as a sign before its absolute value. This sign is a
level of nesting of its own, so the text of a list nests one level deeper than the list at most.
-/

namespace Pseudocode

open Grammar
open Lexer (LongestMatch Takes)
open Text (isWordPart isWordStart byteLength)

/-! ## Leaves -/

namespace Value

mutual

/-- The values that are no lists, at every depth. -/
def leaves : Value → List Value
  | list items => leavesAll items
  | leaf => [leaf]

/-- The leaves of several values. -/
def leavesAll : List Value → List Value
  | [] => []
  | item :: rest => item.leaves ++ leavesAll rest

end

mutual

/-- How deep lists are nested. -/
def nesting : Value → Nat
  | list items => nestingAll items + 1
  | _ => 0

/-- How deep the deepest of several values is nested. -/
def nestingAll : List Value → Nat
  | [] => 0
  | item :: rest => max item.nesting (nestingAll rest)

end

/-- A leaf that can be read from its text. -/
def Legible : Value → Prop
  | number x => x.isFinite = true
  | text s => '"' ∉ s.toList
  | boolean _ => True
  | list _ => True
  | null => False

theorem mem_leavesAll {leaf : Value} {items : List Value} :
    leaf ∈ leavesAll items ↔ ∃ item ∈ items, leaf ∈ item.leaves := by
  induction items with
  | nil => simp [leavesAll]
  | cons item rest ih => simp [leavesAll, ih]

mutual

/-- Only not-a-number is unequal to itself. -/
theorem equals_self : ∀ v : Value, (∀ leaf ∈ v.leaves, leaf.Legible) → v.equals v = true
  | number x, h => by
      have hfinite : x.isFinite = true := h _ (List.mem_singleton.mpr rfl)
      rw [equals, Float.beq_self_iff]
      rintro rfl
      exact absurd hfinite (by decide)
  | text s, _ => by rw [equals, beq_self_eq_true]
  | boolean b, _ => by rw [equals, beq_self_eq_true]
  | list items, h => by
      rw [equals]
      exact equalItems_self items h
  | null, _ => rfl

/-- The same for items. -/
theorem equalItems_self : ∀ items : List Value, (∀ leaf ∈ leavesAll items, leaf.Legible) →
    equalItems items items = true
  | [], _ => rfl
  | item :: rest, h => by
      rw [leavesAll, List.forall_mem_append] at h
      rw [equalItems, equals_self item h.1, equalItems_self rest h.2]
      rfl

end

/-! ## The text of an item -/

/-- An item as it stands in the text of a list. -/
def itemText : Value → String
  | text s => "\"" ++ s ++ "\""
  | item => item.render

/-- Each item is written by itself. -/
theorem renderItems_eq_map (items : List Value) : renderItems items = items.map itemText := by
  induction items with
  | nil => rfl
  | cons item rest ih => cases item <;> rw [renderItems, ih] <;> first | rfl | exact nofun

/-- The items with commas between them. -/
def itemsText (items : List Value) : List Char :=
  (String.intercalate ", " (items.map itemText)).toList

theorem itemsText_singleton (item : Value) : itemsText [item] = (itemText item).toList := by
  simp [itemsText]

theorem itemsText_cons (item next : Value) (rest : List Value) :
    itemsText (item :: next :: rest) =
      (itemText item).toList ++ ',' :: ' ' :: itemsText (next :: rest) := by
  simp [itemsText, String.toList_intercalate, List.intercalate]

/-- The text of a list, as characters. -/
theorem toList_render_list (items : List Value) :
    (list items).render.toList = '[' :: (itemsText items ++ [']']) := by
  rw [render, renderItems_eq_map]
  simp [itemsText]

end Value

/-! ## No text has a quote in it -/

/-- Runs whose texts have no quotes in them. -/
def Tolerance.unquoted : Tolerance where
  errors _ _ := True
  procedures _ _ := True
  values v := ∀ s, .text s ∈ v.leaves → '"' ∉ s.toList
  number _ := by simp [Value.leaves]
  boolean _ := by simp [Value.leaves]
  null := by simp [Value.leaves]
  append s t hs ht := by
    simp only [Value.leaves, List.mem_singleton, Value.text.injEq, forall_eq, String.toList_append,
      List.mem_append] at hs ht ⊢
    exact fun h => h.elim hs ht
  list items := by
    simp only [Value.leaves, Value.mem_leavesAll]
    exact ⟨fun h v hv s hs => h s ⟨v, hv, hs⟩, fun h s ⟨v, hv, hs⟩ => h v hv s hs⟩

/-- A text literal without its quotes. -/
theorem unquote_eq {text : String} {inner : List Char}
    (h : text.toList = '"' :: (inner ++ ['"'])) :
    unquote text = String.ofList inner := by
  unfold unquote
  rw [h]
  simp

/-- The value of a literal has no quote in it. -/
theorem Token.Literal.unquoted {t : Token} {v : Value} (h : t.Literal)
    (hvalue : literalValue t = .ok v) :
    Tolerance.unquoted.values v := by
  unfold literalValue at hvalue
  cases h with
  | number hkind hnumber =>
      obtain ⟨x, hx⟩ := Number.exists_read hnumber
      rw [hkind, hx] at hvalue
      exact Except.ok.inj hvalue ▸ Tolerance.unquoted.number x
  | text hkind htext hquote =>
      rw [hkind] at hvalue
      rw [← Except.ok.inj hvalue, unquote_eq htext]
      intro s hs
      obtain rfl : s = String.ofList _ := by simpa [Value.leaves] using hs
      rwa [String.toList_ofList]
  | truth hkind _ =>
      rw [hkind] at hvalue
      exact Except.ok.inj hvalue ▸ Tolerance.unquoted.boolean _

/-- No run returns a value with a quote in one of its texts. -/
theorem unquoted_of_run {fuel : Nat} {source : String} {v : Value}
    (h : (run fuel source).result = .ok (some v)) :
    ∀ s, .text s ∈ v.leaves → '"' ∉ s.toList := by
  unfold run at h
  cases hparse : parseSource source with
  | error halt =>
      rw [hparse] at h
      exact nomatch h
  | ok program =>
      rw [hparse, runParsed, EvalM.outcome_eq] at h
      have hlike : Block.Like Tolerance.unquoted program program :=
        Block.like_self (fun _ _ => trivial) (fun _ _ => trivial)
          fun t v ht hvalue => (literal_of_parseSource hparse ht).unquoted hvalue
      exact (executeProgram_like fuel hlike (Machine.linked_fresh _)).2.2 v h

/-! ## Items are expressions -/

namespace Lexer

/-- In the text of a list an item is followed by a comma or a bracket, or else the text is over. -/
def Closes (rest : List Char) : Prop := ∀ c ∈ rest.head?, c = ',' ∨ c = ']'

theorem Closes.isWordPart {rest : List Char} (h : Closes rest) :
    ∀ c ∈ rest.head?, isWordPart c = false ∧ c ≠ '.' := by
  intro c hc
  rcases h c hc with rfl | rfl <;> decide

/-- No symbol begins with the character but the character itself. -/
def standsAlone (c : Char) : Bool :=
  operators.all fun entry => entry.1.toList.head? != some c || entry.1.toList.length == 1

/-- Such a symbol is taken whatever follows. -/
theorem takes_alone {c : Char} {kind : Kind} (hmem : (String.ofList [c], kind) ∈ operators)
    (halone : standsAlone c = true) (rest : List Char) : Takes kind [c] rest := by
  refine .symbol (startsSymbol_of_mem hmem)
    ⟨⟨kind, hmem⟩, fun other hother hsymbol => ?_⟩ hmem (by simp)
  obtain ⟨otherKind, hmem'⟩ := hsymbol
  have hentry := List.all_eq_true.mp halone _ hmem'
  cases other with
  | nil => exact Nat.zero_le _
  | cons d tail =>
      obtain ⟨rfl, -⟩ := List.cons_prefix_cons.mp hother
      simpa using hentry

theorem longestMatch_take {kind : Kind} {text rest : List Char} {offset : Nat} {ts : List Token}
    (htakes : Takes kind text rest) (h : LongestMatch (offset + byteLength text) rest (.ok ts)) :
    LongestMatch offset (text ++ rest)
      (.ok (⟨String.ofList text, kind, offset + byteLength text⟩ :: ts)) :=
  .take htakes h

theorem longestMatch_symbol {c : Char} {kind : Kind} (hmem : (String.ofList [c], kind) ∈ operators)
    (halone : standsAlone c = true) {offset : Nat} {rest : List Char} {ts : List Token}
    (h : LongestMatch (offset + byteLength [c]) rest (.ok ts)) :
    LongestMatch offset (c :: rest)
      (.ok (⟨String.ofList [c], kind, offset + byteLength [c]⟩ :: ts)) :=
  longestMatch_take (takes_alone hmem halone rest) h

/-- The text from byte `offset` to byte `stop` is cut into the tokens, whatever follows it in a
list. -/
structure CutsInto (offset stop : Nat) (text : List Char) (ws : List Token) : Prop where
  cut : ∀ {rest : List Char} {ts : List Token}, Closes rest → LongestMatch stop rest (.ok ts) →
    LongestMatch offset (text ++ rest) (.ok (ws ++ ts))
  significant : ∀ t ∈ ws, t.kind.isInsignificant = false

/-- A single token. -/
theorem CutsInto.token {kind : Kind} {text : List Char}
    (h : ∀ rest, Closes rest → Takes kind text rest) (hkind : kind.isInsignificant = false)
    (offset : Nat) :
    CutsInto offset (offset + byteLength text) text
      [⟨String.ofList text, kind, offset + byteLength text⟩] where
  cut hrest hmatch := longestMatch_take (h _ hrest) hmatch
  significant := List.forall_mem_singleton.mpr hkind

end Lexer

open Lexer (CutsInto Closes)

/-- The text from byte `offset` to byte `stop` of a source is an expression for the value. -/
structure Denotes (offset stop : Nat) (text : List Char) (ws : List Token) (e : Expr)
    (v : Value) : Prop where
  cuts : CutsInto offset stop text ws
  expression : Expression ws e
  depth : e.depth ≤ v.nesting + 1
  value : ∀ c scope m, evaluate c scope e m = .ok v m

/-- The same of items with commas between them. -/
structure DenotesAll (offset stop : Nat) (text : List Char) (ws : List Token) (es : List Expr)
    (vs : List Value) : Prop where
  cuts : CutsInto offset stop text ws
  items : Items ws es
  depth : Expr.depthAll es ≤ Value.nestingAll vs + 2
  values : ∀ c scope m, evaluateAll c scope es m = .ok vs m

/-- Wherever the text stands, it is an expression for the value. -/
def Expresses (text : String) (v : Value) : Prop :=
  ∀ offset, ∃ stop ws e, Denotes offset stop text.toList ws e v

/-- A literal, wherever its text stands. -/
theorem exists_literal {kind : Kind} {text : String} {v : Value}
    (hkind : kind = .number ∨ kind = .text ∨ kind = .truth)
    (htakes : ∀ rest, Closes rest → Takes kind text.toList rest)
    (hvalue : ∀ stop, literalValue ⟨text, kind, stop⟩ = .ok v) (offset : Nat) :
    ∃ stop t, Denotes offset stop text.toList [t] (.literal t) v := by
  have hsignificant : kind.isInsignificant = false := by rcases hkind with rfl | rfl | rfl <;> rfl
  refine ⟨_, _, .token htakes hsignificant offset, .primary (.literal hkind), Nat.zero_le _,
    fun c scope m => ?_⟩
  rw [evaluate, String.ofList_toList, hvalue]
  rfl

/-- A text without quotes, between quotes. -/
theorem expresses_text {s : String} (h : '"' ∉ s.toList) :
    Expresses (Value.text s).itemText (.text s) := by
  have htext : (Value.text s).itemText.toList = '"' :: (s.toList ++ ['"']) := by
    simp [Value.itemText]
  intro offset
  obtain ⟨stop, t, ht⟩ := exists_literal (.inr (.inl rfl)) (fun rest _ => htext ▸ .text h)
    (fun _ => congrArg (fun t => Except.ok (Value.text t))
      ((unquote_eq htext).trans String.ofList_toList)) offset
  exact ⟨_, _, _, ht⟩

theorem expresses_boolean (b : Bool) : Expresses (Value.boolean b).itemText (.boolean b) := by
  intro offset
  have htakes : ∀ rest, Closes rest → Takes .truth (Value.boolean b).itemText.toList rest := by
    intro rest hrest
    have hends : ∀ c ∈ rest.head?, isWordPart c = false := fun c hc => (hrest.isWordPart c hc).1
    cases b with
    | true =>
        show Takes .truth ['t', 'r', 'u', 'e'] rest
        exact Lexer.takes_word (by decide) (List.all_eq_true.mp rfl) rfl hends
    | false =>
        show Takes .truth ['f', 'a', 'l', 's', 'e'] rest
        exact Lexer.takes_word (by decide) (List.all_eq_true.mp rfl) rfl hends
  have hvalue : ∀ stop, literalValue ⟨(Value.boolean b).itemText, .truth, stop⟩ =
      .ok (.boolean b) := by
    cases b <;> exact fun _ => rfl
  obtain ⟨stop, t, ht⟩ := exists_literal (.inr (.inr rfl)) htakes hvalue offset
  exact ⟨_, _, _, ht⟩

/-- A negative number is a sign before its absolute value. -/
theorem expresses_number {x : Float} (h : x.isFinite = true) :
    Expresses (Value.number x).itemText (.number x) := by
  obtain ⟨negative, mantissa, exponent, hx, habs, hsign⟩ := Number.exists_finite h
  obtain ⟨hnumber, hread⟩ := Number.read_render habs
  have hmagnitude : ∀ offset, ∃ stop t,
      Denotes offset stop (Number.render x.abs).toList [t] (.literal t) (.number x.abs) := by
    refine exists_literal (.inl rfl) (fun rest hrest =>
      Lexer.takes_number hnumber hrest.isWordPart) fun stop => ?_
    unfold literalValue
    dsimp only
    rw [hread]
  have htext : (Value.number x).itemText = Number.render x := rfl
  intro offset
  rw [htext, Number.render_eq hx habs]
  cases negative with
  | false =>
      obtain ⟨stop, t, ht⟩ := hmagnitude offset
      have hsame : Value.number x = .number x.abs := congrArg Value.number hsign
      exact ⟨_, _, _, hsame ▸ ht⟩
  | true =>
      obtain ⟨stop, t, ht⟩ := hmagnitude (offset + byteLength ['-'])
      refine ⟨stop, ⟨"-", .subtract, offset + byteLength ['-']⟩ :: [t], _,
        ⟨fun {rest ts} hrest hmatch => ?_, ?_⟩, .unary (.inl rfl) ht.expression, Nat.le_refl _,
        fun c scope m => ?_⟩
      · rw [if_pos rfl, String.toList_append]
        exact Lexer.longestMatch_symbol (by decide) (by decide) (ht.cuts.cut hrest hmatch)
      · exact List.forall_mem_cons.mpr ⟨rfl, ht.cuts.significant⟩
      · rw [evaluate, EvalM.bind_of_ok (ht.value c scope m)]
        exact congrArg (fun y => EStateM.Result.ok (Value.number y) m) hsign.symm

/-- A list is an expression in brackets. -/
theorem expresses_list {items : List Value}
    (h : ∀ offset, ∃ stop ws es, DenotesAll offset stop (Value.itemsText items) ws es items) :
    Expresses (Value.list items).itemText (.list items) := by
  have htext : (Value.list items).itemText = (Value.list items).render := rfl
  intro offset
  obtain ⟨stop, ws, es, hitems⟩ := h (offset + byteLength ['['])
  rw [htext, Value.toList_render_list]
  refine ⟨stop + byteLength [']'],
    ⟨"[", .openBracket, offset + byteLength ['[']⟩ ::
    (ws ++ [⟨"]", .closeBracket, stop + byteLength [']']⟩]), _,
    ⟨fun {rest ts} hrest hmatch => ?_, ?_⟩, .primary (.list rfl hitems.items rfl), ?_,
    fun c scope m => ?_⟩
  · rw [List.cons_append, List.cons_append, List.append_assoc, List.append_assoc]
    refine Lexer.longestMatch_symbol (by decide) (by decide)
      (hitems.cuts.cut (fun c hc => .inr (Option.some.inj hc).symm) ?_)
    exact Lexer.longestMatch_symbol (by decide) (by decide) hmatch
  · rw [List.forall_mem_cons, List.forall_mem_append, List.forall_mem_singleton]
    exact ⟨rfl, hitems.cuts.significant, rfl⟩
  · exact hitems.depth
  · rw [evaluate, EvalM.bind_of_ok (hitems.values c scope m)]
    rfl

theorem exists_denotesAll_nil (offset : Nat) :
    ∃ stop ws es, DenotesAll offset stop (Value.itemsText []) ws es [] :=
  ⟨offset, [], [], ⟨fun _ hmatch => hmatch, List.forall_mem_nil _⟩, .nil, Nat.zero_le _,
    fun _ _ _ => rfl⟩

theorem exists_denotesAll_singleton {item : Value} (h : Expresses item.itemText item)
    (offset : Nat) :
    ∃ stop ws es, DenotesAll offset stop (Value.itemsText [item]) ws es [item] := by
  obtain ⟨stop, ws, e, hitem⟩ := h offset
  rw [Value.itemsText_singleton]
  refine ⟨stop, ws, [e], hitem.cuts, .one hitem.expression, ?_, fun c scope m => ?_⟩
  · have hdepth := hitem.depth
    simp only [Expr.depthAll, Value.nestingAll]
    omega
  · rw [evaluateAll, EvalM.bind_of_ok (hitem.value c scope m)]
    rfl

/-- An item, a comma, and the items behind it. -/
theorem exists_denotesAll_cons {item next : Value} {rest : List Value}
    (h : Expresses item.itemText item)
    (hrest : ∀ offset, ∃ stop ws es,
      DenotesAll offset stop (Value.itemsText (next :: rest)) ws es (next :: rest))
    (offset : Nat) :
    ∃ stop ws es, DenotesAll offset stop (Value.itemsText (item :: next :: rest)) ws es
      (item :: next :: rest) := by
  obtain ⟨comma, ws, e, hitem⟩ := h offset
  obtain ⟨stop, vs, es, hitems⟩ := hrest (comma + byteLength [','] + ' '.utf8Size)
  rw [Value.itemsText_cons]
  refine ⟨stop, ws ++ ⟨",", .comma, comma + byteLength [',']⟩ :: vs, e :: es,
    ⟨fun {after ts} hafter hmatch => ?_, ?_⟩, .cons hitem.expression rfl hitems.items, ?_,
    fun c scope m => ?_⟩
  · rw [List.append_assoc, List.append_assoc]
    refine hitem.cuts.cut (fun c hc => .inl (Option.some.inj hc).symm) ?_
    refine Lexer.longestMatch_symbol (by decide) (by decide) (.skip (by decide) (by decide) ?_)
    exact hitems.cuts.cut hafter hmatch
  · rw [List.forall_mem_append, List.forall_mem_cons]
    exact ⟨hitem.cuts.significant, rfl, hitems.cuts.significant⟩
  · have hfirst := hitem.depth
    have hothers := hitems.depth
    rw [Expr.depthAll, Value.nestingAll]
    omega
  · rw [evaluateAll, EvalM.bind_of_ok (hitem.value c scope m),
      EvalM.bind_of_ok (hitems.values c scope m)]
    rfl

mutual

/-- The text of a value in a list is an expression for the value. -/
theorem expresses_itemText : ∀ v : Value, (∀ leaf ∈ v.leaves, leaf.Legible) →
    Expresses v.itemText v
  | .number _, h => expresses_number (h _ (List.mem_singleton.mpr rfl))
  | .text s, h => expresses_text (h (.text s) (List.mem_singleton.mpr rfl))
  | .boolean b, _ => expresses_boolean b
  | .list items, h => expresses_list (exists_denotesAll items h)
  | .null, h => absurd (h _ (List.mem_singleton.mpr rfl)) id

theorem exists_denotesAll : ∀ items : List Value,
    (∀ leaf ∈ Value.leavesAll items, leaf.Legible) → ∀ offset,
    ∃ stop ws es, DenotesAll offset stop (Value.itemsText items) ws es items
  | [], _ => exists_denotesAll_nil
  | [item], h => by
      rw [Value.leavesAll, List.forall_mem_append] at h
      exact exists_denotesAll_singleton (expresses_itemText item h.1)
  | item :: next :: rest, h => by
      rw [Value.leavesAll, List.forall_mem_append] at h
      exact exists_denotesAll_cons (expresses_itemText item h.1)
        (exists_denotesAll (next :: rest) h.2)

end

/-! ## Running what is displayed -/

namespace Expresses

variable {text : String} {v : Value}

/-- Behind a `RETURN`, the text is read as an expression for the value. -/
theorem parseSource_returns (h : Expresses text v) (hnesting : v.nesting ≤ 1998) :
    ∃ e, parseSource ("RETURN " ++ text) = .ok [.returns e] ∧ ∀ c scope m,
      evaluate c scope e m = .ok v m := by
  obtain ⟨stop, ws, e, hdenotes⟩ :=
    h (0 + byteLength ['R', 'E', 'T', 'U', 'R', 'N'] + ' '.utf8Size)
  have hlist :=
    hdenotes.cuts.cut (fun c hc => absurd hc (by simp)) (.done : LongestMatch stop [] _)
  rw [List.append_nil] at hlist
  have hword : Takes .returnWord ['R', 'E', 'T', 'U', 'R', 'N'] (' ' :: text.toList) :=
    Lexer.takes_word (by decide) (List.all_eq_true.mp rfl) rfl
      fun c hc => Option.some.inj hc ▸ by decide
  have hlex : lex ("RETURN " ++ text) =
      .ok (⟨"RETURN", .returnWord, 6⟩ :: ws ++ [⟨"", .newline, stop⟩] ++ [Token.endAt stop]) := by
    refine lex_eq_of_longestMatch ?_
    rw [String.toList_append, List.append_assoc]
    exact Lexer.longestMatch_take hword (.skip (by decide) (by decide) hlist)
  have hsignificant : significant (⟨"RETURN", .returnWord, 6⟩ :: ws ++ [⟨"", .newline, stop⟩])
      = ⟨"RETURN", .returnWord, 6⟩ :: ws := by
    have hws : ws.filter (fun t => !t.kind.isInsignificant) = ws :=
      List.filter_eq_self.mpr fun t ht => by rw [hdenotes.cuts.significant t ht]; rfl
    unfold significant
    rw [List.filter_append, List.filter_cons_of_pos rfl, hws]
    exact List.append_nil _
  refine ⟨e, parseSource_of_grammar hlex rfl ?_ ?_, hdenotes.value⟩
  · rw [hsignificant, ← List.append_nil (_ :: ws)]
    exact .cons (.returns rfl hdenotes.expression) .nil
  · have hdepth := hdenotes.depth
    rw [Block.depth, Stmt.depth, Block.depth, nestingLimit]
    omega

/-- A program that returns the expression ends with its value, and displays nothing. -/
theorem run_returns (h : Expresses text v) (hnesting : v.nesting ≤ 1998) (fuel : Nat) :
    run fuel ("RETURN " ++ text) = ⟨#[], .ok (some v)⟩ := by
  obtain ⟨e, hparse, hvalue⟩ := h.parseSource_returns hnesting
  have hexecute : execute (.standard fuel) (.returns e) Machine.global Machine.fresh =
      .ok (.returned v) Machine.fresh := by
    rw [execute, EvalM.bind_of_ok (hvalue _ _ _)]
    rfl
  rw [run, hparse, runParsed, EvalM.outcome, executeProgram_cons, hexecute]
  rfl

end Expresses

/--
**Displayed lists read back.**

Let a run of any source return a list. If at every depth of it there is neither null nor a number
that is not finite, and its lists are nested at most 1998 deep, then the program that returns what
the list is displayed as returns this list again, which is equal to the first one as values of the
language are, and displays nothing.
-/
theorem run_returns_render {fuel : Nat} {source : String} {items : List Value}
    (hrun : (run fuel source).result = .ok (some (.list items)))
    (hnull : .null ∉ (Value.list items).leaves)
    (hfinite : ∀ x, .number x ∈ (Value.list items).leaves → x.isFinite = true)
    (hnesting : (Value.list items).nesting ≤ 1998) (fuel' : Nat) :
    run fuel' ("RETURN " ++ (Value.list items).render) = ⟨#[], .ok (some (.list items))⟩
      ∧ (Value.list items).equals (.list items) = true := by
  have hlegible : ∀ leaf ∈ (Value.list items).leaves, leaf.Legible := by
    intro leaf hleaf
    cases leaf with
    | number x => exact hfinite x hleaf
    | text s => exact unquoted_of_run hrun s hleaf
    | boolean b => trivial
    | list items => trivial
    | null => exact hnull hleaf
  exact ⟨(expresses_itemText _ hlegible).run_returns hnesting fuel', Value.equals_self _ hlegible⟩

/-- The tokens of a list with a sum in it. -/
theorem lex_returns_sum : lex "RETURN[-0.1,[\"a\"+\"b\"]]" =
    .ok ([⟨"RETURN", .returnWord, 6⟩, ⟨"[", .openBracket, 7⟩,
    ⟨"-", .subtract, 8⟩, ⟨"0.1", .number, 11⟩, ⟨",", .comma, 12⟩, ⟨"[", .openBracket, 13⟩,
      ⟨"\"a\"", .text, 16⟩, ⟨"+", .add, 17⟩, ⟨"\"b\"", .text, 20⟩, ⟨"]", .closeBracket, 21⟩,
      ⟨"]", .closeBracket, 22⟩, ⟨"", .newline, 22⟩] ++ [Token.endAt 22]) := by
  have hword : ∀ rest, Takes .returnWord ['R', 'E', 'T', 'U', 'R', 'N'] ('[' :: rest) :=
    fun rest =>
    Lexer.takes_word (by decide) (List.all_eq_true.mp rfl) rfl
      fun c hc => Option.some.inj hc ▸ by decide
  have hnumber : ∀ rest, Takes .number ['0', '.', '1'] (',' :: rest) := fun rest =>
    Lexer.takes_number
      (.point (List.cons_ne_nil '0' []) (List.all_eq_true.mp rfl) (List.all_eq_true.mp rfl))
      fun c hc => Option.some.inj hc ▸ by decide
  have hfirst : ∀ rest, Takes .text ('"' :: (['a'] ++ ['"'])) rest := fun rest => .text (by decide)
  have hsecond : ∀ rest, Takes .text ('"' :: (['b'] ++ ['"'])) rest :=
    fun rest => .text (by decide)
  refine lex_eq_of_longestMatch (Lexer.longestMatch_take (hword _) ?_)
  refine Lexer.longestMatch_symbol (by decide) (by decide)
    (Lexer.longestMatch_symbol (by decide) (by decide) ?_)
  refine Lexer.longestMatch_take (hnumber _) (Lexer.longestMatch_symbol (by decide) (by decide) ?_)
  refine Lexer.longestMatch_symbol (by decide) (by decide) (Lexer.longestMatch_take (hfirst _) ?_)
  refine Lexer.longestMatch_symbol (by decide) (by decide) (Lexer.longestMatch_take (hsecond _) ?_)
  exact Lexer.longestMatch_symbol (by decide) (by decide)
    (Lexer.longestMatch_symbol (by decide) (by decide) .done)

/-- They make a program that returns the list. -/
theorem parseSource_returns_sum :
    parseSource "RETURN[-0.1,[\"a\"+\"b\"]]" = .ok [.returns (.list ⟨"[", .openBracket, 7⟩
      [.unary ⟨"-", .subtract, 8⟩ (.literal ⟨"0.1", .number, 11⟩),
        .list ⟨"[", .openBracket, 13⟩
          [.binary (.literal ⟨"\"a\"", .text, 16⟩) ⟨"+", .add, 17⟩ (.literal ⟨"\"b\"", .text, 20⟩)]
            ⟨"]", .closeBracket, 21⟩]
      ⟨"]", .closeBracket, 22⟩)] := by
  have hsum : Expression ([⟨"\"a\"", .text, 16⟩] ++ ⟨"+", .add, 17⟩ :: [⟨"\"b\"", .text, 20⟩]) _ :=
    .binary (.literal (.inr (.inl rfl))) (by decide) (.primary (.literal (.inr (.inl rfl))))
  have hitems :
      Items ([⟨"-", .subtract, 8⟩, ⟨"0.1", .number, 11⟩]
        ++ ⟨",", .comma, 12⟩ :: ⟨"[", .openBracket, 13⟩ ::
      ([⟨"\"a\"", .text, 16⟩] ++ ⟨"+", .add, 17⟩ :: [⟨"\"b\"", .text, 20⟩]
        ++ [⟨"]", .closeBracket, 21⟩])) _ :=
    .cons (.unary (.inl rfl) (.primary (.literal (.inl rfl)))) rfl
      (.one (.primary (.list rfl (.one hsum) rfl)))
  have hprogram : Statements
      (⟨"RETURN", .returnWord, 6⟩ :: ⟨"[", .openBracket, 7⟩ ::
        (_ ++ [⟨"]", .closeBracket, 22⟩]) ++ []) _ :=
    .cons (.returns rfl (.primary (.list rfl hitems rfl))) .nil
  exact parseSource_of_grammar lex_returns_sum rfl hprogram (by decide)

/-- A negative number, and a text that the run put together in a list of its own. -/
theorem run_returns_render_sum :
    (run 0 "RETURN[-0.1,[\"a\"+\"b\"]]").result =
      .ok (some (.list [.number (-0.1), .list [.text "ab"]]))
      ∧ .null ∉ (Value.list [.number (-0.1), .list [.text "ab"]]).leaves
      ∧ (∀ x, .number x ∈ (Value.list [.number (-0.1), .list [.text "ab"]]).leaves →
        x.isFinite = true)
      ∧ (Value.list [.number (-0.1), .list [.text "ab"]]).nesting ≤ 1998
      ∧ run 7 "RETURN [-0.1, [\"ab\"]]" =
        ⟨#[], .ok (some (.list [.number (-0.1), .list [.text "ab"]]))⟩
      ∧ (Value.list [.number (-0.1), .list [.text "ab"]]).equals
        (.list [.number (-0.1), .list [.text "ab"]]) = true := by
  have hrun : (run 0 "RETURN[-0.1,[\"a\"+\"b\"]]").result =
      .ok (some (.list [.number (-0.1), .list [.text "ab"]])) := by
    rw [run, parseSource_returns_sum]
    rfl
  have hnull : .null ∉ (Value.list [.number (-0.1), .list [.text "ab"]]).leaves := by
    simp [Value.leaves, Value.leavesAll]
  have hfinite : ∀ x, .number x ∈ (Value.list [.number (-0.1), .list [.text "ab"]]).leaves →
      x.isFinite = true := by
    intro x hx
    obtain rfl : x = -0.1 := by simpa [Value.leaves, Value.leavesAll] using hx
    decide
  have hnesting : (Value.list [.number (-0.1), .list [.text "ab"]]).nesting ≤ 1998 := by decide
  have hrender : (Value.list [.number (-0.1), .list [.text "ab"]]).render =
      "[-0.1, [\"ab\"]]" := by decide +kernel
  obtain ⟨hagain, hequals⟩ := run_returns_render hrun hnull hfinite hnesting 7
  rw [hrender] at hagain
  exact ⟨hrun, hnull, hfinite, hnesting, hagain, hequals⟩

end Pseudocode
