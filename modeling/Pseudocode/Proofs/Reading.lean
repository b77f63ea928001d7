import Pseudocode.Program.Parser
import Pseudocode.Proofs.Stream

/-!
# Reading a program from a list of tokens

The parser walks a stream with a cursor: it reads ahead, takes steps back, and counts its depth up
and down. The functions of `Reading` read the same language from the list of significant tokens
ahead, where looking at a token and taking it are two different things and nothing has to be put
back. The limit on nesting is a parameter, so that what is said about the language does not depend
on it.

The parser does exactly this (`statements_agree`): the same program, the same error, and a depth
that is back where it was, whichever way it ends. Everything else about the parser is proved on
lists.
-/

namespace Pseudocode

namespace Reading

variable (limit : Nat) (closing : Token)

/-- The next token. Behind the last one stands the closing token. -/
def peek (ts : List Token) : Token := ts.headD closing

/-- Takes the next token, which has to be of the given kind. -/
def take (kind : Kind) (ts : List Token) : Except Halt (Token × List Token) :=
  if (peek closing ts).kind = kind then .ok (peek closing ts, ts.tail)
  else .error (.error (.unexpectedToken (.kind kind) (peek closing ts)))

/-- What `inner` reads one level further down. -/
def nested {α : Type} (span : Span) (inner : Nat → List Token → Except Halt (α × List Token))
    (depth : Nat) (ts : List Token) : Except Halt (α × List Token) :=
  if depth < limit then inner (depth + 1) ts else .error (.error (.nestingTooDeep span))

mutual

/-- A whole expression. -/
def expression : Nat → Nat → List Token → Except Halt (Expr × List Token)
  | 0, _, _ => .error .outOfFuel
  | fuel + 1, depth, ts => nested limit (peek closing ts).span (operand fuel) depth ts

/-- An operand, with all that follows it. -/
def operand : Nat → Nat → List Token → Except Halt (Expr × List Token)
  | 0, _, _ => .error .outOfFuel
  | fuel + 1, depth, ts =>
    match (peek closing ts).kind with
    | .number | .text | .truth => continuation fuel (.literal (peek closing ts)) depth ts.tail
    | .identifier => continuation fuel (.name (peek closing ts)) depth ts.tail
    | .openParen => do
      let (inner, us) ← expression fuel depth ts.tail
      let (_, vs) ← take closing .closeParen us
      continuation fuel (.group inner) depth vs
    | .openBracket => do
      let ((items, closer), us) ← items fuel .closeBracket [] depth ts.tail
      continuation fuel (.list (peek closing ts) items closer) depth us
    | .subtract | .notWord => do
      let (inner, us) ← expression fuel depth ts.tail
      pure (.unary (peek closing ts) inner, us)
    | _ => .error (.error (.expectedExpression (peek closing ts)))

/-- What may follow an operand: a binary operator with its right operand, or the arguments of a
call. -/
def continuation : Nat → Expr → Nat → List Token → Except Halt (Expr × List Token)
  | 0, _, _, _ => .error .outOfFuel
  | fuel + 1, left, depth, ts =>
    if (peek closing ts).kind.isBinaryOperator then do
      let (right, us) ← expression fuel depth ts.tail
      continuation fuel (.binary left (peek closing ts) right) depth us
    else
      match (peek closing ts).kind, left with
      | .openParen, .name callee => do
        let ((arguments, closer), us) ← items fuel .closeParen [] depth ts.tail
        continuation fuel (.call callee arguments closer) depth us
      | _, _ => .ok (left, ts)

/-- Expressions between commas up to the closing token, which is read too. -/
def items : Nat → Kind → List Expr → Nat → List Token →
    Except Halt ((List Expr × Token) × List Token)
  | 0, _, _, _, _ => .error .outOfFuel
  | fuel + 1, closer, found, depth, ts =>
    if (peek closing ts).kind = closer then .ok ((found.reverse, peek closing ts), ts.tail)
    else do
      let (item, us) ← expression fuel depth ts
      if (peek closing us).kind = closer then
        .ok (((item :: found).reverse, peek closing us), us.tail)
      else if (peek closing us).kind = .comma then items fuel closer (item :: found) depth us.tail
      else .error (.error (.unexpectedToken (.kind closer) (peek closing us)))

end

/-- The names between the parentheses of a procedure, up to and including the closing one. -/
def params : Nat → List Token → List Token → Except Halt (List Token × List Token)
  | 0, _, _ => .error .outOfFuel
  | fuel + 1, found, ts =>
    match (peek closing ts).kind with
    | .closeParen => .ok (found.reverse, ts.tail)
    | .identifier =>
      match (peek closing ts.tail).kind with
      | .closeParen => .ok ((peek closing ts :: found).reverse, ts.tail.tail)
      | .comma => params fuel (peek closing ts :: found) ts.tail.tail
      | _ => .error (.error (.unexpectedToken (.kind .closeParen) (peek closing ts.tail)))
    | _ => .error (.error (.unexpectedToken .parameterName (peek closing ts)))

mutual

/-- Statements up to the brace that closes the block, or up to the end of input for the whole
program. -/
def statements : Nat → Bool → List Stmt → Nat → List Token → Except Halt (Block × List Token)
  | 0, _, _, _, _ => .error .outOfFuel
  | fuel + 1, whole, found, depth, ts =>
    if (peek closing ts).kind = .endOfInput then
      if whole then .ok (found.reverse, ts)
        else .error (.error (.unterminatedBlock (peek closing ts)))
    else if (peek closing ts).kind = .closeBrace && !whole then .ok (found.reverse, ts.tail)
    else do
      let (first, us) ← statement fuel depth ts
      statements fuel whole (first :: found) depth us

/-- The statement that starts with the next token. -/
def statement : Nat → Nat → List Token → Except Halt (Stmt × List Token)
  | 0, _, _ => .error .outOfFuel
  | fuel + 1, depth, ts =>
    match (peek closing ts).kind with
    | .procedureWord => do
      let (name, us) ← take closing .identifier ts.tail
      let (_, us) ← take closing .openParen us
      let (params, us) ← params closing fuel [] us
      let (body, us) ← braced fuel depth us
      pure (.procedure name params body, us)
    | .ifWord => conditional fuel depth ts.tail
    | .repeatWord =>
      if (peek closing ts.tail).kind = .untilWord then do
        let (condition, us) ← expression limit closing fuel depth ts.tail.tail
        let (body, us) ← braced fuel depth us
        pure (.repeatUntil condition body, us)
      else do
        let (count, us) ← expression limit closing fuel depth ts.tail
        let (_, us) ← take closing .timesWord us
        let (body, us) ← braced fuel depth us
        pure (.repeatTimes count body, us)
    | .forWord => do
      let (_, us) ← take closing .eachWord ts.tail
      let (item, us) ← take closing .identifier us
      let (_, us) ← take closing .inWord us
      let (list, us) ← expression limit closing fuel depth us
      let (body, us) ← braced fuel depth us
      pure (.forEach item list body, us)
    | .returnWord => do
      let (value, us) ← expression limit closing fuel depth ts.tail
      pure (.returns value, us)
    | .identifier =>
      if (peek closing ts.tail).kind = .assign then do
        let (value, us) ← expression limit closing fuel depth ts.tail.tail
        pure (.assign (peek closing ts) value, us)
      else do
        let (e, us) ← expression limit closing fuel depth ts
        pure (.expression e, us)
    | _ => .error (.error (.invalidStatement (peek closing ts)))

/-- What follows an `IF`. -/
def conditional : Nat → Nat → List Token → Except Halt (Stmt × List Token)
  | 0, _, _ => .error .outOfFuel
  | fuel + 1, depth, ts => do
    let (_, us) ← take closing .openParen ts
    let (condition, us) ← expression limit closing fuel depth us
    let (_, us) ← take closing .closeParen us
    let (thenBlock, us) ← braced fuel depth us
    if (peek closing us).kind = .elseWord then
      if (peek closing us.tail).kind = .ifWord then do
        let (inner, vs) ← nested limit (peek closing us.tail).span
            (conditional fuel) depth us.tail.tail
        pure (.ifThenElse condition thenBlock [inner], vs)
      else do
        let (elseBlock, vs) ← braced fuel depth us.tail
        pure (.ifThenElse condition thenBlock elseBlock, vs)
    else pure (.ifThen condition thenBlock, us)

/-- A block in braces. -/
def braced : Nat → Nat → List Token → Except Halt (Block × List Token)
  | 0, _, _ => .error .outOfFuel
  | fuel + 1, depth, ts => do
    let (opening, us) ← take closing .openBrace ts
    nested limit opening.span (statements fuel false []) depth us

end

end Reading

/-! ## The parser reads what the list says -/

namespace Parser

/-- A parser at nesting level `depth` with the tokens `ts` before it. -/
structure Shows (p : Parser) (depth : Nat) (closing : Token) (ts : List Token) : Prop where
  depth : p.depth = depth
  closing : p.stream.closing = closing
  ahead : p.stream.ahead = ts

/-- A parser ended the way a reading of the list did. Its depth is `depth` also where it failed. -/
def Agrees {α : Type} (depth : Nat) (closing : Token) :
    EStateM.Result Halt Parser α → Except Halt (α × List Token) → Prop
  | .ok a q, .ok (b, ts) => a = b ∧ Shows q depth closing ts
  | .error halt q, .error halt' => halt = halt' ∧ q.depth = depth
  | _, _ => False

variable {α β : Type} {depth : Nat} {closing : Token} {p q : Parser} {ts : List Token}

/-- Where the first parts agree, what follows is compared from where the first parser stands. -/
theorem agrees_bind {m : ParseM α} {f : α → ParseM β} {x : Except Halt (α × List Token)}
    {g : α × List Token → Except Halt (β × List Token)} (hm : Agrees depth closing (m p) x)
    (hf : ∀ a q us, Shows q depth closing us → Agrees depth closing (f a q) (g (a, us))) :
    Agrees depth closing ((m >>= f) p) (x >>= g) := by
  show Agrees depth closing (EStateM.bind m f p) (Except.bind x g)
  unfold EStateM.bind Except.bind
  revert hm
  cases m p with
  | ok a q =>
      cases x with
      | ok y =>
          intro hm
          obtain ⟨rfl, hq⟩ := hm
          exact hf _ q y.2 hq
      | error halt => exact False.elim
  | error halt q =>
      cases x with
      | ok y => exact False.elim
      | error halt' => exact id

/-- Where the parser stands once it has skipped to a significant token, and where it stands behind
that token. -/
theorem Shows.first (hp : Shows p depth closing ts) :
    ∃ first : TokenStream, p.stream.nextSignificant = first.next ∧
      first.current = Reading.peek closing ts
      ∧ Shows { p with stream := first } depth closing ts
      ∧ Shows { p with stream := first.advance } depth closing ts.tail := by
  obtain ⟨hdepth, hclosing, hahead⟩ := hp
  obtain ⟨first, hnext, hkind, hahead', hclosing'⟩ := p.stream.nextSignificant_eq_next
  obtain ⟨hcurrent, htail⟩ := first.step_of_significant hkind
  refine ⟨first, hnext, ?_, ⟨hdepth, ?_, ?_⟩, ⟨hdepth, ?_, ?_⟩⟩
  · rw [hcurrent, hahead', hclosing', hahead, hclosing]
    rfl
  · exact hclosing'.trans hclosing
  · exact hahead'.trans hahead
  · exact hclosing'.trans hclosing
  · exact htail.trans (by rw [hahead', hahead])

/-- Looking ahead shows the head of the list. -/
theorem Shows.peekSignificant (hp : Shows p depth closing ts) :
    p.stream.peekSignificant = Reading.peek closing ts := by
  obtain ⟨first, hnext, hcurrent, -, -⟩ := hp.first
  unfold TokenStream.peekSignificant
  rw [hnext, ← hcurrent]
  rfl

/-- Reading a token takes the head; the step back that may follow is undone by it. -/
theorem agrees_nextSignificant {f : Token → ParseM α} {x : Except Halt (α × List Token)}
    (hp : Shows p depth closing ts)
    (hf : ∀ q r, Shows q depth closing ts.tail → back q = .ok () r → Shows r depth closing ts →
      Agrees depth closing (f (Reading.peek closing ts) q) x) :
    Agrees depth closing ((nextSignificant >>= f) p) x := by
  obtain ⟨first, hnext, hcurrent, hat, hbehind⟩ := hp.first
  have hread :
      nextSignificant p = .ok (Reading.peek closing ts) { p with stream := first.advance } := by
    unfold nextSignificant
    rw [hnext, ← hcurrent]
    rfl
  show Agrees depth closing (EStateM.bind nextSignificant f p) x
  unfold EStateM.bind
  rw [hread]
  exact hf _ { p with stream := first } hbehind rfl hat

theorem agrees_back {f : Unit → ParseM α} {x : Except Halt (α × List Token)}
    (hback : back p = .ok () q) (hf : Agrees depth closing (f () q) x) :
    Agrees depth closing ((back >>= f) p) x := by
  show Agrees depth closing (EStateM.bind back f p) x
  unfold EStateM.bind
  rw [hback]
  exact hf

theorem agrees_peekSignificant {f : Token → ParseM α} {x : Except Halt (α × List Token)}
    (hp : Shows p depth closing ts) (hf : Agrees depth closing (f (Reading.peek closing ts) p) x) :
    Agrees depth closing ((peekSignificant >>= f) p) x := by
  have hread : peekSignificant p = .ok (Reading.peek closing ts) p := by
    unfold peekSignificant
    rw [hp.peekSignificant]
  show Agrees depth closing (EStateM.bind peekSignificant f p) x
  unfold EStateM.bind
  rw [hread]
  exact hf

/-- Jumping to a token shows it, and stays in front of it. -/
theorem agrees_jumpToSignificant {f : Token → ParseM α} {x : Except Halt (α × List Token)}
    (hp : Shows p depth closing ts)
    (hf : ∀ q r, next q = .ok (Reading.peek closing ts) r → back r = .ok () q →
      Shows q depth closing ts → Shows r depth closing ts.tail →
      Agrees depth closing (f (Reading.peek closing ts) q) x) :
    Agrees depth closing ((jumpToSignificant >>= f) p) x := by
  obtain ⟨first, hnext, hcurrent, hat, hbehind⟩ := hp.first
  have hread : jumpToSignificant p = .ok (Reading.peek closing ts) { p with stream := first } := by
    unfold jumpToSignificant
    rw [TokenStream.jumpToSignificant_of_eq_next hnext, ← hcurrent]
  have htake : next { p with stream := first } =
      .ok (Reading.peek closing ts) { p with stream := first.advance } := by
    rw [← hcurrent]
    rfl
  show Agrees depth closing (EStateM.bind jumpToSignificant f p) x
  unfold EStateM.bind
  rw [hread]
  exact hf _ _ htake rfl hat hbehind

theorem agrees_next {f : Token → ParseM α} {t : Token} {x : Except Halt (α × List Token)}
    (hnext : next p = .ok t q) (hf : Agrees depth closing (f t q) x) :
    Agrees depth closing ((next >>= f) p) x := by
  show Agrees depth closing (EStateM.bind next f p) x
  unfold EStateM.bind
  rw [hnext]
  exact hf

/-- A token of a given kind is taken by both or refused by both. -/
theorem agrees_take (kind : Kind) (hp : Shows p depth closing ts) :
    Agrees depth closing (take kind p) (Reading.take closing kind ts) := by
  obtain ⟨first, hnext, hcurrent, -, hbehind⟩ := hp.first
  unfold take TokenStream.take Reading.take
  rw [hnext, ← hcurrent]
  unfold TokenStream.next
  by_cases hk : first.current.kind = kind
  · simp only [if_pos hk]
    exact ⟨rfl, hbehind⟩
  · simp only [if_neg hk]
    exact ⟨rfl, hbehind.depth⟩

/-- A token of the wanted kind is there to be taken. -/
theorem agrees_taken {kind : Kind} {f : Token → ParseM α} {x : Except Halt (α × List Token)}
    (hkind : (Reading.peek closing ts).kind = kind) (hp : Shows p depth closing ts)
    (hf : ∀ q, Shows q depth closing ts.tail →
      Agrees depth closing (f (Reading.peek closing ts) q) x) :
    Agrees depth closing ((take kind >>= f) p) x := by
  obtain ⟨first, hnext, hcurrent, -, hbehind⟩ := hp.first
  have hread : take kind p = .ok (Reading.peek closing ts) { p with stream := first.advance } := by
    unfold take TokenStream.take
    rw [hnext]
    unfold TokenStream.next
    rw [hcurrent]
    simp only [if_pos hkind]
  show Agrees depth closing (EStateM.bind (take kind) f p) x
  unfold EStateM.bind
  rw [hread]
  exact hf _ hbehind

/-- The level is counted up on the way in and down on the way out, also for an error. -/
theorem agrees_nested {span : Span} {inner : ParseM α}
    {inner' : Nat → List Token → Except Halt (α × List Token)} (hp : Shows p depth closing ts)
    (hinner : ∀ q, Shows q (depth + 1) closing ts →
      Agrees (depth + 1) closing (inner q) (inner' (depth + 1) ts)) :
    Agrees depth closing (nested span inner p)
      (Reading.nested nestingLimit span inner' depth ts) := by
  obtain ⟨hdepth, hclosing, hahead⟩ := hp
  subst hdepth
  unfold nested Reading.nested
  by_cases hlimit : p.depth < nestingLimit
  · rw [if_pos hlimit, if_pos hlimit]
    have h := hinner { p with depth := p.depth + 1 } ⟨rfl, hclosing, hahead⟩
    revert h
    cases inner { p with depth := p.depth + 1 } with
    | ok a q =>
        cases inner' (p.depth + 1) ts with
        | ok y =>
            rintro ⟨heq, hq⟩
            exact ⟨heq, by simp only [hq.depth, Nat.add_sub_cancel], hq.closing, hq.ahead⟩
        | error halt => exact False.elim
    | error halt q =>
        cases inner' (p.depth + 1) ts with
        | ok y => exact False.elim
        | error halt' =>
            rintro ⟨heq, hq⟩
            exact ⟨heq, by simp only [hq, Nat.add_sub_cancel]⟩
  · rw [if_neg hlimit, if_neg hlimit]
    exact ⟨rfl, rfl⟩

/-! ## Expressions -/

/-- The four readers of expressions agree with the list, all with the same fuel. -/
structure ExpressionsAgree (closing : Token) (fuel : Nat) : Prop where
  expression : ∀ {depth ts p}, Shows p depth closing ts →
    Agrees depth closing (expression fuel p)
      (Reading.expression nestingLimit closing fuel depth ts)
  operand : ∀ {depth ts p}, Shows p depth closing ts →
    Agrees depth closing (operand fuel p) (Reading.operand nestingLimit closing fuel depth ts)
  continuation : ∀ left {depth ts p}, Shows p depth closing ts →
    Agrees depth closing (continuation fuel left p)
      (Reading.continuation nestingLimit closing fuel left depth ts)
  items : ∀ closer found {depth ts p}, Shows p depth closing ts →
    Agrees depth closing (items fuel closer found p)
      (Reading.items nestingLimit closing fuel closer found depth ts)

/-- The step for operands. The parser takes back what the list only looked at. -/
theorem operand_agrees {fuel : Nat} (ih : ExpressionsAgree closing fuel)
    (hp : Shows p depth closing ts) :
    Agrees depth closing (operand (fuel + 1) p)
      (Reading.operand nestingLimit closing (fuel + 1) depth ts) := by
  rw [operand, Reading.operand]
  refine agrees_nextSignificant hp ?_
  intro q r hq _ _
  cases (Reading.peek closing ts).kind
  case number => exact ih.continuation _ hq
  case text => exact ih.continuation _ hq
  case truth => exact ih.continuation _ hq
  case identifier => exact ih.continuation _ hq
  case openParen =>
    refine agrees_bind (ih.expression hq) ?_
    intro inner q us hq
    refine agrees_bind (agrees_take _ hq) ?_
    intro _ q us hq
    exact ih.continuation _ hq
  case openBracket =>
    refine agrees_bind (ih.items _ _ hq) ?_
    intro found q us hq
    exact ih.continuation _ hq
  case subtract =>
    refine agrees_bind (ih.expression hq) ?_
    intro inner q us hq
    exact ⟨rfl, hq⟩
  case notWord =>
    refine agrees_bind (ih.expression hq) ?_
    intro inner q us hq
    exact ⟨rfl, hq⟩
  all_goals exact ⟨rfl, hq.depth⟩

theorem continuation_agrees {fuel : Nat} (ih : ExpressionsAgree closing fuel) (left : Expr)
    (hp : Shows p depth closing ts) :
    Agrees depth closing (continuation (fuel + 1) left p)
      (Reading.continuation nestingLimit closing (fuel + 1) left depth ts) := by
  unfold continuation Reading.continuation
  refine agrees_nextSignificant hp ?_
  intro q r hq hback hr
  by_cases hbinary : (Reading.peek closing ts).kind.isBinaryOperator = true
  · rw [if_pos hbinary, if_pos hbinary]
    refine agrees_bind (ih.expression hq) ?_
    intro right q us hq
    exact ih.continuation _ hq
  · rw [if_neg hbinary, if_neg hbinary]
    -- only a name with a parenthesis behind it goes on;
    -- every other operand is put before the token again
    cases left
    case name callee =>
      cases (Reading.peek closing ts).kind
      case openParen =>
        refine agrees_bind (ih.items _ _ hq) ?_
        intro found q us hq
        exact ih.continuation _ hq
      all_goals exact agrees_back hback ⟨rfl, hr⟩
    all_goals
      cases (Reading.peek closing ts).kind <;> exact agrees_back hback ⟨rfl, hr⟩

theorem items_agrees {fuel : Nat} (ih : ExpressionsAgree closing fuel) (closer : Kind)
    (found : List Expr) (hp : Shows p depth closing ts) :
    Agrees depth closing (items (fuel + 1) closer found p)
      (Reading.items nestingLimit closing (fuel + 1) closer found depth ts) := by
  rw [items, Reading.items]
  refine agrees_nextSignificant hp ?_
  intro q r hq hback hr
  by_cases hcloser : (Reading.peek closing ts).kind = closer
  · rw [if_pos hcloser, if_pos hcloser]
    exact ⟨rfl, hq⟩
  · rw [if_neg hcloser, if_neg hcloser]
    refine agrees_back hback (agrees_bind (ih.expression hr) ?_)
    intro item q us hq
    refine agrees_nextSignificant hq ?_
    intro q r hq _ _
    dsimp only
    split
    · exact ⟨rfl, hq⟩
    · split
      · exact ih.items _ _ hq
      · exact ⟨rfl, hq.depth⟩

/-- **The parsers of expressions read what the list says**, by induction on the fuel. -/
theorem expressions_agree (closing : Token) (fuel : Nat) : ExpressionsAgree closing fuel := by
  induction fuel with
  | zero =>
      refine ⟨?_, ?_, ?_, ?_⟩
      · intro depth ts p hp
        rw [expression, Reading.expression]
        exact ⟨rfl, hp.depth⟩
      · intro depth ts p hp
        rw [operand, Reading.operand]
        exact ⟨rfl, hp.depth⟩
      · intro left depth ts p hp
        rw [continuation, Reading.continuation]
        exact ⟨rfl, hp.depth⟩
      · intro closer found depth ts p hp
        rw [items, Reading.items]
        exact ⟨rfl, hp.depth⟩
  | succ fuel ih =>
      refine ⟨?_, operand_agrees ih, fun left => continuation_agrees ih left,
        fun closer found => items_agrees ih closer found⟩
      intro depth ts p hp
      rw [expression, Reading.expression]
      exact agrees_peekSignificant hp (agrees_nested hp fun q hq => ih.operand hq)

/-! ## Statements -/

theorem params_agrees (fuel : Nat) : ∀ (found : List Token) {p : Parser} {ts : List Token},
    Shows p depth closing ts →
    Agrees depth closing (params fuel found p) (Reading.params closing fuel found ts) := by
  induction fuel with
  | zero =>
      intro found p ts hp
      exact ⟨rfl, hp.depth⟩
  | succ fuel ih =>
      intro found p ts hp
      rw [params, Reading.params]
      refine agrees_nextSignificant hp ?_
      intro q r hq _ _
      cases (Reading.peek closing ts).kind
      case closeParen => exact ⟨rfl, hq⟩
      case identifier =>
        refine agrees_nextSignificant hq ?_
        intro q r hq _ _
        cases (Reading.peek closing ts.tail).kind
        case closeParen => exact ⟨rfl, hq⟩
        case comma => exact ih _ hq
        all_goals exact ⟨rfl, hq.depth⟩
      all_goals exact ⟨rfl, hq.depth⟩

/-- The four readers of statements agree with the list, all with the same fuel. A statement is read
from behind its first token. -/
structure StatementsAgree (closing : Token) (fuel : Nat) : Prop where
  statements : ∀ whole found {depth ts p}, Shows p depth closing ts →
    Agrees depth closing (statements fuel whole found p)
      (Reading.statements nestingLimit closing fuel whole found depth ts)
  statement : ∀ {depth ts p q}, Shows q depth closing ts → back p = .ok () q →
    Shows p depth closing ts.tail →
    Agrees depth closing (statement fuel (Reading.peek closing ts) p)
      (Reading.statement nestingLimit closing fuel depth ts)
  conditional : ∀ {depth ts p}, Shows p depth closing ts →
    Agrees depth closing (conditional fuel p)
      (Reading.conditional nestingLimit closing fuel depth ts)
  braced : ∀ {depth ts p}, Shows p depth closing ts →
    Agrees depth closing (braced fuel p) (Reading.braced nestingLimit closing fuel depth ts)

theorem statements_agrees {fuel : Nat} (ih : StatementsAgree closing fuel) (whole : Bool)
    (found : List Stmt) (hp : Shows p depth closing ts) :
    Agrees depth closing (statements (fuel + 1) whole found p)
      (Reading.statements nestingLimit closing (fuel + 1) whole found depth ts) := by
  rw [statements, Reading.statements]
  refine agrees_jumpToSignificant hp ?_
  intro q r hnext hback hq hr
  -- the end of a program stays in front of the parser; in a block it is taken, and is an error
  by_cases hend : (Reading.peek closing ts).kind = .endOfInput
  · rw [if_pos hend, if_pos hend]
    cases whole with
    | true => exact ⟨rfl, hq⟩
    | false => exact agrees_next hnext ⟨rfl, hr.depth⟩
  · rw [if_neg hend, if_neg hend]
    refine agrees_next hnext ?_
    split
    · exact ⟨rfl, hr⟩
    · refine agrees_bind (ih.statement hq hback hr) ?_
      intro first q us hq
      exact ih.statements _ _ hq

theorem conditional_agrees {fuel : Nat} (ih : StatementsAgree closing fuel)
    (hp : Shows p depth closing ts) :
    Agrees depth closing (conditional (fuel + 1) p)
      (Reading.conditional nestingLimit closing (fuel + 1) depth ts) := by
  rw [conditional, Reading.conditional]
  refine agrees_bind (agrees_take _ hp) ?_
  intro _ q us hq
  refine agrees_bind ((expressions_agree closing fuel).expression hq) ?_
  intro condition q us hq
  refine agrees_bind (agrees_take _ hq) ?_
  intro _ q us hq
  refine agrees_bind (ih.braced hq) ?_
  intro thenBlock q us hq
  refine agrees_nextSignificant hq ?_
  intro q r hq hback hr
  dsimp only
  split
  · refine agrees_nextSignificant hq ?_
    intro q r hq hback hr
    split
    · refine agrees_bind (agrees_nested hq fun q hq => ih.conditional hq) ?_
      intro inner q us hq
      exact ⟨rfl, hq⟩
    · refine agrees_back hback (agrees_bind (ih.braced hr) ?_)
      intro elseBlock q us hq
      exact ⟨rfl, hq⟩
  · -- without an `ELSE` the token was read too far
    exact agrees_back hback ⟨rfl, hr⟩

/-- The step for statements. The parser has taken the first token already, and takes it back for an
expression. -/
theorem statement_agrees {fuel : Nat} (ih : StatementsAgree closing fuel)
    (hq : Shows q depth closing ts) (hback : back p = .ok () q)
    (hp : Shows p depth closing ts.tail) :
    Agrees depth closing (statement (fuel + 1) (Reading.peek closing ts) p)
      (Reading.statement nestingLimit closing (fuel + 1) depth ts) := by
  have he := expressions_agree closing fuel
  unfold statement Reading.statement
  cases (Reading.peek closing ts).kind
  case procedureWord =>
    refine agrees_bind (agrees_take _ hp) ?_
    intro name q us hq
    refine agrees_bind (agrees_take _ hq) ?_
    intro _ q us hq
    refine agrees_bind (params_agrees fuel [] hq) ?_
    intro params q us hq
    refine agrees_bind (ih.braced hq) ?_
    intro body q us hq
    exact ⟨rfl, hq⟩
  case ifWord => exact ih.conditional hp
  case repeatWord =>
    refine agrees_nextSignificant hp ?_
    intro q r hq hback hr
    dsimp only
    split
    · refine agrees_bind (he.expression hq) ?_
      intro condition q us hq
      refine agrees_bind (ih.braced hq) ?_
      intro body q us hq
      exact ⟨rfl, hq⟩
    · refine agrees_back hback (agrees_bind (he.expression hr) ?_)
      intro count q us hq
      refine agrees_bind (agrees_take _ hq) ?_
      intro _ q us hq
      refine agrees_bind (ih.braced hq) ?_
      intro body q us hq
      exact ⟨rfl, hq⟩
  case forWord =>
    refine agrees_bind (agrees_take _ hp) ?_
    intro _ q us hq
    refine agrees_bind (agrees_take _ hq) ?_
    intro item q us hq
    refine agrees_bind (agrees_take _ hq) ?_
    intro _ q us hq
    refine agrees_bind (he.expression hq) ?_
    intro list q us hq
    refine agrees_bind (ih.braced hq) ?_
    intro body q us hq
    exact ⟨rfl, hq⟩
  case returnWord =>
    refine agrees_bind (he.expression hp) ?_
    intro value q us hq
    exact ⟨rfl, hq⟩
  case identifier =>
    refine agrees_peekSignificant hp ?_
    dsimp only
    split
    · rename_i hassign
      refine agrees_taken hassign hp ?_
      intro q hq
      refine agrees_bind (he.expression hq) ?_
      intro value q us hq
      exact ⟨rfl, hq⟩
    · -- the identifier is put back, and is read again as the start of an expression
      refine agrees_back hback (agrees_bind (he.expression hq) ?_)
      intro e q us hq
      exact ⟨rfl, hq⟩
  all_goals exact ⟨rfl, hp.depth⟩

/-- **The parsers of statements read what the list says**, by induction on the fuel. -/
theorem statements_agree (closing : Token) (fuel : Nat) : StatementsAgree closing fuel := by
  induction fuel with
  | zero =>
      refine ⟨?_, ?_, ?_, ?_⟩
      · intro whole found depth ts p hp
        rw [statements, Reading.statements]
        exact ⟨rfl, hp.depth⟩
      · intro depth ts p q _ _ hp
        rw [statement, Reading.statement]
        exact ⟨rfl, hp.depth⟩
      · intro depth ts p hp
        rw [conditional, Reading.conditional]
        exact ⟨rfl, hp.depth⟩
      · intro depth ts p hp
        rw [braced, Reading.braced]
        exact ⟨rfl, hp.depth⟩
  | succ fuel ih =>
      refine ⟨fun whole found => statements_agrees ih whole found, statement_agrees ih,
        conditional_agrees ih, ?_⟩
      intro depth ts p hp
      rw [braced, Reading.braced]
      refine agrees_bind (agrees_take _ hp) ?_
      intro opening q us hq
      exact agrees_nested hq fun q hq => ih.statements _ _ hq

end Parser

/-! ## Whole inputs -/

/-- At the beginning, all significant tokens are ahead. -/
theorem Parser.shows_ofTokens (body : List Token) {last : Token} (h : last.kind = .endOfInput) :
    Shows (ofTokens (body ++ [last])) 0 last (significant body) :=
  ⟨rfl, TokenStream.closing_ofTokens body h, TokenStream.ahead_ofTokens body h⟩

theorem Parser.fuel_ofTokens (body : List Token) {last : Token} (h : last.kind = .endOfInput) :
    (ofTokens (body ++ [last])).fuel = 4 * (body.length + 1) + 8 := by
  show 4 * (TokenStream.close (body ++ [last]).toArray).size + 8 = _
  rw [TokenStream.close_of_closed body h]
  simp

/-- A parser's answer, its stream forgotten. -/
theorem ParseM.answer_eq {α : Type} {parse : ParseM α} {tokens : List Token} {depth : Nat}
    {closing : Token} {x : Except Halt (α × List Token)}
    (h : Parser.Agrees depth closing (parse (Parser.ofTokens tokens)) x) :
    parse.answer tokens = x.map Prod.fst := by
  unfold ParseM.answer
  revert h
  cases parse (Parser.ofTokens tokens) with
  | ok a q =>
      cases x with
      | ok y =>
          rintro ⟨rfl, -⟩
          rfl
      | error halt => exact False.elim
  | error halt q =>
      cases x with
      | ok y => exact False.elim
      | error halt' =>
          rintro ⟨rfl, -⟩
          rfl

/-- Reading a program from closed tokens is reading it from the significant ones among them. -/
theorem parseTokens_eq_read (body : List Token) {last : Token} (h : last.kind = .endOfInput) :
    parseTokens (body ++ [last]) =
      (Reading.statements nestingLimit last (4 * (body.length + 1) + 8) true [] 0
        (significant body)).map Prod.fst := by
  have hagrees :=
    (Parser.statements_agree last (4 * (body.length + 1) + 8)).statements true []
      (Parser.shows_ofTokens body h)
  rw [← Parser.fuel_ofTokens body h] at hagrees ⊢
  exact ParseM.answer_eq hagrees

end Pseudocode
